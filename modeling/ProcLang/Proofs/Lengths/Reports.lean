import ProcLang.Check.ArrayLengths
import ProcLang.Proofs.Walk.Findings

/-!
# ProcLang.Proofs.Lengths.Reports

**Which arrays may go without a length.** Only the type that a parameter of a routine has itself may
(`ParameterType`). The check of lengths leaves the tree as it is and reports all other arrays without a
length, each one in front of what is reported of its elements (`exists_lengths`).

The visitor tells the types of parameters by its context alone. In a tree a type is the child of one
node only, and so the context that the walk brings along is the right one (`LengthContext`).
-/

namespace ProcLang

open Arena WalkM

variable {a b : Arena} {nodes : List Visit}

/-! ### The types of parameters -/

namespace Arena

/-- A variable is a parameter of a routine of the program. -/
def Parameter (a : Arena) (x : VariableId) : Prop :=
  ∃ r routine, a.Reaches .program (.routine r) ∧ a.get? r = some routine ∧ x ∈ routine.parameters

/-- A type is the one that a parameter has. -/
def ParameterType (a : Arena) (t : TypeId) : Prop :=
  ∃ x parameter, a.Parameter x ∧ a.get? x = some parameter ∧ parameter.declaredType = some t

/-- An array that has no length and needs one. -/
def MissingLength (a : Arena) (v : Visit) (d : Diagnostic) : Prop :=
  ∃ t node element, v = .type t ∧ a.get? t = some node ∧ node.kind = .array none element ∧
    ¬ a.ParameterType t ∧ d = ⟨.arraySizeOmitted, (TypeNode.span node).start⟩

/-- Only types have lengths. -/
theorem not_missingLength {v : Visit} (hv : ∀ t, v ≠ .type t) (d : Diagnostic) :
    ¬ a.MissingLength v d :=
  fun ⟨t, _, _, heq, _⟩ => hv t heq

theorem definite_missingLength (a : Arena) : Definite a.MissingLength := by
  rintro v d d' ⟨t, node, element, rfl, hget, -, -, rfl⟩ ⟨t', node', element', heq, hget', -, -, rfl⟩
  cases heq
  obtain rfl := Option.some.inj (hget.symm.trans hget')
  rfl

section

variable {v : Visit} {x : VariableId} {t : TypeId}

/-- A parameter is the child of its routine. -/
theorem Parameter.exists_child (h : a.Parameter x) :
    ∃ r, a.Reaches .program (.routine r) ∧ .variable x ∈ a.children (.routine r) := by
  obtain ⟨r, routine, hreaches, hget, hmem⟩ := h
  refine ⟨r, hreaches, ?_⟩
  rw [Visit.routine_eq r, children_of_get? hget]
  exact List.mem_append_left _ (List.mem_append_left _ (List.mem_map_of_mem hmem))

/-- The type of a parameter is the child of the parameter. -/
theorem ParameterType.exists_child (h : a.ParameterType t) :
    ∃ x, a.Parameter x ∧ a.Reaches .program (.variable x) ∧ .type t ∈ a.children (.variable x) := by
  obtain ⟨x, parameter, hx, hget, htype⟩ := h
  obtain ⟨r, hreaches, hchild⟩ := hx.exists_child
  refine ⟨x, hx, hreaches.tail hchild, ?_⟩
  rw [Visit.variable_eq x, children_of_get? hget]
  exact List.mem_append_left _ (List.mem_map_of_mem (Option.mem_toList.2 htype))

variable (hforest : a.IsForest nodes) (hreaches : a.Reaches .program v)

include hforest hreaches

theorem not_parameter (hv : ∀ r, v ≠ .routine r) (hchild : .variable x ∈ a.children v) :
    ¬ a.Parameter x := by
  intro h
  obtain ⟨r, hr, hmem⟩ := h.exists_child
  exact hv r (hforest.parent_eq (hforest.mem_of_reaches hreaches) (hforest.mem_of_reaches hr) hchild hmem)

theorem not_parameterType (hv : ∀ x, v ≠ .variable x) (hchild : .type t ∈ a.children v) :
    ¬ a.ParameterType t := by
  intro h
  obtain ⟨x, -, hx, hmem⟩ := h.exists_child
  exact hv x (hforest.parent_eq (hforest.mem_of_reaches hreaches) (hforest.mem_of_reaches hx) hchild hmem)

end

/-! ### Contexts -/

/-- In this context a node is visited: one that allows a type to go without a length at parameters and
their types, and one that does not at all other nodes. In expressions there are no types. -/
def LengthContext (a : Arena) (exempt : Bool) : Visit → Prop
  | .variable x => exempt = true ↔ a.Parameter x
  | .type t => exempt = true ↔ a.ParameterType t
  | .expression _ => True
  | .program | .declaration _ | .routine _ | .typeDecl _ | .body _ | .statement _ => exempt = false

/-- Below all other nodes there are neither parameters nor types of parameters. -/
theorem lengthContext_child (hforest : a.IsForest nodes) {v w : Visit}
    (hreaches : a.Reaches .program v) (hroutine : ∀ r, v ≠ .routine r)
    (hvariable : ∀ x, v ≠ .variable x) (hw : w ∈ a.children v) : a.LengthContext false w := by
  cases w with
  | «variable» x => exact iff_of_false nofun (not_parameter hforest hreaches hroutine hw)
  | type t => exact iff_of_false nofun (not_parameterType hforest hreaches hvariable hw)
  | expression => trivial
  | program | declaration | routine | typeDecl | body | statement => rfl

/-- The declared type of a variable is visited in the context of the variable. -/
theorem lengthContext_variable (hforest : a.IsForest nodes) {x : VariableId} {exempt : Bool} {w : Visit}
    (hreaches : a.Reaches .program (.variable x)) (hhas : a.Has (.variable x))
    (hexempt : a.LengthContext exempt (.variable x)) (hw : w ∈ a.children (.variable x)) :
    a.LengthContext exempt w := by
  obtain ⟨node, hget⟩ := exists_of_has x hhas
  have hmem := hw
  rw [Visit.variable_eq x, children_of_get? hget] at hmem
  rcases List.mem_append.1 hmem with htype | hvalue
  · obtain ⟨t, ht, rfl⟩ := List.mem_map.1 htype
    refine Iff.trans hexempt ⟨fun hx => ⟨x, node, hx, hget, Option.mem_toList.1 ht⟩, fun h => ?_⟩
    obtain ⟨y, hy, hyreaches, hymem⟩ := h.exists_child
    have heq := hforest.parent_eq (hforest.mem_of_reaches hreaches) (hforest.mem_of_reaches hyreaches)
      hw hymem
    cases heq
    exact hy
  · obtain ⟨e, -, rfl⟩ := List.mem_map.1 hvalue
    trivial

end Arena

/-! ### The walk -/

variable {below : Visit → WalkM Bool Unit (Option ExpressionId)} {s : WalkState Unit} {exempt : Bool}
  {I : WalkState Unit → Prop}

/-- Walking on, where nothing is said. -/
theorem visitsIn_quiet {v : Visit}
    (hready : ReadyIn exempt a I (fun v => Finds a a.MissingLength NoFault [v]) below v)
    (hv : v = .program ∨ a.Has v) (htype : ∀ t, v ≠ .type t) :
    VisitsIn exempt I (fun v => Finds a a.MissingLength NoFault [v]) (walkThrough below) v := by
  intro s hs
  obtain ⟨s', hwalk, hs', hturns⟩ := hready.exists_walk hv hs
  exact ⟨s', runs_bind.2 ⟨(), s', hwalk, runs_pure.2 ⟨rfl, rfl⟩⟩, hs',
    .of_children (not_missingLength htype) (fun _ hno => hno) (.of_inTurn hturns)⟩

/-- The parameters of a routine are visited in a context of their own. -/
theorem visitsIn_routine (hforest : a.IsForest nodes) {r : RoutineId}
    (hreaches : a.Reaches .program (.routine r)) (hhas : a.Has (.routine r))
    (hready : ReadyWhere a.LengthContext a I (fun v => Finds a a.MissingLength NoFault [v]) below
      (.routine r)) :
    VisitsIn false I (fun v => Finds a a.MissingLength NoFault [v]) (lengthVisitor below)
      (.routine r) := by
  intro s hs
  obtain ⟨node, hget, hread⟩ := exists_kept_node hready.refined r nofun hhas
  have hchildren : a.children (.routine r) = Node.children .routine node := children_of_get? hget
  have hnodes := fun w hw c => hready.child (w := w) (c := c) hw
  rw [hchildren] at hnodes
  obtain ⟨s₁, hparameters, hs₁, hfirst⟩ := turns_visitEach (c := true) (f := Visit.variable)
    (fun x (hx : x ∈ node.parameters) => hnodes _
      (List.mem_append_left _ (List.mem_append_left _ (List.mem_map_of_mem hx))) true
      (iff_of_true rfl ⟨r, node, hreaches, hget, hx⟩)) hs
  obtain ⟨s₂, hresult, hs₂, hsecond⟩ := turns_visitOptional (c := false) (f := Visit.type)
    (x := node.returnType) (fun w hw => by
      have hmem := List.mem_append_left [Visit.body node.body]
        (List.mem_append_right (node.parameters.map Visit.variable) hw)
      obtain ⟨t, -, rfl⟩ := List.mem_map.1 hw
      refine hnodes _ hmem false (iff_of_false nofun ?_)
      exact not_parameterType hforest hreaches nofun (hchildren ▸ hmem)) hs₁
  obtain ⟨s', hbody, hs', hlast⟩ := turns_visitOnly (c := false)
    (hnodes (.body node.body) (List.mem_append_right _ List.mem_cons_self) false rfl) hs₂
  refine ⟨s', runs_node_bind.2 ⟨node, hread hs, runs_bind.2 ⟨(), s₁, runs_inContext.2 hparameters,
    runs_bind.2 ⟨(), s₂, hresult, runs_bind.2 ⟨(), s', hbody, runs_pure.2 ⟨rfl, rfl⟩⟩⟩⟩⟩, hs', ?_⟩
  refine .of_children (not_missingLength nofun) (fun _ hno => hno) ?_
  rw [hchildren]
  exact .of_inTurn ((hfirst.append hsecond).append hlast)

/-- An array without a length is reported before its elements are visited. -/
theorem visitsIn_type (hI : ∀ {s}, I s → ∀ cause place, I (s.reported cause place)) {t : TypeId}
    (hhas : a.Has (.type t)) (hexempt : a.LengthContext exempt (.type t))
    (hready : ReadyIn false a I (fun v => Finds a a.MissingLength NoFault [v]) below (.type t)) :
    VisitsIn exempt I (fun v => Finds a a.MissingLength NoFault [v]) (lengthVisitor below)
      (.type t) := by
  intro s hs
  obtain ⟨node, hget, hread⟩ := hready.exists_node t nofun hhas
  have hrest : ∀ s, I s → ∃ s' ds, Runs (do
      inContext false (walkType below t)
      return none : WalkM Bool Unit (Option ExpressionId)) exempt s none s' ∧ I s' ∧
        a.Findings a.MissingLength NoFault (a.children (.type t)) ds ∧ Adds ds s s' := by
    intro s hs
    obtain ⟨s', hwalk, hs', hturns⟩ := hready.walkType hhas hs
    obtain ⟨ds, hfindings, hadds⟩ := Finds.of_inTurn hturns
    exact ⟨s', ds, runs_bind.2 ⟨(), s', runs_inContext.2 hwalk, runs_pure.2 ⟨rfl, rfl⟩⟩, hs', hfindings,
      hadds⟩
  by_cases hmissing : (∃ element, node.kind = .array none element) ∧ exempt = false
  · obtain ⟨⟨element, hkind⟩, rfl⟩ := hmissing
    have hother : ¬ a.ParameterType t := fun h => nomatch hexempt.2 h
    obtain ⟨s', ds, hrun, hs', hfindings, hadds⟩ :=
      hrest (s.reported .arraySizeOmitted (TypeNode.span node).start) (hI hs _ _)
    refine ⟨s', runs_node_bind.2 ⟨node, hread hs, ?_⟩, hs', _,
      .singleton (.faulty ⟨t, node, element, rfl, hget, hkind, hother, rfl⟩) hfindings (.noFault _), ?_⟩
    · rw [hkind]
      exact hrun
    · rw [List.append_nil]
      exact (Adds.reported s _ _).trans hadds
  · obtain ⟨s', ds, hrun, hs', hfindings, hadds⟩ := hrest s hs
    refine ⟨s', runs_node_bind.2 ⟨node, hread hs, ?_⟩, hs',
      .of_children ?_ (fun _ hno => hno) ⟨ds, hfindings, hadds⟩⟩
    · cases hkind : node.kind with
      | array length element =>
          cases length with
          | none =>
              cases exempt with
              | true => exact hrun
              | false => exact absurd ⟨⟨element, hkind⟩, rfl⟩ hmissing
          | some e => exact hrun
      | named | integer | real | boolean | record => exact hrun
    · rintro d ⟨t', node', element, heq, hget', hkind, hother, -⟩
      cases heq
      obtain rfl := Option.some.inj (hget.symm.trans hget')
      refine hmissing ⟨⟨element, hkind⟩, ?_⟩
      exact Bool.eq_false_iff.2 fun htrue => hother (hexempt.1 htrue)

/-- **The check of lengths goes on at each node**, in the context that is right for it. -/
theorem proceeds_lengths (hforest : a.IsForest nodes) (hb : a.RefinedBy b) :
    ProceedsWhere a.LengthContext a (fun s => s.arena = b)
      (fun v => Finds a a.MissingLength NoFault [v]) lengthVisitor where
  refined hs := hs ▸ hb
  entry n d hvisits c hc := visitsIn_declaration (hvisits c hc)
  layer n v c hok hreaches hv hready := by
    have hother : (∀ r, v ≠ .routine r) → (∀ x, v ≠ .variable x) → ∀ w ∈ a.children v,
        a.LengthContext false w :=
      fun hroutine hvariable w hw => lengthContext_child hforest hreaches hroutine hvariable hw
    cases v with
    | routine r =>
        obtain rfl : c = false := hok
        exact visitsIn_routine hforest hreaches (hv.resolve_left nofun) hready
    | type t =>
        exact visitsIn_type (fun hs _ _ => hs) (hv.resolve_left nofun) hok
          (hready.readyIn (hother nofun nofun))
    | «variable» x =>
        exact visitsIn_quiet (hready.readyIn fun w hw => lengthContext_variable hforest hreaches
          (hv.resolve_left nofun) hok hw) hv nofun
    | expression e =>
        refine visitsIn_quiet (hready.readyIn fun w hw => ?_) hv nofun
        obtain ⟨node, hget⟩ := exists_of_has e (hv.resolve_left nofun)
        rw [Visit.expression_eq e, children_of_get? hget] at hw
        obtain ⟨o, -, rfl⟩ := List.mem_map.1 hw
        trivial
    | program | declaration | typeDecl | body | statement =>
        obtain rfl : c = false := hok
        exact visitsIn_quiet (hready.readyIn (hother nofun nofun)) hv nofun

/-- **The check of lengths comes to its end on a tree**, and leaves it as it is. -/
theorem exists_lengths (hforest : a.IsForest nodes) (hb : a.RefinedBy b) :
    ∃ outcome, arrayLengths.run b = .ok outcome ∧ outcome.arena = b ∧
      a.Findings a.MissingLength NoFault [.program] outcome.diagnostics := by
  obtain ⟨s, hwalk, hs, ds, hfinds, hadds⟩ :=
    (proceeds_lengths hforest hb).exists_walkProgram (c := false) hforest.within rfl b () rfl
  obtain rfl : s.diagnostics.toList = ds := by simpa [Adds] using hadds
  exact ⟨_, run_ofVisitor.2 ⟨s, hwalk, rfl⟩, hs, hfinds⟩

end ProcLang
