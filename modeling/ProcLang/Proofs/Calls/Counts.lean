import ProcLang.Proofs.Passes.Completion

/-!
# ProcLang.Proofs.Calls.Counts

**Calls with a wrong number of arguments.** Of the reports of the check of calls, those of numbers of
arguments are findings in the order of the walk: one behind each call whose routine has another number of
parameters, and none elsewhere (`goesOn_counts`). What is typed in between reports nothing, and what is
compared reports of types alone.
-/

namespace ProcLang

open Arena WalkM

variable {a b : Arena} {nodes : List Visit} {s s₁ s' : WalkState Unit} {c u : Unit}
  {vs ws : List Visit} {ds rest : List Diagnostic}

/-- The cause is a wrong number of arguments. -/
def Cause.isArgumentCount : Cause → Bool
  | invalidArgumentCount _ _ => true
  | _ => false

/-- The reports of numbers of arguments. -/
def argumentCounts (ds : List Diagnostic) : List Diagnostic := ds.filter fun d => d.cause.isArgumentCount

/-- A call has another number of arguments than its routine has parameters. -/
def Arena.WrongCount (a : Arena) (v : Visit) (d : Diagnostic) : Prop :=
  ∃ (e : ExpressionId) (node : Expression) (name : String) (r : RoutineId)
    (arguments : List ExpressionId) (routine : Routine),
    v = .expression e ∧ a.get? e = some node ∧ node.kind = .call name (some r) arguments ∧
    a.get? r = some routine ∧ arguments.length ≠ routine.parameters.length ∧
    d = ⟨.invalidArgumentCount routine.parameters.length arguments.length, node.span.start⟩

/-- Only expressions have arguments. -/
theorem not_wrongCount {v : Visit} (hv : ∀ e, v ≠ .expression e) (d : Diagnostic) :
    ¬ a.WrongCount v d :=
  fun ⟨e, _, _, _, _, _, heq, _⟩ => hv e heq

section

variable {id : ExpressionId} {node : Expression} (hget : a.get? id = some node)

include hget

/-- What is wrong with the call of a routine. -/
theorem wrongCount_iff {name : String} {r : RoutineId} {arguments : List ExpressionId} {routine : Routine}
    (hkind : node.kind = .call name (some r) arguments) (hroutine : a.get? r = some routine) {d : Diagnostic} :
    a.WrongCount (.expression id) d ↔ arguments.length ≠ routine.parameters.length ∧
      d = ⟨.invalidArgumentCount routine.parameters.length arguments.length, node.span.start⟩ := by
  constructor
  · rintro ⟨_, node', name', r', arguments', routine', ⟨⟩, hget', hkind', hroutine', hne, rfl⟩
    obtain rfl := Option.some.inj (hget.symm.trans hget')
    cases hkind.symm.trans hkind'
    obtain rfl := Option.some.inj (hroutine.symm.trans hroutine')
    exact ⟨hne, rfl⟩
  · rintro ⟨hne, rfl⟩
    exact ⟨id, node, name, r, arguments, routine, rfl, hget, hkind, hroutine, hne, rfl⟩

/-- Nothing is wrong with what calls no routine. -/
theorem not_wrongCount_of_kind (hkind : ∀ name r arguments, node.kind ≠ .call name (some r) arguments)
    (d : Diagnostic) : ¬ a.WrongCount (.expression id) d := by
  rintro ⟨_, node', name, r, arguments, routine, ⟨⟩, hget', hkind', -⟩
  obtain rfl := Option.some.inj (hget.symm.trans hget')
  exact hkind name r arguments hkind'

end

/-! ### What is added -/

/-- Between two states reports of numbers of arguments are added, and others that do not count. -/
def AddsCounts (ds : List Diagnostic) (s s' : WalkState Unit) : Prop :=
  argumentCounts s'.diagnostics.toList = argumentCounts s.diagnostics.toList ++ ds

namespace AddsCounts

theorem of_same (h : s'.diagnostics = s.diagnostics) : AddsCounts [] s s' := by
  rw [AddsCounts, h, List.append_nil]

theorem trans (h : AddsCounts ds s s₁) (h' : AddsCounts rest s₁ s') : AddsCounts (ds ++ rest) s s' := by
  rw [AddsCounts, h', h, List.append_assoc]

theorem reported (s : WalkState Unit) (cause : Cause) (place : Position) :
    AddsCounts (argumentCounts [⟨cause, place⟩]) s (s.reported cause place) := by
  rw [AddsCounts, argumentCounts, argumentCounts, argumentCounts, ← List.filter_append]
  exact congrArg _ Array.toList_push

end AddsCounts

/-- Between two states the wrong numbers of arguments at and below some nodes are reported. -/
def FindsCounts (b : Arena) (vs : List Visit) (s s' : WalkState Unit) : Prop :=
  ∃ ds, b.Findings NoFault b.WrongCount vs ds ∧ AddsCounts ds s s'

theorem FindsCounts.of_inTurn (h : InTurn (fun w => FindsCounts b [w]) vs s s') :
    FindsCounts b vs s s' := by
  induction h with
  | nil s => exact ⟨[], .nil, .of_same rfl⟩
  | cons first _ ih =>
      obtain ⟨ds, hfirst, hadds⟩ := first
      obtain ⟨rest, hrest, hadds'⟩ := ih
      exact ⟨ds ++ rest, hfirst.append hrest, hadds.trans hadds'⟩

/-- A node with what is below it, and what is said of it behind that. -/
theorem FindsCounts.node {v : Visit} (hbelow : FindsCounts b (b.children v) s s₁)
    (hreported : Reported b.WrongCount v ds) (hadds : AddsCounts ds s₁ s') : FindsCounts b [v] s s' := by
  obtain ⟨inner, hinner, hadds'⟩ := hbelow
  exact ⟨_, .singleton (.noFault v) hinner hreported, hadds'.trans hadds⟩

/-! ### Single steps -/

section

variable (hforest : b.IsForest nodes)

include hforest

/-- Typing an expression without reports adds none. -/
theorem typeQuietly_diagnostics {id : ExpressionId} (hreaches : b.Reaches .program (.expression id))
    (hs : b.Extends s.arena) (hrun : Runs (typeQuietly id) c s u s') : s'.diagnostics = s.diagnostics := by
  obtain ⟨last, hquiet, -, hsame⟩ :=
    (goesOn_typing_of_coherent false).visit hforest.within hreaches c s hs
  have htyped : Runs (typeQuietly id) c s () last := runs_discard.2 ⟨none, hquiet⟩
  obtain ⟨-, rfl⟩ := htyped.unique hrun
  exact hsame rfl

/-- A comparison reports of types alone. -/
theorem checkArgument_counts {argument : ExpressionId} {parameter : VariableId} {number : Nat}
    (hreaches : b.Reaches .program (.expression argument)) (hs : b.Extends s.arena)
    (hrun : Runs (checkArgument argument parameter number) c s u s') : AddsCounts [] s s' := by
  obtain ⟨_, s₁, htype, hrun⟩ := runs_bind.1 hrun
  have hquiet := AddsCounts.of_same (typeQuietly_diagnostics hforest hreaches hs htype)
  obtain ⟨e, -, hrun⟩ := runs_node_bind.1 hrun
  obtain ⟨v, -, hrun⟩ := runs_node_bind.1 hrun
  split at hrun
  · obtain ⟨same, -, hrun⟩ := runs_inspect_bind.1 hrun
    split at hrun
    · obtain ⟨-, rfl⟩ := runs_pure.1 hrun
      exact hquiet
    · obtain ⟨expected, -, hrun⟩ := runs_inspect_bind.1 hrun
      obtain ⟨received, -, hrun⟩ := runs_inspect_bind.1 hrun
      obtain ⟨_, -, hrun⟩ := runs_node_bind.1 hrun
      obtain rfl := runs_report.1 hrun
      exact hquiet.trans (.reported s₁ _ _)
  · obtain ⟨-, rfl⟩ := runs_pure.1 hrun
    exact hquiet

theorem checkTurns_counts {turns : List ((ExpressionId × VariableId) × Nat)} {u : PUnit}
    (hreaches : ∀ p ∈ turns, b.Reaches .program (.expression p.1.1))
    (hparameters : ∀ p ∈ turns, b.Has (.variable p.1.2)) (hs : b.Extends s.arena)
    (hrun : Runs (turns.forM fun ((argument, parameter), index) =>
      checkArgument argument parameter (index + 1)) c s u s') : AddsCounts [] s s' := by
  induction turns generalizing s with
  | nil =>
      obtain rfl := runs_forM_nil.1 hrun
      exact .of_same rfl
  | cons p rest ih =>
      obtain ⟨s₁, hfirst, hrest⟩ := runs_forM_cons.1 hrun
      obtain ⟨hp, hreaches⟩ := List.forall_mem_cons.1 hreaches
      obtain ⟨hx, hparameters⟩ := List.forall_mem_cons.1 hparameters
      obtain ⟨t, hcheck, ht⟩ := exists_checkArgument (c := c) hforest hp hx (p.2 + 1) hs
      obtain ⟨-, rfl⟩ := hcheck.unique hfirst
      exact (checkArgument_counts hforest hp hs hfirst).trans (ih hreaches hparameters ht hrest)

/-- The arguments of a call are as many as the parameters, or this is reported. -/
theorem checkArguments_counts {id : ExpressionId} {node : Expression} {name : String} {r : RoutineId}
    {arguments : List ExpressionId} {routine : Routine} {place : Position}
    (hreaches : b.Reaches .program (.expression id)) (hget : b.get? id = some node)
    (hkind : node.kind = .call name (some r) arguments) (hroutine : s.arena.get? r = some routine)
    (hs : b.Extends s.arena)
    (hrun : Runs (checkArguments checkArgument arguments routine.parameters place) c s u s') :
    AddsCounts (if arguments.length ≠ routine.parameters.length then
      [⟨.invalidArgumentCount routine.parameters.length arguments.length, place⟩] else []) s s' := by
  unfold checkArguments at hrun
  split at hrun
  · rename_i hlength
    rw [if_neg (not_not.2 hlength.symm)]
    have hoperands : ∀ e ∈ arguments, b.Reaches .program (.expression e) := by
      intro e he
      refine hreaches.tail ?_
      rw [Visit.expression_eq id, children_of_get? hget, Node.children, hkind]
      exact List.mem_map_of_mem he
    have hparameters : ∀ x ∈ routine.parameters, b.Has (.variable x) := fun x hx =>
      hs.refined.has_iff.1 (hs.coherent.closed .routine r routine hroutine _ (List.mem_append_left _
        (List.mem_append_left _ (List.mem_append_left _ (List.mem_map_of_mem hx)))))
    have hzip : ∀ p ∈ (arguments.zip routine.parameters).zipIdx,
        p.1.1 ∈ arguments ∧ p.1.2 ∈ routine.parameters := fun p hp =>
      List.of_mem_zip (List.fst_mem_of_mem_zipIdx hp)
    exact checkTurns_counts hforest (fun p hp => hoperands _ (hzip p hp).1)
      (fun p hp => hparameters _ (hzip p hp).2) hs hrun
  · rename_i hlength
    obtain rfl := runs_report.1 hrun
    rw [if_pos fun heq => hlength heq.symm]
    exact .reported s _ _

/-- **A call is reported if the numbers differ**, and nothing else is. -/
theorem checkCall_counts {id : ExpressionId} (hreaches : b.Reaches .program (.expression id))
    (hs : b.Extends s.arena) (hrun : Runs (checkCall checkArgument id) c s u s') :
    ∃ ds, Reported b.WrongCount (.expression id) ds ∧ AddsCounts ds s s' := by
  -- a call of the tree now is the call that it was
  have hcall : ∀ {node : Expression} {name target arguments}, s.arena.get? id = some node →
      node.kind = .call name target arguments → ∃ old : Expression, b.get? id = some old ∧
        old.kind = .call name target arguments ∧ old.span = node.span := by
    intro node name target arguments hget hkind
    obtain ⟨old, hold, hsame⟩ := hs.refined.exists_get? hget
    exact ⟨old, hold, (hsame.kind_eq_of_new (by rw [hkind]; rintro _ _ ⟨⟩)).trans hkind, hsame.span.symm⟩
  cases callTurn_of_runs hrun with
  | dangling hget hkind =>
      obtain ⟨old, hold, hkind', -⟩ := hcall hget hkind
      refine ⟨[], .fine (not_wrongCount_of_kind hold fun _ _ _ heq => ?_), .reported s _ _⟩
      cases hkind'.symm.trans heq
  | @call node node₁ name r arguments routine s₁ hget hkind hroutine harguments hget₁ =>
      obtain ⟨old, hold, hkind', hspan⟩ := hcall hget hkind
      have hr : b.get? r = some routine := (hs.refined.get?_eq .routine (by decide) r).symm.trans hroutine
      have hadds := checkArguments_counts hforest hreaches hold hkind' hroutine hs harguments
      refine ⟨_, ?_, hadds⟩
      rw [← hspan]
      split
      · rename_i hne
        exact .faulty ((wrongCount_iff hold hkind' hr).2 ⟨hne, rfl⟩)
      · rename_i heq
        exact .fine fun d hd => heq ((wrongCount_iff hold hkind' hr).1 hd).1
  | @other node hget hkind =>
      obtain ⟨old, hold, hsame⟩ := hs.refined.exists_get? hget
      refine ⟨[], .fine (not_wrongCount_of_kind hold fun name r arguments heq => ?_), .of_same rfl⟩
      exact hkind name (some r) arguments ((hsame.kind_eq (by rw [heq]; rintro _ _ ⟨⟩)).trans heq)

/-! ### The walk -/

/-- **The check of calls goes on at each node**, and counts the arguments of each call once. -/
theorem goesOn_counts :
    GoesOn b (fun s : WalkState Unit => b.Extends s.arena) (fun v => FindsCounts b [v])
      (callVisitor checkArgument) := by
  refine ⟨fun hs => hs.refined, fun _ _ => rfl, fun n v hreaches hv hready c s hs => ?_⟩
  have hwalk := hready.exists_walk (c := c) hv hs
  cases v with
  | «variable» id =>
      obtain ⟨s₁, hrun, hs₁, hturns⟩ := hwalk
      have hbelow := FindsCounts.of_inTurn hturns
      have hfine : Reported b.WrongCount (.variable id) [] := .fine (not_wrongCount (by rintro _ ⟨⟩))
      obtain ⟨node, hget, hread⟩ := hready.exists_node id (by decide) (hv.resolve_left (by rintro ⟨⟩))
      cases hinit : node.initializer with
      | none =>
          refine ⟨s₁, runs_bind.2 ⟨(), s₁, hrun, runs_node_bind.2 ⟨node, hread hs₁, ?_⟩⟩, hs₁,
            hbelow.node hfine (.of_same rfl)⟩
          rw [hinit]
          exact runs_pure.2 ⟨rfl, rfl⟩
      | some e =>
          have hvalue : b.Reaches .program (.expression e) := by
            refine hreaches.tail ?_
            rw [Visit.variable_eq id, children_of_get? hget, Node.children, hinit]
            exact List.mem_append_right _ List.mem_cons_self
          obtain ⟨s', htype, hs'⟩ := exists_typeQuietly (c := c) hforest hvalue hs₁
          refine ⟨s', runs_bind.2 ⟨(), s₁, hrun, runs_node_bind.2 ⟨node, hread hs₁, ?_⟩⟩, hs',
            hbelow.node hfine (.of_same (typeQuietly_diagnostics hforest hvalue hs₁ htype))⟩
          rw [hinit]
          exact runs_bind.2 ⟨(), s', htype, runs_pure.2 ⟨rfl, rfl⟩⟩
  | expression id =>
      obtain ⟨s₁, hrun, hs₁, hturns⟩ := hwalk
      obtain ⟨s', hcheck, hs'⟩ := exists_checkCall (c := c) hforest hreaches hs₁
      obtain ⟨ds, hreported, hadds⟩ := checkCall_counts hforest hreaches hs₁ hcheck
      exact ⟨s', runs_bind.2 ⟨(), s₁, hrun, runs_bind.2 ⟨(), s', hcheck, runs_pure.2 ⟨rfl, rfl⟩⟩⟩, hs',
        (FindsCounts.of_inTurn hturns).node hreported hadds⟩
  | program | declaration | routine | typeDecl | type | body | statement =>
      obtain ⟨s₁, hrun, hs₁, hturns⟩ := hwalk
      exact ⟨s₁, runs_bind.2 ⟨(), s₁, hrun, runs_pure.2 ⟨rfl, rfl⟩⟩, hs₁,
        (FindsCounts.of_inTurn hturns).node (.fine (not_wrongCount (by rintro _ ⟨⟩))) (.of_same rfl)⟩

end

end ProcLang
