import ProcLang.Proofs.Names.Site
import ProcLang.Proofs.Returns.Paths
import ProcLang.Proofs.Walk.Total

/-!
# ProcLang.Proofs.Returns.Reports

**What the check of return paths reports.** A routine lacks a return if it has a result and a path
leads behind its body (`LacksReturn`). The pass goes through the routines of the program in their
order and reports each one that lacks a return, and no other (`Examined`). On a tree it comes to its end
(`exists_returnPaths`): the walk stops at the routines, and in a tree looking for returns has no fault.
-/

namespace ProcLang

/-- The routines of a program are the entries that declare one. -/
theorem Program.routineIds_eq (p : Program) :
    p.routineIds = p.declarations.filterMap Declaration.routine? :=
  List.filterMap_congr fun d _ => by cases d <;> rfl

namespace Arena

variable {a : Arena} {r : RoutineId} {rs others : List RoutineId} {ds rest : List Diagnostic}

/-- A routine has a result, and a path leads behind its body. -/
def LacksReturn (a : Arena) (r : RoutineId) : Prop :=
  ∃ node, a.get? r = some node ∧ node.returnType.isSome ∧ a.Path (.body node.body) .behind

/-- A report that a routine can end without its result, at the place where the routine begins. -/
def MissingReturn (a : Arena) (r : RoutineId) (d : Diagnostic) : Prop :=
  ∃ node, a.get? r = some node ∧ d = ⟨.missingReturn node.name, (Routine.span node).start⟩

/-- One report for each routine that lacks a return, and none for the others. -/
inductive Examined (a : Arena) : List RoutineId → List Diagnostic → Prop
  | nil : Examined a [] []
  | passed {r : RoutineId} {rs : List RoutineId} {ds : List Diagnostic} (hreturns : ¬ a.LacksReturn r)
      (others : Examined a rs ds) : Examined a (r :: rs) ds
  | reported {r : RoutineId} {rs : List RoutineId} {d : Diagnostic} {ds : List Diagnostic}
      (hlacks : a.LacksReturn r) (hreport : a.MissingReturn r d) (others : Examined a rs ds) :
      Examined a (r :: rs) (d :: ds)

theorem Examined.append (h : a.Examined rs ds) (h' : a.Examined others rest) :
    a.Examined (rs ++ others) (ds ++ rest) := by
  induction h with
  | nil => exact h'
  | passed hreturns _ ih => exact .passed hreturns ih
  | reported hlacks hreport _ ih => exact .reported hlacks hreport ih

/-- The routines that are reported. -/
theorem Examined.exists_ids (h : a.Examined rs ds) :
    ∃ ids, ids.Sublist rs ∧ (∀ r, r ∈ ids ↔ r ∈ rs ∧ a.LacksReturn r) ∧
      List.Forall₂ a.MissingReturn ids ds := by
  induction h with
  | nil => exact ⟨[], .slnil, by simp, .nil⟩
  | @passed first _ _ hreturns _ ih =>
      obtain ⟨ids, hsub, hmem, hreports⟩ := ih
      refine ⟨ids, hsub.cons _, fun r => (hmem r).trans ?_, hreports⟩
      rw [List.mem_cons, or_and_right]
      refine (or_iff_right ?_).symm
      rintro ⟨rfl, hlacks⟩
      exact hreturns hlacks
  | @reported first _ _ _ hlacks hreport _ ih =>
      obtain ⟨ids, hsub, hmem, hreports⟩ := ih
      refine ⟨first :: ids, hsub.cons_cons _, fun r => ?_, .cons hreport hreports⟩
      rw [List.mem_cons, List.mem_cons, or_and_right, hmem]
      refine or_congr_left (iff_self_and.2 ?_)
      rintro rfl
      exact hlacks

/-- Nothing is reported if no routine lacks a return. -/
theorem Examined.not_lacksReturn (h : a.Examined rs ds) (hsilent : ds = []) :
    ∀ r ∈ rs, ¬ a.LacksReturn r := by
  induction h with
  | nil => nofun
  | passed hreturns _ ih => exact List.forall_mem_cons.2 ⟨hreturns, ih hsilent⟩
  | reported => nomatch hsilent

/-- **The reports are determined by the routines.** -/
theorem Examined.unique (h : a.Examined rs ds) (h' : a.Examined rs rest) : ds = rest := by
  induction h generalizing rest with
  | nil =>
      cases h'
      rfl
  | passed hreturns _ ih =>
      cases h' with
      | passed _ others => exact ih others
      | reported hlacks => exact absurd hlacks hreturns
  | reported hlacks hreport _ ih =>
      cases h' with
      | passed hreturns => exact absurd hlacks hreturns
      | reported _ hreport' others =>
          obtain ⟨node, hget, rfl⟩ := hreport
          obtain ⟨node', hget', rfl⟩ := hreport'
          obtain rfl := Option.some.inj (hget.symm.trans hget')
          rw [ih others]

theorem RefinedBy.lacksReturn_iff {b : Arena} (h : a.RefinedBy b) : b.LacksReturn r ↔ a.LacksReturn r := by
  have hbody := fun id : BodyId => h.get?_eq .body nofun id
  have hstatement := fun id : StatementId => h.get?_eq .statement nofun id
  unfold LacksReturn
  rw [h.get?_eq .routine nofun]
  refine exists_congr fun node => and_congr_right fun _ => and_congr_right fun _ => ?_
  exact ⟨.congr (fun id => (hbody id).symm) fun id => (hstatement id).symm, .congr hbody hstatement⟩

/-- In a tree of which more is known the same is reported. -/
theorem Examined.of_refined {b : Arena} (hrefined : a.RefinedBy b) (h : b.Examined rs ds) :
    a.Examined rs ds := by
  induction h with
  | nil => exact .nil
  | passed hreturns _ ih => exact .passed (hrefined.lacksReturn_iff.not.1 hreturns) ih
  | reported hlacks hreport _ ih =>
      refine .reported (hrefined.lacksReturn_iff.1 hlacks) ?_ ih
      rwa [MissingReturn, hrefined.get?_eq .routine nofun] at hreport

end Arena

open Arena WalkM

/-! ### The walk -/

variable {a : Arena} {nodes : List Visit} {rs others : List RoutineId} {s s₁ s' : WalkState Unit}

/-- Routines are looked at in turn, with what that adds to the reports. -/
def Examines (a : Arena) (rs : List RoutineId) (s s' : WalkState Unit) : Prop :=
  ∃ ds, s'.diagnostics.toList = s.diagnostics.toList ++ ds ∧ a.Examined rs ds

theorem Examines.refl (a : Arena) (s : WalkState Unit) : Examines a [] s s :=
  ⟨[], (List.append_nil _).symm, .nil⟩

theorem Examines.append (h : Examines a rs s s₁) (h' : Examines a others s₁ s') :
    Examines a (rs ++ others) s s' := by
  obtain ⟨ds, hds, hexamined⟩ := h
  obtain ⟨rest, hrest, hexamined'⟩ := h'
  exact ⟨ds ++ rest, by rw [hrest, hds, List.append_assoc], hexamined.append hexamined'⟩

/-- What the visit of a node adds to the reports. Nothing below a routine is visited. -/
def Looked (a : Arena) : Visit → WalkState Unit → WalkState Unit → Prop
  | .program => Examines a a.program.routineIds
  | .routine r => Examines a [r]
  | .variable _ | .typeDecl _ => Examines a []
  | .declaration _ | .type _ | .body _ | .statement _ | .expression _ => fun _ _ => True

/-- Entries in a list of declarations are looked at in turn. -/
theorem examines_of_inTurn {ds : List Declaration}
    (h : InTurn (Looked a) (ds.map Declaration.visit) s s') :
    Examines a (ds.filterMap Declaration.routine?) s s' := by
  induction ds generalizing s with
  | nil =>
      cases h
      exact .refl a _
  | cons d rest ih =>
      cases h with
      | cons first others =>
          cases d with
          | routine r => exact first.append (ih others)
          | «variable» | type => exact first.append (ih others)

/-- Looking at a routine reports it if it lacks a return. -/
theorem exists_checkRoutine (hforest : a.IsForest nodes) {r : RoutineId} {node : Routine}
    (hreaches : a.Reaches .program (.routine r)) (hget : a.get? r = some node) (hs : s.arena = a) :
    ∃ s', Runs (checkRoutine r) () s () s' ∧ s'.arena = a ∧ Examines a [r] s s' := by
  subst hs
  have hbody : s.arena.Reaches .program (.body node.body) := by
    refine hreaches.tail ?_
    rw [Visit.routine_eq r, children_of_get? hget]
    exact List.mem_append_right _ List.mem_cons_self
  obtain ⟨returns, hreturns⟩ := exists_bodyReturns (fun w => hforest.has_below hbody nofun)
    (fun w hw => hforest.not_under_children (hbody.trans hw))
  have hexact := bodyReturns_iff hreturns
  have hpassed : ¬ s.arena.LacksReturn r → Examines s.arena [r] s s := fun hno =>
    ⟨[], (List.append_nil _).symm, .passed hno .nil⟩
  cases hresult : node.returnType.isSome with
  | false =>
      refine ⟨s, runs_node_bind.2 ⟨node, hget, ?_⟩, rfl, hpassed ?_⟩
      · rw [hresult]
        exact runs_pure.2 ⟨rfl, rfl⟩
      · rintro ⟨other, hother, hsome, -⟩
        obtain rfl := Option.some.inj (hget.symm.trans hother)
        rw [hresult] at hsome
        nomatch hsome
  | true =>
      cases returns with
      | true =>
          refine ⟨s, runs_node_bind.2 ⟨node, hget, ?_⟩, rfl, hpassed ?_⟩
          · rw [hresult]
            exact runs_inspect_bind.2 ⟨true, hreturns, runs_pure.2 ⟨rfl, rfl⟩⟩
          · rintro ⟨other, hother, -, hpath⟩
            obtain rfl := Option.some.inj (hget.symm.trans hother)
            exact hexact.1 rfl hpath
      | false =>
          have hlacks : s.arena.LacksReturn r :=
            ⟨node, hget, hresult, by_contra fun hno => nomatch hexact.2 hno⟩
          refine ⟨s.reported (.missingReturn node.name) node.span.start,
            runs_node_bind.2 ⟨node, hget, ?_⟩, rfl,
            [⟨.missingReturn node.name, node.span.start⟩], Array.toList_push,
            .reported hlacks ⟨node, hget, rfl⟩ .nil⟩
          rw [hresult]
          exact runs_inspect_bind.2 ⟨false, hreturns, runs_report.2 rfl⟩

theorem goesOn_returns (hforest : a.IsForest nodes) :
    GoesOn a (fun s => s.arena = a) (Looked a) returnVisitor := by
  refine ⟨fun hs => hs ▸ .refl _, fun _ _ => rfl, fun n v hreaches hv hready c s hs => ?_⟩
  cases v with
  | program =>
      obtain ⟨s', hwalk, hs', hturns⟩ := hready.exists_walk (c := c) hv hs
      refine ⟨s', runs_bind.2 ⟨(), s', hwalk, runs_pure.2 ⟨rfl, rfl⟩⟩, hs', ?_⟩
      rw [Looked, Program.routineIds_eq]
      exact examines_of_inTurn hturns
  | routine r =>
      obtain ⟨node, hget⟩ := exists_of_has r (hv.resolve_left nofun)
      obtain ⟨s', hcheck, hs', hexamines⟩ := exists_checkRoutine hforest hreaches hget hs
      exact ⟨s', runs_bind.2 ⟨(), s', hcheck, runs_pure.2 ⟨rfl, rfl⟩⟩, hs', hexamines⟩
  | «variable» | typeDecl => exact ⟨s, runs_pure.2 ⟨rfl, rfl⟩, hs, .refl a s⟩
  | declaration | type | body | statement | expression => exact visits_walkThrough hready hv c s hs

/-- **The check of return paths comes to its end on a tree.** It leaves the tree as it is, and reports
the routines that lack a return. -/
theorem exists_returnPaths (hforest : a.IsForest nodes) :
    ∃ outcome, returnPaths.run a = .ok outcome ∧ outcome.arena = a ∧
      a.Examined a.program.routineIds outcome.diagnostics := by
  obtain ⟨s, hwalk, hs, ds, hds, hexamined⟩ :=
    (goesOn_returns hforest).exists_walkProgram hforest.within () a () rfl
  obtain rfl : s.diagnostics.toList = ds := by simpa using hds
  exact ⟨_, run_ofVisitor.2 ⟨s, hwalk, rfl⟩, hs, hexamined⟩

end ProcLang
