import ProcLang.Proofs.Calls.Counts
import ProcLang.Proofs.Passes.External

/-!
# ProcLang.Proofs.Calls.Programs

**What the check of calls leaves.** For a program whose names are resolved, it reports each call with a
wrong number of arguments once, however often the arguments of calls and the initial values of variables
are typed on the way; and when it ends, every call has the type of the result of its routine, or none if
there is no result (`callValidation_exact`).

That type is written by the check itself, and by typing when a call is the argument of another one. Both
write the same, and what is written stays (`CallTyped.refine`).
-/

namespace ProcLang

open Arena WalkM

variable {a b : Arena} {nodes : List Visit} {ds : List Diagnostic}

/-! ### Each call once -/

/-- The reports of numbers of arguments are those of the calls `ids`. -/
structure Arena.CountsReported (b : Arena) (ids : List ExpressionId) (diagnostics : List Diagnostic) :
    Prop where
  /-- No call is reported twice. -/
  nodup : ids.Nodup
  /-- Those calls of the program are reported that have a wrong number of arguments. -/
  mem_iff : ∀ e, e ∈ ids ↔
    b.Reaches .program (.expression e) ∧ ∃ d, b.WrongCount (.expression e) d
  /-- A report has both numbers and stands where the call begins. -/
  reports : List.Forall₂ (fun e => b.WrongCount (.expression e)) ids (argumentCounts diagnostics)

/-- **Calls with a wrong number of arguments** are reported once each. -/
theorem Arena.IsForest.exists_countsReported (hforest : b.IsForest nodes)
    (h : b.Findings NoFault b.WrongCount [.program] (argumentCounts ds)) :
    ∃ ids, b.CountsReported ids ds := by
  have hcall : ∀ v d, NoFault v d ∨ b.WrongCount v d → ∃ e : ExpressionId, v = Visit.of e := by
    intro v d hd
    obtain ⟨e, node, name, r, arguments, routine, rfl, -⟩ := hd.resolve_left id
    exact ⟨e, rfl⟩
  obtain ⟨ids, hnodup, hmem, hreports⟩ := hforest.exists_onceReported h (fun _ _ _ => False.elim) hcall
  simp only [NoFault, false_or] at hmem hreports
  exact ⟨ids, hnodup, hmem, hreports⟩

/-! ### The types of calls -/

/-- A call has the type of the result of its routine. -/
def Arena.CallTyped (a : Arena) (id : ExpressionId) : Prop :=
  ∀ node name r arguments, a.get? id = some node → node.kind = .call name (some r) arguments →
    ∃ routine, a.get? r = some routine ∧ node.type = routine.returnType

/-- **The type of a call stays.** If there is no result, no other type can have been stored. -/
theorem Arena.CallTyped.refine {id : ExpressionId} (h : a.CallTyped id) (hrefined : a.RefinedBy b)
    (hconsistent : b.Consistent) (hfield : ¬ a.IsField id) : b.CallTyped id := by
  intro node' name r arguments hget' hkind'
  obtain ⟨node, hget, hsame⟩ := hrefined.exists_get? hget'
  have hkind := (hsame.kind_eq_of_new (by rw [hkind']; rintro _ _ ⟨⟩)).trans hkind'
  obtain ⟨routine, hroutine, htype⟩ := h node name r arguments hget hkind
  have hstored : CallStored b id node' name r arguments routine :=
    CallStored.of_refined ⟨hget, hkind, hroutine⟩ hrefined hget'
  refine ⟨routine, hstored.routine, ?_⟩
  cases hresult : routine.returnType with
  | some t => exact hrefined.type_eq hfield hget hget' (htype.trans hresult)
  | none =>
      refine Option.eq_none_iff_forall_ne_some.2 fun t ht => ?_
      have hfield' : ¬ b.IsField id := fun h => hfield (hrefined.isField_iff.1 h)
      have hsettled := hconsistent.settled id node' t hfield' hget' ht b (.refl b) _ hstored.gives
      rw [hresult] at hsettled
      nomatch hsettled

/-- When a call has had its turn, it has the type of the result. -/
theorem callTyped_of_runs {c u : Unit} {s s' : WalkState (List Comparison)} {id : ExpressionId}
    (hrun : Runs (checkCall recordArgument id) c s u s') (hconsistent : s.arena.Consistent) :
    s'.arena.CallTyped id := by
  intro node' name r arguments hget' hkind'
  cases callTurn_of_runs hrun with
  | dangling hget hkind =>
      obtain rfl := Option.some.inj (hget.symm.trans hget')
      cases hkind.symm.trans hkind'
  | @call node node₁ name₁ r₁ arguments₁ routine s₁ hget hkind hroutine harguments hget₁ =>
      obtain ⟨hrecords, -⟩ := checkArguments_runs harguments
      have hstored : CallStored s₁.arena id node₁ name₁ r₁ arguments₁ routine :=
        .of_refined ⟨hget, hkind, hroutine⟩ (hrecords.refined hconsistent).2 hget₁
      obtain rfl := Option.some.inj ((get?_put_self hget₁ _).symm.trans hget')
      cases hstored.kind.symm.trans hkind'
      exact ⟨routine, (get?_put_of_ne _ (by rintro ⟨⟩) _).trans hstored.routine, rfl⟩
  | other hget hother =>
      obtain rfl := Option.some.inj (hget.symm.trans hget')
      exact absurd hkind' (hother name (some r) arguments)

/-- **Every call of the program has the type of the result of its routine** when the check ends. -/
theorem Arena.Sound.callTyped (hsound : b.Sound) {s : WalkState Unit}
    (hwalk : b.walkProgram (callVisitor checkArgument) () () = .ok s) {id : ExpressionId}
    (hreaches : b.Reaches .program (.expression id)) : s.arena.CallTyped id := by
  intro node name r arguments hget hkind
  obtain ⟨history, hwatched⟩ := callVisitor_watched hwalk
  obtain ⟨c, s₁, s₂, hbefore, hrefined, hcheck, hrest⟩ :=
    exists_callTurn hsound.consistent hwatched hreaches
  obtain ⟨hafter, hrefined'⟩ := (checkCall_runs hcheck).1.refined hbefore
  obtain ⟨hlast, hrefined''⟩ := hrest.refined hafter
  -- a call is not the name behind a point
  have hgrown : b.Grown b := ⟨.refl b, hsound⟩
  obtain ⟨old, hold, hsame⟩ := ((hrefined.trans hrefined').trans hrefined'').exists_get? hget
  have hkind' := (hsame.kind_eq_of_new (by rw [hkind]; rintro _ _ ⟨⟩)).trans hkind
  have hfield : ¬ b.IsField id := hgrown.not_isField_of_kind hold (by rw [hkind']; rintro _ _ ⟨⟩)
  exact (callTyped_of_runs hcheck hbefore).refine hrefined'' hlast
    (fun h => hfield ((hrefined.trans hrefined').isField_iff.1 h)) node name r arguments hget hkind

/-! ### Programs -/

/-- **The check of calls is exact.** Of the names of a source text nothing is reported. Then the check
comes to its end and changes nothing but the types that are stored. It reports a wrong number of
arguments once for each call of the program that has another number of arguments than its routine has
parameters, where the call begins and with both numbers, and for no other. Every call has the type then
that its routine gives, or none if its routine gives none. -/
theorem callValidation_exact (source : String) (hparse : (parse source).errors = [])
    (names : PassOutcome) (hnames : nameResolution.run (parse source).arena = .ok names)
    (hsilent : names.diagnostics = []) :
    ∃ outcome ids, callValidation.run names.arena = .ok outcome ∧
      names.arena.RefinedBy outcome.arena ∧
      names.arena.CountsReported ids outcome.diagnostics ∧
      ∀ (e : ExpressionId) node name target arguments,
        outcome.arena.Reaches .program (.expression e) → outcome.arena.get? e = some node →
        node.kind = .call name target arguments → ∃ r routine, target = some r ∧
          outcome.arena.get? r = some routine ∧ node.type = routine.returnType := by
  obtain ⟨nodes, htree⟩ := Parser.parse_isTree source hparse
  have hresolves := resolves_of_silent htree hnames hsilent
  have hsound := hresolves.sound htree
  obtain ⟨forest, hforest⟩ := hresolves.exists_forest htree
  obtain ⟨s, hwalk, hextends, ds, hfindings, hadds⟩ := (goesOn_counts hforest).exists_walkProgram
    hforest.within () names.arena () (.refl hsound.toCoherent)
  have hcounts : argumentCounts s.diagnostics.toList = ds := hadds
  obtain ⟨ids, hids⟩ := hforest.exists_countsReported (hcounts ▸ hfindings)
  refine ⟨_, ids, run_ofVisitor.2 ⟨s, hwalk, rfl⟩, hextends.refined, hids, ?_⟩
  intro e node name target arguments hreaches hget hkind
  rw [Reaches, funext hextends.refined.children_eq] at hreaches
  obtain ⟨old, hold, hsame⟩ := hextends.refined.exists_get? hget
  have hkind' := (hsame.kind_eq_of_new (by rw [hkind]; rintro _ _ ⟨⟩)).trans hkind
  obtain ⟨r, rfl⟩ := hresolves.callsLinked htree e old name target arguments hold hkind'
  obtain ⟨routine, hroutine, htype⟩ := hsound.callTyped hwalk hreaches node name r arguments hget hkind
  exact ⟨r, routine, rfl, hroutine, htype⟩

/-- A call with a wrong number of arguments is an argument of another call, which is typed again as the
value of a variable. -/
theorem callValidation_exact_nested :
    let source := "routine f(n: integer): integer is\n  return n\nend\n" ++
      "routine main() is\n  var x is f(f(f()))\nend\n"
    ∃ names outcome ids, nameResolution.run (parse source).arena = .ok names ∧
      callValidation.run names.arena = .ok outcome ∧
      names.arena.RefinedBy outcome.arena ∧
      names.arena.CountsReported ids outcome.diagnostics ∧
      ∀ (e : ExpressionId) node name target arguments,
        outcome.arena.Reaches .program (.expression e) → outcome.arena.get? e = some node →
        node.kind = .call name target arguments → ∃ r routine, target = some r ∧
          outcome.arena.get? r = some routine ∧ node.type = routine.returnType := by
  intro source
  obtain ⟨hparse, hrun⟩ : (parse source).errors = [] ∧
      (nameResolution.run (parse source).arena).map (fun names => decide (
        names.diagnostics = [])) = .ok true := by
    decide +kernel
  cases hnames : nameResolution.run (parse source).arena with
  | error fault =>
      rw [hnames] at hrun
      nomatch hrun
  | ok names =>
      rw [hnames] at hrun
      have hsilent := of_decide_eq_true (Except.ok.inj hrun)
      obtain ⟨outcome, ids, hdone⟩ := callValidation_exact source hparse names hnames hsilent
      exact ⟨names, outcome, ids, rfl, hdone⟩

end ProcLang
