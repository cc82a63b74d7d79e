import ProcLang.Proofs.Passes.Completion

/-!
# ProcLang.Proofs.Passes.Annotations

**The passes behind name resolution only annotate the tree** (`laterPasses_annotate`). They may run in
any order and any number of times. None of them adds or removes a node, and all nodes stay what they
are: the checks of calls and of types write types, and bind names behind points; marking constants
writes marks; the other two write nothing.

What the checks of lengths, constants and returns report depends on nothing that is written. Each of
the three lists is determined by the tree that name resolution left, and so they are the same wherever
the pass runs.
-/

namespace ProcLang

open Arena WalkM

variable {σ β : Type} {a b : Arena} {nodes : List Visit}

/-! ### What is left as it is -/

/-- On all expressions two trees show the same. -/
def Arena.SameOn (view : Expression → β) (a b : Arena) : Prop :=
  ∀ id : ExpressionId, (b.get? id).map view = (a.get? id).map view

theorem Arena.SameOn.put {view : Expression → β} {id : ExpressionId} {node node' : Expression}
    (hget : a.get? id = some node) (hview : view node' = view node) : a.SameOn view (a.put id node') := by
  intro other
  by_cases hsame : other = id
  · subst hsame
    rw [get?_put_self hget, hget, Option.map_some, Option.map_some, hview]
  · rw [get?_put_of_id_ne a hsame]

/-- The same tree but for what a pass may write. The forms of expressions belong to the types: with the
type of a member access comes the field that the name behind its point stands for. -/
structure Arena.SameBut (written : Option Annotation) (a b : Arena) : Prop where
  refined : a.RefinedBy b
  types : written ≠ some .type → a.SameOn (fun e => (e.kind, e.type)) b
  marks : written ≠ some .constant → a.SameOn Expression.constant b

/-- A step writes nothing but what it may. -/
theorem PassStep.sameOn {written : Option Annotation} {s s' : WalkState σ} (h : PassStep written s s') :
    (written ≠ some .type → s.arena.SameOn (fun e => (e.kind, e.type)) s'.arena) ∧
      (written ≠ some .constant → s.arena.SameOn Expression.constant s'.arena) := by
  cases h with
  | typed hget | bound hget => exact ⟨absurd rfl, fun _ => .put hget rfl⟩
  | marked hget => exact ⟨fun _ => .put hget rfl, absurd rfl⟩
  | reported => exact ⟨fun _ _ => rfl, fun _ _ => rfl⟩

theorem PassSteps.sameOn {written : Option Annotation} {s s' : WalkState σ}
    (h : PassSteps written s s') :
    (written ≠ some .type → s.arena.SameOn (fun e => (e.kind, e.type)) s'.arena) ∧
      (written ≠ some .constant → s.arena.SameOn Expression.constant s'.arena) := by
  induction h with
  | refl => exact ⟨fun _ _ => rfl, fun _ _ => rfl⟩
  | tail _ hstep ih =>
      obtain ⟨htypes, hmarks⟩ := hstep.sameOn
      exact ⟨fun hw id => (htypes hw id).trans (ih.1 hw id),
        fun hw id => (hmarks hw id).trans (ih.2 hw id)⟩

/-- **A pass behind name resolution** comes to its end, and writes what its stage may write. -/
theorem exists_sameBut (hforest : a.IsForest nodes) (hcoherent : a.Coherent) {pass : Pass}
    (hpass : pass ∈ laterPasses) :
    ∃ outcome, pass.run a = .ok outcome ∧ a.SameBut pass.stage.writes outcome.arena ∧
      (pass.stage.writes = none → outcome.arena = a) := by
  obtain ⟨outcome, hrun, hextends⟩ := completes_laterPasses pass hpass a nodes hforest hcoherent
  obtain ⟨s, hsteps, harena, -⟩ := steps_laterPasses pass hpass a outcome hrun
  have hsame := hsteps.sameOn
  rw [← harena] at hsame
  refine ⟨outcome, hrun, ⟨hextends.refined, hsame.1, hsame.2⟩, fun hnone => ?_⟩
  rw [hnone] at hsteps
  exact harena.trans hsteps.arena_eq

/-! ### What is reported -/

/-- **The reports of these passes are determined by the tree at the beginning.** -/
theorem exists_steady_reports (hforest : a.IsForest nodes) (hsound : a.Sound) {pass : Pass}
    (hpass : pass ∈ [arrayLengths, constants, returnPaths]) : ∃ ds, ∀ b, a.Grown b →
      ∃ outcome, pass.run b = .ok outcome ∧ outcome.diagnostics = ds := by
  have hself : a.Grown a := ⟨.refl a, hsound⟩
  simp only [List.mem_cons, List.not_mem_nil, or_false] at hpass
  rcases hpass with rfl | rfl | rfl
  · obtain ⟨first, -, -, hfirst⟩ := exists_lengths hforest hself.refined
    refine ⟨first.diagnostics, fun b hb => ?_⟩
    obtain ⟨outcome, hrun, -, hfindings⟩ := exists_lengths hforest hb.refined
    exact ⟨outcome, hrun, hfindings.unique (definite_missingLength a) definite_noFault hfirst⟩
  · obtain ⟨first, -, -, -, -, hfirst⟩ := exists_constants hforest hself.weaken
    refine ⟨first.diagnostics, fun b hb => ?_⟩
    obtain ⟨outcome, hrun, -, -, -, hfindings⟩ := exists_constants hforest hb.weaken
    exact ⟨outcome, hrun, hfindings.unique definite_noFault (definite_variableLength a) hfirst⟩
  · obtain ⟨first, -, -, hfirst⟩ := exists_returnPaths hforest
    refine ⟨first.diagnostics, fun b hb => ?_⟩
    obtain ⟨outcome, hrun, -, hexamined⟩ := exists_returnPaths (hb.refined.isForest hforest)
    rw [hb.refined.program] at hexamined
    exact ⟨outcome, hrun, (hexamined.of_refined hb.refined).unique hfirst⟩

/-- **The passes behind name resolution only annotate.** Take a source text that passes name resolution
without a report, and run the passes behind it in any order and any number of times. All nodes stay and
stay what they are, and the next pass writes nothing but what its stage may write. Wherever the checks
of lengths, of constants and of returns run, each of them reports the same. -/
theorem laterPasses_annotate (source : String) (hparse : (parse source).errors = [])
    (names : PassOutcome) (hnames : nameResolution.run (parse source).arena = .ok names)
    (hsilent : names.diagnostics = []) :
    (∀ passes ⊆ laterPasses, ∃ b, names.arena.after passes = .ok b ∧ names.arena.RefinedBy b ∧
      ∀ pass ∈ laterPasses, ∃ outcome, pass.run b = .ok outcome ∧
        b.SameBut pass.stage.writes outcome.arena ∧
        (pass.stage.writes = none → outcome.arena = b)) ∧
    ∀ pass ∈ [arrayLengths, constants, returnPaths], ∃ ds, ∀ passes ⊆ laterPasses, ∀ b,
      names.arena.after passes = .ok b →
        ∃ outcome, pass.run b = .ok outcome ∧ outcome.diagnostics = ds := by
  obtain ⟨nodes, htree⟩ := Parser.parse_isTree source hparse
  have hresolves := resolves_of_silent htree hnames hsilent
  have hsound := hresolves.sound htree
  obtain ⟨forest, hforest⟩ := hresolves.exists_forest htree
  have hafter : ∀ passes ⊆ laterPasses, ∃ b, names.arena.after passes = .ok b ∧ names.arena.Grown b :=
    fun passes hpasses => exists_after hforest hpasses ⟨.refl _, hsound⟩
  constructor
  · intro passes hpasses
    obtain ⟨b, hb, hgrown⟩ := hafter passes hpasses
    refine ⟨b, hb, hgrown.refined, fun pass hpass => ?_⟩
    exact exists_sameBut (hgrown.refined.isForest hforest) hgrown.sound.toCoherent hpass
  · intro pass hpass
    obtain ⟨ds, hds⟩ := exists_steady_reports hforest hsound hpass
    refine ⟨ds, fun passes hpasses b hb => ?_⟩
    obtain ⟨b', hb', hgrown⟩ := hafter passes hpasses
    obtain rfl := Except.ok.inj (hb'.symm.trans hb)
    exact hds b' hgrown

/-- A program with a field that is bound late and an array whose length is not constant. -/
theorem laterPasses_annotate_record :
    let source := "type p is record\n  var a: integer\nend\nvar n is 2\nvar v: array [n] integer\n" ++
      "routine main(): integer is\n  var q: p\n  q.a := n + 1\n  return q.a\nend\n"
    ∃ names b ds, nameResolution.run (parse source).arena = .ok names ∧
      names.arena.after [constants, typing] = .ok b ∧ names.arena.RefinedBy b ∧
      (∃ outcome, callValidation.run b = .ok outcome ∧ b.SameBut (some .type) outcome.arena) ∧
      (∃ outcome, constants.run b = .ok outcome ∧ outcome.diagnostics = ds) ∧
      ∃ outcome, constants.run names.arena = .ok outcome ∧ outcome.diagnostics = ds := by
  intro source
  obtain ⟨hparse, hrun⟩ : (parse source).errors = [] ∧
      (nameResolution.run (parse source).arena).map PassOutcome.diagnostics = .ok [] := by
    decide +kernel
  cases hnames : nameResolution.run (parse source).arena with
  | error fault =>
      rw [hnames] at hrun
      nomatch hrun
  | ok names =>
      rw [hnames] at hrun
      obtain ⟨hwrites, hreports⟩ := laterPasses_annotate source hparse names hnames (Except.ok.inj hrun)
      obtain ⟨b, hb, hrefined, hnext⟩ := hwrites [constants, typing] (by simp [laterPasses])
      obtain ⟨calls, hcalls, hsame, -⟩ := hnext callValidation List.mem_cons_self
      obtain ⟨ds, hds⟩ := hreports constants (by simp)
      exact ⟨names, b, ds, rfl, hb, hrefined, ⟨calls, hcalls, hsame⟩,
        hds [constants, typing] (by simp [laterPasses]) b hb,
        hds [] (List.nil_subset _) names.arena rfl⟩

end ProcLang
