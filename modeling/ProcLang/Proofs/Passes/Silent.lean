import ProcLang.Proofs.Passes.Steps

/-!
# ProcLang.Proofs.Passes.Silent

**What an accepted program went through.** If compiling a source text reports nothing, then the text
was read without errors and every stage ran to its end in silence (`compile_resolved`,
`compile_typed`).
-/

namespace ProcLang

open Arena

/-- The tree after some passes. -/
def Arena.after (a : Arena) (passes : List Pass) : Except Fault Arena :=
  passes.foldlM (fun a pass => do return (← pass.run a).arena) a

theorem after_cons {a a' : Arena} {pass : Pass} {rest : List Pass} {outcome : PassOutcome}
    (hrun : pass.run a = .ok outcome) (hrest : outcome.arena.after rest = .ok a') :
    a.after (pass :: rest) = .ok a' := by
  rw [Arena.after, List.foldlM_cons, hrun]
  exact hrest

/-! ### Running passes -/

section

variable {haltOnError : Bool} {c : Analysis}

/-- A pass was run on what had been found, and the others behind it, unless it stopped them. -/
theorem runPasses_cons {pass : Pass} {rest : List Pass} {found : Analysis}
    (hrun : runPasses haltOnError (pass :: rest) found = .ok c) :
    ∃ outcome, pass.run found.arena = .ok outcome ∧
      (outcome.diagnostics ≠ [] ∧ c.diagnostics = found.diagnostics ++ outcome.diagnostics ∨
        ∃ next : Analysis, next.arena = outcome.arena ∧
          next.diagnostics = found.diagnostics ++ outcome.diagnostics ∧
          runPasses haltOnError rest next = .ok c) := by
  unfold runPasses at hrun
  cases houtcome : pass.run found.arena with
  | error fault => simp [houtcome, bind, Except.bind] at hrun
  | ok outcome =>
      refine ⟨outcome, rfl, ?_⟩
      simp only [houtcome, bind, Except.bind] at hrun
      split at hrun
      · rename_i hhalt
        injection hrun with hrun
        subst hrun
        refine Or.inl ⟨fun hnone => ?_, rfl⟩
        simp [hnone] at hhalt
      · exact Or.inr ⟨_, rfl, rfl, hrun⟩

/-- What was found stays found. -/
theorem runPasses_diagnostics {passes : List Pass} {found : Analysis}
    (hrun : runPasses haltOnError passes found = .ok c) (hsilent : c.diagnostics = []) :
    found.diagnostics = [] := by
  induction passes generalizing found with
  | nil =>
      obtain rfl : found = c := Except.ok.inj hrun
      exact hsilent
  | cons pass rest ih =>
      obtain ⟨outcome, -, hhalted | ⟨next, -, hnext, hrest⟩⟩ := runPasses_cons hrun
      · exact (List.append_eq_nil_iff.1 (hhalted.2.symm.trans hsilent)).1
      · exact (List.append_eq_nil_iff.1 (hnext.symm.trans (ih hrest))).1

/-- If nothing is reported in the end, then the next pass reports nothing and the others go on. -/
theorem runPasses_silent {pass : Pass} {rest : List Pass} {found : Analysis}
    (hrun : runPasses haltOnError (pass :: rest) found = .ok c) (hsilent : c.diagnostics = []) :
    ∃ outcome next, pass.run found.arena = .ok outcome ∧ outcome.diagnostics = [] ∧
      next.arena = outcome.arena ∧ runPasses haltOnError rest next = .ok c := by
  obtain ⟨outcome, houtcome, ⟨hnone, hhalted⟩ | ⟨next, harena, hnext, hrest⟩⟩ := runPasses_cons hrun
  · exact absurd (List.append_eq_nil_iff.1 (hhalted.symm.trans hsilent)).2 hnone
  · have hdiagnostics := runPasses_diagnostics hrest hsilent
    exact ⟨outcome, next, houtcome, (List.append_eq_nil_iff.1 (hnext.symm.trans hdiagnostics)).2,
      harena, hrest⟩

/-- Passes that refine consistent trees do so one after the other. -/
theorem runPasses_refined {passes : List Pass} (hrefining : ∀ pass ∈ passes, pass.Refining)
    {found : Analysis} (hrun : runPasses haltOnError passes found = .ok c)
    (hsilent : c.diagnostics = []) (hconsistent : found.arena.Consistent) :
    found.arena.RefinedBy c.arena := by
  induction passes generalizing found with
  | nil =>
      obtain rfl : found = c := Except.ok.inj hrun
      exact .refl _
  | cons pass rest ih =>
      obtain ⟨outcome, next, houtcome, -, hnext, hrest⟩ := runPasses_silent hrun hsilent
      obtain ⟨hconsistent', hrefined⟩ :=
        hrefining pass List.mem_cons_self found.arena outcome houtcome hconsistent
      rw [← hnext] at hconsistent' hrefined
      exact hrefined.trans (ih (fun pass hpass => hrefining pass (List.mem_cons_of_mem _ hpass))
        hrest hconsistent')

/-- If nothing is reported in the end, then the first passes leave a tree and the others go on. -/
theorem runPasses_append (first : List Pass) {rest : List Pass} {found : Analysis}
    (hrun : runPasses haltOnError (first ++ rest) found = .ok c) (hsilent : c.diagnostics = []) :
    ∃ next : Analysis, found.arena.after first = .ok next.arena ∧
      runPasses haltOnError rest next = .ok c := by
  induction first generalizing found with
  | nil => exact ⟨found, rfl, hrun⟩
  | cons pass others ih =>
      obtain ⟨outcome, next, houtcome, -, hnext, hrest⟩ := runPasses_silent hrun hsilent
      obtain ⟨last, hafter, hlast⟩ := ih hrest
      exact ⟨last, after_cons houtcome (hnext ▸ hafter), hlast⟩

/-! ### Compiling a source text -/

/-- **A compilation** ends with the errors of reading the text, or goes on to analyse its tree. -/
theorem compile_cases {source : String} {c : Compilation}
    (hcompile : compile source haltOnError = .ok c) :
    ((parse source).errors ≠ [] ∧ c.haltedAt = some .parsing ∧
        c.diagnostics = (parse source).errors ∧ c.arena = (parse source).arena) ∨
      ((parse source).errors = [] ∧ ∃ analysis, analyze (parse source).arena haltOnError = .ok analysis ∧
        c.haltedAt = analysis.haltedAt ∧ c.diagnostics = analysis.diagnostics ∧
        c.arena = analysis.arena) := by
  unfold compile at hcompile
  dsimp only at hcompile
  split at hcompile
  · rename_i hparse
    cases hanalysis : analyze (parse source).arena haltOnError with
    | error fault => simp [hanalysis, bind, Except.bind] at hcompile
    | ok analysis =>
        rw [hanalysis] at hcompile
        obtain rfl := Except.ok.inj hcompile
        exact Or.inr ⟨List.isEmpty_iff.1 hparse, analysis, rfl, rfl, rfl, rfl⟩
  · rename_i herrors
    obtain rfl := Except.ok.inj hcompile
    exact Or.inl ⟨fun hnil => herrors (List.isEmpty_iff.2 hnil), rfl, rfl, rfl⟩

/-! ### Accepted programs -/

/-- **An accepted program** was read without errors, its names were resolved without a report, and the
passes behind name resolution reported nothing. -/
theorem compile_resolved {source : String} {c : Compilation}
    (hcompile : compile source haltOnError = .ok c) (hsilent : c.diagnostics = []) :
    (parse source).errors = [] ∧ ∃ names found last,
      nameResolution.run (parse source).arena = .ok names ∧ names.diagnostics = [] ∧
      found.arena = names.arena ∧ runPasses haltOnError laterPasses found = .ok last ∧
      last.diagnostics = [] ∧ last.arena = c.arena := by
  rcases compile_cases hcompile with
    ⟨herrors, -, hdiagnostics, -⟩ | ⟨hparse, analysis, hanalysis, -, hdiagnostics, harena⟩
  · exact absurd (hdiagnostics.symm.trans hsilent) herrors
  · refine ⟨hparse, ?_⟩
    rw [hdiagnostics] at hsilent
    unfold analyze at hanalysis
    cases hnames : nameResolution.run (parse source).arena with
    | error fault => simp [hnames, bind, Except.bind] at hanalysis
    | ok names =>
        simp only [hnames, bind, Except.bind] at hanalysis
        split at hanalysis
        · rename_i hnone
          exact ⟨names, _, analysis, rfl, List.isEmpty_iff.1 hnone, rfl, hanalysis, hsilent,
            harena.symm⟩
        · rename_i hsome
          obtain rfl := Except.ok.inj hanalysis
          exact absurd (List.isEmpty_iff.2 hsilent) hsome

/-- Its calls were checked, and all else only refines the tree. -/
theorem compile_silent {source : String} {c : Compilation}
    (hcompile : compile source haltOnError = .ok c) (hsilent : c.diagnostics = []) :
    (parse source).errors = [] ∧ ∃ names calls,
      nameResolution.run (parse source).arena = .ok names ∧ names.diagnostics = [] ∧
      callValidation.run names.arena = .ok calls ∧ calls.diagnostics = [] ∧
      (calls.arena.Consistent → calls.arena.RefinedBy c.arena) := by
  obtain ⟨hparse, names, found, last, hnames, hresolved, hfound, hrun, hlast, harena⟩ :=
    compile_resolved hcompile hsilent
  obtain ⟨calls, next, hcalls, hclean, hnext, hrest⟩ := runPasses_silent hrun hlast
  rw [hfound] at hcalls
  refine ⟨hparse, names, calls, hnames, hresolved, hcalls, hclean, fun h => ?_⟩
  rw [← harena, ← hnext]
  exact runPasses_refined refining_laterPasses hrest hlast (hnext ▸ h)

/-- Its expressions were typed; looking for returns leaves the tree as it is. -/
theorem compile_typed {source : String} {c : Compilation}
    (hcompile : compile source haltOnError = .ok c) (hsilent : c.diagnostics = []) :
    (parse source).errors = [] ∧ ∃ names before typed,
      nameResolution.run (parse source).arena = .ok names ∧ names.diagnostics = [] ∧
      names.arena.after [callValidation, arrayLengths, constants] = .ok before ∧
      typing.run before = .ok typed ∧ typed.diagnostics = [] ∧ c.arena = typed.arena := by
  obtain ⟨hparse, names, found, last, hnames, hresolved, hfound, hrun, hlast, harena⟩ :=
    compile_resolved hcompile hsilent
  obtain ⟨before, hbefore, hrun⟩ :=
    runPasses_append [callValidation, arrayLengths, constants] hrun hlast
  obtain ⟨typed, next, htyped, hclean, hnext, hrun⟩ := runPasses_silent hrun hlast
  obtain ⟨returns, final, hreturns, -, hfinal, hrun⟩ := runPasses_silent hrun hlast
  obtain rfl : final = last := Except.ok.inj hrun
  refine ⟨hparse, names, before.arena, typed, hnames, hresolved, hfound ▸ hbefore, htyped, hclean, ?_⟩
  rw [← harena, hfinal, arena_returnPaths hreturns, hnext]

end

end ProcLang
