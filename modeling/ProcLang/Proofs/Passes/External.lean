import ProcLang.Proofs.Expression.Keeps
import ProcLang.Proofs.Passes.Ownership
import ProcLang.Proofs.Passes.Reports

/-!
# ProcLang.Proofs.Passes.External

**No source text leads to an internal error** (`compile_external`). Compiling comes to its end, so no
stage reads or writes a node that is not there, and what is reported is about the program. A call that
is checked is linked: the passes behind name resolution run only if it reported nothing, and then it
left no call without its routine.
-/

namespace ProcLang

open Arena

variable {a b : Arena} {nodes : List Visit}

/-- After a silent name resolution every call is linked. -/
theorem Arena.Resolves.callsLinked (h : a.Resolves b) (htree : a.IsTree nodes) : b.CallsLinked :=
  fun _ _ _ _ _ hget hkind => h.call_linked htree hget hkind

/-- **The passes behind name resolution** come to their end, and report errors of the program only. -/
theorem exists_runPasses (hforest : b.IsForest nodes) (haltOnError : Bool) {passes : List Pass}
    (hpasses : passes ⊆ laterPasses) {found : Analysis} (hgrown : b.Grown found.arena)
    (hlinked : found.arena.CallsLinked) (hreports : ∀ d ∈ found.diagnostics, d.isInternal = false) :
    ∃ last, runPasses haltOnError passes found = .ok last ∧ b.Grown last.arena ∧
      ∀ d ∈ last.diagnostics, d.isInternal = false := by
  induction passes generalizing found with
  | nil => exact ⟨found, rfl, hgrown, hreports⟩
  | cons pass rest ih =>
      obtain ⟨hpass, hrest⟩ := List.cons_subset.1 hpasses
      obtain ⟨outcome, hrun, hextends⟩ := completes_laterPasses pass hpass found.arena nodes
        (hgrown.refined.isForest hforest) hgrown.sound.toCoherent
      have hgrown₁ := hgrown.extend hextends
      obtain ⟨hlinked₁, hexternal⟩ := reportsOn_laterPasses pass hpass found.arena outcome hlinked hrun
      have hall : ∀ d ∈ found.diagnostics ++ outcome.diagnostics, d.isInternal = false :=
        List.forall_mem_append.2 ⟨hreports, hexternal⟩
      simp only [runPasses, hrun, bind, Except.bind]
      split
      · exact ⟨_, rfl, hgrown₁, hall⟩
      · exact ih hrest hgrown₁ hlinked₁ hall

/-- **Analysing a parsed tree** comes to its end, and reports errors of the program only. -/
theorem exists_analyze (htree : a.IsTree nodes) (haltOnError : Bool) :
    ∃ analysis, analyze a haltOnError = .ok analysis ∧ analysis.arena.Owned ∧
      ∀ d ∈ analysis.diagnostics, d.isInternal = false := by
  obtain ⟨names, hrun, hsettles⟩ := htree.exists_settles
  have howned := (hsettles.reshapes htree).owned htree
  have hexternal := (reportsOn_nameResolution a names trivial hrun).2
  simp only [analyze, hrun, bind, Except.bind]
  split
  · rename_i hnone
    have hresolves := resolves_of_silent htree hrun (List.isEmpty_iff.1 hnone)
    obtain ⟨forest, hforest⟩ := hresolves.exists_forest htree
    have hbegin : names.arena.Grown
        (Analysis.arena ⟨names.arena, [], none, names.journal⟩) := ⟨.refl _, hresolves.sound htree⟩
    obtain ⟨last, hlast, hgrown, hreports⟩ := exists_runPasses hforest haltOnError
      (List.Subset.refl _) hbegin (hresolves.callsLinked htree) nofun
    exact ⟨last, hlast, hgrown.weaken.owned howned, hreports⟩
  · exact ⟨_, rfl, howned, hexternal⟩

/-- **Compiling a source text** comes to its end, and reports errors of the program only. -/
theorem exists_compile (source : String) (haltOnError : Bool) :
    ∃ c, compile source haltOnError = .ok c ∧ c.arena.Owned ∧
      ∀ d ∈ c.diagnostics, d.isInternal = false := by
  obtain ⟨lost, all, hforest, -, hexternal⟩ := Parser.parse_holdsForest source
  unfold compile
  dsimp only
  split
  · rename_i hparse
    obtain ⟨nodes, htree⟩ := Parser.parse_isTree source (List.isEmpty_iff.1 hparse)
    obtain ⟨analysis, hanalysis, howned, hreports⟩ := exists_analyze htree haltOnError
    rw [hanalysis]
    exact ⟨_, rfl, howned, hreports⟩
  · exact ⟨_, rfl, hforest.owned, hexternal⟩

/-- **No source text leads to an internal error, and no id leads nowhere.** The parser looks at
expressions only that are stored under their ids; every stage that runs finds each node that it asks
for; no id that a stage leaves in the tree leads nowhere; and no diagnostic shows a misuse of the
interfaces. -/
theorem compile_external (source : String) (haltOnError : Bool) :
    (∀ power, (Parser.expression .standard power).Stores) ∧
    (∀ rule, (Parser.operand (Parser.expression .standard) rule).Stores) ∧
    (∀ rule left power, (Parser.tail (Parser.expression .standard) rule left power).Stores) ∧
    (parse source).arena.Owned ∧
    ∃ c, compile source haltOnError = .ok c ∧ c.arena.Owned ∧
      ∀ d ∈ c.diagnostics, d.isInternal = false := by
  obtain ⟨lost, all, hforest, -, -⟩ := Parser.parse_holdsForest source
  obtain ⟨c, hcompile, howned, hexternal⟩ := exists_compile source haltOnError
  have hkeeps := Parser.expression_keeps
  exact ⟨hkeeps, hkeeps.operand, hkeeps.tail, hforest.owned, c, hcompile, howned, hexternal⟩

end ProcLang
