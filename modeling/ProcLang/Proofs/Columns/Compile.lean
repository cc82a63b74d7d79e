import ProcLang.Proofs.Columns.Parser
import ProcLang.Proofs.Columns.Passes
import ProcLang.Proofs.Passes.External
import ProcLang.Proofs.Passes.Silent

/-!
# ProcLang.Proofs.Columns.Compile

**Only the tokens of a source text matter** (`compile_words`). Two texts whose tokens agree in kinds
and texts may differ in blanks and comments. The parser reads them as the same tree, but for columns,
and the analysis of a tree goes along with any change of its columns; so it is enough to compare both
compilations with what is left of them without columns.
-/

namespace ProcLang

variable {source source' : String} {haltOnError : Bool}

/-- Diagnostics that differ in columns only are about the same lines. -/
theorem forall₂_of_noColumn {ds ds' : List Diagnostic}
    (h : ds.map (Diagnostic.mapColumns noColumn) = ds'.map (Diagnostic.mapColumns noColumn)) :
    List.Forall₂ (fun d d' => d.cause = d'.cause ∧ d.position.line = d'.position.line) ds ds' := by
  rw [← List.forall₂_eq_eq_eq, List.forall₂_map_left_iff, List.forall₂_map_right_iff] at h
  refine h.imp fun d d' heq => ?_
  obtain ⟨hcause, hplace⟩ := Diagnostic.mk.inj heq
  exact ⟨hcause, (Position.mk.inj hplace).1⟩

/-- Trees that differ in columns only are analysed alike. -/
theorem analyze_noColumn {a a' : Arena} (harena : a.mapColumns noColumn = a'.mapColumns noColumn)
    {analysis analysis' : Analysis} (hrun : analyze a haltOnError = .ok analysis)
    (hrun' : analyze a' haltOnError = .ok analysis') :
    analysis.mapColumns noColumn = analysis'.mapColumns noColumn := by
  have hlines := analyze_mapColumns (f := noColumn) hrun
  rw [harena, analyze_mapColumns hrun'] at hlines
  exact (Except.ok.inj hlines).symm

/-- Source texts with the same tokens are compiled alike. -/
theorem compile_noColumn
    (hwords : (Token.tokenize source).map Token.word = (Token.tokenize source').map Token.word)
    {c c' : Compilation} (hc : compile source haltOnError = .ok c)
    (hc' : compile source' haltOnError = .ok c') :
    c.haltedAt = c'.haltedAt ∧
      c.diagnostics.map (Diagnostic.mapColumns noColumn) =
        c'.diagnostics.map (Diagnostic.mapColumns noColumn) ∧
      c.arena.mapColumns noColumn = c'.arena.mapColumns noColumn := by
  obtain ⟨hparsed, herrors⟩ := parse_alike hwords
  have hnil : (parse source).errors = [] ↔ (parse source').errors = [] := by
    rw [← List.map_eq_nil_iff, herrors, List.map_eq_nil_iff]
  rcases compile_cases hc with ⟨hne, hhalted, hdiagnostics, harena⟩ |
      ⟨heq, analysis, hrun, hhalted, hdiagnostics, harena⟩ <;>
    rcases compile_cases hc' with ⟨hne', hhalted', hdiagnostics', harena'⟩ |
      ⟨heq', analysis', hrun', hhalted', hdiagnostics', harena'⟩
  · rw [hhalted, hhalted', hdiagnostics, hdiagnostics', harena, harena']
    exact ⟨rfl, herrors, hparsed⟩
  · exact absurd (hnil.2 heq') hne
  · exact absurd (hnil.1 heq) hne'
  · obtain ⟨hlines, hlists, hstages, -⟩ := Analysis.mk.inj (analyze_noColumn hparsed hrun hrun')
    rw [hhalted, hhalted', hdiagnostics, hdiagnostics', harena, harena']
    exact ⟨hstages, hlists, hlines⟩

/-- **Only the tokens matter.** For source texts whose tokens agree in kinds and texts, both
compilations come to their end and stop at the same stage; they report the same causes on the same
lines, in the same order; and their trees are equal but for the columns in spans. -/
theorem compile_words
    (hwords : (Token.tokenize source).map Token.word = (Token.tokenize source').map Token.word)
    (haltOnError : Bool) :
    ∃ c c', compile source haltOnError = .ok c ∧ compile source' haltOnError = .ok c' ∧
      c.haltedAt = c'.haltedAt ∧
      List.Forall₂ (fun d d' => d.name = d'.name ∧ d.message = d'.message ∧
        d.position.line = d'.position.line) c.diagnostics c'.diagnostics ∧
      c.arena.mapColumns noColumn = c'.arena.mapColumns noColumn := by
  obtain ⟨c, hc, -, -⟩ := exists_compile source haltOnError
  obtain ⟨c', hc', -, -⟩ := exists_compile source' haltOnError
  obtain ⟨hhalted, hdiagnostics, harena⟩ := compile_noColumn hwords hc hc'
  refine ⟨c, c', hc, hc', hhalted, ?_, harena⟩
  exact (forall₂_of_noColumn hdiagnostics).imp fun d d' ⟨hcause, hline⟩ =>
    ⟨congrArg Cause.name hcause, congrArg Cause.message hcause, hline⟩

/-- A comment, and more blanks, in a text with an error. -/
theorem compile_words_comment :
    ∃ c c', compile "var a is b\n" true = .ok c ∧
      compile "var  a is\tb // not declared\r\n" true = .ok c' ∧
      c.haltedAt = c'.haltedAt ∧
      List.Forall₂ (fun d d' => d.name = d'.name ∧ d.message = d'.message ∧
        d.position.line = d'.position.line) c.diagnostics c'.diagnostics ∧
      c.arena.mapColumns noColumn = c'.arena.mapColumns noColumn :=
  compile_words (by decide +kernel) true

end ProcLang
