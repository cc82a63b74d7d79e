import ProcLang.Proofs.Lockstep.Parser
import ProcLang.Proofs.Token.Respelled

/-!
# ProcLang.Proofs.Lockstep.Separators

**Semicolons and line breaks separate alike** (`parse_separators`). In accepted texts and in those with
errors, a semicolon may be replaced by a line break: the parser reports the same kinds of errors in the
same order and builds the same tree, but for places. Only a semicolon that the parser rejects has to stay,
since it is taken then, and a line break would be left for recovery (`parse_separators_rejected`).
-/

namespace ProcLang

section

variable (source : String)

/-- A semicolon that the parser does not reject. -/
def Separates (token : Token) : Prop :=
  token.kind = .semicolon ∧ ∀ d ∈ (parse source).errors, d.rejects token = false

instance : DecidablePred (Separates source) := fun token =>
  inferInstanceAs (Decidable (token.kind = .semicolon ∧
    ∀ d ∈ (parse source).errors, d.rejects token = false))

/-- Nothing is left of places, and the semicolons that the parser does not reject are exchanged. -/
def Blur.separators : Blur := ⟨fun _ => Position.origin, Separates source⟩

variable {source}

/-- A token and the word that is written for it stand in the same place. -/
theorem Token.matches_of_softWord {token token' : Token}
    (h : token'.word = softWord (Separates source) token) :
    token.Matches (Blur.separators source) token' := by
  unfold softWord at h
  split at h
  · rename_i hchosen
    obtain ⟨hkind, -⟩ := Prod.mk.inj h
    exact .exchanged ⟨hchosen, hchosen.1, hkind, rfl, rfl⟩
  · obtain ⟨hkind, htext⟩ := Prod.mk.inj h
    exact .same ⟨hkind.symm, htext.symm, rfl, rfl⟩

end

/-- **Line breaks for semicolons.** In a source text, put a line break in place of each semicolon that
the parser does not reject. Then the parser reports as many errors, with the same names, and builds the
same tree, but for the places in its spans. -/
theorem parse_separators (source : String) :
    (parse source).errors.map (·.name) =
        (parse (Token.soften (Separates source) source)).errors.map (·.name) ∧
      (parse source).arena.mapPlaces (fun _ => Position.origin) =
        (parse (Token.soften (Separates source) source)).arena.mapPlaces fun _ => Position.origin := by
  have hwords := Token.map_word_soften (Separates source) (fun _ h => h.1) source
  have htokens : List.Forall₂ (Token.Matches (Blur.separators source)) (Token.tokenStream source).tokens
      (Token.tokenStream (Token.soften (Separates source) source)).tokens := by
    rw [← List.forall₂_eq_eq_eq, List.forall₂_map_left_iff, List.forall₂_map_right_iff] at hwords
    exact hwords.flip.imp fun _ _ h => Token.matches_of_softWord h
  have hending : (Token.tokenStream source).ending.Matches (Blur.separators source)
      (Token.tokenStream (Token.soften (Separates source) source)).ending := by
    obtain ⟨hkind, htext⟩ := Prod.mk.inj ((Token.word_ending source).trans (Token.word_ending _).symm)
    exact .same ⟨hkind, htext, rfl, rfl⟩
  obtain ⟨harena, herrors⟩ := parse_matches htokens hending fun d hd token h => h.2 d hd
  refine ⟨?_, harena⟩
  rw [← List.forall₂_eq_eq_eq, List.forall₂_map_left_iff, List.forall₂_map_right_iff]
  exact herrors.imp fun _ _ h => h.name

/-- A semicolon in place of a type is rejected and taken, and recovery drops the declaration behind it.
With a line break in its place the declaration is read. -/
theorem parse_separators_rejected :
    let source := "var a : ; var b\n"
    let source' := Token.soften (·.kind = .semicolon) source
    source' = "var a : \n var b\n" ∧
      (parse source).errors.map (·.name) = (parse source').errors.map (·.name) ∧
      (parse source).arena.program.declarations = [] ∧
      (parse source').arena.program.declarations = [.variable ⟨0⟩] := by
  decide +kernel

end ProcLang
