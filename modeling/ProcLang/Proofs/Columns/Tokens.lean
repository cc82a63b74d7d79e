import Mathlib.Data.List.Forall2
import ProcLang.Proofs.Token.Reading

/-!
# ProcLang.Proofs.Columns.Tokens

**The kinds of the tokens tell their lines** (`lines_tokenize`). Only a line break leads to another
line: blanks and comments stay on theirs. So the tokens of two texts that agree in kinds and texts
stand on the same lines (`tokenStream_alike`).
-/

namespace ProcLang

namespace Token

/-- Two tokens of one kind, with one text, on one line. -/
structure Alike (token token' : Token) : Prop where
  kind : token.kind = token'.kind
  text : token.text = token'.text
  line : token.start.line = token'.start.line

/-- A token stops on the line on which it starts. -/
theorem stop_line (token : Token) : token.stop.line = token.start.line := by
  unfold stop
  split <;> rfl

theorem Alike.stop {token token' : Token} (h : token.Alike token') :
    token.stop.line = token'.stop.line := by
  rw [stop_line, stop_line, h.line]

/-! ### The line of a token -/

/-- The line behind a token of the given kind. -/
def lineBehind (line : Nat) (kind : TokenKind) : Nat :=
  if kind = .newline then line + 1 else line

/-- The lines of tokens of the given kinds that follow each other. -/
def linesFrom : Nat → List TokenKind → List Nat
  | _, [] => []
  | line, kind :: kinds => line :: linesFrom (lineBehind line kind) kinds

theorem placeAfter_line (place : Position) (kind : TokenKind) (length : Nat) :
    (placeAfter place kind length).line = lineBehind place.line kind := by
  unfold placeAfter lineBehind
  split
  · rfl
  · rename_i hkind
    rw [if_neg hkind]
    rfl

/-- A token stands on the line on which the gap in front of it begins, and its kind tells the line
behind it. -/
theorem readToken_lines (cs : List Char) (place : Position) :
    (readToken cs place).token.start.line = place.line ∧
      (readToken cs place).next.line = lineBehind place.line (readToken cs place).token.kind := by
  cases hbehind : behindGap cs with
  | nil =>
      obtain ⟨comment, hread⟩ := readToken_of_behindGap_nil place hbehind
      rw [hread]
      exact ⟨rfl, rfl⟩
  | cons c rest =>
      obtain ⟨comment, hread⟩ := readToken_of_behindGap_cons place hbehind
      rw [hread]
      exact ⟨rfl, placeAfter_line _ _ _⟩

/-- The lines of what is read from a place on follow from the kinds. -/
theorem lines_streamFrom (fuel : Nat) (cs : List Char) (place : Position) :
    ((streamFrom fuel cs place).tokens ++ [(streamFrom fuel cs place).ending]).map (·.start.line) =
      linesFrom place.line
        (((streamFrom fuel cs place).tokens ++ [(streamFrom fuel cs place).ending]).map (·.kind)) := by
  induction fuel generalizing cs place with
  | zero => rfl
  | succ fuel ih =>
      obtain ⟨hline, hnext⟩ := readToken_lines cs place
      unfold streamFrom
      dsimp only
      split
      · simp only [List.nil_append, List.map_cons, List.map_nil, linesFrom, hline]
      · simp only [List.cons_append, List.map_cons, linesFrom, hline, ih, hnext]

/-- **The kinds of the tokens of a text tell their lines.** -/
theorem lines_tokenize (source : String) :
    (tokenize source).map (·.start.line) = linesFrom 1 ((tokenize source).map (·.kind)) :=
  lines_streamFrom _ _ _

/-! ### Two texts with the same words -/

theorem forall₂_alike {tokens tokens' : List Token}
    (hwords : tokens.map word = tokens'.map word)
    (hlines : tokens.map (·.start.line) = tokens'.map (·.start.line)) :
    List.Forall₂ Alike tokens tokens' := by
  induction tokens generalizing tokens' with
  | nil =>
      obtain rfl := List.map_eq_nil_iff.1 hwords.symm
      exact .nil
  | cons token tokens ih =>
      obtain ⟨token', tokens', rfl, hword, hwords⟩ := List.map_eq_cons_iff.1 hwords.symm
      obtain ⟨hline, hlines⟩ := List.cons.inj hlines
      obtain ⟨hkind, htext⟩ := Prod.mk.inj hword
      exact .cons ⟨hkind.symm, htext.symm, hline⟩ (ih hwords.symm hlines)

/-- **Tokens that agree in kinds and texts** stand on the same lines. -/
theorem tokenStream_alike {source source' : String}
    (hwords : (tokenize source).map word = (tokenize source').map word) :
    List.Forall₂ Alike (tokenStream source).tokens (tokenStream source').tokens ∧
      (tokenStream source).ending.Alike (tokenStream source').ending := by
  have hkinds : (tokenize source).map (·.kind) = (tokenize source').map (·.kind) := by
    have hfirst := congrArg (List.map Prod.fst) hwords
    rwa [List.map_map, List.map_map] at hfirst
  have hlines : (tokenize source).map (·.start.line) = (tokenize source').map (·.start.line) := by
    rw [lines_tokenize, lines_tokenize, hkinds]
  have halike := forall₂_alike hwords hlines
  simp only [tokenize] at halike
  have hlength : (tokenStream source).tokens.length = (tokenStream source').tokens.length := by
    simpa using halike.length_eq
  have htokens := List.forall₂_take_append _ _ _ halike
  have hending := List.forall₂_drop_append _ _ _ halike
  rw [← hlength, List.take_left] at htokens
  rw [← hlength, List.drop_left] at hending
  exact ⟨htokens, (List.forall₂_cons.1 hending).1⟩

end Token

end ProcLang
