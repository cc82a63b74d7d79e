import ProcLang.Proofs.Parser.Reads

/-!
# ProcLang.Proofs.Places.Tokens

**Tokens begin one behind the other** (`tokenize_sorted`), the end of the text included. Places are
ordered as they are read: what follows in a text does not begin earlier. So whoever takes tokens only
comes to later places (`State.At.skips`).
-/

namespace ProcLang

namespace Position

variable {p q r : Position}

theorem le_iff : p ≤ q ↔ p.line < q.line ∨ (p.line = q.line ∧ p.column ≤ q.column) := Iff.rfl

protected theorem le_refl (p : Position) : p ≤ p := Or.inr ⟨rfl, Nat.le_refl _⟩

protected theorem le_trans (h₁ : p ≤ q) (h₂ : q ≤ r) : p ≤ r := by
  rw [le_iff] at *
  omega

end Position

namespace Token

/-- A token of the text begins at the place. -/
def Begins (source : String) (p : Position) : Prop := ∃ token ∈ tokenize source, p = token.start

/-- A longer text does not end earlier. -/
theorem positionAfter_le_append (before w : List Char) :
    positionAfter before ≤ positionAfter (before ++ w) := by
  by_cases hline : '\n' ∈ w
  · have hpos := List.count_pos_iff.2 hline
    refine Or.inl ?_
    simp only [positionAfter, List.count_append]
    omega
  · rw [positionAfter_append hline]
    exact Position.le_right _ _

/-- All tokens of a stream, the end of the text being the last one. -/
def Stream.all (stream : Stream) : List Token := stream.tokens ++ [stream.ending]

/-- The tokens behind a text begin behind it, each of them behind those in front of it. -/
theorem streamFrom_sorted (fuel : Nat) (before cs : List Char) :
    (∀ token ∈ (streamFrom fuel cs (positionAfter before)).all, positionAfter before ≤ token.start) ∧
      (streamFrom fuel cs (positionAfter before)).all.Pairwise fun s t => s.start ≤ t.start := by
  induction fuel generalizing before cs with
  | zero => simpa [streamFrom, Stream.all] using Position.le_refl _
  | succ fuel ih =>
      rw [streamFrom]
      rcases readToken_cases before cs with ⟨-, hkind, -, hstart⟩ | ⟨piece, htoken, -, -, hfits, hnext⟩
      · simp only [hkind, if_true, Stream.all]
        simpa [hstart] using positionAfter_le_append before cs
      · have hkind : (readToken cs (positionAfter before)).token.kind ≠ .endOfFile := by
          rw [htoken]
          exact hfits.notEnding
        obtain ⟨hbehind, hsorted⟩ :=
          ih (before ++ piece.chars) (readToken cs (positionAfter before)).rest
        rw [← hnext] at hbehind hsorted
        have hplaced := hfits.placed
        have hfirst : positionAfter before ≤ piece.token.start :=
          hplaced ▸ positionAfter_le_append before piece.gap
        -- what follows begins behind the whole piece
        have hrest : ∀ token ∈ (streamFrom fuel (readToken cs (positionAfter before)).rest
            (readToken cs (positionAfter before)).next).all, piece.token.start ≤ token.start := by
          intro token hmem
          refine Position.le_trans ?_ (hbehind token hmem)
          rw [hplaced, hnext, Piece.chars, ← List.append_assoc]
          exact positionAfter_le_append _ _
        simp only [hkind, if_false, Stream.all, List.cons_append]
        rw [htoken]
        refine ⟨fun token hmem => ?_, List.pairwise_cons.2 ⟨hrest, hsorted⟩⟩
        rcases List.mem_cons.1 hmem with rfl | hmem
        · exact hfirst
        · exact Position.le_trans hfirst (hrest token hmem)

/-- **Tokens begin one behind the other.** -/
theorem tokenize_sorted (source : String) :
    (tokenize source).Pairwise fun s t => s.start ≤ t.start :=
  (streamFrom_sorted (source.toList.length + 1) [] source.toList).2

end Token

namespace Parser

open State

variable {source : String} {s s' : State} {w : List Token}

/-- The tokens that are left, with the end of the text. -/
theorem State.At.suffix (h : s.At source) : s.unread ++ [s.ending] <:+ Token.tokenize source := by
  obtain ⟨front, hfront⟩ := h.unread
  refine ⟨front, ?_⟩
  rw [← List.append_assoc, hfront, h.ending]
  rfl

theorem State.current_mem (s : State) : s.current ∈ s.unread ++ [s.ending] := by
  cases hunread : s.unread <;> simp [current, hunread]

/-- The current token is one of the text. -/
theorem State.At.begins (h : s.At source) : Token.Begins source s.current.start :=
  ⟨s.current, h.suffix.subset s.current_mem, rfl⟩

/-- Taking tokens leads to a later place in the same text. -/
theorem State.At.skips (h : s.At source) (hskips : s.Skips w s') :
    s'.At source ∧ s.current.start ≤ s'.current.start := by
  have hunread := hskips.reads.unread
  refine ⟨⟨?_, hskips.reads.ending.trans h.ending⟩, ?_⟩
  · exact (hunread ▸ List.suffix_append w s'.unread : s'.unread <:+ s.unread).trans h.unread
  · have hsorted := (Token.tokenize_sorted source).sublist h.suffix.sublist
    cases w with
    | nil =>
        have hsame : s'.current = s.current := by
          rw [current, current, hunread, hskips.reads.ending, List.nil_append]
        rw [hsame]
        exact Position.le_refl _
    | cons token rest =>
        rw [current_of_unread hunread]
        rw [hunread, List.cons_append, List.cons_append, List.pairwise_cons] at hsorted
        refine hsorted.1 _ ?_
        rw [List.append_assoc, ← hskips.reads.ending]
        exact List.mem_append_right _ s'.current_mem

end Parser

end ProcLang
