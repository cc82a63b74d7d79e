import ProcLang.Proofs.Parser.Yields
import ProcLang.Proofs.Token.Coverage
import ProcLang.Proofs.Tree.Extension

/-!
# ProcLang.Proofs.Parser.Reads

**What a successful run does to the state.** `s.Reads w s'` says that between the two states the
tokens `w` were taken, that nodes were only added, and that the end of the text is the same. The
relation composes (`Reads.trans`), and each elementary step of a parser is in it.

A parser that works on a source text stands at some place among its tokens (`State.At`); there the
token behind the last one is the end of the text.
-/

namespace ProcLang

namespace Parser

namespace State

/-- A state at some place among the tokens of a source text. -/
structure At (s : State) (source : String) : Prop where
  unread : s.unread <:+ (Token.tokenStream source).tokens
  ending : s.ending = (Token.tokenStream source).ending

theorem At.ending_kind {s : State} {source : String} (h : s.At source) :
    s.ending.kind = .endOfFile := by
  rw [h.ending]
  exact Token.tokenStream_ending_kind source

/-- Between two states some tokens were taken and nodes were added. -/
structure Reads (s : State) (w : List Token) (s' : State) : Prop where
  unread : s.unread = w ++ s'.unread
  ending : s'.ending = s.ending
  arena : s.arena.ExtendedBy s'.arena

theorem Reads.refl (s : State) : s.Reads [] s := ⟨rfl, rfl, .refl _⟩

theorem Reads.trans {s₀ s₁ s₂ : State} {v w : List Token} (h₁ : s₀.Reads v s₁)
    (h₂ : s₁.Reads w s₂) : s₀.Reads (v ++ w) s₂ where
  unread := by rw [h₁.unread, h₂.unread, List.append_assoc]
  ending := h₂.ending.trans h₁.ending
  arena := h₁.arena.trans h₂.arena

theorem Reads.length_le {s s' : State} {w : List Token} (h : s.Reads w s') :
    s'.unread.length ≤ s.unread.length := by
  rw [h.unread, List.length_append]
  omega

theorem Reads.ending_kind {s s' : State} {w : List Token} {kind : TokenKind} (h : s.Reads w s')
    (hend : s.ending.kind = kind) : s'.ending.kind = kind := by
  rw [h.ending]
  exact hend

/-- Adding a node takes no token. -/
theorem reads_added (s : State) (family : Family) (node : Node family) :
    s.Reads [] (s.added family node) :=
  ⟨rfl, rfl, s.arena.extendedBy_add family node⟩

@[simp] theorem noteComment_unread (s : State) : s.noteComment.unread = s.unread := by
  unfold noteComment
  split <;> rfl

@[simp] theorem noteComment_ending (s : State) : s.noteComment.ending = s.ending := by
  unfold noteComment
  split <;> rfl

@[simp] theorem noteComment_arena (s : State) : s.noteComment.arena = s.arena := by
  unfold noteComment
  split <;> rfl

theorem current_of_unread {s : State} {token : Token} {rest : List Token}
    (h : s.unread = token :: rest) : s.current = token := by
  rw [current, h, List.headD_cons]

/-- What is taken is the current token, also at the end of the text. -/
@[simp] theorem advance_fst (s : State) : s.advance.1 = s.current := by
  rcases s with ⟨_ | ⟨token, rest⟩, _⟩ <;> rfl

/-- Taking a token that is there. -/
theorem advance_of_unread {s : State} {token : Token} {rest : List Token}
    (h : s.unread = token :: rest) :
    s.advance = (token, { s with unread := rest, lastStop := token.stop }.noteComment) := by
  rw [advance, h]

theorem reads_advance {s : State} {token : Token} {rest : List Token}
    (h : s.unread = token :: rest) :
    s.advance.1 = token ∧ s.advance.2.unread = rest ∧ s.Reads [token] s.advance.2 := by
  rw [advance_of_unread h]
  exact ⟨rfl, by simp, by simp [h], by simp, by simp [Arena.ExtendedBy.refl]⟩

@[simp] theorem noteComment_errors (s : State) : s.noteComment.errors = s.errors := by
  unfold noteComment
  split <;> rfl

@[simp] theorem advance_errors (s : State) : s.advance.2.errors = s.errors := by
  rcases s with ⟨_ | ⟨token, rest⟩, _⟩
  · rfl
  · exact noteComment_errors _

@[simp] theorem advance_arena (s : State) : s.advance.2.arena = s.arena := by
  rcases s with ⟨_ | ⟨token, rest⟩, _⟩
  · rfl
  · exact noteComment_arena _

/-- A current token that is not the end of the text is still to be taken. -/
theorem exists_unread_of_current {s : State} (hend : s.ending.kind = .endOfFile)
    (h : s.current.kind ≠ .endOfFile) : ∃ rest, s.unread = s.current :: rest := by
  cases hunread : s.unread with
  | nil =>
      rw [current, hunread, List.headD_nil] at h
      exact absurd hend h
  | cons token rest => exact ⟨rest, by rw [current_of_unread hunread]⟩

/-- Taking a current token that is not the end of the text. -/
theorem reads_advance_of_current {s : State} (hend : s.ending.kind = .endOfFile)
    (hcurrent : s.current.kind ≠ .endOfFile) : s.Reads [s.current] s.advance.2 := by
  obtain ⟨rest, hunread⟩ := exists_unread_of_current hend hcurrent
  exact (reads_advance hunread).2.2

/-! ### Only taking tokens -/

/-- Between two states tokens were taken, and nothing else was done. -/
structure Skips (s : State) (w : List Token) (s' : State) : Prop where
  reads : s.Reads w s'
  arena : s'.arena = s.arena
  errors : s'.errors = s.errors

theorem Skips.refl (s : State) : s.Skips [] s := ⟨.refl s, rfl, rfl⟩

theorem Skips.trans {s₀ s₁ s₂ : State} {v w : List Token} (h₁ : s₀.Skips v s₁)
    (h₂ : s₁.Skips w s₂) : s₀.Skips (v ++ w) s₂ :=
  ⟨h₁.reads.trans h₂.reads, h₂.arena.trans h₁.arena, h₂.errors.trans h₁.errors⟩

theorem skips_note (s : State) (event : Event) : s.Skips [] (s.note event) :=
  ⟨⟨rfl, rfl, .refl _⟩, rfl, rfl⟩

theorem exists_skips_advance (s : State) : ∃ w, s.Skips w s.advance.2 := by
  cases hunread : s.unread with
  | nil =>
      rw [advance, hunread]
      exact ⟨[], .refl s⟩
  | cons token rest =>
      exact ⟨[token], (reads_advance hunread).2.2, s.advance_arena, s.advance_errors⟩

/-- Taking a current token that is not the end of the text. -/
theorem skips_advance_of_current {s : State} (hend : s.ending.kind = .endOfFile)
    (hcurrent : s.current.kind ≠ .endOfFile) : s.Skips [s.current] s.advance.2 :=
  ⟨reads_advance_of_current hend hcurrent, s.advance_arena, s.advance_errors⟩

end State

end Parser

end ProcLang
