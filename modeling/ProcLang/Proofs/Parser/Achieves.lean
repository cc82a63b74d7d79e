import ProcLang.Proofs.Parser.Constructs
import ProcLang.Proofs.Token.Words

/-!
# ProcLang.Proofs.Parser.Achieves

**Running a parser forward.** `Achieves p s Q` says that `p`, started in `s`, succeeds with a result
and a state of which `Q` holds. It has an equation for each way of building a parser, so that the
text of a parser is run step by step on tokens that are known.

What is ahead is given by words: `s.Spells words` says that the unread tokens are `words`, and
`s.Onward words s'` that a parser came from `s` to `s'`, where `words` are left, without an error.
`Takes p words follow P` is what is to be shown of a parser: where `words` are ahead, and what
follows is as `follow` says, it takes exactly `words`.
-/

namespace ProcLang

namespace Parser

open State

variable {α β σ ι : Type}

/-- A parser succeeds, and `Q` holds of what it gives and of the state it leaves. -/
def Achieves (p : Parser α) (s : State) (Q : α → State → Prop) : Prop :=
  ∃ x s', Yields p s x s' ∧ Q x s'

theorem Achieves.imp {p : Parser α} {s : State} {Q R : α → State → Prop} (h : Achieves p s Q)
    (hQ : ∀ x s', Q x s' → R x s') : Achieves p s R := by
  obtain ⟨x, s', hrun, hx⟩ := h
  exact ⟨x, s', hrun, hQ x s' hx⟩

section

variable {p : Parser α} {s : State} {Q : α → State → Prop} {R : β → State → Prop}

@[simp] theorem achieves_pure {x : α} : Achieves (pure x) s Q ↔ Q x s := by
  simp [Achieves]

@[simp] theorem achieves_bind {f : α → Parser β} :
    Achieves (p >>= f) s R ↔ Achieves p s fun x s₁ => Achieves (f x) s₁ R := by
  simp only [Achieves, yields_bind]
  constructor
  · rintro ⟨y, s', ⟨x, s₁, hx, hy⟩, hR⟩
    exact ⟨x, s₁, hx, y, s', hy, hR⟩
  · rintro ⟨x, s₁, hx, y, s', hy, hR⟩
    exact ⟨y, s', ⟨x, s₁, hx, hy⟩, hR⟩

@[simp] theorem achieves_map {f : α → β} :
    Achieves (f <$> p) s R ↔ Achieves p s fun x s' => R (f x) s' := by
  rw [← bind_pure_comp, achieves_bind]
  simp only [achieves_pure]

@[simp] theorem achieves_discard {Q : PUnit → State → Prop} :
    Achieves (discard p) s Q ↔ Achieves p s fun _ s' => Q ⟨⟩ s' :=
  achieves_map (f := fun _ => PUnit.unit)

@[simp] theorem achieves_get {Q : State → State → Prop} :
    Achieves (get : Parser State) s Q ↔ Q s s := by
  simp [Achieves]

@[simp] theorem achieves_modify {f : State → State} {Q : PUnit → State → Prop} :
    Achieves (modify f : Parser PUnit) s Q ↔ Q ⟨⟩ (f s) := by
  simp only [Achieves, yields_modify]
  constructor
  · rintro ⟨_, _, rfl, hQ⟩
    exact hQ
  · exact fun hQ => ⟨⟨⟩, _, rfl, hQ⟩

@[simp] theorem achieves_current {Q : Token → State → Prop} :
    Achieves current s Q ↔ Q s.current s := by
  simp [Achieves]

@[simp] theorem achieves_advance {Q : Token → State → Prop} :
    Achieves advance s Q ↔ Q s.current s.advance.2 := by
  simp only [Achieves, yields_advance]
  constructor
  · rintro ⟨token, s', hadvance, hQ⟩
    rw [← s.advance_fst, hadvance]
    exact hQ
  · exact fun hQ => ⟨_, _, rfl, s.advance_fst ▸ hQ⟩

@[simp] theorem achieves_skip {Q : Unit → State → Prop} :
    Achieves skip s Q ↔ Q () s.advance.2 := by
  simp only [Achieves, yields_skip]
  constructor
  · rintro ⟨_, _, rfl, hQ⟩
    exact hQ
  · exact fun hQ => ⟨(), _, rfl, hQ⟩

@[simp] theorem achieves_spanFrom {start : Position} {Q : Span → State → Prop} :
    Achieves (spanFrom start) s Q ↔ Q ⟨start, s.lastStop⟩ s := by
  simp [Achieves]

@[simp] theorem achieves_note {event : Event} {Q : Unit → State → Prop} :
    Achieves (note event) s Q ↔ Q () (s.note event) := by
  simp only [Achieves, yields_note]
  constructor
  · rintro ⟨_, _, rfl, hQ⟩
    exact hQ
  · exact fun hQ => ⟨(), _, rfl, hQ⟩

@[simp] theorem achieves_expect {kind : TokenKind} {expected : String} {Q : Token → State → Prop} :
    Achieves (expect kind expected) s Q ↔ s.current.kind = kind ∧ Q s.current s.advance.2 := by
  simp only [Achieves, yields_expect]
  constructor
  · rintro ⟨token, s', ⟨hkind, hadvance⟩, hQ⟩
    rw [← s.advance_fst, hadvance]
    refine ⟨?_, hQ⟩
    rw [← hkind, ← s.advance_fst, hadvance]
  · rintro ⟨hkind, hQ⟩
    exact ⟨_, _, ⟨hkind, rfl⟩, s.advance_fst ▸ hQ⟩

@[simp] theorem achieves_add {family : Family} {node : Node family}
    {Q : NodeId family → State → Prop} : Achieves (add family node) s Q ↔
      Q (s.arena.add family node).1 (s.added family node) := by
  simp [Achieves]

/-- A parser that succeeds has nothing to recover from. -/
theorem Achieves.recovering (h : Achieves p s Q) (consume stopBefore : List TokenKind)
    (fallback : α) : Achieves (recovering consume stopBefore fallback p) s Q := by
  obtain ⟨x, s', hrun, hQ⟩ := h
  refine ⟨x, s', ?_, hQ⟩
  rw [Yields, Parser.recovering, outcome_tryCatch, show p.outcome s = _ from hrun]

/-- A recursive parser is its unfolding to a depth beyond the number of unread tokens. -/
theorem achieves_recursive {f : (ι → Parser α) → ι → Parser α} {i : ι} :
    Achieves (recursive f i) s Q ↔ Achieves (unfold f (s.unread.length + 1) i) s Q := by
  simp only [Achieves, yields_recursive]

/-- A larger bound does not change what a loop gives. -/
theorem yields_loopWithin_mono {step : σ → Parser (Round σ)} {n m : Nat} (hle : n ≤ m) {v last : σ}
    {s s' : State} (h : Yields (loopWithin step n v) s last s') :
    Yields (loopWithin step m v) s last s' := by
  induction n generalizing m v s with
  | zero => simp [loopWithin] at h
  | succ n ih =>
      obtain ⟨m, rfl⟩ : ∃ k, m = k + 1 := ⟨m - 1, by omega⟩
      simp only [loopWithin, yields_bind] at h ⊢
      obtain ⟨round, s₁, hround, hrest⟩ := h
      refine ⟨round, s₁, hround, ?_⟩
      cases round with
      | more next => exact ih (Nat.le_of_succ_le_succ hle) hrest
      | done last => exact hrest

/-- **One round of a loop.** It takes a token and the loop goes on, or it is the last one. -/
theorem achieves_loop {step : σ → Parser (Round σ)} {v : σ} {Q : σ → State → Prop}
    (h : Achieves (step v) s fun round s₁ => match round with
      | .more next => s₁.unread.length < s.unread.length ∧ Achieves (loop step next) s₁ Q
      | .done last => Q last s₁) : Achieves (loop step v) s Q := by
  obtain ⟨round, s₁, hround, hrest⟩ := h
  cases round with
  | more next =>
      obtain ⟨htakes, last, s', hrun, hQ⟩ := hrest
      refine ⟨last, s', ?_, hQ⟩
      simp only [loop, yields_get_bind] at hrun ⊢
      exact yields_bind.2 ⟨_, s₁, hround, yields_loopWithin_mono htakes hrun⟩
  | done last =>
      refine ⟨last, s₁, ?_, hrest⟩
      simp only [loop, yields_get_bind]
      exact yields_bind.2 ⟨_, s₁, hround, yields_pure.2 ⟨rfl, rfl⟩⟩

end

/-! ### Words ahead -/

/-- The kind of the token in front of which some words are still to be read. -/
def nextKind : List Word → TokenKind
  | [] => .endOfFile
  | word :: _ => word.kind

namespace State

/-- The unread tokens are some words, and the end of the text is behind them. -/
structure Spells (s : State) (words : List Word) : Prop where
  ending : s.ending.kind = .endOfFile
  unread : List.Forall₂ Token.Is s.unread words

/-- A parser came from a state to another one without an error. It has read up to some words. -/
structure Onward (s : State) (words : List Word) (s' : State) : Prop where
  spells : s'.Spells words
  arena : s.arena.ExtendedBy s'.arena
  errors : s'.errors = s.errors

theorem get?_added (s : State) (family : Family) (node : Node family) :
    (s.added family node).arena.get? (s.arena.add family node).1 = some node :=
  s.arena.get?_add family node

theorem extendedBy_added (s : State) (family : Family) (node : Node family) :
    s.arena.ExtendedBy (s.added family node).arena :=
  s.arena.extendedBy_add family node

variable {s s₁ s' : State} {word : Word} {words rest : List Word}

theorem Spells.length_eq (h : s.Spells words) : s.unread.length = words.length :=
  h.unread.length_eq

theorem Spells.current_kind (h : s.Spells words) : s.current.kind = nextKind words := by
  rw [current]
  cases words with
  | nil =>
      rw [List.forall₂_nil_right_iff.1 h.unread, List.headD_nil]
      exact h.ending
  | cons word words =>
      obtain ⟨token, tokens, hword, -, hunread⟩ := List.forall₂_cons_right_iff.1 h.unread
      rw [hunread]
      exact hword.1

theorem Spells.current_text (h : s.Spells (word :: words)) : s.current.text = word.text := by
  obtain ⟨token, tokens, hword, -, hunread⟩ := List.forall₂_cons_right_iff.1 h.unread
  rw [current_of_unread hunread]
  exact hword.2

/-- The next word is taken. -/
theorem Spells.advance (h : s.Spells (word :: words)) : s.Onward words s.advance.2 := by
  obtain ⟨token, tokens, -, hrest, hunread⟩ := List.forall₂_cons_right_iff.1 h.unread
  obtain ⟨-, htokens, hreads⟩ := reads_advance hunread
  exact ⟨⟨hreads.ending_kind h.ending, htokens ▸ hrest⟩, hreads.arena, advance_errors s⟩

theorem Spells.takes_token (h : s.Spells (word :: words)) :
    s.advance.2.unread.length < s.unread.length := by
  rw [h.length_eq, h.advance.spells.length_eq]
  exact Nat.lt_succ_self _

theorem Onward.refl (h : s.Spells words) : s.Onward words s := ⟨h, .refl _, rfl⟩

theorem Onward.trans (h₁ : s.Onward words s₁) (h₂ : s₁.Onward rest s') : s.Onward rest s' :=
  ⟨h₂.spells, h₁.arena.trans h₂.arena, h₂.errors.trans h₁.errors⟩

theorem Onward.skip (h : s.Onward (word :: words) s') : s.Onward words s'.advance.2 :=
  h.trans h.spells.advance

theorem Onward.add (h : s.Onward words s') (family : Family) (node : Node family) :
    s.Onward words (s'.added family node) :=
  ⟨⟨h.spells.ending, h.spells.unread⟩, h.arena.trans (s'.extendedBy_added family node), h.errors⟩

theorem Onward.note (h : s.Onward words s') (event : Event) : s.Onward words (s'.note event) :=
  ⟨⟨h.spells.ending, h.spells.unread⟩, h.arena, h.errors⟩

end State

/-- Where some words are ahead and `follow` holds of what is behind them, a parser takes exactly the
words, and `P` holds of the arena and of what the parser gives. -/
def Takes (p : Parser α) (words : List Word) (follow : List Word → Prop) (P : Arena → α → Prop) :
    Prop :=
  ∀ s rest, s.Spells (words ++ rest) → follow rest →
    Achieves p s fun x s' => s.Onward rest s' ∧ P s'.arena x

theorem Takes.achieves {p : Parser α} {words rest : List Word} {follow : List Word → Prop}
    {P : Arena → α → Prop} (h : Takes p words follow P) {s : State} {Q : α → State → Prop}
    (hs : s.Spells (words ++ rest)) (hfollow : follow rest)
    (hQ : ∀ x s', s.Onward rest s' → P s'.arena x → Q x s') : Achieves p s Q :=
  (h s rest hs hfollow).imp fun x s' hx => hQ x s' hx.1 hx.2

/-! ### Lists of things -/

/-- **A loop that goes on for each of some things.** If it goes on behind the words of one of them
with the node for it put to the others, it goes on behind the words of all of them with a node for
each. Up to `n` words are left. -/
theorem achieves_loop_each {ξ : Type} {step : σ → Parser (Round σ)} (put : σ → List β → σ)
    (words : ξ → List Word) (stands : Arena → ξ → β → Prop) (hnone : ∀ v, put v [] = v)
    (hput : ∀ v y ys, put (put v [y]) ys = put v (y :: ys))
    (hextend : ∀ {a b x y}, a.ExtendedBy b → stands a x y → stands b x y) {n : Nat} {xs : List ξ}
    (hround : ∀ x ∈ xs, ∀ {v s rest Q}, s.Spells (words x ++ rest) → (words x ++ rest).length ≤ n →
      (∀ y s', s.Onward rest s' → stands s'.arena x y → Achieves (loop step (put v [y])) s' Q) →
      Achieves (loop step v) s Q)
    {v : σ} {s : State} {rest : List Word} {Q : σ → State → Prop}
    (hs : s.Spells (xs.flatMap words ++ rest)) (hn : (xs.flatMap words ++ rest).length ≤ n)
    (hQ : ∀ ys s', s.Onward rest s' → List.Forall₂ (stands s'.arena) xs ys →
      Achieves (loop step (put v ys)) s' Q) :
    Achieves (loop step v) s Q := by
  induction xs generalizing v s with
  | nil =>
      have hdone := hQ [] s (.refl hs) .nil
      rwa [hnone] at hdone
  | cons x xs ih =>
      obtain ⟨hfirst, hothers⟩ := List.forall_mem_cons.1 hround
      rw [List.flatMap_cons, List.append_assoc] at hs hn
      refine hfirst hs hn fun y s₁ h₁ hy => ?_
      refine ih hothers h₁.spells ?_ fun ys s' h' hys => ?_
      · rw [List.length_append] at hn
        omega
      · have hdone := hQ (y :: ys) s' (h₁.trans h') (.cons (hextend h'.arena hy) hys)
        rwa [← hput] at hdone

end Parser

end ProcLang
