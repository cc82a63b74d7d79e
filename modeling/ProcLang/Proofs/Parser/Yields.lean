import ProcLang.Parse.State

/-!
# ProcLang.Proofs.Parser.Yields

**Successful runs of a parser.** `Yields p s x s'` says that `p`, started in the state `s`, gives
`x` and leaves the state `s'`. Each way of building a parser has an equation here that takes such a
run apart into runs of the parts, so that later proofs follow the text of a parser and never look
into its monad.

`Fails p s d s'` says that the parser fails with `d` instead, and leaves `s'`.

Loops and recursion have two lemmas each. `Yields.loop_invariant` and `Yields.recursive_induction`
go from a run to a fact about it. `Rounds.yields_loop` and `yields_recursive` go from enough
knowledge about the rounds to a run: the bounds of both are the number of unread tokens, so it is
enough that every round takes a token.
-/

namespace ProcLang

namespace Parser

variable {α β σ ι : Type}

/-- What a parser gives when started in a state, and the state it leaves. -/
def outcome (p : Parser α) (s : State) : Except Diagnostic α × State := p.run s

/-- A parser started in `s` gives `x` and leaves `s'`. -/
def Yields (p : Parser α) (s : State) (x : α) (s' : State) : Prop := p.outcome s = (.ok x, s')

/-- A parser started in `s` fails with `d` and leaves `s'`. -/
def Fails (p : Parser α) (s : State) (d : Diagnostic) (s' : State) : Prop :=
  p.outcome s = (.error d, s')

/-- A parser succeeds or fails. -/
theorem yields_or_fails (p : Parser α) (s : State) :
    (∃ x s', Yields p s x s') ∨ ∃ d s', Fails p s d s' := by
  rcases hrun : p.outcome s with ⟨d | x, s'⟩
  · exact Or.inr ⟨d, s', hrun⟩
  · exact Or.inl ⟨x, s', hrun⟩

/-! ### Sequences -/

theorem outcome_bind (p : Parser α) (f : α → Parser β) (s : State) :
    (p >>= f).outcome s =
      match p.outcome s with
      | (.ok x, s') => (f x).outcome s'
      | (.error d, s') => (.error d, s') := by
  change ExceptT.bindCont f (p.outcome s).1 (p.outcome s).2 = _
  rcases p.outcome s with ⟨d | x, s'⟩
  · rfl
  · rfl

@[simp] theorem yields_pure {x y : α} {s s' : State} :
    Yields (pure x) s y s' ↔ y = x ∧ s' = s := by
  change (Except.ok x, s) = (Except.ok y, s') ↔ _
  rw [Prod.mk.injEq, Except.ok.injEq, eq_comm, @eq_comm _ s]

theorem yields_bind {p : Parser α} {f : α → Parser β} {s s' : State} {y : β} :
    Yields (p >>= f) s y s' ↔ ∃ x s₁, Yields p s x s₁ ∧ Yields (f x) s₁ y s' := by
  rw [Yields, outcome_bind]
  constructor
  · intro h
    rcases hp : p.outcome s with ⟨d | x, s₁⟩
    · rw [hp] at h
      simp at h
    · rw [hp] at h
      exact ⟨x, s₁, hp, h⟩
  · rintro ⟨x, s₁, hp, hf⟩
    rw [Yields] at hp
    rw [hp]
    exact hf

/-- A sequence fails where its first part does, or where the second part fails after it. -/
theorem fails_bind {p : Parser α} {f : α → Parser β} {s s' : State} {d : Diagnostic} :
    Fails (p >>= f) s d s' ↔
      Fails p s d s' ∨ ∃ x s₁, Yields p s x s₁ ∧ Fails (f x) s₁ d s' := by
  simp only [Fails, Yields, outcome_bind]
  rcases p.outcome s with ⟨d' | x, s₁⟩
  · simp
  · simp [and_assoc]

@[simp] theorem fails_pure {x : α} {s s' : State} {d : Diagnostic} :
    ¬ Fails (pure x : Parser α) s d s' := by
  change ¬ ((Except.ok x, s) = (Except.error d, s'))
  simp

@[simp] theorem fails_throw {d d' : Diagnostic} {s s' : State} :
    Fails (throw d : Parser α) s d' s' ↔ d' = d ∧ s' = s := by
  change (Except.error d, s) = (Except.error d', s') ↔ _
  rw [Prod.mk.injEq, Except.error.injEq, eq_comm, @eq_comm _ s]

@[simp] theorem fails_get {s s' : State} {d : Diagnostic} : ¬ Fails (get : Parser State) s d s' := by
  change ¬ ((Except.ok s, s) = (Except.error d, s'))
  simp

@[simp] theorem fails_modify {f : State → State} {s s' : State} {d : Diagnostic} :
    ¬ Fails (modify f : Parser PUnit) s d s' := by
  change ¬ ((Except.ok PUnit.unit, f s) = (Except.error d, s'))
  simp

@[simp] theorem fails_modifyGet {f : State → α × State} {s s' : State} {d : Diagnostic} :
    ¬ Fails (modifyGet f : Parser α) s d s' := by
  change ¬ ((Except.ok (f s).1, (f s).2) = (Except.error d, s'))
  simp

@[simp] theorem yields_map {f : α → β} {p : Parser α} {s s' : State} {y : β} :
    Yields (f <$> p) s y s' ↔ ∃ x, Yields p s x s' ∧ y = f x := by
  rw [← bind_pure_comp, yields_bind]
  constructor
  · rintro ⟨x, s₁, hp, hy⟩
    obtain ⟨rfl, rfl⟩ := yields_pure.1 hy
    exact ⟨x, hp, rfl⟩
  · rintro ⟨x, hp, rfl⟩
    exact ⟨x, s', hp, yields_pure.2 ⟨rfl, rfl⟩⟩

@[simp] theorem yields_discard {p : Parser α} {s s' : State} {u : PUnit} :
    Yields (discard p) s u s' ↔ ∃ x, Yields p s x s' := by
  change Yields ((fun _ => PUnit.unit) <$> p) s u s' ↔ _
  simp

@[simp] theorem yields_throw {d : Diagnostic} {s s' : State} {x : α} :
    ¬ Yields (throw d : Parser α) s x s' := by
  change ¬ ((Except.error d, s) = (Except.ok x, s'))
  simp

@[simp] theorem yields_get {s s' t : State} : Yields (get : Parser State) s t s' ↔ t = s ∧ s' = s := by
  change ((Except.ok s, s) = (Except.ok t, s')) ↔ _
  simp [eq_comm]

@[simp] theorem yields_modify {f : State → State} {s s' : State} {u : PUnit} :
    Yields (modify f : Parser PUnit) s u s' ↔ s' = f s := by
  change ((Except.ok PUnit.unit, f s) = (Except.ok u, s')) ↔ _
  simp [eq_comm]

@[simp] theorem yields_modifyGet {f : State → α × State} {s s' : State} {x : α} :
    Yields (modifyGet f : Parser α) s x s' ↔ f s = (x, s') := by
  change ((Except.ok (f s).1, (f s).2) = (Except.ok x, s')) ↔ _
  rw [Prod.ext_iff, Prod.ext_iff]
  simp

/-! ### Elementary steps -/

@[simp] theorem yields_current {s s' : State} {token : Token} :
    Yields current s token s' ↔ token = s.current ∧ s' = s := by
  simp only [current, yields_bind, yields_get, yields_pure]
  constructor
  · rintro ⟨_, _, ⟨rfl, rfl⟩, rfl, rfl⟩
    exact ⟨rfl, rfl⟩
  · rintro ⟨rfl, rfl⟩
    exact ⟨_, _, ⟨rfl, rfl⟩, rfl, rfl⟩

@[simp] theorem yields_advance {s s' : State} {token : Token} :
    Yields advance s token s' ↔ s.advance = (token, s') := by
  simp [advance]

@[simp] theorem yields_skip {s s' : State} {u : Unit} :
    Yields skip s u s' ↔ s' = s.advance.2 := by
  simp only [skip, yields_discard, yields_advance]
  constructor
  · rintro ⟨token, h⟩
    rw [h]
  · rintro rfl
    exact ⟨s.advance.1, rfl⟩

@[simp] theorem yields_spanFrom {start : Position} {s s' : State} {span : Span} :
    Yields (spanFrom start) s span s' ↔ span = ⟨start, s.lastStop⟩ ∧ s' = s := by
  simp only [spanFrom, yields_bind, yields_get, yields_pure]
  constructor
  · rintro ⟨_, _, ⟨rfl, rfl⟩, rfl, rfl⟩
    exact ⟨rfl, rfl⟩
  · rintro ⟨rfl, rfl⟩
    exact ⟨_, _, ⟨rfl, rfl⟩, rfl, rfl⟩

@[simp] theorem yields_note {event : Event} {s s' : State} {u : Unit} :
    Yields (note event) s u s' ↔ s' = s.note event := by
  simp [note]

@[simp] theorem yields_raise {d : Diagnostic} {s s' : State} {x : α} :
    ¬ Yields (raise d : Parser α) s x s' := by
  simp [raise, yields_bind]

@[simp] theorem yields_raisePast {d : Diagnostic} {s s' : State} {x : α} :
    ¬ Yields (raisePast d : Parser α) s x s' := by
  simp [raisePast, yields_bind]

@[simp] theorem yields_refuse {expected : String} {s s' : State} {x : α} :
    ¬ Yields (refuse expected : Parser α) s x s' := by
  simp [refuse, yields_bind]

@[simp] theorem yields_stuck {s s' : State} {x : α} : ¬ Yields (stuck : Parser α) s x s' := by
  simp [stuck, yields_bind]

/-- A token of one of some kinds is taken only if it is the current one. -/
@[simp] theorem yields_expectOneOf {kinds : List TokenKind} {expected : String} {s s' : State}
    {token : Token} : Yields (expectOneOf kinds expected) s token s' ↔
      s.current.kind ∈ kinds ∧ s.advance = (token, s') := by
  simp only [expectOneOf, yields_bind, yields_current, Token.isOneOf, List.contains_iff_mem]
  constructor
  · rintro ⟨_, _, ⟨rfl, rfl⟩, h⟩
    split at h
    · exact ⟨‹_›, yields_advance.1 h⟩
    · obtain ⟨d, s₁, -, hthrow⟩ := yields_bind.1 h
      exact absurd hthrow yields_throw
  · rintro ⟨hmem, hadvance⟩
    refine ⟨_, _, ⟨rfl, rfl⟩, ?_⟩
    rw [if_pos hmem]
    exact yields_advance.2 hadvance

@[simp] theorem yields_expect {kind : TokenKind} {expected : String} {s s' : State}
    {token : Token} : Yields (expect kind expected) s token s' ↔
      s.current.kind = kind ∧ s.advance = (token, s') := by
  simp [expect]

/-- The state with a node added to its arena. -/
def State.added (s : State) (family : Family) (node : Node family) : State :=
  { s with arena := (s.arena.add family node).2 }

@[simp] theorem yields_add {family : Family} {node : Node family} {s s' : State}
    {id : NodeId family} : Yields (add family node) s id s' ↔
      id = (s.arena.add family node).1 ∧ s' = s.added family node := by
  simp only [add, yields_modifyGet, State.added, Prod.mk.injEq]
  exact and_congr eq_comm eq_comm

/-! ### Elementary steps in front of a parser

A step that always succeeds only changes the state in which the rest is run. -/

section

variable {f : α → Parser β} {s s' : State} {y : β}

@[simp] theorem yields_current_bind {f : Token → Parser β} :
    Yields (current >>= f) s y s' ↔ Yields (f s.current) s y s' := by
  simp [yields_bind, and_assoc]

@[simp] theorem yields_get_bind {f : State → Parser β} :
    Yields (get >>= f) s y s' ↔ Yields (f s) s y s' := by
  simp [yields_bind, and_assoc]

@[simp] theorem yields_advance_bind {f : Token → Parser β} :
    Yields (advance >>= f) s y s' ↔ Yields (f s.advance.1) s.advance.2 y s' := by
  simp only [yields_bind, yields_advance]
  constructor
  · intro h
    obtain ⟨token, s₁, hadvance, h⟩ := h
    rwa [hadvance]
  · intro h
    exact ⟨_, _, rfl, h⟩

@[simp] theorem yields_skip_bind {f : Unit → Parser β} :
    Yields (skip >>= f) s y s' ↔ Yields (f ()) s.advance.2 y s' := by
  simp only [yields_bind, yields_skip]
  exact ⟨fun ⟨_, _, hs, h⟩ => hs ▸ h, fun h => ⟨(), _, rfl, h⟩⟩

@[simp] theorem yields_note_bind {event : Event} {f : Unit → Parser β} :
    Yields (note event >>= f) s y s' ↔ Yields (f ()) (s.note event) y s' := by
  simp only [yields_bind, yields_note]
  exact ⟨fun ⟨_, _, hs, h⟩ => hs ▸ h, fun h => ⟨(), _, rfl, h⟩⟩

@[simp] theorem yields_modify_bind {g : State → State} {f : PUnit → Parser β} :
    Yields ((modify g : Parser PUnit) >>= f) s y s' ↔ Yields (f ⟨⟩) (g s) y s' := by
  simp only [yields_bind, yields_modify]
  exact ⟨fun ⟨_, _, hs, h⟩ => hs ▸ h, fun h => ⟨⟨⟩, _, rfl, h⟩⟩

@[simp] theorem yields_spanFrom_bind {start : Position} {f : Span → Parser β} :
    Yields (spanFrom start >>= f) s y s' ↔ Yields (f ⟨start, s.lastStop⟩) s y s' := by
  simp [yields_bind, and_assoc]

@[simp] theorem yields_add_bind {family : Family} {node : Node family}
    {f : NodeId family → Parser β} : Yields (add family node >>= f) s y s' ↔
      Yields (f (s.arena.add family node).1) (s.added family node) y s' := by
  simp [yields_bind, and_assoc]

@[simp] theorem yields_expect_bind {kind : TokenKind} {expected : String} {f : Token → Parser β} :
    Yields (expect kind expected >>= f) s y s' ↔
      s.current.kind = kind ∧ Yields (f s.advance.1) s.advance.2 y s' := by
  simp only [yields_bind, yields_expect]
  constructor
  · intro h
    obtain ⟨token, s₁, ⟨hkind, hadvance⟩, h⟩ := h
    rw [hadvance]
    exact ⟨hkind, h⟩
  · intro h
    exact ⟨_, _, ⟨h.1, rfl⟩, h.2⟩

@[simp] theorem yields_discard_expect_bind {kind : TokenKind} {expected : String}
    {f : PUnit → Parser β} : Yields (discard (expect kind expected) >>= f) s y s' ↔
      s.current.kind = kind ∧ Yields (f ⟨⟩) s.advance.2 y s' := by
  simp only [yields_bind, yields_discard, yields_expect]
  constructor
  · intro h
    obtain ⟨_, s₁, ⟨token, hkind, hadvance⟩, h⟩ := h
    rw [hadvance]
    exact ⟨hkind, h⟩
  · intro h
    exact ⟨_, _, ⟨_, h.1, rfl⟩, h.2⟩

end

/-! ### Loops -/

/-- **Loop invariant.** What holds at the beginning and is kept by each round holds before the last
round. -/
theorem Yields.loop_invariant {step : σ → Parser (Round σ)} {value last : σ} {s s' : State}
    (h : Yields (loop step value) s last s') {motive : σ → State → Prop} (begins : motive value s)
    (keeps : ∀ v s₁ w s₂, motive v s₁ → Yields (step v) s₁ (.more w) s₂ → motive w s₂) :
    ∃ v s₁, motive v s₁ ∧ Yields (step v) s₁ (.done last) s' := by
  have within : ∀ fuel v s₁, motive v s₁ → Yields (loopWithin step fuel v) s₁ last s' →
      ∃ v s₁, motive v s₁ ∧ Yields (step v) s₁ (.done last) s' := by
    intro fuel
    induction fuel with
    | zero => intro v s₁ _ hrun; simp [loopWithin] at hrun
    | succ fuel ih =>
        intro v s₁ hv hrun
        simp only [loopWithin, yields_bind] at hrun
        obtain ⟨round, s₂, hstep, hrest⟩ := hrun
        cases round with
        | more w => exact ih w s₂ (keeps v s₁ w s₂ hv hstep) hrest
        | done w =>
            obtain ⟨rfl, rfl⟩ := yields_pure.1 hrest
            exact ⟨v, s₁, hv, hstep⟩
  simp only [loop, yields_get_bind] at h
  exact within _ value s begins h

/-- Rounds of a loop that are not the last one, each of which takes a token. -/
inductive Rounds (step : σ → Parser (Round σ)) : σ → State → σ → State → Prop
  | refl {value : σ} {s : State} : Rounds step value s value s
  | tail {v₀ v₁ v₂ : σ} {s₀ s₁ s₂ : State} (front : Rounds step v₀ s₀ v₁ s₁)
      (round : Yields (step v₁) s₁ (.more v₂) s₂)
      (takes : s₂.unread.length < s₁.unread.length) : Rounds step v₀ s₀ v₂ s₂

/-- Rounds that take tokens and a last round make a loop: its bound is not met. -/
theorem Rounds.yields_loop {step : σ → Parser (Round σ)} {v₀ v last : σ} {s₀ s s' : State}
    (rounds : Rounds step v₀ s₀ v s) (final : Yields (step v) s (.done last) s') :
    Yields (loop step v₀) s₀ last s' := by
  have within : ∃ fuel, s.unread.length < fuel ∧ ∀ x s'', Yields (loopWithin step fuel v) s x s'' →
      Yields (loopWithin step (s₀.unread.length + 1) v₀) s₀ x s'' := by
    clear final
    induction rounds with
    | refl => exact ⟨_, Nat.lt_succ_self _, fun _ _ h => h⟩
    | tail _ round takes ih =>
        obtain ⟨fuel, hfuel, hrun⟩ := ih
        obtain ⟨fuel, rfl⟩ : ∃ n, fuel = n + 1 := ⟨fuel - 1, by omega⟩
        refine ⟨fuel, by omega, fun x s'' h => hrun x s'' ?_⟩
        simp only [loopWithin, yields_bind]
        exact ⟨_, _, round, h⟩
  obtain ⟨fuel, hfuel, hrun⟩ := within
  obtain ⟨fuel, rfl⟩ : ∃ n, fuel = n + 1 := ⟨fuel - 1, by omega⟩
  simp only [loop, yields_get_bind]
  refine hrun _ _ ?_
  simp only [loopWithin, yields_bind]
  exact ⟨.done last, s', final, yields_pure.2 ⟨rfl, rfl⟩⟩

/-! ### Recursion -/

/-- **Induction over nested calls.** What one layer gives, given that the calls inside it give the
same, the recursive parser gives. -/
theorem Yields.recursive_induction {f : (ι → Parser α) → ι → Parser α}
    {motive : ι → State → α → State → Prop}
    (layer : ∀ self : ι → Parser α, (∀ i s x s', Yields (self i) s x s' → motive i s x s') →
      ∀ i s x s', Yields (f self i) s x s' → motive i s x s')
    {i : ι} {s s' : State} {x : α} (h : Yields (recursive f i) s x s') : motive i s x s' := by
  have within : ∀ fuel i s x s', Yields (unfold f fuel i) s x s' → motive i s x s' := by
    intro fuel
    induction fuel with
    | zero => intro i s x s' hrun; simp [unfold] at hrun
    | succ fuel ih => exact fun i s x s' hrun => layer (unfold f fuel) ih i s x s' hrun
  simp only [recursive, yields_get_bind] at h
  exact within _ i s x s' h

/-- A recursive parser runs as its unfolding to a depth beyond the number of unread tokens. -/
theorem yields_recursive {f : (ι → Parser α) → ι → Parser α} {i : ι} {s s' : State} {x : α} :
    Yields (recursive f i) s x s' ↔ Yields (unfold f (s.unread.length + 1) i) s x s' := by
  simp [recursive]

end Parser

end ProcLang
