import ProcLang.Proofs.Lockstep.Places
import ProcLang.Proofs.Parser.Constructs

/-!
# ProcLang.Proofs.Lockstep.Agrees

**Two runs of a parser in lockstep.** `Agrees b R p q` says that `p` and `q`, started in states that
match, do the same: both give results that are in the relation `R`, or both fail with diagnostics that
match; and the states they leave match again. There is one rule for each way of building a parser.

There is one way out. A semicolon that cannot stand where it does is taken before the parser recovers,
and a line break is not. Where the first run has rejected a semicolon that is exchanged, nothing is said
about the second one (`Rejected`). The diagnostic about it stays in the first run, since errors are only
added to (`AgreesAt.keeps`).

Loops and recursion are bounded by the number of unread tokens. It is the same in both runs, so the two
runs end at the same bound.
-/

namespace ProcLang

/-- Something other than an expression was expected. -/
def Cause.rejects : Cause → Bool
  | .unexpectedToken expected _ => expected != "expression"
  | _ => false

/-- The diagnostic says that a token was rejected. A token that does not begin an expression is left
where it stands, and any other one that was not expected is taken. -/
def Diagnostic.rejects (d : Diagnostic) (token : Token) : Bool :=
  d.position == token.start && d.cause.rejects

/-- A token other than an illegal one is rejected where something other than an expression was
expected. -/
theorem Token.rejects_unexpected {token : Token} (hkind : token.kind ≠ .illegal) {expected : String}
    (hexpected : expected ≠ "expression") : (token.unexpected expected).rejects token = true := by
  simp [Token.unexpected, Diagnostic.rejects, Cause.rejects, hkind, hexpected]

namespace Parser

variable {α β σ ι : Type} {b : Blur}

/-! ### States -/

/-- Two states whose tokens stand in the same places, and in which the same has been produced. Their
journals may be different ones, since these tell of places and comments. -/
structure State.Matches (b : Blur) (s t : State) : Prop where
  unread : List.Forall₂ (Token.Matches b) s.unread t.unread
  ending : s.ending.Matches b t.ending
  lastStop : b.keep s.lastStop = b.keep t.lastStop
  arena : s.arena.mapPlaces b.keep = t.arena.mapPlaces b.keep
  errors : List.Forall₂ (Diagnostic.Matches b) s.errors.toList t.errors.toList

/-- Errors were only added. -/
def State.Keeps (s s' : State) : Prop := ∀ d ∈ s.errors, d ∈ s'.errors

instance : Std.Refl (State.Matches b) where
  refl _ := ⟨List.forall₂_refl _, Std.Refl.refl _, rfl, rfl, List.forall₂_refl _⟩

namespace State.Matches

variable {s t : State}

theorem current (h : s.Matches b t) : s.current.Matches b t.current := by
  obtain ⟨unread, ending, lastStop, arena, errors, journal⟩ := s
  obtain ⟨unread', ending', lastStop', arena', errors', journal'⟩ := t
  have hunread : List.Forall₂ (Token.Matches b) unread unread' := h.unread
  cases hunread with
  | nil => exact h.ending
  | cons hfirst _ => exact hfirst

theorem note (h : s.Matches b t) (event event' : Event) : (s.note event).Matches b (t.note event') :=
  ⟨h.unread, h.ending, h.lastStop, h.arena, h.errors⟩

theorem noteComment_lastStop (s : State) : s.noteComment.lastStop = s.lastStop := by
  unfold noteComment
  split <;> rfl

/-- Comments are noted in the journal only. -/
theorem noteComment (h : s.Matches b t) : s.noteComment.Matches b t.noteComment where
  unread := by simpa using h.unread
  ending := by simpa using h.ending
  lastStop := by simpa only [noteComment_lastStop] using h.lastStop
  arena := by simpa using h.arena
  errors := by simpa using h.errors

theorem advance (h : s.Matches b t) : s.advance.2.Matches b t.advance.2 := by
  obtain ⟨unread, ending, lastStop, arena, errors, journal⟩ := s
  obtain ⟨unread', ending', lastStop', arena', errors', journal'⟩ := t
  have hunread : List.Forall₂ (Token.Matches b) unread unread' := h.unread
  cases hunread with
  | nil => exact h
  | cons hfirst hrest => exact noteComment ⟨hrest, h.ending, hfirst.span.stop, h.arena, h.errors⟩

/-- Nodes that differ in places only get the same ids. -/
theorem add (h : s.Matches b t) {family : Family} {node node' : Node family}
    (hnode : Node.mapPlaces b.keep family node = Node.mapPlaces b.keep family node') :
    (s.arena.add family node).1 = (t.arena.add family node').1 ∧
      (s.added family node).Matches b (t.added family node') := by
  have hadd : ((s.arena.add family node).1, (s.arena.add family node).2.mapPlaces b.keep) =
      ((t.arena.add family node').1, (t.arena.add family node').2.mapPlaces b.keep) := by
    rw [← Arena.add_mapPlaces, ← Arena.add_mapPlaces, h.arena, hnode]
  obtain ⟨hid, harena⟩ := Prod.mk.inj hadd
  exact ⟨hid, h.unread, h.ending, h.lastStop, harena, h.errors⟩

theorem record (h : s.Matches b t) {d e : Diagnostic} (hd : d.Matches b e) :
    State.Matches b { s with errors := s.errors.push d } { t with errors := t.errors.push e } :=
  ⟨h.unread, h.ending, h.lastStop, h.arena, by
    simpa only [Array.toList_push] using List.rel_append h.errors (.cons hd .nil)⟩

end State.Matches

/-- A token that is rejected is taken, unless it is a line break. -/
theorem outcome_reject (expected : String) (s : State) :
    (reject expected >>= fun d => (throw d : Parser α)).outcome s =
      (.error (s.current.unexpected expected),
        if s.current.kind = .newline then s.note (.syntaxError (s.current.unexpected expected))
        else (s.note (.syntaxError (s.current.unexpected expected))).advance.2) := by
  have hcurrent : ∀ f : Token → Parser α, (current >>= f).outcome s = (f s.current).outcome s :=
    fun _ => rfl
  have hnote : ∀ (event : Event) (f : PUnit → Parser α),
      (note event >>= f).outcome s = (f ()).outcome (s.note event) := fun _ _ => rfl
  rw [reject, bind_assoc, hcurrent, bind_assoc, hnote]
  by_cases hkind : s.current.kind = .newline
  · simp only [hkind]
    rfl
  · rw [if_pos hkind, if_neg hkind, bind_assoc]
    rcases s with ⟨_ | ⟨token, rest⟩, _⟩
    · rfl
    · rfl

theorem State.advance_keeps (s : State) : s.Keeps s.advance.2 := by
  intro d hd
  rcases s with ⟨_ | ⟨token, rest⟩, _⟩
  · exact hd
  · simpa [advance] using hd

/-! ### Parsers -/

/-- A semicolon that is exchanged has been rejected, and the diagnostic about it is there. -/
def Rejected (b : Blur) (found : Except Diagnostic α × State) : Prop :=
  ∃ d token, b.exchanged token ∧ d.rejects token = true ∧ (found.1 = .error d ∨ d ∈ found.2.errors)

/-- Two outcomes that match. Nothing is said about the second one if the first run has rejected a
semicolon that is exchanged. -/
inductive Parallel (b : Blur) (R : α → α → Prop) :
    Except Diagnostic α × State → Except Diagnostic α × State → Prop
  | ok {x y : α} {s t : State} (value : R x y) (state : s.Matches b t) :
      Parallel b R (.ok x, s) (.ok y, t)
  | error {d e : Diagnostic} {s t : State} (diagnostic : d.Matches b e) (state : s.Matches b t) :
      Parallel b R (.error d, s) (.error e, t)
  | rejected {found found' : Except Diagnostic α × State} (h : Rejected b found) :
      Parallel b R found found'

theorem Parallel.matches_or_rejected {R : α → α → Prop} {found found' : Except Diagnostic α × State}
    (h : Parallel b R found found') : found.2.Matches b found'.2 ∨ Rejected b found := by
  cases h with
  | ok _ state => exact Or.inl state
  | error _ state => exact Or.inl state
  | rejected h => exact Or.inr h

/-- Two parsers do the same in two states, and the first one keeps the errors found before. -/
structure AgreesAt (b : Blur) (R : α → α → Prop) (p q : Parser α) (s t : State) : Prop where
  keeps : s.Keeps (p.outcome s).2
  parallel : Parallel b R (p.outcome s) (q.outcome t)

/-- Two parsers do the same in all states that match. -/
def Agrees (b : Blur) (R : α → α → Prop) (p q : Parser α) : Prop :=
  ∀ ⦃s t : State⦄, s.Matches b t → AgreesAt b R p q s t

/-- A parser does the same in all states that match. -/
def Blind (b : Blur) (R : α → α → Prop) (p : Parser α) : Prop := Agrees b R p p

/-- Two rounds of a loop that go on or end together. -/
inductive Round.Matches (V : σ → σ → Prop) : Round σ → Round σ → Prop
  | more {x y : σ} (value : V x y) : Matches V (.more x) (.more y)
  | done {x y : σ} (value : V x y) : Matches V (.done x) (.done y)

instance {V : σ → σ → Prop} [Std.Refl V] : Std.Refl (Round.Matches V) where
  refl round := by
    cases round with
    | more value => exact .more (Std.Refl.refl value)
    | done value => exact .done (Std.Refl.refl value)

theorem Agrees.keeps {R : α → α → Prop} {p q : Parser α} (h : Agrees b R p q) (s : State) :
    s.Keeps (p.outcome s).2 :=
  (h (Std.Refl.refl s)).keeps

/-- What has been rejected stays rejected as long as the errors are kept. -/
theorem Rejected.bind {found : Except Diagnostic α × State} (h : Rejected b found) {f : α → Parser β}
    (hf : ∀ x s, State.Keeps s ((f x).outcome s).2) :
    Rejected b (match found with
      | (.ok x, s) => (f x).outcome s
      | (.error d, s) => (.error d, s)) := by
  obtain ⟨d, token, hexchanged, hrejects, hd⟩ := h
  rcases found with ⟨d' | x, s⟩
  · refine ⟨d, token, hexchanged, hrejects, hd.imp_left fun heq => ?_⟩
    rw [Except.error.inj heq]
  · refine ⟨d, token, hexchanged, hrejects, Or.inr (hf x s d ?_)⟩
    exact hd.resolve_left nofun

section

variable {R : α → α → Prop} {T : β → β → Prop} {p q : Parser α} {s t : State}

namespace AgreesAt

/-- **One parser after the other.** Even where the first run has rejected a token its errors are kept,
so what follows is compared with itself. -/
theorem bind [Std.Refl R] {f g : α → Parser β} (hp : AgreesAt b R p q s t)
    (hf : ∀ x y, R x y → Agrees b T (f x) (g y)) : AgreesAt b T (p >>= f) (q >>= g) s t := by
  have hself : ∀ x s, State.Keeps s ((f x).outcome s).2 := fun x s =>
    (hf x x (Std.Refl.refl x)).keeps s
  have hkeeps := hp.keeps
  have hparallel := hp.parallel
  constructor
  · rw [outcome_bind]
    generalize p.outcome s = found at hkeeps ⊢
    rcases found with ⟨d | x, s'⟩
    · exact hkeeps
    · exact fun d hd => hself x s' d (hkeeps d hd)
  · rw [outcome_bind, outcome_bind]
    generalize p.outcome s = found at hparallel ⊢
    generalize q.outcome t = found' at hparallel ⊢
    cases hparallel with
    | ok value state => exact (hf _ _ value state).parallel
    | error diagnostic state => exact .error diagnostic state
    | rejected h => exact .rejected (h.bind hself)

/-- The current token is that of the state. -/
theorem current {f g : Token → Parser β} (h : AgreesAt b T (f s.current) (g t.current) s t) :
    AgreesAt b T (Parser.current >>= f) (Parser.current >>= g) s t :=
  ⟨h.keeps, h.parallel⟩

theorem advance (hst : s.Matches b t) (h : s.current.Same b t.current) :
    AgreesAt b (Token.Same b) Parser.advance Parser.advance s t := by
  have hvalue : s.advance.1.Same b t.advance.1 := by
    rwa [State.advance_fst, State.advance_fst]
  exact ⟨s.advance_keeps, .ok hvalue hst.advance⟩

end AgreesAt

namespace Agrees

theorem pure {x y : α} (h : R x y) : Agrees b R (pure x) (pure y) :=
  fun _ _ hst => ⟨fun _ hd => hd, .ok h hst⟩

theorem throw {d e : Diagnostic} (h : d.Matches b e) : Agrees b R (throw d) (throw e) :=
  fun _ _ hst => ⟨fun _ hd => hd, .error h hst⟩

theorem bind [Std.Refl R] {f g : α → Parser β} (hp : Agrees b R p q)
    (hf : ∀ x y, R x y → Agrees b T (f x) (g y)) : Agrees b T (p >>= f) (q >>= g) :=
  fun _ _ hst => (hp hst).bind hf

/-- A part that gives the same result in both runs, before another part. -/
theorem seq {f g : α → Parser β} (hp : Agrees b Eq p q) (hf : ∀ x, Agrees b T (f x) (g x)) :
    Agrees b T (p >>= f) (q >>= g) :=
  bind hp fun x _ hx => hx ▸ hf x

theorem map [Std.Refl R] {f : α → β} (hp : Agrees b R p q) (hf : ∀ x y, R x y → T (f x) (f y)) :
    Agrees b T (f <$> p) (f <$> q) := by
  rw [← bind_pure_comp, ← bind_pure_comp]
  exact bind hp fun x y hxy => pure (hf x y hxy)

theorem discard [Std.Refl R] (hp : Agrees b R p q) : Agrees b Eq (discard p) (discard q) :=
  map hp fun _ _ _ => rfl

theorem modifyGet {f g : State → α × State}
    (h : ∀ s t, State.Matches b s t → R (f s).1 (g t).1 ∧ (f s).2.Matches b (g t).2)
    (hkeeps : ∀ s, State.Keeps s (f s).2) : Agrees b R (modifyGet f) (modifyGet g) :=
  fun s t hst => ⟨hkeeps s, .ok (h s t hst).1 (h s t hst).2⟩

theorem modify {f g : State → State} (h : ∀ s t, State.Matches b s t → (f s).Matches b (g t))
    (hkeeps : ∀ s, State.Keeps s (f s)) : Agrees b Eq (modify f : Parser PUnit) (modify g) :=
  fun s t hst => ⟨hkeeps s, .ok rfl (h s t hst)⟩

theorem get : Blind b (State.Matches b) get :=
  fun _ _ hst => ⟨fun _ hd => hd, .ok hst hst⟩

/-- Both runs take the same branch. -/
theorem ite {c c' : Prop} [Decidable c] [Decidable c'] (hc : c ↔ c') {p' q' : Parser α}
    (hp : Agrees b R p q) (hp' : Agrees b R p' q') :
    Agrees b R (if c then p else p') (if c' then q else q') := by
  by_cases h : c
  · rwa [if_pos h, if_pos (hc.1 h)]
  · rwa [if_neg h, if_neg (mt hc.2 h)]

/-! ### Tokens -/

theorem current : Blind b (Token.Matches b) current :=
  bind get fun _ _ hst => pure hst.current

theorem advance : Blind b (Token.Matches b) advance := by
  refine modifyGet (fun s t hst => ⟨?_, hst.advance⟩) State.advance_keeps
  rw [State.advance_fst, State.advance_fst]
  exact hst.current

theorem skip : Blind b Eq skip := discard advance

/-- A token that may be taken or not, before another part. -/
theorem skipIf (c : Prop) [Decidable c] {f g : Unit → Parser β} (h : Agrees b T (f ()) (g ())) :
    Agrees b T (if c then Parser.skip >>= f else f ()) (if c then Parser.skip >>= g else g ()) :=
  ite Iff.rfl (seq skip fun _ => h) h

/-- The stretches of text behind places that are not told apart. -/
theorem spanFrom {start start' : Position} (h : b.keep start = b.keep start') :
    Agrees b (Span.Matches b) (spanFrom start) (spanFrom start') :=
  bind get fun _ _ hst => pure ⟨h, hst.lastStop⟩

/-! ### Failing -/

theorem note (event event' : Event) : Agrees b Eq (note event) (note event') :=
  modify (fun _ _ hst => hst.note event event') fun _ _ hd => hd

section

variable {d e : Diagnostic} (h : d.Matches b e)

include h

theorem raise : Agrees b R (raise d) (raise e) :=
  seq (note _ _) fun _ => throw h

theorem raisePast : Agrees b R (raisePast d) (raisePast e) :=
  seq (note _ _) fun _ => seq skip fun _ => throw h

end

theorem refuse (expected : String) : Blind b R (refuse expected) :=
  bind current fun _ _ htoken => raise (htoken.unexpected expected)

/-- **A token is rejected** in both runs, unless it is one that is exchanged: this one is taken in the
first run only. -/
theorem reject {expected : String} (hexpected : expected ≠ "expression") :
    Blind b R (Parser.reject expected >>= fun d => MonadExcept.throw d) := by
  intro s t hst
  have hdiagnostic := hst.current.unexpected expected
  have hnoted := hst.note (.syntaxError (s.current.unexpected expected))
    (.syntaxError (t.current.unexpected expected))
  constructor
  · rw [outcome_reject]
    dsimp only
    split
    · exact fun d hd => hd
    · exact fun d hd => State.advance_keeps _ d hd
  · rw [outcome_reject, outcome_reject]
    cases hst.current with
    | same h =>
        rw [h.kind]
        split
        · exact .error hdiagnostic hnoted
        · exact .error hdiagnostic hnoted.advance
    | exchanged h =>
        have hkind : s.current.kind ≠ .illegal := by
          rw [h.kind]
          decide
        exact .rejected ⟨_, _, h.exchanged, Token.rejects_unexpected hkind hexpected, Or.inl rfl⟩

section

variable {kinds : List TokenKind} (hkinds : ∀ kind ∈ kinds, kind.separates = false)
  {expected : String} (hexpected : expected ≠ "expression")

include hkinds hexpected

/-- A token of a kind that does not separate is the same in both runs. -/
theorem expectOneOf : Blind b (Token.Same b) (expectOneOf kinds expected) := by
  have hneither : ∀ kind : TokenKind, kind.separates = true → kinds.contains kind = false := by
    intro kind hkind
    rw [Bool.eq_false_iff, ne_eq, List.contains_iff_mem]
    intro hmem
    rw [hkinds kind hmem] at hkind
    nomatch hkind
  intro s t hst
  have hreject := reject (b := b) (R := Token.Same b) hexpected hst
  refine AgreesAt.current ?_
  cases hst.current with
  | same h =>
      rw [Token.isOneOf, Token.isOneOf, h.kind]
      split
      · exact AgreesAt.advance hst h
      · exact hreject
  | exchanged h =>
      rw [Token.isOneOf, Token.isOneOf, h.kind, h.kind', hneither .semicolon rfl, hneither .newline rfl]
      exact hreject

end

theorem expect {kind : TokenKind} {expected : String}
    (h : kind.separates = false ∧ expected ≠ "expression") :
    Blind b (Token.Same b) (expect kind expected) :=
  expectOneOf (fun _ hmem => List.mem_singleton.1 hmem ▸ h.1) h.2

theorem dropped {kind : TokenKind} {expected : String}
    (h : kind.separates = false ∧ expected ≠ "expression") :
    Blind b Eq (Functor.discard (Parser.expect kind expected)) :=
  discard (expect h)

/-! ### Nodes -/

theorem add (family : Family) {node node' : Node family}
    (hnode : Node.mapPlaces b.keep family node = Node.mapPlaces b.keep family node') :
    Agrees b Eq (add family node) (add family node') :=
  modifyGet (fun _ _ hst => hst.add hnode) fun _ _ hd => hd

/-! ### Recovery -/

section

variable {consume stopBefore : List TokenKind}
  (hconsume : consume.contains .semicolon = consume.contains .newline)
  (hstop : stopBefore.contains .semicolon = stopBefore.contains .newline)

include hconsume hstop

theorem synchronizeWithin (fuel : Nat) : Blind b Eq (synchronizeWithin consume stopBefore fuel) := by
  induction fuel with
  | zero => exact pure rfl
  | succ fuel ih =>
      refine bind current fun token token' htoken => ?_
      rw [htoken.isOneOf hconsume, htoken.isOneOf hstop]
      refine ite ?_ (pure rfl) (seq skip fun _ => ite Iff.rfl (pure rfl) ih)
      rw [Bool.or_eq_true, Bool.or_eq_true, decide_eq_true_iff, decide_eq_true_iff,
        htoken.kind_iff (by decide)]

theorem synchronize : Blind b Eq (synchronize consume stopBefore) := by
  refine bind get fun s t hst => ?_
  rw [hst.unread.length_eq]
  exact synchronizeWithin hconsume hstop _

/-- **Recovery** goes on in the same place. A rejection is recorded like any other failure, and so it is
still there behind the recovery. -/
theorem recovering [Std.Refl R] {fallback : α} (hp : Blind b R p) :
    Blind b R (recovering consume stopBefore fallback p) := by
  intro s t hst
  have hkeeps := (hp hst).keeps
  have hparallel := (hp hst).parallel
  have hrest : Blind b R (do Parser.synchronize consume stopBefore; return fallback) :=
    seq (synchronize hconsume hstop) fun _ => pure (Std.Refl.refl fallback)
  have hhandled : ∀ {d e : Diagnostic}, d.Matches b e → Agrees b R
      (do Parser.record d; Parser.synchronize consume stopBefore; return fallback)
      (do Parser.record e; Parser.synchronize consume stopBefore; return fallback) :=
    fun hd => seq (modify (fun _ _ hst => hst.record hd) fun _ _ hd' => Array.mem_push_of_mem _ hd')
      fun _ => hrest
  constructor
  · rw [Parser.recovering, outcome_tryCatch]
    generalize p.outcome s = found at hkeeps ⊢
    rcases found with ⟨d | x, s'⟩
    · exact fun d' hd' => (hhandled (Std.Refl.refl d)).keeps s' d' (hkeeps d' hd')
    · exact hkeeps
  · rw [Parser.recovering, outcome_tryCatch, outcome_tryCatch]
    generalize p.outcome s = found at hparallel ⊢
    generalize p.outcome t = found' at hparallel ⊢
    cases hparallel with
    | ok value state => exact .ok value state
    | error diagnostic state => exact (hhandled diagnostic state).parallel
    | rejected h =>
        refine .rejected ?_
        rcases found with ⟨d' | x, s'⟩
        · obtain ⟨d, token, hexchanged, hrejects, hd⟩ := h
          have hrecorded : d ∈ s'.errors.push d' := by
            rcases hd with hd | hd
            · rw [Except.error.inj hd]
              exact Array.mem_push_self
            · exact Array.mem_push_of_mem _ hd
          exact ⟨d, token, hexchanged, hrejects, Or.inr (hrest.keeps _ d hrecorded)⟩
        · exact h

end

/-! ### Loops and recursion -/

theorem stuck : Blind b R stuck :=
  bind current fun _ _ htoken => raise ⟨.same _, htoken.start⟩

theorem loopWithin {V : σ → σ → Prop} [Std.Refl V] {step step' : σ → Parser (Round σ)}
    (hstep : ∀ x y, V x y → Agrees b (Round.Matches V) (step x) (step' y)) (fuel : Nat) {x y : σ}
    (h : V x y) : Agrees b V (loopWithin step fuel x) (loopWithin step' fuel y) := by
  induction fuel generalizing x y with
  | zero => exact stuck
  | succ fuel ih =>
      refine bind (hstep x y h) fun round round' hround => ?_
      cases hround with
      | more value => exact ih value
      | done value => exact pure value

/-- **Loops.** What relates the values before a round relates the values behind it. -/
theorem loop {V : σ → σ → Prop} [Std.Refl V] {step step' : σ → Parser (Round σ)}
    (hstep : ∀ x y, V x y → Agrees b (Round.Matches V) (step x) (step' y)) {x y : σ} (h : V x y) :
    Agrees b V (loop step x) (loop step' y) := by
  refine bind get fun s t hst => ?_
  rw [hst.unread.length_eq]
  exact loopWithin hstep _ h

theorem unfold {f : (ι → Parser α) → ι → Parser α}
    (hf : ∀ self, (∀ i, Blind b R (self i)) → ∀ i, Blind b R (f self i)) (fuel : Nat) (i : ι) :
    Blind b R (unfold f fuel i) := by
  induction fuel generalizing i with
  | zero => exact stuck
  | succ fuel ih => exact hf _ ih i

/-- **Recursion.** What one layer does is the same in both runs, if it is so for the calls inside it. -/
theorem recursive {f : (ι → Parser α) → ι → Parser α}
    (hf : ∀ self, (∀ i, Blind b R (self i)) → ∀ i, Blind b R (f self i)) (i : ι) :
    Blind b R (recursive f i) := by
  refine bind get fun s t hst => ?_
  rw [hst.unread.length_eq]
  exact unfold hf _ i

theorem commaSeparated [Std.Refl R] {item : Parser α} (hitem : Blind b R item) :
    Blind b (List.Forall₂ R) (commaSeparated item) := by
  refine loop (fun items items' hitems => ?_) .nil
  refine bind hitem fun x y hxy => bind current fun token token' htoken => ?_
  have hmore : List.Forall₂ R (items ++ [x]) (items' ++ [y]) :=
    List.rel_append hitems (.cons hxy .nil)
  exact ite (htoken.kind_iff rfl) (seq skip fun _ => pure (.more hmore)) (pure (.done hmore))

end Agrees

end

end Parser

end ProcLang
