import ProcLang.Proofs.Parser.Constructs
import ProcLang.Proofs.SpelledOut.Sites
import ProcLang.Proofs.SpelledOut.Tokens

/-!
# ProcLang.Proofs.SpelledOut.Follows

**A parser follows another one** through a text with parentheses behind the chosen names.
`Follows chosen R p q` says: where `p` succeeds, `q` succeeds on the longer text, with a result that is in
the relation `R`, and it leaves the tree that `p` leaves with the chosen names spelled out. There is one rule
for each way of building a parser.

A name is followed by parentheses in the longer text if it is chosen, wherever it stands. So nothing is
known of `q` if `p` takes a chosen name for anything but an expression. This is told apart at the end, where
each chosen place is that of a bare name in the tree (`State.Faithful`). It is a property of the state
behind a run, and it is handed back to the state in front of it: a chosen token that was taken must have
become a bare name while it was taken, since every name is in the tree before the next token is.
-/

namespace ProcLang

/-! ### Places of bare names -/

/-- Where a node begins if it is a bare name. -/
def Node.bare? : (family : Family) → Node family → Option Position
  | .expression, node =>
      match node.kind with
      | .identifier _ none => some node.span.start
      | _ => none
  | _, _ => none

namespace Arena

/-- A bare name begins at the place. -/
def NameAt (a : Arena) (p : Position) : Prop :=
  ∃ (family : Family) (id : NodeId family) (node : Node family),
    a.get? id = some node ∧ Node.bare? family node = some p

variable {a : Arena} {family : Family} {node : Node family} {p : Position}

theorem nameAt_add : (a.add family node).2.NameAt p ↔ a.NameAt p ∨ Node.bare? family node = some p := by
  constructor
  · rintro ⟨other, id, found, hget, hbare⟩
    rcases get?_added hget with hold | ⟨rfl, rfl, -⟩
    · exact Or.inl ⟨other, id, found, hold, hbare⟩
    · exact Or.inr hbare
  · rintro (⟨other, id, found, hget, hbare⟩ | hbare)
    · exact ⟨other, id, found, a.extendedBy_add family node other id found hget, hbare⟩
    · exact ⟨family, _, node, a.get?_add family node, hbare⟩

end Arena

section

variable {chosen : Position → Bool} {family : Family} {node : Node family}

/-- Only a bare name at a chosen place is spelled out. -/
theorem Node.spellOut_eq_self (h : ∀ p, Node.bare? family node = some p → chosen p = false) :
    Node.spellOut chosen family node = node := by
  cases family with
  | routine | «variable» | typeDecl | type | body | statement => rfl
  | expression =>
      rw [spellOut, Expression.spellOut]
      split
      · rename_i name hkind
        have hplain : chosen (Expression.span node).start = false := by
          refine h _ ?_
          rw [bare?, hkind]
          rfl
        rw [hplain]
        rfl
      · rfl

/-- A new node gets the same id in the tree with names spelled out. -/
theorem Arena.add_spellOut (a : Arena) (family : Family) (node : Node family) :
    (a.spellOut chosen).add family (Node.spellOut chosen family node) =
      ((a.add family node).1, (a.add family node).2.spellOut chosen) := by
  cases family with
  | routine | «variable» | typeDecl | type | body | statement => rfl
  | expression =>
      simp only [add, spellOut, count, table, mapTable, Node.spellOut, Array.size_map, Array.map_push]

end

namespace Parser

variable {α β σ ι : Type} {chosen : Position → Bool}

/-! ### States -/

/-- No error was found, and each chosen place that was passed is that of a bare name. -/
structure State.Faithful (chosen : Position → Bool) (s : State) : Prop where
  errors : s.errors = #[]
  ending : s.ending.kind = .endOfFile
  passed : ∀ p, chosen p = true → p ∉ s.unread.map (·.start) → s.arena.NameAt p

/-- A state in the text, and the state in the same place of the longer text. Every name that is in the tree
begins in front of the unread tokens. -/
structure State.Spelled (chosen : Position → Bool) (s t : State) : Prop where
  unread : Token.Spelled chosen s.unread t.unread
  ending : s.ending.Same Blur.lines t.ending
  lastStop : Blur.lines.keep s.lastStop = Blur.lines.keep t.lastStop
  arena : (s.arena.spellOut chosen).mapPlaces Blur.lines.keep = t.arena.mapPlaces Blur.lines.keep
  errors : t.errors = #[]
  distinct : (s.unread.map (·.start)).Nodup
  behind : ∀ p, s.arena.NameAt p → p ∉ s.unread.map (·.start)

namespace State

variable {s t : State}

theorem Faithful.of_noteComment (h : s.noteComment.Faithful chosen) : s.Faithful chosen :=
  ⟨noteComment_errors s ▸ h.errors, noteComment_ending s ▸ h.ending, by
    simpa only [noteComment_unread, noteComment_arena] using h.passed⟩

/-- A place that was passed before a token is taken was passed behind it. -/
theorem Faithful.of_advance (h : s.advance.2.Faithful chosen) : s.Faithful chosen := by
  obtain ⟨unread, ending, lastStop, arena, errors, journal⟩ := s
  cases unread with
  | nil => exact h
  | cons token rest =>
      have hrest := h.of_noteComment
      exact ⟨hrest.errors, hrest.ending, fun p hp hpassed =>
        hrest.passed p hp fun hmem => hpassed (List.mem_cons_of_mem _ hmem)⟩

theorem Faithful.of_added {family : Family} {node : Node family} (hbare : Node.bare? family node = none)
    (h : (s.added family node).Faithful chosen) : s.Faithful chosen := by
  refine ⟨h.errors, h.ending, fun p hp hpassed => ?_⟩
  refine (Arena.nameAt_add.1 (h.passed p hp hpassed)).resolve_right ?_
  rw [hbare]
  exact nofun

namespace Spelled

theorem current (h : s.Spelled chosen t) : s.current.Same Blur.lines t.current := by
  obtain ⟨unread, ending, lastStop, arena, errors, journal⟩ := s
  obtain ⟨unread', ending', lastStop', arena', errors', journal'⟩ := t
  have hunread : Token.Spelled chosen unread unread' := h.unread
  cases hunread with
  | nil => exact h.ending
  | kept _ same _ => exact same
  | spelled _ same _ _ _ _ => exact same

theorem length_le (h : s.Spelled chosen t) : s.unread.length ≤ t.unread.length := by
  have hunread := h.unread
  generalize s.unread = tokens at hunread
  generalize t.unread = tokens' at hunread
  clear h
  induction hunread with
  | nil => exact Nat.le_refl _
  | kept _ _ _ ih =>
      rw [List.length_cons, List.length_cons]
      omega
  | spelled _ _ _ _ _ _ ih =>
      rw [List.length_cons, List.length_cons, List.length_cons, List.length_cons]
      omega

theorem note (h : s.Spelled chosen t) (event event' : Event) :
    (s.note event).Spelled chosen (t.note event') :=
  ⟨h.unread, h.ending, h.lastStop, h.arena, h.errors, h.distinct, h.behind⟩

/-- Comments are noted in the journal only. -/
theorem noteComment (h : s.Spelled chosen t) : s.noteComment.Spelled chosen t.noteComment where
  unread := by simpa using h.unread
  ending := by simpa using h.ending
  lastStop := by simpa only [State.Matches.noteComment_lastStop] using h.lastStop
  arena := by simpa using h.arena
  errors := by simpa using h.errors
  distinct := by simpa using h.distinct
  behind := by simpa only [noteComment_unread, noteComment_arena] using h.behind

/-- A token that is not followed by parentheses is taken in both texts. -/
theorem advance_of_kept (h : s.Spelled chosen t)
    (hkept : ∀ token ∈ s.unread.head?, token.isChosen chosen = false) :
    s.advance.2.Spelled chosen t.advance.2 := by
  obtain ⟨unread, ending, lastStop, arena, errors, journal⟩ := s
  obtain ⟨unread', ending', lastStop', arena', errors', journal'⟩ := t
  have hunread : Token.Spelled chosen unread unread' := h.unread
  cases hunread with
  | nil => exact h
  | kept _ same rest =>
      exact noteComment ⟨rest, h.ending, same.stop, h.arena, h.errors, (List.nodup_cons.1 h.distinct).2,
        fun p hp hmem => h.behind p hp (List.mem_cons_of_mem _ hmem)⟩
  | spelled hchosen _ _ _ _ _ => nomatch (hkept _ rfl).symm.trans hchosen

/-- **A token is taken** in both texts. It is no chosen name, or there would have to be a name at its place
in the tree. -/
theorem advance (h : s.Spelled chosen t) (hfaithful : s.advance.2.Faithful chosen) :
    s.advance.2.Spelled chosen t.advance.2 := by
  refine h.advance_of_kept fun token htoken => ?_
  obtain ⟨unread, ending, lastStop, arena, errors, journal⟩ := s
  obtain ⟨rest, rfl⟩ := List.head?_eq_some_iff.1 htoken
  refine Bool.eq_false_iff.2 fun hchosen => ?_
  have hname := hfaithful.of_noteComment.passed _ (Bool.and_eq_true_iff.1 hchosen).2
    (List.nodup_cons.1 h.distinct).1
  exact h.behind _ hname List.mem_cons_self

/-- **A node is added** to both trees, spelled out in the second one. -/
theorem add (h : s.Spelled chosen t) {family : Family} {node node' : Node family}
    (hnode : Node.mapPlaces Blur.lines.keep family (Node.spellOut chosen family node) =
      Node.mapPlaces Blur.lines.keep family node')
    (hbehind : ∀ p, Node.bare? family node = some p → p ∉ s.unread.map (·.start)) :
    (s.arena.add family node).1 = (t.arena.add family node').1 ∧
      (s.added family node).Spelled chosen (t.added family node') := by
  have hadd : ((s.arena.add family node).1,
      ((s.arena.add family node).2.spellOut chosen).mapPlaces Blur.lines.keep) =
      ((t.arena.add family node').1, (t.arena.add family node').2.mapPlaces Blur.lines.keep) := by
    have hspelled := @Arena.add_spellOut chosen s.arena family node
    rw [← Arena.add_mapPlaces, ← h.arena, ← hnode, Arena.add_mapPlaces, hspelled]
  obtain ⟨hid, harena⟩ := Prod.mk.inj hadd
  refine ⟨hid, h.unread, h.ending, h.lastStop, harena, h.errors, h.distinct, fun p hp => ?_⟩
  exact (Arena.nameAt_add.1 hp).elim (h.behind p) (hbehind p)

end Spelled

end State

/-! ### Parsers -/

/-- The second parser follows the first one from a state on. -/
def FollowsAt (chosen : Position → Bool) (R : α → α → Prop) (p q : Parser α) (s : State) : Prop :=
  ∀ ⦃x : α⦄ ⦃s' : State⦄, Yields p s x s' → s'.Faithful chosen →
    s.Faithful chosen ∧ ∀ t, s.Spelled chosen t → ∃ y t', Yields q t y t' ∧ s'.Spelled chosen t' ∧ R x y

/-- The second parser follows the first one from each state on. -/
def Follows (chosen : Position → Bool) (R : α → α → Prop) (p q : Parser α) : Prop :=
  ∀ s, FollowsAt chosen R p q s

section

variable {R : α → α → Prop} {T : β → β → Prop} {p q : Parser α} {s : State}

namespace FollowsAt

theorem bind [Std.Refl R] {f g : α → Parser β} (hp : FollowsAt chosen R p q s)
    (hf : ∀ x y, R x y → Follows chosen T (f x) (g y)) : FollowsAt chosen T (p >>= f) (q >>= g) s := by
  intro z s' hrun hfaithful
  obtain ⟨x, s₁, hx, hz⟩ := yields_bind.1 hrun
  obtain ⟨hfaithful₁, -⟩ := hf x x (Std.Refl.refl x) s₁ hz hfaithful
  obtain ⟨hfaithful₀, hfollows⟩ := hp hx hfaithful₁
  refine ⟨hfaithful₀, fun t hst => ?_⟩
  obtain ⟨y, t₁, hy, hst₁, hxy⟩ := hfollows t hst
  obtain ⟨w, t', hw, hst', hzw⟩ := (hf x y hxy s₁ hz hfaithful).2 t₁ hst₁
  exact ⟨w, t', yields_bind.2 ⟨y, t₁, hy, hw⟩, hst', hzw⟩

/-- The current token is the same in both texts. -/
theorem current_bind {f g : Token → Parser β}
    (h : ∀ token', s.current.Same Blur.lines token' → FollowsAt chosen T (f s.current) (g token') s) :
    FollowsAt chosen T (current >>= f) (current >>= g) s := by
  intro z s' hrun hfaithful
  rw [yields_current_bind] at hrun
  refine ⟨(h s.current (Std.Refl.refl _) hrun hfaithful).1, fun t hst => ?_⟩
  obtain ⟨w, t', hw, hst', hzw⟩ := (h t.current hst.current hrun hfaithful).2 t hst
  exact ⟨w, t', yields_current_bind.2 hw, hst', hzw⟩

end FollowsAt

namespace Follows

theorem pure {x y : α} (h : R x y) : Follows chosen R (pure x) (pure y) := by
  intro s z s' hrun hfaithful
  obtain ⟨rfl, rfl⟩ := yields_pure.1 hrun
  exact ⟨hfaithful, fun t hst => ⟨y, t, yields_pure.2 ⟨rfl, rfl⟩, hst, h⟩⟩

/-- Nothing has to be followed where a parser fails. -/
theorem never (h : ∀ s x s', ¬ Yields p s x s') : Follows chosen R p q :=
  fun s _ _ hrun _ => absurd hrun (h s _ _)

theorem bind [Std.Refl R] {f g : α → Parser β} (hp : Follows chosen R p q)
    (hf : ∀ x y, R x y → Follows chosen T (f x) (g y)) : Follows chosen T (p >>= f) (q >>= g) :=
  fun s => (hp s).bind hf

/-- A part that gives the same result in both texts, before another part. -/
theorem seq {f g : α → Parser β} (hp : Follows chosen Eq p q) (hf : ∀ x, Follows chosen T (f x) (g x)) :
    Follows chosen T (p >>= f) (q >>= g) :=
  bind hp fun x _ hx => hx ▸ hf x

theorem map [Std.Refl R] {f : α → β} (hp : Follows chosen R p q) (hf : ∀ x y, R x y → T (f x) (f y)) :
    Follows chosen T (f <$> p) (f <$> q) := by
  rw [← bind_pure_comp, ← bind_pure_comp]
  exact bind hp fun x y hxy => pure (hf x y hxy)

theorem discard [Std.Refl R] (hp : Follows chosen R p q) : Follows chosen Eq (discard p) (discard q) :=
  map hp fun _ _ _ => rfl

/-- The same branch is taken in both texts. -/
theorem ite (c : Prop) [Decidable c] {p' q' : Parser α} (hp : Follows chosen R p q)
    (hp' : Follows chosen R p' q') : Follows chosen R (if c then p else p') (if c then q else q') := by
  split
  · exact hp
  · exact hp'

/-! ### Tokens -/

theorem current_bind {f g : Token → Parser β}
    (h : ∀ token token', token.Same Blur.lines token' → Follows chosen T (f token) (g token')) :
    Follows chosen T (current >>= f) (current >>= g) :=
  fun s => .current_bind fun token' htoken => h s.current token' htoken s

theorem advance : Follows chosen (Token.Same Blur.lines) advance advance := by
  intro s token s' hrun hfaithful
  rw [yields_advance] at hrun
  have hstate : s.advance.2 = s' := congrArg Prod.snd hrun
  subst hstate
  refine ⟨hfaithful.of_advance, fun t hst =>
    ⟨t.advance.1, t.advance.2, yields_advance.2 rfl, hst.advance hfaithful, ?_⟩⟩
  have htoken : s.advance.1 = token := congrArg Prod.fst hrun
  rw [← htoken, State.advance_fst, State.advance_fst]
  exact hst.current

theorem skip : Follows chosen Eq skip skip := discard advance

/-- A token that may be taken or not, before another part. -/
theorem skipIf (c : Prop) [Decidable c] {f g : Unit → Parser β} (h : Follows chosen T (f ()) (g ())) :
    Follows chosen T (if c then Parser.skip >>= f else f ()) (if c then Parser.skip >>= g else g ()) :=
  ite c (seq skip fun _ => h) h

/-- The stretches of text behind places on one line. -/
theorem spanFrom {start start' : Position} (h : Blur.lines.keep start = Blur.lines.keep start') :
    Follows chosen (Span.Matches Blur.lines) (spanFrom start) (spanFrom start') := by
  intro s span s' hrun hfaithful
  obtain ⟨rfl, rfl⟩ := yields_spanFrom.1 hrun
  exact ⟨hfaithful, fun t hst => ⟨_, t, yields_spanFrom.2 ⟨rfl, rfl⟩, hst, h, hst.lastStop⟩⟩

theorem note (event event' : Event) : Follows chosen Eq (note event) (note event') := by
  intro s u s' hrun hfaithful
  obtain rfl := yields_note.1 hrun
  exact ⟨⟨hfaithful.errors, hfaithful.ending, hfaithful.passed⟩, fun t hst =>
    ⟨(), _, yields_note.2 rfl, hst.note event event', rfl⟩⟩

/-- Nothing has to be followed where a token is rejected. -/
theorem reject {expected : String} :
    Follows chosen R (Parser.reject expected >>= fun d => MonadExcept.throw d) q := by
  refine never fun s x s' hrun => ?_
  obtain ⟨d, s₁, -, hthrow⟩ := yields_bind.1 hrun
  exact yields_throw hthrow

theorem expect (kind : TokenKind) (expected : String) :
    Follows chosen (Token.Same Blur.lines) (expect kind expected) (expect kind expected) := by
  refine current_bind fun token token' htoken => ?_
  rw [Token.isOneOf, Token.isOneOf, htoken.kind]
  exact ite _ advance reject

theorem dropped (kind : TokenKind) (expected : String) :
    Follows chosen Eq (Functor.discard (Parser.expect kind expected))
      (Functor.discard (Parser.expect kind expected)) :=
  discard (expect kind expected)

/-! ### Nodes -/

/-- Nodes that are no bare names. -/
theorem add (family : Family) {node node' : Node family} (hbare : Node.bare? family node = none)
    (hnode : Node.mapPlaces Blur.lines.keep family node = Node.mapPlaces Blur.lines.keep family node') :
    Follows chosen Eq (add family node) (add family node') := by
  intro s id s' hrun hfaithful
  obtain ⟨rfl, rfl⟩ := yields_add.1 hrun
  have hnone : ∀ p, Node.bare? family node ≠ some p := by
    rw [hbare]
    exact nofun
  have hsame := @Node.spellOut_eq_self chosen _ node fun p hp => absurd hp (hnone p)
  refine ⟨hfaithful.of_added hbare, fun t hst => ?_⟩
  obtain ⟨hid, hadded⟩ := hst.add (hsame.symm ▸ hnode) fun p hp => absurd hp (hnone p)
  exact ⟨_, _, yields_add.2 ⟨rfl, rfl⟩, hadded, hid⟩

/-! ### Recovery -/

/-- **Nothing is recovered** where no error was found. -/
theorem recovering (consume stopBefore : List TokenKind) (fallback : α) (hp : Follows chosen R p q) :
    Follows chosen R (recovering consume stopBefore fallback p)
      (recovering consume stopBefore fallback q) := by
  intro s x s' hrun hfaithful
  have hcaught : ∀ {r : Parser α} {t t' : State} {y : α}, Yields r t y t' →
      Yields (Parser.recovering consume stopBefore fallback r) t y t' := by
    intro r t t' y hr
    rw [Yields, Parser.recovering, outcome_tryCatch, show r.outcome t = _ from hr]
  rw [Yields, Parser.recovering, outcome_tryCatch] at hrun
  rcases yields_or_fails p s with ⟨y, s₁, hp'⟩ | ⟨d, s₁, hp'⟩
  · rw [show p.outcome s = _ from hp'] at hrun
    obtain ⟨hx, rfl⟩ := Prod.mk.inj hrun
    obtain rfl := Except.ok.inj hx
    obtain ⟨hfaithful₀, hfollows⟩ := hp s hp' hfaithful
    refine ⟨hfaithful₀, fun t hst => ?_⟩
    obtain ⟨y', t', hq, hst', hR⟩ := hfollows t hst
    exact ⟨y', t', hcaught hq, hst', hR⟩
  · rw [show p.outcome s = _ from hp'] at hrun
    obtain ⟨_, s₂, hrecord, hrest⟩ := yields_bind.1 hrun
    obtain rfl := yields_modify.1 hrecord
    obtain ⟨_, s₃, hsync, hpure⟩ := yields_bind.1 hrest
    obtain ⟨-, rfl⟩ := yields_pure.1 hpure
    obtain ⟨w, hskips⟩ := (Moves.synchronize consume stopBefore).skips hsync
    have herrors := hskips.errors.symm.trans hfaithful.errors
    exact absurd (congrArg Array.size herrors) (by simp)

/-! ### Loops and recursion -/

/-- Rounds with bounds of their own: the longer text has more tokens. -/
theorem loopWithin {V : σ → σ → Prop} [Std.Refl V] {step step' : σ → Parser (Round σ)}
    (hstep : ∀ x y, V x y → Follows chosen (Round.Matches V) (step x) (step' y)) {fuel fuel' : Nat}
    (hfuel : fuel ≤ fuel') {x y : σ} (h : V x y) :
    Follows chosen V (loopWithin step fuel x) (loopWithin step' fuel' y) := by
  induction fuel generalizing fuel' x y with
  | zero => exact never fun _ _ _ => yields_stuck
  | succ fuel ih =>
      obtain ⟨fuel', rfl⟩ : ∃ n, fuel' = n + 1 := ⟨fuel' - 1, by omega⟩
      refine bind (hstep x y h) fun round round' hround => ?_
      cases hround with
      | more value => exact ih (Nat.le_of_succ_le_succ hfuel) value
      | done value => exact pure value

/-- **Loops.** What relates the values before a round relates the values behind it. -/
theorem loop {V : σ → σ → Prop} [Std.Refl V] {step step' : σ → Parser (Round σ)}
    (hstep : ∀ x y, V x y → Follows chosen (Round.Matches V) (step x) (step' y)) {x y : σ} (h : V x y) :
    Follows chosen V (loop step x) (loop step' y) := by
  intro s z s' hrun hfaithful
  simp only [Parser.loop, yields_get_bind] at hrun ⊢
  refine ⟨(loopWithin hstep (Nat.le_refl _) h s hrun hfaithful).1, fun t hst => ?_⟩
  exact (loopWithin hstep (Nat.succ_le_succ hst.length_le) h s hrun hfaithful).2 t hst

/-- A round of a loop that only drops a separator. -/
theorem skipRound {V : σ → σ → Prop} [Std.Refl V] (round : Round σ) :
    Follows chosen (Round.Matches V) (do Parser.skip; return round) (do Parser.skip; return round) :=
  seq skip fun _ => pure (Std.Refl.refl round)

theorem unfold {f : (ι → Parser α) → ι → Parser α}
    (hf : ∀ self self', (∀ i, Follows chosen R (self i) (self' i)) →
      ∀ i, Follows chosen R (f self i) (f self' i)) {fuel fuel' : Nat} (hfuel : fuel ≤ fuel') (i : ι) :
    Follows chosen R (unfold f fuel i) (unfold f fuel' i) := by
  induction fuel generalizing fuel' i with
  | zero => exact never fun _ _ _ => yields_stuck
  | succ fuel ih =>
      obtain ⟨fuel', rfl⟩ : ∃ n, fuel' = n + 1 := ⟨fuel' - 1, by omega⟩
      exact hf _ _ (ih (Nat.le_of_succ_le_succ hfuel)) i

/-- **Recursion.** One layer is followed by another one, if it is so for the calls inside it. -/
theorem recursive {f : (ι → Parser α) → ι → Parser α}
    (hf : ∀ self self', (∀ i, Follows chosen R (self i) (self' i)) →
      ∀ i, Follows chosen R (f self i) (f self' i)) (i : ι) :
    Follows chosen R (recursive f i) (recursive f i) := by
  intro s x s' hrun hfaithful
  rw [yields_recursive] at hrun
  refine ⟨(unfold hf (Nat.le_refl _) i s hrun hfaithful).1, fun t hst => ?_⟩
  obtain ⟨y, t', hy, hst', hxy⟩ :=
    (unfold hf (Nat.succ_le_succ hst.length_le) i s hrun hfaithful).2 t hst
  exact ⟨y, t', yields_recursive.2 hy, hst', hxy⟩

theorem commaSeparated [Std.Refl R] (hitem : Follows chosen R p q) :
    Follows chosen (List.Forall₂ R) (commaSeparated p) (commaSeparated q) := by
  refine loop (fun items items' hitems => ?_) .nil
  refine bind hitem fun x y hxy => current_bind fun token token' htoken => ?_
  have hmore : List.Forall₂ R (items ++ [x]) (items' ++ [y]) :=
    List.rel_append hitems (.cons hxy .nil)
  rw [htoken.kind]
  exact ite _ (seq skip fun _ => pure (.more hmore)) (pure (.done hmore))

end Follows

end

end Parser

end ProcLang
