import ProcLang.Proofs.Extents.Expressions
import ProcLang.Proofs.Places.Parser

/-!
# ProcLang.Proofs.Extents.State

**What the parser keeps true of the spans.** A node lies where its tokens are (`Node.Laid`): it begins in
front of its end, and what it owns lies between the two, in the order in which it is written. Only a body
is different. It stands between the word that opens it and the word that closes it, and if nothing is
between these, then its span begins at the second one and ends behind the first one.

`State.Measured` is the invariant. `Measures source p s Q` says that the parser `p` keeps it if it is
started in the state `s`, whether it fails or not, and that `Q` holds of what it gives if it gives
anything. There is one rule for each way of building a parser.
-/

namespace ProcLang

open Arena Token

open scoped Position

/-! ### Nodes -/

/-- What a node owns, in the order in which it is written. The counter of a loop stands in front of the
bounds. -/
def Node.written : (family : Family) → Node family → List Visit
  | .statement, node => node.kind.counter?.toList.map .variable ++
      node.kind.expressions.map .expression ++ node.kind.bodies.map .body
  | family, node => Node.children family node

/-- A body stands between the word that opens it and the word that closes it. Its span begins where the
token behind the first one begins, and stops where the token in front of the second one stops. -/
def Body.Enclosed (source : String) (body : Body) : Prop :=
  ∃ before opening inner closing after,
    (tokenStream source).tokens = before ++ opening :: (inner ++ closing :: after) ∧
      opening.kind ∈ [.kwIs, .kwLoop, .kwThen, .kwElse] ∧ closing.kind ∈ [.kwEnd, .kwElse] ∧
      body.span = ⟨startOf (inner ++ [closing]), stopOf (opening :: inner)⟩

/-- The declarations and the statements of a body lie within it, interleaved as they are written. -/
def Body.Filled (a : Arena) (body : Body) : Prop :=
  ∃ items, a.Ranged body.span.start items body.span.stop ∧
    (body.declarations.map Declaration.visit).Sublist items ∧
    (body.statements.map Visit.statement).Sublist items

/-- A node lies where its tokens are. -/
def Node.Laid (source : String) (a : Arena) : (family : Family) → NodeId family → Node family → Prop
  | .expression, id, _ => a.WrittenIn source id
  | .body, _, node => Body.Enclosed source node ∧ Body.Filled a node
  | family, _, node => (Node.span family node).start < (Node.span family node).stop ∧
      a.Ranged (Node.span family node).start (Node.written family node) (Node.span family node).stop

/-- All nodes lie where their tokens are. The shared types have no text. -/
def Arena.Laid (source : String) (a : Arena) : Prop :=
  ∀ (family : Family) (id : NodeId family) node, a.get? id = some node →
    Arena.empty.Has (Visit.of id) ∨ Node.Laid source a family id node

section

variable {source : String} {a b : Arena} {family : Family} {id : NodeId family} {node : Node family}

theorem Arena.Laid.of_get? (h : a.Laid source) (hget : a.get? id = some node) (hfamily : family ≠ .type) :
    Node.Laid source a family id node :=
  (h family id node hget).resolve_left (not_empty_has family hfamily id)

theorem Node.Laid.extend (h : Node.Laid source a family id node) (hext : a.ExtendedBy b) :
    Node.Laid source b family id node := by
  cases family with
  | expression =>
      obtain ⟨before, front, core, behind, after, htokens, hread⟩ := h
      exact ⟨before, front, core, behind, after, htokens, hread.extend hext⟩
  | body =>
      obtain ⟨henclosed, items, hitems, hsub⟩ := h
      exact ⟨henclosed, items, hitems.extend hext, hsub⟩
  | _ => exact ⟨h.1, h.2.extend hext⟩

theorem Arena.Laid.add (h : a.Laid source)
    (hnode : Node.Laid source (a.add family node).2 family (a.add family node).1 node) :
    (a.add family node).2.Laid source := by
  intro other id found hget
  rcases Arena.get?_added hget with hold | ⟨heq, hfound, hindex⟩
  · exact (h other id found hold).imp_right fun hlaid => hlaid.extend (a.extendedBy_add family node)
  · subst heq
    subst hfound
    obtain ⟨index⟩ := id
    obtain rfl : index = a.count family := hindex
    exact Or.inr hnode

end

namespace Parser

open State

variable {source : String} {α β σ ι : Type} {s s₁ s' : State} {w : List Token}

/-! ### States -/

/-- The parser stands behind the tokens it has taken, and all that was built lies where its tokens
are. -/
structure State.Measured (source : String) (s : State) : Prop where
  taken : ∃ taken, (tokenStream source).tokens = taken ++ s.unread ∧ s.lastStop = stopOf taken
  ending : s.ending = (tokenStream source).ending
  nodes : s.arena.Laid source

/-- Some tokens were taken between two states. -/
structure State.Leads (source : String) (s s' : State) : Prop where
  before : s.Measured source
  after : s'.Measured source
  reads : ∃ w, s.Reads w s'

namespace State.Measured

theorem leads (h : s.Measured source) : s.Leads source s := ⟨h, h, [], .refl s⟩

theorem stands (h : s.Measured source) : s.At source := by
  obtain ⟨taken, htokens, -⟩ := h.taken
  exact ⟨⟨taken, htokens.symm⟩, h.ending⟩

theorem tokenize_eq (h : s.Measured source) :
    ∃ taken, tokenize source = taken ++ (s.unread ++ [s.ending]) ∧ s.lastStop = stopOf taken := by
  obtain ⟨taken, htokens, hstop⟩ := h.taken
  exact ⟨taken, by rw [tokenize, htokens, h.ending, List.append_assoc], hstop⟩

/-- The current token begins behind the one that was taken last. -/
theorem lastStop_le (h : s.Measured source) : s.lastStop ≤ s.current.start := by
  obtain ⟨taken, htokens, hstop⟩ := h.tokenize_eq
  have hapart : Apart _ := tokenize_apart source
  rw [htokens] at hapart
  rcases List.eq_nil_or_concat' taken with rfl | ⟨front, last, rfl⟩
  · have hmem : s.current ∈ tokenize source := htokens ▸ List.mem_append_right _ s.current_mem
    exact hstop ▸ origin_le_start hmem
  · rw [hstop, stopOf_concat]
    exact (List.pairwise_append.1 hapart).2.2 last (by simp) _ s.current_mem

/-- Taking the current token. -/
theorem advance (h : s.Measured source) : s.Leads source s.advance.2 := by
  cases hunread : s.unread with
  | nil =>
      have hsame : s.advance.2 = s := by rw [State.advance, hunread]
      rw [hsame]
      exact h.leads
  | cons token rest =>
      obtain ⟨taken, htokens, -⟩ := h.taken
      obtain ⟨-, hrest, hreads⟩ := reads_advance hunread
      refine ⟨h, ⟨⟨taken ++ [token], ?_, ?_⟩, hreads.ending.trans h.ending, ?_⟩, _, hreads⟩
      · rw [htokens, hunread, hrest, List.append_assoc, List.singleton_append]
      · rw [stopOf_concat, advance_of_unread hunread]
        unfold noteComment
        split <;> rfl
      · rw [advance_arena]
        exact h.nodes

/-- A token that is there is taken. -/
theorem unread_advance (h : s.Measured source) (hkind : s.current.kind ≠ .endOfFile) :
    s.unread = s.current :: s.advance.2.unread ∧ s.advance.2.lastStop = s.current.stop := by
  obtain ⟨rest, hunread⟩ := exists_unread_of_current h.stands.ending_kind hkind
  obtain ⟨-, hrest, -⟩ := reads_advance hunread
  rw [hrest]
  refine ⟨hunread, ?_⟩
  rw [advance_of_unread hunread]
  unfold noteComment
  split <;> rfl

/-- A token other than a line break has an extent. -/
theorem start_lt_lastStop (h : s.Measured source) (hend : s.current.kind ≠ .endOfFile)
    (hline : s.current.kind ≠ .newline) : s.current.start < s.advance.2.lastStop := by
  obtain ⟨hunread, hstop⟩ := h.unread_advance hend
  obtain ⟨taken, htokens, -⟩ := h.taken
  have hmem : s.current ∈ (tokenStream source).tokens := by
    rw [htokens, hunread]
    simp
  exact hstop ▸ start_lt_stop hmem hline

theorem start_le_lastStop (h : s.Measured source) (hend : s.current.kind ≠ .endOfFile) :
    s.current.start ≤ s.advance.2.lastStop := by
  rw [(h.unread_advance hend).2]
  exact s.current.start_le_stop

/-- Nothing but the errors and the journal may change. -/
theorem congr (h : s.Measured source) (hunread : s'.unread = s.unread) (hending : s'.ending = s.ending)
    (hstop : s'.lastStop = s.lastStop) (harena : s'.arena = s.arena) : s.Leads source s' := by
  refine ⟨h, ⟨?_, hending.trans h.ending, harena ▸ h.nodes⟩, [], hunread.symm, hending, ?_⟩
  · rw [hunread, hstop]
    exact h.taken
  · rw [harena]
    exact .refl _

theorem added (h : s.Measured source) {family : Family} {node : Node family}
    (hnode : Node.Laid source (s.added family node).arena family (s.arena.add family node).1 node) :
    s.Leads source (s.added family node) :=
  ⟨h, ⟨h.taken, h.ending, h.nodes.add hnode⟩, [], s.reads_added family node⟩

theorem ofSource (source : String) : (State.ofSource source).Measured source := by
  refine ⟨⟨[], ?_, ?_⟩, ?_, ?_⟩
  · rw [State.ofSource, noteComment_unread, List.nil_append]
  · rw [State.ofSource]
    unfold noteComment
    split <;> rfl
  · rw [State.ofSource, noteComment_ending]
  · rw [State.ofSource, noteComment_arena]
    exact fun _ _ _ hget => Or.inl (Arena.has_of_get? hget)

end State.Measured

namespace State.Leads

theorem trans (h : s.Leads source s₁) (h' : s₁.Leads source s') : s.Leads source s' := by
  obtain ⟨v, hv⟩ := h.reads
  obtain ⟨w, hw⟩ := h'.reads
  exact ⟨h.before, h'.after, _, hv.trans hw⟩

theorem arena (h : s.Leads source s') : s.arena.ExtendedBy s'.arena := by
  obtain ⟨w, hreads⟩ := h.reads
  exact hreads.arena

/-- The tokens that are taken lie between the current token and the last one. -/
theorem between (h : s.Leads source s') (hreads : s.Reads w s') :
    Between s.current.start w s'.lastStop := by
  obtain ⟨taken, htokens, -⟩ := h.before.taken
  obtain ⟨taken', htokens', hstop⟩ := h.after.taken
  have hapart : Apart _ := apart_tokens source
  have htaken : taken' = taken ++ w := by
    refine (List.append_left_inj s'.unread).1 ?_
    rw [← htokens', htokens, hreads.unread, List.append_assoc]
  rw [htokens, hreads.unread] at hapart
  cases w with
  | nil => exact nofun
  | cons token rest =>
      rw [current_of_unread hreads.unread, hstop, htaken, stopOf_append (by simp)]
      have hmiddle : Apart (token :: rest) := hapart.stretch ⟨taken, s'.unread, by simp⟩
      exact hmiddle.between

theorem stop_le (h : s.Leads source s') : s.lastStop ≤ s'.lastStop := by
  obtain ⟨w, hreads⟩ := h.reads
  cases w with
  | nil =>
      obtain ⟨taken, htokens, hstop⟩ := h.before.taken
      obtain ⟨taken', htokens', hstop'⟩ := h.after.taken
      have htaken : taken' = taken := by
        refine (List.append_left_inj s'.unread).1 ?_
        rw [← htokens', htokens, hreads.unread, List.nil_append]
      rw [hstop, hstop', htaken]
  | cons token rest =>
      obtain ⟨hstart, hstop⟩ := h.between hreads token List.mem_cons_self
      exact le_trans h.before.lastStop_le (le_trans hstart (le_trans token.start_le_stop hstop))

theorem start_le (h : s.Leads source s') : s.current.start ≤ s'.current.start := by
  obtain ⟨w, hreads⟩ := h.reads
  cases w with
  | nil =>
      have hsame : s'.current = s.current := by
        rw [current, current, hreads.unread, hreads.ending, List.nil_append]
      rw [hsame]
  | cons token rest =>
      obtain ⟨hstart, hstop⟩ := h.between hreads token List.mem_cons_self
      exact le_trans (le_trans hstart token.start_le_stop) (le_trans hstop h.after.lastStop_le)

end State.Leads

/-! ### Parsers -/

/-- Started in the state `s`, a parser keeps the invariant, and `Q` holds of what it gives. -/
def Measures (source : String) (p : Parser α) (s : State) (Q : α → State → Prop) : Prop :=
  ∀ r s', p.outcome s = (r, s') → s.Leads source s' ∧ ∀ x, r = .ok x → Q x s'

namespace Measures

variable {p : Parser α} {f : α → Parser β} {Q : α → State → Prop} {R : β → State → Prop}

theorem bind (hp : Measures source p s Q)
    (hf : ∀ x s₁, s.Leads source s₁ → Q x s₁ → Measures source (f x) s₁ R) :
    Measures source (p >>= f) s R := by
  intro r s' hrun
  rw [outcome_bind] at hrun
  rcases hfirst : p.outcome s with ⟨d | x, s₁⟩
  · rw [hfirst] at hrun
    obtain ⟨rfl, rfl⟩ := Prod.mk.inj hrun
    exact ⟨(hp _ _ hfirst).1, nofun⟩
  · rw [hfirst] at hrun
    obtain ⟨hleads, hx⟩ := hp _ _ hfirst
    obtain ⟨hleads', hr⟩ := hf x s₁ hleads (hx x rfl) _ _ hrun
    exact ⟨hleads.trans hleads', hr⟩

theorem imp (hp : Measures source p s Q) {Q' : α → State → Prop}
    (himp : ∀ x s', s.Leads source s' → Q x s' → Q' x s') : Measures source p s Q' := by
  intro r s' hrun
  obtain ⟨hleads, hx⟩ := hp _ _ hrun
  exact ⟨hleads, fun x hr => himp x s' hleads (hx x hr)⟩

theorem pure {x : α} (hs : s.Measured source) (hx : Q x s) : Measures source (pure x) s Q := by
  intro r s' hrun
  obtain ⟨rfl, rfl⟩ : .ok x = r ∧ s = s' := Prod.mk.inj hrun
  exact ⟨hs.leads, fun y hy => Except.ok.inj hy ▸ hx⟩

theorem map {g : α → β} (hp : Measures source p s fun x s' => R (g x) s') :
    Measures source (g <$> p) s R := by
  rw [← bind_pure_comp]
  exact hp.bind fun x s₁ hleads hx => pure hleads.after hx

theorem discard {R : PUnit → State → Prop} (hp : Measures source p s fun _ s' => R ⟨⟩ s') :
    Measures source (discard p) s R := hp.map

/-! ### Elementary steps -/

theorem current_bind {f : Token → Parser β} (hf : Measures source (f s.current) s R) :
    Measures source (current >>= f) s R := hf

theorem advance (hs : s.Measured source) :
    Measures source advance s fun token s' => token = s.current ∧ s' = s.advance.2 := by
  intro r s' hrun
  obtain ⟨rfl, rfl⟩ : .ok s.advance.1 = r ∧ s.advance.2 = s' := Prod.mk.inj hrun
  exact ⟨hs.advance, fun x hx => ⟨Except.ok.inj hx ▸ s.advance_fst, rfl⟩⟩

theorem advance_bind (hs : s.Measured source) {f : Token → Parser β}
    (hf : s.Leads source s.advance.2 → Measures source (f s.current) s.advance.2 R) :
    Measures source (Parser.advance >>= f) s R := by
  refine (advance hs).bind fun token s₁ hleads heq => ?_
  obtain ⟨rfl, rfl⟩ := heq
  exact hf hleads

theorem skip_bind (hs : s.Measured source) {f : Unit → Parser β}
    (hf : s.Leads source s.advance.2 → Measures source (f ()) s.advance.2 R) :
    Measures source (skip >>= f) s R := by
  have hskip : Measures source skip s fun _ s' => s' = s.advance.2 :=
    discard ((advance hs).imp fun _ _ _ heq => heq.2)
  refine hskip.bind fun _ s₁ hleads heq => ?_
  subst heq
  exact hf hleads

theorem spanFrom_bind {start : Position} {f : Span → Parser β}
    (hf : Measures source (f ⟨start, s.lastStop⟩) s R) :
    Measures source (spanFrom start >>= f) s R := hf

theorem get_bind {f : State → Parser β} (hf : Measures source (f s) s R) :
    Measures source (get >>= f) s R := hf

/-- Noting and recording do not count. -/
theorem modify {g : State → State} (hg : s.Leads source (g s)) :
    Measures source (modify g : Parser PUnit) s fun _ s' => s' = g s := by
  intro r s' hrun
  obtain ⟨rfl, rfl⟩ : .ok ⟨⟩ = r ∧ g s = s' := Prod.mk.inj hrun
  exact ⟨hg, fun _ _ => rfl⟩

theorem note (hs : s.Measured source) (event : Event) :
    Measures source (note event) s fun _ s' => s' = s.note event :=
  modify (hs.congr rfl rfl rfl rfl)

theorem add (hs : s.Measured source) {family : Family} {node : Node family}
    (hnode : Node.Laid source (s.added family node).arena family (s.arena.add family node).1 node) :
    Measures source (add family node) s fun id s' =>
      id = (s.arena.add family node).1 ∧ s' = s.added family node := by
  intro r s' hrun
  obtain ⟨rfl, rfl⟩ : .ok (s.arena.add family node).1 = r ∧ s.added family node = s' :=
    Prod.mk.inj hrun
  exact ⟨hs.added hnode, fun x hx => ⟨(Except.ok.inj hx).symm, rfl⟩⟩

/-! ### Failing -/

theorem fail (hs : s.Measured source) (d : Diagnostic) : Measures source (throw d) s Q := by
  intro r s' hrun
  obtain ⟨rfl, rfl⟩ : .error d = r ∧ s = s' := Prod.mk.inj hrun
  exact ⟨hs.leads, nofun⟩

theorem raise (hs : s.Measured source) (d : Diagnostic) : Measures source (raise d) s Q :=
  (note hs _).bind fun _ _ hleads _ => fail hleads.after d

theorem raisePast (hs : s.Measured source) (d : Diagnostic) : Measures source (raisePast d) s Q :=
  (note hs _).bind fun _ _ hleads _ => skip_bind hleads.after fun hskip => fail hskip.after d

theorem refuse (hs : s.Measured source) (expected : String) :
    Measures source (refuse expected) s Q :=
  current_bind (raise hs _)

theorem stuck (hs : s.Measured source) : Measures source stuck s Q := current_bind (raise hs _)

/-- An error at the current token, which is taken unless it ends the line. -/
theorem reject (hs : s.Measured source) (expected : String) :
    Measures source (do throw (← Parser.reject expected)) s Q := by
  have hreject : Measures source (Parser.reject expected) s fun _ _ => True := by
    refine current_bind ((note hs _).bind fun _ s₁ hleads _ => ?_)
    split
    · exact skip_bind hleads.after fun hskip => pure hskip.after trivial
    · exact pure hleads.after trivial
  exact hreject.bind fun d _ hleads _ => fail hleads.after d

theorem expect (hs : s.Measured source) (kind : TokenKind) (expected : String) :
    Measures source (expect kind expected) s fun token s' =>
      s.current.kind = kind ∧ token = s.current ∧ s' = s.advance.2 := by
  refine current_bind ?_
  split
  · rename_i hkind
    refine (advance hs).imp fun _ _ _ heq => ⟨?_, heq⟩
    simpa [Token.isOneOf] using hkind
  · exact reject hs expected

theorem expect_bind (hs : s.Measured source) {kind : TokenKind} {expected : String}
    {f : Token → Parser β} (hf : s.current.kind = kind → s.Leads source s.advance.2 →
      Measures source (f s.current) s.advance.2 R) :
    Measures source (Parser.expect kind expected >>= f) s R := by
  refine (expect hs kind expected).bind fun token s₁ hleads heq => ?_
  obtain ⟨hkind, rfl, rfl⟩ := heq
  exact hf hkind hleads

theorem discard_expect_bind (hs : s.Measured source) {kind : TokenKind} {expected : String}
    {f : PUnit → Parser β} (hf : s.current.kind = kind → s.Leads source s.advance.2 →
      Measures source (f ⟨⟩) s.advance.2 R) :
    Measures source (Functor.discard (Parser.expect kind expected) >>= f) s R := by
  have hexpect : Measures source (Functor.discard (Parser.expect kind expected)) s fun _ s' =>
      s.current.kind = kind ∧ s' = s.advance.2 :=
    discard ((expect hs kind expected).imp fun _ _ _ heq => ⟨heq.1, heq.2.2⟩)
  refine hexpect.bind fun _ s₁ hleads heq => ?_
  obtain ⟨hkind, rfl⟩ := heq
  exact hf hkind hleads

/-! ### Recovery, loops and recursion -/

theorem synchronizeWithin (consume stopBefore : List TokenKind) (fuel : Nat) (hs : s.Measured source) :
    Measures source (synchronizeWithin consume stopBefore fuel) s fun _ _ => True := by
  induction fuel generalizing s with
  | zero => exact pure hs trivial
  | succ fuel ih =>
      refine current_bind ?_
      split
      · exact pure hs trivial
      · refine skip_bind hs fun hskip => ?_
        split
        · exact pure hskip.after trivial
        · exact ih hskip.after

/-- **Going on after an error.** What was built stays, and the fallback has to fit wherever reading goes
on. -/
theorem recovering (hp : Measures source p s Q) {fallback : α}
    (hfallback : ∀ s', s.Leads source s' → Q fallback s') (consume stopBefore : List TokenKind) :
    Measures source (recovering consume stopBefore fallback p) s Q := by
  intro r s' hrun
  rw [Parser.recovering, outcome_tryCatch] at hrun
  rcases hfirst : p.outcome s with ⟨d | x, s₁⟩
  · rw [hfirst] at hrun
    obtain ⟨hleads, -⟩ := hp _ _ hfirst
    have hhandle : Measures source (do record d; synchronize consume stopBefore; return fallback) s₁
        fun x s' => s₁.Leads source s' ∧ x = fallback := by
      refine (modify (hleads.after.congr rfl rfl rfl rfl)).bind fun _ s₂ hrecord _ => ?_
      refine (get_bind (synchronizeWithin _ _ _ hrecord.after)).bind fun _ s₃ hsync _ => ?_
      exact pure hsync.after ⟨hrecord.trans hsync, rfl⟩
    obtain ⟨hleads', hx⟩ := hhandle _ _ hrun
    refine ⟨hleads.trans hleads', fun x hr => ?_⟩
    obtain ⟨-, rfl⟩ := hx x hr
    exact hfallback s' (hleads.trans hleads')
  · rw [hfirst] at hrun
    obtain ⟨rfl, rfl⟩ := Prod.mk.inj hrun
    exact hp _ _ hfirst

/-- What a round of a loop leaves, given what each round and the last one have to leave. -/
def RoundLeaves (more done : σ → State → Prop) : Round σ → State → Prop
  | .more value, s => more value s
  | .done value, s => done value s

/-- **Loop invariant.** -/
theorem loop {step : σ → Parser (Round σ)} {I Q : σ → State → Prop} {value : σ}
    (hs : s.Measured source) (hvalue : I value s)
    (hstep : ∀ value s₁, s.Leads source s₁ → I value s₁ →
      Measures source (step value) s₁ (RoundLeaves I Q)) :
    Measures source (loop step value) s Q := by
  have within : ∀ fuel value s₁, s.Leads source s₁ → I value s₁ →
      Measures source (loopWithin step fuel value) s₁ Q := by
    intro fuel
    induction fuel with
    | zero => exact fun _ _ hleads _ => stuck hleads.after
    | succ fuel ih =>
        intro value s₁ hleads hvalue
        refine (hstep value s₁ hleads hvalue).bind fun round s₂ hleads' hround => ?_
        cases round with
        | more next => exact ih next s₂ (hleads.trans hleads') hround
        | done last => exact pure hleads'.after hround
  exact get_bind (within _ value s hs.leads hvalue)

theorem recursive {f : (ι → Parser α) → ι → Parser α} {P : State → Prop}
    {T : State → α → State → Prop}
    (layer : ∀ self : ι → Parser α,
      (∀ i s, s.Measured source → P s → Measures source (self i) s (T s)) →
      ∀ i s, s.Measured source → P s → Measures source (f self i) s (T s))
    (i : ι) (hs : s.Measured source) (hP : P s) :
    Measures source (Parser.recursive f i) s (T s) := by
  have within : ∀ fuel i s, s.Measured source → P s → Measures source (unfold f fuel i) s (T s) := by
    intro fuel
    induction fuel with
    | zero => exact fun _ _ hs _ => stuck hs
    | succ fuel ih => exact layer _ ih
  exact get_bind (within _ i s hs hP)

end Measures

end Parser

end ProcLang
