import ProcLang.Proofs.Account.Remarks
import ProcLang.Proofs.Expression.Keeps
import ProcLang.Proofs.Parser.Progress
import ProcLang.Proofs.Places.Tokens

/-!
# ProcLang.Proofs.Places.Parser

**Syntax errors and nodes begin where tokens do** (`parse_located`), and the errors are found in the
order of the text.

`State.Located` is the invariant of the parser: all that was built and recorded begins at tokens, and
nothing was recorded behind the current token. A failure carries an error that is not recorded yet. It
may lie in front of the current token, as that of a statement that turns out to be none after it was
read; but no error that was recorded lies behind it (`Raised`), and so it can be recorded as the last.
-/

namespace ProcLang

/-- Every node begins at one of the places. The shared types have no text and so no place. -/
def Arena.Located (P : Position → Prop) (a : Arena) : Prop :=
  ∀ (family : Family) (id : NodeId family) node, a.get? id = some node →
    Arena.empty.Has (Visit.of id) ∨ P (Node.span family node).start

theorem Arena.empty_located (P : Position → Prop) : Arena.empty.Located P :=
  fun _ _ _ hget => Or.inl (Arena.has_of_get? hget)

theorem Arena.Located.add {P : Position → Prop} {a : Arena} (h : a.Located P) {family : Family}
    {node : Node family} (hnode : P (Node.span family node).start) :
    (a.add family node).2.Located P := by
  intro other id found hget
  rcases Arena.get?_added hget with hold | ⟨heq, hfound, -⟩
  · exact h other id found hold
  · subst heq
    subst hfound
    exact Or.inr hnode

namespace Parser

open State Source

variable {source : String} {α β σ ι : Type} {s s' : State}

/-! ### States -/

/-- All that was built and recorded so far begins at tokens, and is in order. -/
structure State.Located (source : String) (s : State) : Prop where
  stands : s.At source
  nodes : s.arena.Located (Token.Begins source)
  begins : ∀ d ∈ s.errors.toList, Token.Begins source d.position
  reached : ∀ d ∈ s.errors.toList, d.position ≤ s.current.start
  sorted : s.errors.toList.Pairwise fun d e => d.position ≤ e.position

/-- An error that can be recorded next. -/
structure Raised (source : String) (d : Diagnostic) (s : State) : Prop where
  begins : Token.Begins source d.position
  last : ∀ e ∈ s.errors.toList, e.position ≤ d.position
  reached : d.position ≤ s.current.start

theorem Raised.skips {d : Diagnostic} (h : Raised source d s) {w : List Token}
    (hskips : s.Skips w s') (hle : s.current.start ≤ s'.current.start) : Raised source d s' :=
  ⟨h.begins, hskips.errors ▸ h.last, Position.le_trans h.reached hle⟩

namespace State.Located

theorem skips (h : s.Located source) {w : List Token} (hskips : s.Skips w s') :
    s'.Located source ∧ s.current.start ≤ s'.current.start := by
  obtain ⟨hstands, hle⟩ := h.stands.skips hskips
  refine ⟨⟨hstands, hskips.arena ▸ h.nodes, ?_, ?_, ?_⟩, hle⟩
  · rw [hskips.errors]
    exact h.begins
  · rw [hskips.errors]
    exact fun d hd => Position.le_trans (h.reached d hd) hle
  · rw [hskips.errors]
    exact h.sorted

/-- An error at the current token. -/
theorem raised (h : s.Located source) (cause : Cause) : Raised source ⟨cause, s.current.start⟩ s :=
  ⟨h.stands.begins, h.reached, Position.le_refl _⟩

theorem record (h : s.Located source) {d : Diagnostic} (hd : Raised source d s) :
    State.Located source { s with errors := s.errors.push d } := by
  have hmem : ∀ {e}, e ∈ (s.errors.push d).toList → e ∈ s.errors.toList ∨ e = d := by
    intro e he
    simpa using he
  refine ⟨⟨h.stands.unread, h.stands.ending⟩, h.nodes, fun e he => ?_, fun e he => ?_, ?_⟩
  · rcases hmem he with he | rfl
    · exact h.begins e he
    · exact hd.begins
  · rcases hmem he with he | rfl
    · exact h.reached e he
    · exact hd.reached
  · rw [Array.toList_push, List.pairwise_append]
    exact ⟨h.sorted, List.pairwise_singleton .., fun e he d' hd' =>
      List.mem_singleton.1 hd' ▸ hd.last e he⟩

theorem ofSource (source : String) : (State.ofSource source).Located source := by
  have hempty : (State.ofSource source).errors = #[] := by rw [State.ofSource, noteComment_errors]
  refine ⟨⟨?_, ?_⟩, ?_, ?_, ?_, ?_⟩
  · rw [State.ofSource]
    simp only [noteComment_unread, List.suffix_refl]
  · rw [State.ofSource, noteComment_ending]
  · rw [State.ofSource, noteComment_arena]
    exact Arena.empty_located _
  · simp [hempty]
  · simp [hempty]
  · simp [hempty]

end State.Located

theorem yields_reject {expected : String} {d : Diagnostic} (h : Yields (reject expected) s d s') :
    d = s.current.unexpected expected ∧ ∃ w, s.Skips w s' := by
  simp only [reject, yields_current_bind, yields_note_bind] at h
  split at h
  · obtain ⟨⟨⟩, s₁, hskip, h⟩ := yields_bind.1 h
    obtain ⟨rfl, rfl⟩ := yields_pure.1 h
    obtain ⟨w, hskips⟩ := Moves.skip.skips hskip
    exact ⟨rfl, _, (s.skips_note _).trans hskips⟩
  · obtain ⟨rfl, rfl⟩ := yields_pure.1 h
    exact ⟨rfl, _, s.skips_note _⟩

/-! ### Parsers -/

/-- What a parser leaves: a value that fits, or an error that can be recorded. -/
def Leaves (source : String) (fits : α → Prop) (s : State) : Except Diagnostic α → Prop
  | .ok x => fits x
  | .error d => Raised source d s

/-- From the state `s` a parser comes to a later place, keeps the invariant, and leaves what fits. -/
def LocatesFrom (source : String) (fits : α → Prop) (p : Parser α) (s : State) : Prop :=
  ∀ r s', p.outcome s = (r, s') →
    s'.Located source ∧ s.current.start ≤ s'.current.start ∧ Leaves source fits s' r

/-- A parser keeps the invariant, and leaves what fits. -/
def Locates (source : String) (fits : α → Prop) (p : Parser α) : Prop :=
  ∀ s, s.Located source → LocatesFrom source fits p s

/-- A parser keeps the invariant, whatever it gives. -/
abbrev LocatesAny (source : String) (p : Parser α) : Prop := Locates source (fun _ => True) p

variable {fits : α → Prop} {goal : β → Prop} {p : Parser α} {f : α → Parser β}

theorem LocatesFrom.bind (hp : LocatesFrom source fits p s)
    (hf : ∀ x s₁, Yields p s x s₁ → s₁.Located source → s.current.start ≤ s₁.current.start →
      fits x → LocatesFrom source goal (f x) s₁) :
    LocatesFrom source goal (p >>= f) s := by
  intro r s' hrun
  rw [outcome_bind] at hrun
  rcases hfirst : p.outcome s with ⟨d | x, s₁⟩
  · rw [hfirst] at hrun
    obtain ⟨rfl, rfl⟩ := Prod.mk.inj hrun
    exact hp _ _ hfirst
  · rw [hfirst] at hrun
    obtain ⟨hs₁, hle, hx⟩ := hp _ _ hfirst
    obtain ⟨hs', hle', hr⟩ := hf x s₁ hfirst hs₁ hle hx _ _ hrun
    exact ⟨hs', Position.le_trans hle hle', hr⟩

/-- A failure at a place that can be recorded. -/
theorem LocatesFrom.raise (hs : s.Located source) {d : Diagnostic} (hd : Raised source d s) :
    LocatesFrom source fits (raise d) s := by
  intro r s' hrun
  obtain ⟨rfl, rfl⟩ : .error d = r ∧ s.note (.syntaxError d) = s' := Prod.mk.inj hrun
  obtain ⟨hnote, hle⟩ := hs.skips (s.skips_note _)
  exact ⟨hnote, hle, hd.begins, hd.last, hd.reached⟩

theorem LocatesFrom.throw (hs : s.Located source) {d : Diagnostic} (hd : Raised source d s) :
    LocatesFrom source fits (throw d) s := by
  intro r s' hrun
  obtain ⟨rfl, rfl⟩ : .error d = r ∧ s = s' := Prod.mk.inj hrun
  exact ⟨hs, Position.le_refl _, hd⟩

namespace Locates

theorem bind (hp : Locates source fits p) (hf : ∀ x, fits x → Locates source goal (f x)) :
    Locates source goal (p >>= f) :=
  fun s hs => (hp s hs).bind fun x s₁ _ hs₁ _ hx => hf x hx s₁ hs₁

theorem pure {x : α} (hx : fits x) : Locates source fits (pure x) := by
  intro s hs r s' hrun
  obtain ⟨rfl, rfl⟩ : .ok x = r ∧ s = s' := Prod.mk.inj hrun
  exact ⟨hs, Position.le_refl _, hx⟩

theorem map {g : α → β} (hp : Locates source fits p) (hg : ∀ x, fits x → goal (g x)) :
    Locates source goal (g <$> p) := by
  rw [← bind_pure_comp]
  exact hp.bind fun x hx => pure (hg x hx)

theorem discard (hp : Locates source fits p) : LocatesAny source (discard p) :=
  hp.map fun _ _ => trivial

theorem current : Locates source (fun token => Token.Begins source token.start) current := by
  intro s hs r s' hrun
  obtain ⟨rfl, rfl⟩ : .ok s.current = r ∧ s = s' := Prod.mk.inj hrun
  exact ⟨hs, Position.le_refl _, hs.stands.begins⟩

theorem advance : Locates source (fun token => Token.Begins source token.start) advance := by
  intro s hs r s' hrun
  obtain ⟨rfl, rfl⟩ : .ok s.advance.1 = r ∧ s.advance.2 = s' := Prod.mk.inj hrun
  obtain ⟨w, hskips⟩ := s.exists_skips_advance
  obtain ⟨hs', hle⟩ := hs.skips hskips
  refine ⟨hs', hle, ?_⟩
  rw [Leaves, advance_fst]
  exact hs.stands.begins

theorem skip : LocatesAny source skip := advance.discard

theorem note (event : Event) : LocatesAny source (note event) := by
  intro s hs r s' hrun
  obtain ⟨rfl, rfl⟩ : .ok () = r ∧ s.note event = s' := Prod.mk.inj hrun
  obtain ⟨hnote, hle⟩ := hs.skips (s.skips_note _)
  exact ⟨hnote, hle, trivial⟩

theorem spanFrom (start : Position) :
    Locates source (fun span => span.start = start) (spanFrom start) := by
  intro s hs r s' hrun
  obtain ⟨rfl, rfl⟩ : .ok ⟨start, s.lastStop⟩ = r ∧ s = s' := Prod.mk.inj hrun
  exact ⟨hs, Position.le_refl _, rfl⟩

theorem add (family : Family) {node : Node family}
    (hnode : Token.Begins source (Node.span family node).start) :
    LocatesAny source (add family node) := by
  intro s hs r s' hrun
  obtain ⟨rfl, rfl⟩ : .ok _ = r ∧ s.added family node = s' := Prod.mk.inj hrun
  exact ⟨⟨⟨hs.stands.unread, hs.stands.ending⟩, hs.nodes.add hnode, hs.begins, hs.reached, hs.sorted⟩,
    Position.le_refl _, trivial⟩

/-- A node that is added with a span that has been measured. -/
theorem span_add {start : Position} (family : Family) {node : Span → Node family}
    (hstart : Token.Begins source start) (hspan : ∀ span, Node.span family (node span) = span) :
    LocatesAny source (do
      let span ← Parser.spanFrom start
      Parser.add family (node span)) :=
  (spanFrom start).bind fun span hsame => add family (by rw [hspan, hsame]; exact hstart)

/-! ### Failing -/

/-- A failure at the current token. -/
theorem raise_current (cause : Token → Cause) :
    Locates source fits (do let token ← Parser.current; Parser.raise ⟨cause token, token.start⟩) :=
  fun _ hs => LocatesFrom.raise hs (hs.raised _)

theorem refuse (expected : String) : Locates source fits (refuse expected) :=
  raise_current fun token => (token.unexpected expected).cause

theorem stuck : Locates source fits stuck := raise_current fun _ => .alreadyAtEnd

/-- An error at the current token, which is taken. -/
theorem raisePast_current {token : Token} (cause : Cause) (hs : s.Located source)
    (htoken : s.current = token) :
    LocatesFrom source fits (Parser.raisePast ⟨cause, token.start⟩) s := by
  subst htoken
  intro r s' hrun
  obtain ⟨w, hskips⟩ := (s.note (.syntaxError ⟨cause, s.current.start⟩)).exists_skips_advance
  obtain ⟨rfl, rfl⟩ : .error ⟨cause, s.current.start⟩ = r ∧
      (s.note (.syntaxError ⟨cause, s.current.start⟩)).advance.2 = s' := Prod.mk.inj hrun
  have hall := (s.skips_note _).trans hskips
  obtain ⟨hs', hle⟩ := hs.skips hall
  exact ⟨hs', hle, (hs.raised cause).skips hall hle⟩

/-- An error at the current token, which is taken unless it ends the line. -/
theorem reject (expected : String) : Locates source fits (do throw (← Parser.reject expected)) := by
  intro s hs
  have hreject : LocatesAny source (Parser.reject expected) := by
    refine current.bind fun token _ => (note _).bind fun _ _ => ?_
    split
    · exact skip.bind fun _ _ => pure trivial
    · exact pure trivial
  refine (hreject s hs).bind fun d s₁ hrun hs₁ hle _ => ?_
  obtain ⟨rfl, w, hskips⟩ := yields_reject hrun
  exact .throw hs₁ ((hs.raised _).skips hskips hle)

theorem expect (kind : TokenKind) (expected : String) :
    Locates source (fun token => Token.Begins source token.start) (expect kind expected) := by
  refine current.bind fun token _ => ?_
  split
  · exact advance
  · exact reject expected

/-! ### Recovery, loops and recursion -/

/-- **Going on after an error** records it as the last one. -/
theorem recovering (hp : Locates source fits p) {fallback : α} (hfallback : fits fallback)
    (consume stopBefore : List TokenKind) :
    Locates source fits (recovering consume stopBefore fallback p) := by
  intro s hs r s' hrun
  rw [Parser.recovering, outcome_tryCatch] at hrun
  rcases hfirst : p.outcome s with ⟨d | x, s₁⟩
  · rw [hfirst] at hrun
    obtain ⟨hs₁, hle, hd⟩ := hp s hs _ _ hfirst
    obtain ⟨s₂, hsync⟩ := exists_yields_synchronize consume stopBefore
      { s₁ with errors := s₁.errors.push d }
    have hrest : Yields (do record d; synchronize consume stopBefore; return fallback : Parser α)
        s₁ fallback s₂ :=
      yields_bind.2 ⟨⟨⟩, _, yields_modify.2 rfl,
        yields_bind.2 ⟨_, _, hsync, yields_pure.2 ⟨rfl, rfl⟩⟩⟩
    obtain ⟨rfl, rfl⟩ := Prod.mk.inj (hrest.symm.trans hrun)
    obtain ⟨w, hskips⟩ := (Moves.synchronize consume stopBefore).skips hsync
    obtain ⟨hs₂, hle'⟩ := (hs₁.record hd).skips hskips
    exact ⟨hs₂, Position.le_trans hle hle', hfallback⟩
  · rw [hfirst] at hrun
    obtain ⟨rfl, rfl⟩ := Prod.mk.inj hrun
    exact hp s hs _ _ hfirst

theorem loop {step : σ → Parser (Round σ)} {good : σ → Prop}
    (hstep : ∀ value, good value → Locates source (fun round => good round.value) (step value))
    {value : σ} (hvalue : good value) : Locates source good (loop step value) := by
  have within : ∀ fuel value, good value → Locates source good (loopWithin step fuel value) := by
    intro fuel
    induction fuel with
    | zero => exact fun _ _ => stuck
    | succ fuel ih =>
        intro value hvalue
        refine (hstep value hvalue).bind fun round hround => ?_
        cases round with
        | more next => exact ih next hround
        | done last => exact pure hround
  intro s hs
  exact within _ value hvalue s hs

theorem recursive {f : (ι → Parser α) → ι → Parser α}
    (layer : ∀ self : ι → Parser α, (∀ i, Locates source fits (self i)) →
      ∀ i, Locates source fits (f self i)) (i : ι) :
    Locates source fits (Parser.recursive f i) := by
  have within : ∀ fuel i, Locates source fits (unfold f fuel i) := by
    intro fuel
    induction fuel with
    | zero => exact fun _ => stuck
    | succ fuel ih => exact fun i => layer _ ih i
  intro s hs
  exact within _ i s hs

theorem commaSeparated {item : Parser α} (hitem : Locates source fits item) :
    LocatesAny source (commaSeparated item) := by
  refine loop (fun items _ => hitem.bind fun x _ => current.bind fun token _ => ?_) trivial
  split
  · exact skip.bind fun _ _ => pure trivial
  · exact pure trivial

end Locates

/-! ### Expressions -/

/-- The expression begins at a token. -/
def Placed.Begins (source : String) (placed : Placed) : Prop :=
  Token.Begins source placed.node.span.start

theorem place_locates {node : Expression} (hnode : Token.Begins source node.span.start) :
    Locates source (Placed.Begins source) (place node) :=
  (Locates.add .expression hnode).bind fun _ _ => .pure hnode

theorem literalNode_start {token : Token} {node : Expression} (h : literalNode token = .ok node) :
    node.span.start = token.start := by
  unfold literalNode at h
  simp only at h
  split at h
  · split at h
    · cases h
      rfl
    · cases h
  · cases h
    rfl
  · cases h
    rfl
  · cases h
    rfl
  · cases h

theorem literal_locates : Locates source (Placed.Begins source) literal := by
  intro s hs
  refine (Locates.current s hs).bind fun token s₁ hrun hs₁ _ htoken => ?_
  obtain ⟨rfl, rfl⟩ := yields_current.1 hrun
  split
  · exact Locates.raisePast_current _ hs rfl
  · rename_i node hnode
    rw [← literalNode_start hnode] at htoken
    exact (Locates.skip.bind fun _ _ => place_locates htoken) _ hs

section

variable {self : BindingPower → Parser Placed}
  (hself : ∀ power, Locates source (Placed.Begins source) (self power))

include hself

theorem arguments_locates : LocatesAny source (arguments self) := by
  refine Locates.current.bind fun token _ => ?_
  split
  · exact .pure trivial
  · exact .commaSeparated (hself .loosest)

theorem nameOrCall_locates : Locates source (Placed.Begins source) (nameOrCall self) := by
  refine Locates.advance.bind fun name hname => Locates.current.bind fun token _ => ?_
  split
  · refine Locates.skip.bind fun _ _ => (arguments_locates hself).bind fun items _ => ?_
    refine (Locates.expect _ _).discard.bind fun _ _ => (Locates.spanFrom _).bind fun span hspan => ?_
    exact place_locates (hspan ▸ hname)
  · exact place_locates hname

theorem grouping_locates : Locates source (Placed.Begins source) (grouping self) :=
  Locates.skip.bind fun _ _ => (hself .loosest).bind fun _ hinner =>
    (Locates.expect _ _).discard.bind fun _ _ => .pure hinner

theorem unary_locates : Locates source (Placed.Begins source) (unary self) := by
  intro s hs
  refine (Locates.current s hs).bind fun token s₁ hrun hs₁ _ htoken => ?_
  obtain ⟨rfl, rfl⟩ := yields_current.1 hrun
  split
  · exact Locates.raisePast_current _ hs rfl
  · exact (Locates.skip.bind fun _ _ => (hself .unary).bind fun _ _ => place_locates htoken) _ hs

theorem operand_locates (rule : OperandRule) :
    Locates source (Placed.Begins source) (operand self rule) := by
  cases rule with
  | literal => exact literal_locates
  | name => exact nameOrCall_locates hself
  | grouping => exact grouping_locates hself
  | unary => exact unary_locates hself

/-- What a tail belongs to begins where its left operand does. -/
theorem tail_locates (rule : TailRule) {left : Placed} (hleft : left.Begins source)
    (power : BindingPower) : Locates source (Placed.Begins source) (tail self rule left power) := by
  cases rule with
  | binary =>
      intro s hs
      refine (Locates.current s hs).bind fun token s₁ hrun hs₁ _ _ => ?_
      obtain ⟨rfl, rfl⟩ := yields_current.1 hrun
      split
      · exact Locates.raisePast_current _ hs rfl
      · refine (Locates.skip.bind fun _ _ => (hself power).bind fun right _ => ?_) _ hs
        exact place_locates hleft
  | member => exact Locates.skip.bind fun _ _ => (hself power).bind fun _ _ => place_locates hleft
  | index =>
      refine Locates.skip.bind fun _ _ => (hself .loosest).bind fun _ _ => ?_
      refine (Locates.expect _ _).discard.bind fun _ _ => ?_
      refine (Locates.spanFrom _).bind fun span hspan => ?_
      exact place_locates (hspan ▸ hleft)

theorem expressionStep_locates (power : BindingPower) :
    Locates source (Placed.Begins source) (expressionStep self Grammar.standard power) := by
  refine Locates.current.bind fun token _ => ?_
  split
  · exact Locates.refuse _
  · refine (operand_locates hself _).bind fun first hfirst => .loop (fun left hleft => ?_) hfirst
    refine Locates.current.bind fun token _ => ?_
    split
    · exact .pure hleft
    · split
      · exact (tail_locates hself _ hleft _).bind fun _ hnext => .pure hnext
      · exact .pure hleft

end

theorem expression_locates (power : BindingPower) :
    Locates source (Placed.Begins source) (expression Grammar.standard power) :=
  .recursive (fun _ hself power => expressionStep_locates hself power) power

/-! ### Types and declarations of variables -/

theorem terminator_locates : LocatesAny source terminator := by
  refine Locates.current.bind fun token _ => ?_
  split
  · exact Locates.skip
  · exact Locates.skip
  · exact .pure trivial
  · exact .pure trivial
  · exact .pure trivial
  · exact Locates.reject _

theorem initializer_locates : LocatesAny source (initializer Grammar.standard) := by
  refine Locates.current.bind fun token _ => ?_
  split
  · exact Locates.skip.bind fun _ _ => (expression_locates _).bind fun _ _ => .pure trivial
  · exact .pure trivial

theorem arrayLength_locates : LocatesAny source (arrayLength Grammar.standard) := by
  refine Locates.current.bind fun token _ => ?_
  split
  · exact Locates.skip.bind fun _ _ => (expression_locates _).bind fun _ _ =>
      (Locates.expect _ _).discard.bind fun _ _ => .pure trivial
  · exact .pure trivial

section

variable {type : Parser TypeId} (htype : LocatesAny source type)

include htype

theorem annotation_locates : LocatesAny source ( annotation type) := by
  refine Locates.current.bind fun token _ => ?_
  split
  · exact Locates.skip.bind fun _ _ => htype.map fun _ _ => trivial
  · exact .pure trivial

theorem variableDeclWith_locates :
    LocatesAny source (variableDeclWith Grammar.standard type) := by
  refine Locates.advance.bind fun start hstart => (Locates.expect _ _).bind fun name _ => ?_
  refine (annotation_locates htype).bind fun _ _ => initializer_locates.bind fun _ _ => ?_
  refine (Locates.spanFrom _).bind fun span hspan => terminator_locates.bind fun _ _ => ?_
  exact .add .variable (hspan ▸ hstart)

theorem fieldRound_locates (fields : List VariableId) :
    LocatesAny source (fieldRound type fields) := by
  refine Locates.current.bind fun token _ => ?_
  split
  · exact Locates.skip.bind fun _ _ => .pure trivial
  · exact Locates.skip.bind fun _ _ => .pure trivial
  · exact (variableDeclWith_locates htype).bind fun _ _ => .pure trivial
  · exact .pure trivial

theorem typeByRule_locates (rule : TypeRule) :
    LocatesAny source (typeByRule Grammar.standard type rule) := by
  cases rule with
  | primitive => exact Locates.advance.bind fun token htoken => .add .type htoken
  | named => exact (Locates.expect _ _).bind fun token htoken => .add .type htoken
  | array =>
      refine Locates.advance.bind fun start hstart => arrayLength_locates.bind fun _ _ => ?_
      exact htype.bind fun _ _ => .span_add .type hstart fun _ => rfl
  | record =>
      have hfields : LocatesAny source (recordFields Grammar.standard type) := by
        rw [recordFields_eq]
        exact .loop (fun fields _ => fieldRound_locates htype fields) trivial
      refine Locates.advance.bind fun start hstart => hfields.bind fun _ _ => ?_
      exact (Locates.expect _ _).discard.bind fun _ _ => .span_add .type hstart fun _ => rfl

theorem typeStep_locates : LocatesAny source (typeStep Grammar.standard type) := by
  refine Locates.current.bind fun token _ => ?_
  split
  · exact Locates.reject _
  · exact typeByRule_locates htype _

end

theorem type_locates : LocatesAny source (type Grammar.standard) :=
  .recursive (fun _ hself _ => typeStep_locates (hself ())) ()

theorem variableDecl_locates : LocatesAny source (variableDecl Grammar.standard) :=
  variableDeclWith_locates type_locates

theorem typeDecl_locates : LocatesAny source (typeDecl Grammar.standard) := by
  refine Locates.advance.bind fun start hstart => (Locates.expect _ _).bind fun name _ => ?_
  refine (Locates.expect _ _).discard.bind fun _ _ => type_locates.bind fun _ _ => ?_
  refine (Locates.spanFrom _).bind fun span hspan => terminator_locates.bind fun _ _ => ?_
  exact .add .typeDecl (hspan ▸ hstart)

/-! ### Statements and bodies -/

/-- The counter of a loop and its type begin where its name does. -/
theorem counter_locates {name : Token} (hname : Token.Begins source name.start) :
    LocatesAny source (counter name) :=
  (Locates.add .type hname).bind fun _ _ => .add .variable hname

theorem resultValue_locates : LocatesAny source (resultValue Grammar.standard) := by
  refine Locates.current.bind fun token _ => ?_
  split
  all_goals first
    | exact .pure trivial
    | exact (expression_locates _).bind fun _ _ => .pure trivial

/-- A statement that turns out to be none is an error at its start. Nothing was recorded since, as the
parser of expressions records nothing. -/
theorem expressionStatement_locates :
    LocatesAny source (expressionStatement Grammar.standard) := by
  intro s hs
  refine (Locates.current s hs).bind fun start s₁ hcurrent _ _ hstart => ?_
  obtain ⟨rfl, rfl⟩ := yields_current.1 hcurrent
  refine (expression_locates .loosest _ hs).bind fun first s₂ hrun hs₂ hle _ => ?_
  refine (Locates.current s₂ hs₂).bind fun token s₃ hcurrent hs₃ _ _ => ?_
  obtain ⟨rfl, rfl⟩ := yields_current.1 hcurrent
  split
  · refine (Locates.skip.bind fun _ _ => (expression_locates _).bind fun _ _ => ?_) _ hs₂
    exact .span_add .statement hstart fun _ => rfl
  · split
    · exact Locates.span_add .statement hstart (fun _ => rfl) _ hs₂
    · have herrors := (expression_keeps .loosest _ _ _ hrun).1.errors
      exact .raise hs₂ ⟨hstart, herrors ▸ hs.reached, hle⟩

section

variable {body : Parser BodyId} (hbody : LocatesAny source body)

include hbody

theorem closedBody_locates : LocatesAny source (closedBody body) :=
  hbody.bind fun _ _ => (Locates.expect _ _).discard.bind fun _ _ => .pure trivial

theorem whileLoop_locates : LocatesAny source (whileLoop Grammar.standard body) := by
  refine Locates.advance.bind fun start hstart => (expression_locates _).bind fun _ _ => ?_
  refine (Locates.expect _ _).discard.bind fun _ _ => (closedBody_locates hbody).bind fun _ _ => ?_
  exact .span_add .statement hstart fun _ => rfl

theorem forLoop_locates : LocatesAny source (forLoop Grammar.standard body) := by
  refine Locates.advance.bind fun start hstart => (Locates.expect _ _).bind fun name hname => ?_
  refine (Locates.expect _ _).discard.bind fun _ _ => Locates.current.bind fun token _ => ?_
  have hrest : ∀ reverse : Bool, LocatesAny source (do
      let first ← expression Grammar.standard .loosest
      discard <| expect .dotDot "`..`"
      let last ← expression Grammar.standard .loosest
      discard <| expect .kwLoop "`loop`"
      let counter ← counter name
      let inner ← closedBody body
      let span ← spanFrom start.start
      Parser.add .statement ⟨span, .forLoop counter first.id last.id reverse inner⟩) := by
    intro reverse
    refine (expression_locates _).bind fun _ _ => (Locates.expect _ _).discard.bind fun _ _ => ?_
    refine (expression_locates _).bind fun _ _ => (Locates.expect _ _).discard.bind fun _ _ => ?_
    refine (counter_locates hname).bind fun _ _ => (closedBody_locates hbody).bind fun _ _ => ?_
    exact .span_add .statement hstart fun _ => rfl
  dsimp only
  split
  · exact Locates.skip.bind fun _ _ => hrest _
  · exact hrest _

theorem elseBranch_locates : LocatesAny source (elseBranch body) := by
  refine Locates.current.bind fun token _ => ?_
  split
  · exact Locates.skip.bind fun _ _ => hbody.map fun _ _ => trivial
  · exact .pure trivial

theorem branch_locates : LocatesAny source (branch Grammar.standard body) := by
  refine Locates.advance.bind fun start hstart => (expression_locates _).bind fun _ _ => ?_
  refine (Locates.expect _ _).discard.bind fun _ _ => hbody.bind fun _ _ => ?_
  refine (elseBranch_locates hbody).bind fun _ _ => (Locates.expect _ _).discard.bind fun _ _ => ?_
  exact .span_add .statement hstart fun _ => rfl

omit hbody in
theorem returning_locates : LocatesAny source (returning Grammar.standard) :=
  Locates.advance.bind fun _ hstart => resultValue_locates.bind fun _ _ =>
    Locates.span_add .statement hstart fun _ => rfl

theorem statementWith_locates :
    LocatesAny source (statementWith Grammar.standard body) := by
  refine Locates.current.bind fun token _ => ?_
  split
  · rename_i rule _
    cases rule with
    | whileLoop => exact whileLoop_locates hbody
    | forLoop => exact forLoop_locates hbody
    | branch => exact branch_locates hbody
    | returning => exact returning_locates
  · exact expressionStatement_locates

theorem bodyItem_locates (items : BodyItems) :
    LocatesAny source (bodyItem Grammar.standard body items) := by
  refine Locates.current.bind fun token _ => ?_
  split
  · exact variableDecl_locates.bind fun _ _ => .pure trivial
  · exact typeDecl_locates.bind fun _ _ => .pure trivial
  · exact Locates.refuse _
  · exact (statementWith_locates hbody).bind fun _ _ => .pure trivial

theorem bodyRound_locates (items : BodyItems) :
    LocatesAny source (bodyRound body items) := by
  refine Locates.current.bind fun token _ => ?_
  split
  · exact Locates.skip.bind fun _ _ => .pure trivial
  · exact Locates.skip.bind fun _ _ => .pure trivial
  · exact .pure trivial
  · exact .pure trivial
  · exact .raise_current fun _ => .unterminatedBody
  · exact (Locates.recovering (bodyItem_locates hbody items) trivial _ _).bind fun _ _ => .pure trivial

theorem bodyStep_locates : LocatesAny source (bodyStep Grammar.standard body) := by
  refine Locates.current.bind fun start hstart => ?_
  have hitems : LocatesAny source (bodyItems Grammar.standard body) := by
    rw [bodyItems_eq]
    exact .loop (fun items _ => bodyRound_locates hbody items) trivial
  refine hitems.bind fun items _ => (Locates.spanFrom _).bind fun span hspan => ?_
  refine (Locates.note _).bind fun _ _ => ?_
  exact .add .body (hspan ▸ hstart)

end

theorem body_locates : LocatesAny source (body Grammar.standard) :=
  .recursive (fun _ hself _ => bodyStep_locates (hself ())) ()

/-! ### Programs -/

theorem parameter_locates : LocatesAny source (parameter Grammar.standard) := by
  refine (Locates.expect _ _).bind fun name hname => (Locates.expect _ _).discard.bind fun _ _ => ?_
  exact type_locates.bind fun _ _ => .span_add .variable hname fun _ => rfl

theorem parameters_locates : LocatesAny source (parameters Grammar.standard) := by
  refine Locates.current.bind fun token _ => ?_
  split
  · exact .pure trivial
  · exact .commaSeparated parameter_locates

theorem routineDecl_locates : LocatesAny source (routineDecl Grammar.standard) := by
  refine Locates.advance.bind fun start hstart => (Locates.expect _ _).bind fun name _ => ?_
  refine (Locates.expect _ _).discard.bind fun _ _ => parameters_locates.bind fun _ _ => ?_
  refine (Locates.expect _ _).discard.bind fun _ _ => ?_
  refine (annotation_locates type_locates).bind fun _ _ => ?_
  refine (Locates.expect _ _).discard.bind fun _ _ => body_locates.bind fun _ _ => ?_
  refine (Locates.expect _ _).discard.bind fun _ _ => ?_
  exact .span_add .routine hstart fun _ => rfl

theorem declaration_locates : LocatesAny source (declaration Grammar.standard) := by
  refine Locates.current.bind fun token _ => ?_
  split
  · exact routineDecl_locates.map fun _ _ => trivial
  · exact variableDecl_locates.map fun _ _ => trivial
  · exact typeDecl_locates.map fun _ _ => trivial
  · exact Locates.refuse _

theorem declarationsRound_locates (found : List Declaration) :
    LocatesAny source (declarationsRound found) := by
  refine Locates.current.bind fun token _ => ?_
  split
  · exact .pure trivial
  · exact Locates.skip.bind fun _ _ => .pure trivial
  · exact Locates.skip.bind fun _ _ => .pure trivial
  · have hnext : LocatesAny source (do
        let next ← declaration Grammar.standard
        return found ++ [next]) := declaration_locates.bind fun _ _ => .pure trivial
    exact (hnext.recovering trivial _ _).bind fun _ _ => .pure trivial

theorem declarations_locates : LocatesAny source (declarations Grammar.standard) := by
  rw [declarations_eq]
  exact .loop (fun found _ => declarationsRound_locates found) trivial

end Parser

/-- **Reading a source text** finds errors at its tokens, in the order of the text, and gives nodes
that begin at tokens. -/
theorem parse_located (source : String) :
    (parse source).arena.Located (Token.Begins source) ∧
      (∀ d ∈ (parse source).errors, Token.Begins source d.position) ∧
      (parse source).errors.Pairwise fun d e => d.position ≤ e.position := by
  obtain ⟨found, s, program, hfound, -, -, harena, herrors⟩ := Parser.exists_yields_program source
  obtain ⟨hs, -, -⟩ := Parser.declarations_locates _ (.ofSource source) _ _ hfound
  rw [harena, herrors]
  refine ⟨fun family id node hget => ?_, hs.begins, hs.sorted⟩
  rw [s.arena.get?_program program id] at hget
  exact hs.nodes family id node hget

end ProcLang
