import ProcLang.Proofs.Parser.Program
import ProcLang.Proofs.Source.Types

/-!
# ProcLang.Proofs.Parser.Progress

**Reading comes to its end, and every error costs a token** (`parse_progress`). Whatever the text
is, the parser reaches the end of its tokens, and finds no more errors than the text has tokens.

`State.Pays` compares two states: between them, no more errors were found than tokens were taken.
A parser that always pays is `Thrifty`. Only `recovering` records an error, so it is the only place
where a token has to be left over for it. What is read there `Opens` with a token: it takes the
token, for which no error was recorded, or fails in front of it, and then `synchronize` drops it.
For the same reason a round of a loop that is not the last one takes a token (`TakesTokens`).
-/

namespace ProcLang

namespace Token

/-- The tokens of a text without its end. -/
theorem filter_tokenize (source : String) :
    (tokenize source).filter (fun token => token.kind ≠ .endOfFile) =
      (tokenStream source).tokens := by
  rw [tokenize, List.filter_append, List.filter_eq_self.2, List.filter_eq_nil_iff.2,
    List.append_nil]
  · intro token hmem
    rw [List.mem_singleton.1 hmem, tokenStream_ending_kind]
    decide
  · intro token hmem
    simpa using kind_ne_of_mem_tokenStream hmem

end Token

namespace Parser

open State Source

variable {α β σ ι : Type}

@[simp] theorem outcome_current_bind {f : Token → Parser β} {s : State} :
    (current >>= f).outcome s = (f s.current).outcome s := rfl

@[simp] theorem outcome_skip_bind {f : Unit → Parser β} {s : State} :
    (skip >>= f).outcome s = (f ()).outcome s.advance.2 := by
  rcases s with ⟨_ | ⟨token, rest⟩, _⟩
  · rfl
  · rfl

/-- What is done with a value does not matter for the state. -/
theorem outcome_bind_pure {p : Parser α} {f : α → β} {s : State} :
    ((p >>= fun x => pure (f x)).outcome s).2 = (p.outcome s).2 := by
  rw [outcome_bind]
  rcases p.outcome s with ⟨d | x, s'⟩
  · rfl
  · rfl

/-! ### Paying for errors -/

/-- The errors that were found and the tokens that are left. -/
def State.total (s : State) : Nat := s.errors.size + s.unread.length

/-- Between two states no more errors were found than tokens were taken. -/
structure State.Pays (s s' : State) : Prop where
  ending : s'.ending = s.ending
  errors_le : s.errors.size ≤ s'.errors.size
  total_le : s'.total ≤ s.total

namespace State.Pays

variable {s s₁ s' : State}

theorem refl (s : State) : s.Pays s := ⟨rfl, Nat.le_refl _, Nat.le_refl _⟩

theorem trans (h₁ : s.Pays s₁) (h₂ : s₁.Pays s') : s.Pays s' :=
  ⟨h₂.ending.trans h₁.ending, h₁.errors_le.trans h₂.errors_le, h₂.total_le.trans h₁.total_le⟩

/-- Errors are never taken back, so a smaller total means fewer tokens. -/
theorem length_lt (h : s.Pays s') (hlt : s'.total < s.total) :
    s'.unread.length < s.unread.length := by
  have hle := h.errors_le
  unfold total at hlt
  omega

/-- Only taking tokens costs nothing. -/
theorem of_skips {w : List Token} (h : s.Skips w s') : s.Pays s' := by
  have hlength := h.reads.length_le
  have herrors := congrArg Array.size h.errors
  refine ⟨h.reads.ending, herrors.symm.le, ?_⟩
  unfold total
  omega

theorem advance (s : State) : s.Pays s.advance.2 := by
  obtain ⟨w, h⟩ := s.exists_skips_advance
  exact .of_skips h

end State.Pays

theorem State.total_advance_lt {s : State} (hend : s.ending.kind = .endOfFile)
    (hcurrent : s.current.kind ≠ .endOfFile) : s.advance.2.total < s.total := by
  obtain ⟨rest, hunread⟩ := exists_unread_of_current hend hcurrent
  rw [total, total, advance_errors, (reads_advance hunread).2.1, hunread, List.length_cons]
  omega

/-! ### Thrifty parsers -/

/-- The parser finds no more errors than it takes tokens, also where it fails. -/
def Thrifty (p : Parser α) : Prop :=
  ∀ s : State, s.ending.kind = .endOfFile → s.Pays (p.outcome s).2

namespace Thrifty

variable {p : Parser α} {f : α → Parser β}

theorem bind (hp : Thrifty p) (hf : ∀ x, Thrifty (f x)) : Thrifty (p >>= f) := by
  intro s hend
  have hpays := hp s hend
  rw [outcome_bind]
  rcases hrun : p.outcome s with ⟨d | x, s₁⟩
  · rwa [hrun] at hpays
  · rw [hrun] at hpays
    exact hpays.trans (hf x s₁ (hpays.ending ▸ hend))

theorem pure (x : α) : Thrifty (pure x) := fun s _ => .refl s

theorem throw (d : Diagnostic) : Thrifty (throw d : Parser α) := fun s _ => .refl s

theorem get : Thrifty (get : Parser State) := fun s _ => .refl s

theorem map {f : α → β} (hp : Thrifty p) : Thrifty (f <$> p) := by
  rw [← bind_pure_comp]
  exact hp.bind fun x => pure _

theorem discard (hp : Thrifty p) : Thrifty (discard p) := hp.map

theorem current : Thrifty current := get.bind fun _ => pure _

theorem advance : Thrifty advance := fun s _ => .advance s

theorem skip : Thrifty skip := advance.discard

theorem note (event : Event) : Thrifty (note event) :=
  fun _ _ => ⟨rfl, Nat.le_refl _, Nat.le_refl _⟩

theorem spanFrom (start : Position) : Thrifty (spanFrom start) := get.bind fun _ => pure _

theorem add (family : Family) (node : Node family) : Thrifty (add family node) :=
  fun _ _ => ⟨rfl, Nat.le_refl _, Nat.le_refl _⟩

theorem raise (d : Diagnostic) : Thrifty (raise d : Parser α) := (note _).bind fun _ => throw d

theorem stuck : Thrifty (stuck : Parser α) := current.bind fun _ => raise _

theorem reject (expected : String) : Thrifty (reject expected) := by
  refine current.bind fun token => (note _).bind fun _ => ?_
  split
  · exact skip.bind fun _ => pure _
  · exact pure _

theorem expect (kind : TokenKind) (expected : String) : Thrifty (expect kind expected) := by
  refine current.bind fun token => ?_
  split
  · exact advance
  · exact (reject expected).bind fun d => throw d

theorem place (node : Expression) : Thrifty (place node) := (add _ _).bind fun _ => pure _

theorem loop {step : σ → Parser (Round σ)} (hstep : ∀ value, Thrifty (step value)) (value : σ) :
    Thrifty (loop step value) := by
  have within : ∀ fuel value, Thrifty (loopWithin step fuel value) := by
    intro fuel
    induction fuel with
    | zero => exact fun _ => stuck
    | succ fuel ih =>
        refine fun value => (hstep value).bind fun round => ?_
        cases round with
        | more next => exact ih next
        | done last => exact pure last
  exact get.bind fun s => within _ value

theorem recursive {f : (ι → Parser α) → ι → Parser α}
    (layer : ∀ self : ι → Parser α, (∀ i, Thrifty (self i)) → ∀ i, Thrifty (f self i)) (i : ι) :
    Thrifty (Parser.recursive f i) := by
  have within : ∀ fuel i, Thrifty (unfold f fuel i) := by
    intro fuel
    induction fuel with
    | zero => exact fun _ => stuck
    | succ fuel ih => exact fun i => layer _ ih i
  exact get.bind fun s => within _ i

theorem commaSeparated {item : Parser α} (hitem : Thrifty item) :
    Thrifty (commaSeparated item) := by
  refine loop (fun items => hitem.bind fun x => current.bind fun token => ?_) []
  split
  · exact skip.bind fun _ => pure _
  · exact pure _

end Thrifty

/-! ### Parsers that open with a token -/

/-- A thrifty parser that takes the current token, if there is one, or fails in front of it. -/
def Opens (p : Parser α) : Prop :=
  ∀ s : State, s.ending.kind = .endOfFile → s.Pays (p.outcome s).2 ∧
    (s.current.kind ≠ .endOfFile → (p.outcome s).2.total < s.total ∨
      (∃ d, (p.outcome s).1 = .error d) ∧ (p.outcome s).2.unread = s.unread)

namespace Opens

variable {p : Parser α} {f : α → Parser β} {s s' : State}

theorem thrifty (hp : Opens p) : Thrifty p := fun s hend => (hp s hend).1

/-- Where it succeeds it has taken a token. -/
theorem length_lt (hp : Opens p) (hend : s.ending.kind = .endOfFile)
    (hcurrent : s.current.kind ≠ .endOfFile) {x : α} (hrun : Yields p s x s') :
    s'.unread.length < s.unread.length := by
  obtain ⟨hpays, htakes⟩ := hp s hend
  rw [Yields] at hrun
  rw [hrun] at hpays htakes
  rcases htakes hcurrent with hlt | ⟨⟨d, hd⟩, -⟩
  · exact hpays.length_lt hlt
  · cases hd

theorem bind (hp : Opens p) (hf : ∀ x, Thrifty (f x)) : Opens (p >>= f) := by
  intro s hend
  obtain ⟨hpays, htakes⟩ := hp s hend
  rw [outcome_bind]
  rcases hrun : p.outcome s with ⟨d | x, s₁⟩
  · rw [hrun] at hpays htakes
    exact ⟨hpays, fun hcurrent => (htakes hcurrent).imp_right fun h => ⟨⟨d, rfl⟩, h.2⟩⟩
  · rw [hrun] at hpays htakes
    have hrest := hf x s₁ (hpays.ending ▸ hend)
    refine ⟨hpays.trans hrest, fun hcurrent => Or.inl ?_⟩
    rcases htakes hcurrent with hlt | ⟨⟨d, hd⟩, -⟩
    · exact Nat.lt_of_le_of_lt hrest.total_le hlt
    · cases hd

theorem map {f : α → β} (hp : Opens p) : Opens (f <$> p) := by
  rw [← bind_pure_comp]
  exact hp.bind fun _ => .pure _

theorem advance : Opens advance :=
  fun s hend => ⟨.advance s, fun hcurrent => Or.inl (total_advance_lt hend hcurrent)⟩

theorem skip : Opens skip := advance.map

theorem current_bind {f : Token → Parser β} (hf : ∀ token, Opens (f token)) :
    Opens (Parser.current >>= f) :=
  fun s hend => hf s.current s hend

theorem raise (d : Diagnostic) : Opens (raise d : Parser α) :=
  fun s hend => ⟨Thrifty.raise d s hend, fun _ => Or.inr ⟨⟨d, rfl⟩, rfl⟩⟩

theorem refuse (expected : String) : Opens (refuse expected : Parser α) :=
  current_bind fun _ => raise _

theorem raisePast (d : Diagnostic) : Opens (raisePast d : Parser α) := by
  have htakes : Opens (Parser.note (.syntaxError d) >>= fun _ => Parser.skip) := by
    refine fun s hend => ⟨((Thrifty.note _).bind fun _ => .skip) s hend, fun hcurrent => Or.inl ?_⟩
    exact total_advance_lt (s := s.note _) hend hcurrent
  have hrun := htakes.bind (f := fun _ => (throw d : Parser α)) fun _ => .throw d
  rwa [bind_assoc] at hrun

/-- The layers of a recursive parser open with a token, and so does the parser. -/
theorem recursive {f : (ι → Parser α) → ι → Parser α}
    (layer : ∀ self : ι → Parser α, (∀ i, Thrifty (self i)) → ∀ i, Opens (f self i)) (i : ι) :
    Opens (Parser.recursive f i) := by
  have within : ∀ fuel i, Thrifty (unfold f fuel i) := by
    intro fuel
    induction fuel with
    | zero => exact fun _ => .stuck
    | succ fuel ih => exact fun i => (layer _ ih i).thrifty
  exact fun s hend => layer _ (within s.unread.length) i s hend

/-- **Going on after an error** takes a token that pays for the error. -/
theorem recovering (hp : Opens p) (consume : List TokenKind) {stopBefore : List TokenKind}
    (fallback : α) (hend : s.ending.kind = .endOfFile) (hcurrent : s.current.kind ≠ .endOfFile)
    (hstop : s.current.isOneOf stopBefore = false) :
    s.Pays ((recovering consume stopBefore fallback p).outcome s).2 ∧
      ((recovering consume stopBefore fallback p).outcome s).2.unread.length < s.unread.length := by
  obtain ⟨hpays, htakes⟩ := hp s hend
  rw [Parser.recovering, outcome_tryCatch]
  rcases hrun : p.outcome s with ⟨d | x, s₁⟩
  · simp only [hrun] at hpays htakes
    obtain ⟨s₂, hsync⟩ := exists_yields_synchronize consume stopBefore
      { s₁ with errors := s₁.errors.push d }
    have hrest : Yields (do record d; synchronize consume stopBefore; return fallback : Parser α)
        s₁ fallback s₂ :=
      yields_bind.2 ⟨⟨⟩, _, yields_modify.2 rfl,
        yields_bind.2 ⟨_, _, hsync, yields_pure.2 ⟨rfl, rfl⟩⟩⟩
    rw [Yields] at hrest
    change s.Pays (Parser.outcome _ s₁).2 ∧ (Parser.outcome _ s₁).2.unread.length < _
    simp only [hrest]
    obtain ⟨w, hskips⟩ := (Moves.synchronize consume stopBefore).skips hsync
    have herrors : s₂.errors.size = s₁.errors.size + 1 := by rw [hskips.errors, Array.size_push]
    have hle : s₂.unread.length ≤ s₁.unread.length := hskips.reads.length_le
    have htotal : s₂.total ≤ s.total := by
      rcases htakes hcurrent with hlt | ⟨-, hunread⟩
      · unfold total at hlt ⊢
        omega
      · -- the parser failed in front of the token, which is dropped now
        obtain ⟨rest, hcons⟩ := exists_unread_of_current hend hcurrent
        have hdropped := synchronize_length_lt
          (s := { s₁ with errors := s₁.errors.push d }) (hunread.trans hcons) hcurrent hstop hsync
        have htotal₁ := hpays.total_le
        unfold total at htotal₁ ⊢
        simp only at hdropped
        omega
    have hpays₂ : s.Pays s₂ :=
      ⟨hskips.reads.ending.trans hpays.ending, by have := hpays.errors_le; omega, htotal⟩
    refine ⟨hpays₂, ?_⟩
    have hmore := hpays.errors_le
    unfold total at htotal
    omega
  · have hlt := hp.length_lt hend hcurrent hrun
    rw [hrun] at hpays
    exact ⟨hpays, hlt⟩

theorem length_lt_of_recovering (hp : Opens p) {consume stopBefore : List TokenKind}
    {fallback x : α} (hend : s.ending.kind = .endOfFile) (hcurrent : s.current.kind ≠ .endOfFile)
    (hstop : s.current.isOneOf stopBefore = false)
    (hrun : Yields (Parser.recovering consume stopBefore fallback p) s x s') :
    s'.unread.length < s.unread.length := by
  have htakes := (hp.recovering consume fallback hend hcurrent hstop).2
  rwa [show Parser.outcome _ s = _ from hrun] at htakes

end Opens

/-- A round of a loop that is not the last one takes a token. -/
def TakesTokens (step : σ → Parser (Round σ)) : Prop :=
  ∀ {value next : σ} {s s' : State}, s.ending.kind = .endOfFile →
    Yields (step value) s (.more next) s' → s'.unread.length < s.unread.length

/-- A round that only drops a separator takes it. -/
theorem length_lt_of_yields_skip {round round' : Round σ} {s s' : State}
    (hend : s.ending.kind = .endOfFile) (hcurrent : s.current.kind ≠ .endOfFile)
    (hrun : Yields (do skip; return round : Parser (Round σ)) s round' s') :
    s'.unread.length < s.unread.length := by
  rw [yields_skip_bind] at hrun
  obtain ⟨-, rfl⟩ := yields_pure.1 hrun
  exact (Pays.advance s).length_lt (total_advance_lt hend hcurrent)

/-! ### Expressions -/

theorem literal_opens : Opens literal := by
  refine .current_bind fun token => ?_
  split
  · exact .raisePast _
  · exact Opens.skip.bind fun _ => .place _

section

variable {self : BindingPower → Parser Placed}

theorem arguments_thrifty (hself : ∀ power, Thrifty (self power)) : Thrifty (arguments self) := by
  refine Thrifty.current.bind fun token => ?_
  split
  · exact .pure _
  · exact .commaSeparated (hself .loosest)

theorem nameOrCall_opens (hself : ∀ power, Thrifty (self power)) : Opens (nameOrCall self) := by
  refine Opens.advance.bind fun name => Thrifty.current.bind fun token => ?_
  split
  · refine Thrifty.skip.bind fun _ => (arguments_thrifty hself).bind fun items => ?_
    exact (Thrifty.expect _ _).discard.bind fun _ => (Thrifty.spanFrom _).bind fun _ => .place _
  · exact .place _

theorem grouping_opens (hself : ∀ power, Thrifty (self power)) : Opens (grouping self) :=
  Opens.skip.bind fun _ => (hself .loosest).bind fun _ =>
    (Thrifty.expect _ _).discard.bind fun _ => .pure _

theorem unary_opens (hself : ∀ power, Thrifty (self power)) : Opens (unary self) := by
  refine .current_bind fun token => ?_
  split
  · exact .raisePast _
  · exact Opens.skip.bind fun _ => (hself .unary).bind fun _ => .place _

theorem operand_opens (hself : ∀ power, Thrifty (self power)) (rule : OperandRule) :
    Opens (operand self rule) := by
  cases rule with
  | literal => exact literal_opens
  | name => exact nameOrCall_opens hself
  | grouping => exact grouping_opens hself
  | unary => exact unary_opens hself

theorem tail_opens (hself : ∀ power, Thrifty (self power)) (rule : TailRule) (left : Placed)
    (power : BindingPower) : Opens (tail self rule left power) := by
  cases rule with
  | binary =>
      refine .current_bind fun token => ?_
      split
      · exact .raisePast _
      · exact Opens.skip.bind fun _ => (hself power).bind fun _ => .place _
  | member => exact Opens.skip.bind fun _ => (hself power).bind fun _ => .place _
  | index =>
      exact Opens.skip.bind fun _ => (hself .loosest).bind fun _ =>
        (Thrifty.expect _ _).discard.bind fun _ => (Thrifty.spanFrom _).bind fun _ => .place _

theorem tailStep_takesTokens (hself : ∀ power, Thrifty (self power)) (power : BindingPower) :
    TakesTokens (tailStep self power) := by
  intro left next s s' hend hrun
  rcases yields_tailStep.1 hrun with ⟨tailPower, rule, htail, -, x, hx, -⟩ | ⟨-, hdone, -⟩
  · exact (tail_opens hself rule left tailPower).length_lt hend (standardTail_ne_endOfFile htail) hx
  · cases hdone

theorem expressionStep_opens (hself : ∀ power, Thrifty (self power)) (power : BindingPower) :
    Opens (expressionStep self Grammar.standard power) := by
  refine .current_bind fun token => ?_
  split
  · exact .refuse _
  · refine (operand_opens hself _).bind fun first => .loop (fun left => ?_) first
    refine Thrifty.current.bind fun token => ?_
    split
    · exact .pure _
    · split
      · exact (tail_opens hself _ left _).thrifty.bind fun _ => .pure _
      · exact .pure _

end

theorem expression_opens (power : BindingPower) : Opens (expression Grammar.standard power) :=
  .recursive (fun _ hself power => expressionStep_opens hself power) power

theorem expression_thrifty (power : BindingPower) : Thrifty (expression Grammar.standard power) :=
  (expression_opens power).thrifty

/-- Behind an item a comma is taken, if another round follows. -/
theorem commaStep_takesTokens {item : Parser α} (hitem : Thrifty item) :
    TakesTokens (commaStep item) := by
  intro items next s s' hend hrun
  obtain ⟨x, s₁, hx, ⟨hcomma, -, rfl⟩ | ⟨-, hdone, -⟩⟩ := yields_commaStep.1 hrun
  · have hpays := hitem s hend
    rw [show item.outcome s = _ from hx] at hpays
    have hlt := total_advance_lt (s := s₁) (hpays.ending ▸ hend) (by rw [hcomma]; decide)
    exact (hpays.trans (.advance s₁)).length_lt (Nat.lt_of_lt_of_le hlt hpays.total_le)
  · cases hdone

/-! ### Types and declarations of variables -/

theorem terminator_thrifty : Thrifty terminator := by
  refine Thrifty.current.bind fun token => ?_
  split
  · exact .skip
  · exact .skip
  · exact .pure _
  · exact .pure _
  · exact .pure _
  · exact (Thrifty.reject _).bind fun d => .throw d

theorem initializer_thrifty : Thrifty (initializer Grammar.standard) := by
  refine Thrifty.current.bind fun token => ?_
  split
  · exact Thrifty.skip.bind fun _ => (expression_thrifty _).bind fun _ => .pure _
  · exact .pure _

theorem arrayLength_thrifty : Thrifty (arrayLength Grammar.standard) := by
  refine Thrifty.current.bind fun token => ?_
  split
  · exact Thrifty.skip.bind fun _ => (expression_thrifty _).bind fun _ =>
      (Thrifty.expect _ _).discard.bind fun _ => .pure _
  · exact .pure _

section

variable {type : Parser TypeId}

theorem annotation_thrifty (htype : Thrifty type) : Thrifty ( annotation type) := by
  refine Thrifty.current.bind fun token => ?_
  split
  · exact Thrifty.skip.bind fun _ => htype.map
  · exact .pure _

theorem variableDeclWith_opens (htype : Thrifty type) :
    Opens (variableDeclWith Grammar.standard type) := by
  refine Opens.advance.bind fun _ => (Thrifty.expect _ _).bind fun _ => ?_
  refine (annotation_thrifty htype).bind fun _ => initializer_thrifty.bind fun _ => ?_
  exact (Thrifty.spanFrom _).bind fun _ => terminator_thrifty.bind fun _ => .add _ _

theorem fieldRound_thrifty (htype : Thrifty type) (fields : List VariableId) :
    Thrifty (fieldRound type fields) := by
  refine Thrifty.current.bind fun token => ?_
  split
  · exact Thrifty.skip.bind fun _ => .pure _
  · exact Thrifty.skip.bind fun _ => .pure _
  · exact (variableDeclWith_opens htype).thrifty.bind fun _ => .pure _
  · exact .pure _

theorem fieldRound_takesTokens (htype : Thrifty type) : TakesTokens (fieldRound type) := by
  intro fields next s s' hend hrun
  simp only [fieldRound, yields_current_bind] at hrun
  split at hrun
  · rename_i hkind
    exact length_lt_of_yields_skip hend (by rw [hkind]; decide) hrun
  · rename_i hkind
    exact length_lt_of_yields_skip hend (by rw [hkind]; decide) hrun
  · rename_i hkind
    obtain ⟨id, s₁, hfield, hrun⟩ := yields_bind.1 hrun
    obtain ⟨-, rfl⟩ := yields_pure.1 hrun
    exact (variableDeclWith_opens htype).length_lt hend (by rw [hkind]; decide) hfield
  · cases (yields_pure.1 hrun).1

theorem typeByRule_thrifty (htype : Thrifty type) (rule : TypeRule) :
    Thrifty (typeByRule Grammar.standard type rule) := by
  cases rule with
  | primitive => exact Thrifty.advance.bind fun _ => .add _ _
  | named => exact (Thrifty.expect _ _).bind fun _ => .add _ _
  | array =>
      refine Thrifty.advance.bind fun _ => arrayLength_thrifty.bind fun _ => htype.bind fun _ => ?_
      exact (Thrifty.spanFrom _).bind fun _ => .add _ _
  | record =>
      have hfields : Thrifty (recordFields Grammar.standard type) := by
        rw [recordFields_eq]
        exact .loop (fieldRound_thrifty htype) []
      refine Thrifty.advance.bind fun _ => hfields.bind fun _ => ?_
      exact (Thrifty.expect _ _).discard.bind fun _ => (Thrifty.spanFrom _).bind fun _ => .add _ _

theorem typeStep_thrifty (htype : Thrifty type) : Thrifty (typeStep Grammar.standard type) := by
  refine Thrifty.current.bind fun token => ?_
  split
  · exact (Thrifty.reject _).bind fun d => .throw d
  · exact typeByRule_thrifty htype _

end

theorem type_thrifty : Thrifty (type Grammar.standard) :=
  .recursive (fun _ hself _ => typeStep_thrifty (hself ())) ()

theorem variableDecl_opens : Opens (variableDecl Grammar.standard) :=
  variableDeclWith_opens type_thrifty

theorem typeDecl_opens : Opens (typeDecl Grammar.standard) := by
  refine Opens.advance.bind fun _ => (Thrifty.expect _ _).bind fun _ => ?_
  refine (Thrifty.expect _ _).discard.bind fun _ => type_thrifty.bind fun _ => ?_
  exact (Thrifty.spanFrom _).bind fun _ => terminator_thrifty.bind fun _ => .add _ _

/-! ### Statements and bodies -/

theorem counter_thrifty (name : Token) : Thrifty (counter name) :=
  (Thrifty.add _ _).bind fun _ => .add _ _

theorem resultValue_thrifty : Thrifty (resultValue Grammar.standard) := by
  refine Thrifty.current.bind fun token => ?_
  split
  all_goals first
    | exact .pure _
    | exact (expression_thrifty _).bind fun _ => .pure _

theorem expressionStatement_opens : Opens (expressionStatement Grammar.standard) := by
  refine .current_bind fun _ => (expression_opens _).bind fun first => ?_
  refine Thrifty.current.bind fun token => ?_
  split
  · refine Thrifty.skip.bind fun _ => (expression_thrifty _).bind fun _ => ?_
    exact (Thrifty.spanFrom _).bind fun _ => .add _ _
  · split
    · exact (Thrifty.spanFrom _).bind fun _ => .add _ _
    · exact .raise _

section

variable {body : Parser BodyId}

theorem closedBody_thrifty (hbody : Thrifty body) : Thrifty (closedBody body) :=
  hbody.bind fun _ => (Thrifty.expect _ _).discard.bind fun _ => .pure _

theorem whileLoop_opens (hbody : Thrifty body) : Opens (whileLoop Grammar.standard body) := by
  refine Opens.advance.bind fun _ => (expression_thrifty _).bind fun _ => ?_
  refine (Thrifty.expect _ _).discard.bind fun _ => (closedBody_thrifty hbody).bind fun _ => ?_
  exact (Thrifty.spanFrom _).bind fun _ => .add _ _

theorem forLoop_opens (hbody : Thrifty body) : Opens (forLoop Grammar.standard body) := by
  refine Opens.advance.bind fun start => (Thrifty.expect _ _).bind fun name => ?_
  refine (Thrifty.expect _ _).discard.bind fun _ => Thrifty.current.bind fun token => ?_
  have hrest : ∀ reverse : Bool, Thrifty (do
      let first ← expression Grammar.standard .loosest
      discard <| expect .dotDot "`..`"
      let last ← expression Grammar.standard .loosest
      discard <| expect .kwLoop "`loop`"
      let counter ← counter name
      let inner ← closedBody body
      let span ← spanFrom start.start
      add .statement ⟨span, .forLoop counter first.id last.id reverse inner⟩) := by
    intro reverse
    refine (expression_thrifty _).bind fun _ => (Thrifty.expect _ _).discard.bind fun _ => ?_
    refine (expression_thrifty _).bind fun _ => (Thrifty.expect _ _).discard.bind fun _ => ?_
    refine (counter_thrifty name).bind fun _ => (closedBody_thrifty hbody).bind fun _ => ?_
    exact (Thrifty.spanFrom _).bind fun _ => .add _ _
  dsimp only
  split
  · exact Thrifty.skip.bind fun _ => hrest _
  · exact hrest _

theorem elseBranch_thrifty (hbody : Thrifty body) : Thrifty (elseBranch body) := by
  refine Thrifty.current.bind fun token => ?_
  split
  · exact Thrifty.skip.bind fun _ => hbody.map
  · exact .pure _

theorem branch_opens (hbody : Thrifty body) : Opens (branch Grammar.standard body) := by
  refine Opens.advance.bind fun _ => (expression_thrifty _).bind fun _ => ?_
  refine (Thrifty.expect _ _).discard.bind fun _ => hbody.bind fun _ => ?_
  refine (elseBranch_thrifty hbody).bind fun _ => (Thrifty.expect _ _).discard.bind fun _ => ?_
  exact (Thrifty.spanFrom _).bind fun _ => .add _ _

theorem returning_opens : Opens (returning Grammar.standard) :=
  Opens.advance.bind fun _ => resultValue_thrifty.bind fun _ =>
    (Thrifty.spanFrom _).bind fun _ => .add _ _

theorem statementWith_opens (hbody : Thrifty body) :
    Opens (statementWith Grammar.standard body) := by
  refine .current_bind fun token => ?_
  split
  · rename_i rule _
    cases rule with
    | whileLoop => exact whileLoop_opens hbody
    | forLoop => exact forLoop_opens hbody
    | branch => exact branch_opens hbody
    | returning => exact returning_opens
  · exact expressionStatement_opens

theorem bodyItem_opens (hbody : Thrifty body) (items : BodyItems) :
    Opens (bodyItem Grammar.standard body items) := by
  refine .current_bind fun token => ?_
  split
  · exact variableDecl_opens.bind fun _ => .pure _
  · exact typeDecl_opens.bind fun _ => .pure _
  · exact .refuse _
  · exact (statementWith_opens hbody).bind fun _ => .pure _

theorem bodyRound_thrifty (hbody : Thrifty body) (items : BodyItems) :
    Thrifty (bodyRound body items) := by
  intro s hend
  rw [bodyRound, outcome_current_bind]
  split
  · exact (Thrifty.skip.bind fun _ => .pure _) s hend
  · exact (Thrifty.skip.bind fun _ => .pure _) s hend
  · exact .refl s
  · exact .refl s
  · exact (Thrifty.current.bind fun _ => .raise _) s hend
  · rename_i hend' helse hkind
    have hstop : s.current.isOneOf [.kwEnd, .kwElse] = false := by
      simpa [Token.isOneOf] using ⟨hend', helse⟩
    rw [outcome_bind_pure]
    exact ((bodyItem_opens hbody items).recovering _ _ hend hkind hstop).1

theorem bodyRound_takesTokens (hbody : Thrifty body) : TakesTokens (bodyRound body) := by
  intro items next s s' hend hrun
  simp only [bodyRound, yields_current_bind] at hrun
  split at hrun
  · rename_i hkind
    exact length_lt_of_yields_skip hend (by rw [hkind]; decide) hrun
  · rename_i hkind
    exact length_lt_of_yields_skip hend (by rw [hkind]; decide) hrun
  · cases (yields_pure.1 hrun).1
  · cases (yields_pure.1 hrun).1
  · exact absurd hrun yields_raise
  · rename_i hend' helse hkind
    have hstop : s.current.isOneOf [.kwEnd, .kwElse] = false := by
      simpa [Token.isOneOf] using ⟨hend', helse⟩
    obtain ⟨x, s₁, hitem, hrun⟩ := yields_bind.1 hrun
    obtain ⟨-, rfl⟩ := yields_pure.1 hrun
    exact (bodyItem_opens hbody items).length_lt_of_recovering hend hkind hstop hitem

theorem bodyStep_thrifty (hbody : Thrifty body) : Thrifty (bodyStep Grammar.standard body) := by
  refine Thrifty.current.bind fun start => ?_
  rw [bodyItems_eq]
  refine (Thrifty.loop (bodyRound_thrifty hbody) _).bind fun items => ?_
  exact (Thrifty.spanFrom _).bind fun _ => (Thrifty.note _).bind fun _ => .add _ _

end

theorem body_thrifty : Thrifty (body Grammar.standard) :=
  .recursive (fun _ hself _ => bodyStep_thrifty (hself ())) ()

/-! ### Programs -/

theorem parameter_thrifty : Thrifty (parameter Grammar.standard) := by
  refine (Thrifty.expect _ _).bind fun _ => (Thrifty.expect _ _).discard.bind fun _ => ?_
  exact type_thrifty.bind fun _ => (Thrifty.spanFrom _).bind fun _ => .add _ _

theorem parameters_thrifty : Thrifty (parameters Grammar.standard) := by
  refine Thrifty.current.bind fun token => ?_
  split
  · exact .pure _
  · exact .commaSeparated parameter_thrifty

theorem routineDecl_opens : Opens (routineDecl Grammar.standard) := by
  refine Opens.advance.bind fun _ => (Thrifty.expect _ _).bind fun _ => ?_
  refine (Thrifty.expect _ _).discard.bind fun _ => parameters_thrifty.bind fun _ => ?_
  refine (Thrifty.expect _ _).discard.bind fun _ => ?_
  refine (annotation_thrifty type_thrifty).bind fun _ => ?_
  refine (Thrifty.expect _ _).discard.bind fun _ => body_thrifty.bind fun _ => ?_
  exact (Thrifty.expect _ _).discard.bind fun _ => (Thrifty.spanFrom _).bind fun _ => .add _ _

theorem declaration_opens : Opens (declaration Grammar.standard) := by
  refine .current_bind fun token => ?_
  split
  · exact routineDecl_opens.map
  · exact variableDecl_opens.map
  · exact typeDecl_opens.map
  · exact .refuse _

/-- A declaration behind those that have been read. -/
theorem nextDeclaration_opens (found : List Declaration) : Opens (do
    let next ← declaration Grammar.standard
    return found ++ [next]) :=
  declaration_opens.bind fun _ => .pure _

theorem declarationsRound_thrifty (found : List Declaration) :
    Thrifty (declarationsRound found) := by
  intro s hend
  rw [declarationsRound, outcome_current_bind]
  split
  · exact .refl s
  · exact (Thrifty.skip.bind fun _ => .pure _) s hend
  · exact (Thrifty.skip.bind fun _ => .pure _) s hend
  · rename_i hkind _ _
    have hstop : s.current.isOneOf [] = false := rfl
    rw [outcome_bind_pure]
    exact ((nextDeclaration_opens found).recovering _ _ hend hkind hstop).1

theorem declarationsRound_takesTokens : TakesTokens declarationsRound := by
  intro found next s s' hend hrun
  simp only [declarationsRound, yields_current_bind] at hrun
  split at hrun
  · cases (yields_pure.1 hrun).1
  · rename_i hkind
    exact length_lt_of_yields_skip hend (by rw [hkind]; decide) hrun
  · rename_i hkind
    exact length_lt_of_yields_skip hend (by rw [hkind]; decide) hrun
  · rename_i hkind _ _
    obtain ⟨x, s₁, hitem, hrun⟩ := yields_bind.1 hrun
    obtain ⟨-, rfl⟩ := yields_pure.1 hrun
    exact (nextDeclaration_opens found).length_lt_of_recovering hend hkind rfl hitem

/-! ### Dropping tokens -/

/-- What is dropped does not depend on the bound, as long as it is larger than the number of tokens
that are left. -/
theorem outcome_synchronizeWithin {consume stopBefore : List TokenKind} {s : State}
    (hend : s.ending.kind = .endOfFile) {fuel : Nat} (hfuel : s.unread.length < fuel) :
    (synchronizeWithin consume stopBefore fuel).outcome s =
      (synchronize consume stopBefore).outcome s := by
  have hany : ∀ fuel fuel' (s : State), s.ending.kind = .endOfFile → s.unread.length < fuel →
      s.unread.length < fuel' → (synchronizeWithin consume stopBefore fuel).outcome s =
        (synchronizeWithin consume stopBefore fuel').outcome s := by
    intro fuel
    induction fuel with
    | zero => exact fun _ _ _ h => absurd h (Nat.not_lt_zero _)
    | succ fuel ih =>
        intro fuel' s hend hlt hlt'
        obtain ⟨fuel', rfl⟩ : ∃ n, fuel' = n + 1 := ⟨fuel' - 1, by omega⟩
        simp only [synchronizeWithin, outcome_current_bind]
        split
        · rfl
        · rename_i hgo
          have hcurrent : s.current.kind ≠ .endOfFile := by
            intro hkind
            simp [hkind] at hgo
          have hshorter := (Pays.advance s).length_lt (total_advance_lt hend hcurrent)
          rw [outcome_skip_bind, outcome_skip_bind]
          split
          · rfl
          · exact ih fuel' _ ((Pays.advance s).ending ▸ hend) (by omega) (by omega)
  exact hany _ _ s hend hfuel (Nat.lt_succ_self _)

/-- Tokens are dropped one after the other, up to a token in front of which one stops. -/
theorem synchronize_takes {consume stopBefore : List TokenKind} {s s' : State}
    (hend : s.ending.kind = .endOfFile) (hrun : Yields (synchronize consume stopBefore) s () s') :
    s'.unread.length < s.unread.length ∨
      s' = s ∧ (s.current.kind = .endOfFile ∨ s.current.isOneOf stopBefore = true) := by
  by_cases hstops : s.current.kind = .endOfFile ∨ s.current.isOneOf stopBefore = true
  · refine Or.inr ⟨?_, hstops⟩
    have hstops' : (s.current.kind = .endOfFile || s.current.isOneOf stopBefore) = true := by
      simpa using hstops
    simp only [synchronize, yields_get_bind, synchronizeWithin, yields_current_bind,
      if_pos hstops'] at hrun
    exact (yields_pure.1 hrun).2
  · obtain ⟨hcurrent, hgoes⟩ := not_or.1 hstops
    obtain ⟨rest, hunread⟩ := exists_unread_of_current hend hcurrent
    exact Or.inl (synchronize_length_lt hunread hcurrent (by simpa using hgoes) hrun)

/-! ### The end of the text -/

section

variable {source : String} {s : State} {found : List Declaration}

theorem declarations_pays
    (hrun : Yields (declarations Grammar.standard) (.ofSource source) found s) :
    (State.ofSource source).Pays s := by
  have hpays := Thrifty.loop declarationsRound_thrifty [] _ (sane_ofSource source).ending
  rw [declarations_eq] at hrun
  rwa [show Parser.outcome _ _ = _ from hrun] at hpays

/-- The loop over the declarations ends in front of the end of the text only. -/
theorem current_of_yields_declarations {s₀ : State}
    (hrun : Yields (declarations Grammar.standard) s₀ found s) : s.current.kind = .endOfFile := by
  rw [declarations_eq] at hrun
  obtain ⟨found', s₁, -, hlast⟩ := hrun.loop_invariant (motive := fun _ _ => True) trivial
    fun _ _ _ _ _ _ => trivial
  simp only [declarationsRound, yields_current_bind] at hlast
  split at hlast
  · rename_i hkind
    obtain ⟨-, rfl⟩ := yields_pure.1 hlast
    exact hkind
  · rw [yields_skip_bind] at hlast
    cases (yields_pure.1 hlast).1
  · rw [yields_skip_bind] at hlast
    cases (yields_pure.1 hlast).1
  · obtain ⟨_, _, -, hlast⟩ := yields_bind.1 hlast
    cases (yields_pure.1 hlast).1

/-- No token is left behind the declarations. -/
theorem unread_of_yields_declarations
    (hrun : Yields (declarations Grammar.standard) (.ofSource source) found s) : s.unread = [] := by
  obtain ⟨w, _, _, hbuilt, -⟩ := ((declarations_constructs _ (sane_ofSource source)).yields
    ⟨.refl _, Nat.lt_succ_self _, nofun, nofun⟩ hrun).built
  have hcurrent := current_of_yields_declarations hrun
  have hunread : (Token.tokenStream source).tokens = w ++ s.unread := by
    have hreads := hbuilt.reads.unread
    rwa [State.ofSource, noteComment_unread] at hreads
  cases hcons : s.unread with
  | nil => rfl
  | cons token rest =>
      rw [current_of_unread hcons] at hcurrent
      have hmem : token ∈ (Token.tokenStream source).tokens := by
        rw [hunread, hcons]
        exact List.mem_append_right _ (List.mem_cons_self ..)
      exact absurd hcurrent (Token.kind_ne_of_mem_tokenStream hmem)

end

/-- **Reading comes to its end, and every error costs a token.** Reading a source text succeeds, and
no token is left. None of its errors says that a bound on loops or recursion was met, and there are
at most as many of them as the text has tokens in front of its end. Wherever a loop of the parser
goes on (over declarations, the items of a body, the fields of a record, the tails of an expression,
arguments and parameters), it has taken a token; dropping tokens after an error takes one unless it
stops in front of it, and its bound is never what ends it. -/
theorem parse_progress (source : String) :
    (∃ s, Yields (program Grammar.standard) (.ofSource source) () s ∧ s.unread = [] ∧
      s.arena = (parse source).arena ∧ s.errors.toList = (parse source).errors) ∧
    (∀ d ∈ (parse source).errors, d.isInternal = false) ∧
    (parse source).errors.length ≤
      ((Token.tokenize source).filter fun token => token.kind ≠ .endOfFile).length ∧
    TakesTokens declarationsRound ∧ TakesTokens (bodyRound (body Grammar.standard)) ∧
    TakesTokens (fieldRound (type Grammar.standard)) ∧
    (∀ power, TakesTokens (tailStep (expression Grammar.standard) power)) ∧
    TakesTokens (commaStep (expression Grammar.standard .loosest)) ∧
    TakesTokens (commaStep (parameter Grammar.standard)) ∧
    ∀ (consume stopBefore : List TokenKind) (s : State), s.ending.kind = .endOfFile →
      (∀ s', Yields (synchronize consume stopBefore) s () s' →
        s'.unread.length < s.unread.length ∨
          s' = s ∧ (s.current.kind = .endOfFile ∨ s.current.isOneOf stopBefore = true)) ∧
      ∀ fuel, s.unread.length < fuel → (synchronizeWithin consume stopBefore fuel).outcome s =
        (synchronize consume stopBefore).outcome s := by
  obtain ⟨-, -, -, -, hexternal⟩ := parse_holdsForest source
  obtain ⟨found, s, -, hfound, -, ⟨s', hrun, hunread, harena, herrors⟩, -, hfinal⟩ :=
    exists_yields_program source
  have hpays : (State.ofSource source).Pays s := declarations_pays hfound
  refine ⟨⟨s', hrun, hunread.trans (unread_of_yields_declarations hfound), harena, herrors⟩,
    hexternal, ?_, declarationsRound_takesTokens, bodyRound_takesTokens body_thrifty,
    fieldRound_takesTokens type_thrifty, tailStep_takesTokens expression_thrifty,
    commaStep_takesTokens (expression_thrifty .loosest), commaStep_takesTokens parameter_thrifty,
    fun consume stopBefore s hend => ⟨fun s' => synchronize_takes hend, fun fuel hfuel =>
      outcome_synchronizeWithin hend hfuel⟩⟩
  have htotal := hpays.total_le
  simp only [total, State.ofSource, noteComment_errors, noteComment_unread, Array.size_empty]
    at htotal
  rw [hfinal, Array.length_toList, Token.filter_tokenize]
  omega

end Parser

end ProcLang
