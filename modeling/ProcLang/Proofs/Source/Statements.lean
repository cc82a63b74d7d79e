import ProcLang.Proofs.Source.Types

/-!
# ProcLang.Proofs.Source.Statements

**A statement and a body that were written down are read back** (`readsStatement`, `readsBody`). As
for types, the parser for nested bodies is a parameter of each rule, and an induction on what is
written puts the rules together.

A body begins with the line break behind the word that opens it and ends in front of the word that
closes it. The loop of its parser takes a round for each line, and one for each line break that is
not part of a declaration.
-/

namespace ProcLang

namespace Source

open ProcLang.Parser
open ProcLang.Parser.State

/-- A parser for nested bodies reads a body where fewer than `n` words are left. -/
def ReadsBody (n : Nat) (self : Parser BodyId) (inner : Body) : Prop :=
  Takes self (.of .newline newline_fixed :: inner.words)
    (fun rest => (Word.of .newline newline_fixed :: (inner.words ++ rest)).length < n ∧
      nextKind rest ∈ [.kwEnd, .kwElse])
    fun a id => inner.Stands a id

/-- A statement is read where up to `n` words are left and the line ends behind it. -/
def ReadsStatement (n : Nat) (self : Parser BodyId) (statement : Statement) : Prop :=
  Takes (statementWith Grammar.standard self) statement.words
    (fun rest => (statement.words ++ rest).length ≤ n ∧ nextKind rest = .newline)
    fun a id => statement.Stands a id

/-! ### Openings -/

/-- The tokens that open a statement: the words of the statements that have one, and the tokens that
open an expression. -/
def opensStatement (kind : TokenKind) : Bool :=
  (Grammar.standardStatement kind).isSome || (Grammar.standardOperand kind).isSome

theorem opens_expression (e : Expression) (rest : List Word) :
    Grammar.standardOperand (nextKind (e.words ++ rest)) ≠ none := by
  have htokens : ∀ words : List Word, List.Forall₂ Token.Is
      (words.map fun word => ⟨word.kind, word.text, Position.origin, none⟩) words := by
    intro words
    exact List.forall₂_map_left_iff.2 (List.forall₂_same.2 fun _ _ => ⟨rfl, rfl⟩)
  obtain ⟨token, tokens, hcons, hrule⟩ := (derives_words e _ (htokens e.words)).opens
  obtain ⟨word, words, hwords, rfl, -⟩ := List.map_eq_cons_iff.1 hcons
  rw [hwords]
  exact hrule

/-- No statement with a word of its own begins like an expression. -/
theorem standardStatement_of_operand {kind : TokenKind} (h : Grammar.standardOperand kind ≠ none) :
    Grammar.standardStatement kind = none := by
  cases kind <;> first | rfl | exact absurd rfl h

theorem opens_statement (statement : Statement) (rest : List Word) :
    opensStatement (nextKind (statement.words ++ rest)) = true := by
  have hexpression : ∀ (e : Expression) (more : List Word),
      opensStatement (nextKind (e.words ++ more)) = true := by
    intro e more
    rw [opensStatement, Option.isSome_iff_ne_none.2 (opens_expression e more), Bool.or_true]
  cases statement with
  | assignment target value =>
      rw [Statement.words, List.append_assoc]
      exact hexpression target _
  | call callee => exact hexpression callee.expression rest
  | whileLoop | forLoop | branch | returning => rfl

/-- A statement without a word of its own is an assignment or a call. -/
theorem achieves_expressionStatement {self : Parser BodyId} {s : State} {words : List Word}
    (hs : s.Spells words) (hopens : Grammar.standardOperand (nextKind words) ≠ none)
    {Q : StatementId → State → Prop} (h : Achieves (expressionStatement Grammar.standard) s Q) :
    Achieves (statementWith Grammar.standard self) s Q := by
  simp only [statementWith, achieves_bind, achieves_current, hs.current_kind]
  rw [show Grammar.standard.statement = Grammar.standardStatement from rfl,
    standardStatement_of_operand hopens]
  exact h

/-- The form of another statement is told by its word. -/
theorem achieves_statementByRule {self : Parser BodyId} {s : State} {words : List Word}
    {rule : StatementRule} (hs : s.Spells words)
    (hrule : Grammar.standardStatement (nextKind words) = some rule)
    {Q : StatementId → State → Prop}
    (h : Achieves (statementByRule Grammar.standard self rule) s Q) :
    Achieves (statementWith Grammar.standard self) s Q := by
  simp only [statementWith, achieves_bind, achieves_current, hs.current_kind]
  rw [show Grammar.standard.statement = Grammar.standardStatement from rfl, hrule]
  exact h

/-! ### Statements -/

section

variable {n : Nat} {self : Parser BodyId}

theorem reads_assignment (target value : Expression) :
    ReadsStatement n self (.assignment target value) := by
  intro s rest hs hrest
  simp only [Statement.words, List.append_assoc, List.cons_append] at hs
  refine achieves_expressionStatement hs (opens_expression target _) ?_
  simp only [expressionStatement, achieves_bind, achieves_current]
  refine (takes_expression target).achieves hs (closes_of_kind rfl (by rintro ⟨⟩)) fun t s₁ h₁ ht => ?_
  rw [if_pos (by exact h₁.spells.current_kind)]
  simp only [achieves_bind, achieves_skip, achieves_spanFrom, achieves_add]
  refine (takes_expression value).achieves h₁.skip.spells (closes_of_newline hrest.2) ?_
  intro v s₂ h₂ hv
  refine ⟨(h₁.skip.trans h₂).add _ _, ?_⟩
  have hgrows := fun node => extendedBy_added s₂ .statement node
  exact ⟨_, t.id, v.id, get?_added _ _ _,
    ht.1.extend ((h₁.spells.advance.trans h₂).arena.trans (hgrows _)), hv.1.extend (hgrows _)⟩

/-- A call and a bare name can stand as statements. -/
theorem isCallLike_callee {a : Arena} {callee : Callee} {id : ExpressionId}
    {node : ProcLang.Expression} (h : callee.expression.Stands a id)
    (hget : a.get? id = some node) : node.isCallLike = true := by
  cases callee with
  | name n =>
      obtain ⟨span, hname⟩ := h
      obtain rfl := Option.some.inj (hget.symm.trans hname)
      rfl
  | call n arguments =>
      obtain ⟨span, ids, hcall, -⟩ := h
      obtain rfl := Option.some.inj (hget.symm.trans hcall)
      rfl

theorem reads_call (callee : Callee) : ReadsStatement n self (.call callee) := by
  intro s rest hs hrest
  refine achieves_expressionStatement hs (opens_expression callee.expression _) ?_
  simp only [expressionStatement, achieves_bind, achieves_current]
  refine (takes_expression callee.expression).achieves hs (closes_of_newline hrest.2) ?_
  intro c s₁ h₁ hc
  rw [if_neg (by rw [h₁.spells.current_kind, hrest.2]; decide), if_pos (isCallLike_callee hc.1 hc.2)]
  simp only [achieves_bind, achieves_spanFrom, achieves_add]
  exact ⟨h₁.add _ _, _, c.id, get?_added _ _ _, hc.1.extend (extendedBy_added s₁ .statement _)⟩

/-- The value that a routine gives back. -/
theorem takes_resultValue (value : Option Expression) :
    Takes (resultValue Grammar.standard) (announced [] value) (fun rest => nextKind rest = .newline)
      fun a id => Option.Rel (Expression.Stands a) value id := by
  intro s rest hs hrest
  simp only [resultValue, achieves_bind, achieves_current]
  cases value with
  | none =>
      have hkind : s.current.kind = .newline := hs.current_kind.trans hrest
      simp only [hkind, achieves_pure]
      exact ⟨.refl hs, .none⟩
  | some value =>
      have hopens : Grammar.standardOperand s.current.kind ≠ none := by
        rw [hs.current_kind]
        exact opens_expression value rest
      -- none of the tokens that end a line or a body opens an expression
      split
      case h_6 =>
        simp only [achieves_bind, achieves_pure]
        refine (takes_expression value).achieves hs (closes_of_newline hrest) ?_
        exact fun placed s₁ h₁ hstands => ⟨h₁, .some hstands.1⟩
      all_goals exact absurd (by simp only [*]; rfl) hopens

theorem reads_returning (value : Option Expression) : ReadsStatement n self (.returning value) := by
  intro s rest hs hrest
  simp only [Statement.words, List.cons_append] at hs
  refine achieves_statementByRule hs rfl ?_
  simp only [statementByRule, returning, achieves_bind, achieves_advance, achieves_spanFrom,
    achieves_add]
  refine (takes_resultValue value).achieves hs.advance.spells hrest.2 fun v s₁ h₁ hv => ?_
  exact ⟨(hs.advance.trans h₁).add _ _, _, v, get?_added _ _ _,
    rel_stands_extend (extendedBy_added s₁ .statement _) hv⟩

/-! ### Loops and branches -/

/-- A body with the word that closes it. -/
theorem takes_closedBody {inner : Body} (hbody : ReadsBody n self inner) :
    Takes (closedBody self) (.of .newline :: (inner.words ++ [.of .kwEnd]))
      (fun rest => (Word.of .newline :: (inner.words ++ .of .kwEnd :: rest)).length < n)
      fun a id => inner.Stands a id := by
  intro s rest hs hn
  simp only [List.cons_append, List.append_assoc, List.nil_append] at hs
  simp only [closedBody, achieves_bind, achieves_discard, achieves_expect, achieves_pure]
  refine hbody.achieves hs ⟨hn, List.mem_cons_self⟩ fun id s₁ h₁ hid => ?_
  exact ⟨h₁.spells.current_kind, h₁.skip, hid.extend h₁.spells.advance.arena⟩

theorem reads_whileLoop (condition : Expression) {inner : Body} (hbody : ReadsBody n self inner) :
    ReadsStatement n self (.whileLoop condition inner) := by
  intro s rest hs hrest
  simp only [Statement.words, List.cons_append, List.append_assoc, List.nil_append] at hs hrest
  refine achieves_statementByRule hs rfl ?_
  have h₁ := hs.advance
  simp only [statementByRule, whileLoop, achieves_bind, achieves_advance, achieves_discard,
    achieves_expect, achieves_spanFrom, achieves_add]
  refine (takes_expression condition).achieves h₁.spells (closes_of_kind rfl (by rintro ⟨⟩)) ?_
  intro c s₂ h₂ hc
  refine ⟨h₂.spells.current_kind, ?_⟩
  have hinner : s₂.advance.2.Spells ((.of .newline :: (inner.words ++ [.of .kwEnd])) ++ rest) := by
    simpa using h₂.spells.advance.spells
  refine (takes_closedBody hbody).achieves hinner ?_ fun b s₃ h₃ hb => ?_
  · simp only [List.length_cons, List.length_append] at hrest ⊢
    omega
  refine ⟨((h₁.trans h₂).skip.trans h₃).add _ _, ?_⟩
  have hgrows := fun node => extendedBy_added s₃ .statement node
  exact ⟨_, c.id, b, get?_added _ _ _,
    hc.1.extend ((h₂.spells.advance.trans h₃).arena.trans (hgrows _)), hb.extend (hgrows _)⟩

/-- The counter of a loop is declared by its name, and no more is read for it. -/
theorem takes_counter {token : Token} {name : Name} (htext : token.text = name.text) :
    Takes (counter token) [] (fun _ => True) fun a id => CounterStands a name id := by
  intro s rest hs _
  simp only [counter, achieves_bind, achieves_add]
  refine ⟨((Onward.refl hs).add _ _).add _ _, token.span,
    (s.arena.add .type ⟨token.span, .integer⟩).1, token.span, ?_, ?_⟩
  · rw [← htext]
    exact get?_added _ _ _
  · exact extendedBy_added _ _ _ _ _ _ (get?_added s .type ⟨token.span, .integer⟩)

/-- A token that may be there is skipped. -/
theorem achieves_skip_if {α : Type} {c : Bool} {p : Parser α} {s : State} {Q : α → State → Prop} :
    Achieves (if c then (skip >>= fun _ => p) else p) s Q ↔
      Achieves p (if c then s.advance.2 else s) Q := by
  cases c <;> simp

theorem reads_forLoop (name : Name) (first last : Expression) (reverse : Bool) {inner : Body}
    (hbody : ReadsBody n self inner) :
    ReadsStatement n self (.forLoop name first last reverse inner) := by
  intro s rest hs hrest
  simp only [Statement.words, List.cons_append, List.append_assoc, List.nil_append] at hs hrest
  refine achieves_statementByRule hs rfl ?_
  have h₁ := hs.advance
  have h₂ := h₁.skip
  have h₃ := h₂.skip
  -- the word for a loop that runs backwards opens no expression, so it is seen where it stands only
  have hreverse : (s.advance.2.advance.2.advance.2.current.kind == .kwReverse) = reverse := by
    cases reverse with
    | true => exact beq_iff_eq.2 h₃.spells.current_kind
    | false =>
        have hopens :
            Grammar.standardOperand s.advance.2.advance.2.advance.2.current.kind ≠ none := by
          rw [h₃.spells.current_kind]
          exact opens_expression first _
        exact beq_eq_false_iff_ne.2 fun hkind => hopens (by rw [hkind]; rfl)
  have h₄ : s.Onward (first.words ++ .of .dotDot :: (last.words ++ .of .kwLoop :: .of .newline ::
      (inner.words ++ .of .kwEnd :: rest)))
      (if reverse then s.advance.2.advance.2.advance.2.advance.2
        else s.advance.2.advance.2.advance.2) := by
    cases reverse with
    | true => exact h₃.skip
    | false => exact h₃
  simp only [statementByRule, forLoop, achieves_bind, achieves_advance, achieves_discard,
    achieves_expect, achieves_current, hreverse]
  refine ⟨h₁.spells.current_kind, h₂.spells.current_kind, achieves_skip_if.2 ?_⟩
  generalize (if reverse then s.advance.2.advance.2.advance.2.advance.2
    else s.advance.2.advance.2.advance.2) = s₄ at h₄ ⊢
  simp only [achieves_bind, achieves_discard, achieves_expect, achieves_spanFrom, achieves_add]
  refine (takes_expression first).achieves h₄.spells (closes_of_kind rfl (by rintro ⟨⟩)) ?_
  intro f s₅ h₅ hf
  refine ⟨h₅.spells.current_kind, ?_⟩
  refine (takes_expression last).achieves h₅.spells.advance.spells (closes_of_kind rfl (by rintro ⟨⟩)) ?_
  intro l s₆ h₆ hl
  refine ⟨h₆.spells.current_kind, ?_⟩
  -- the counter was named before the bounds, but its nodes are added behind theirs
  refine (takes_counter h₁.spells.current_text).achieves h₆.spells.advance.spells trivial ?_
  intro x s₇ h₇ hx
  have hinner : s₇.Spells ((.of .newline :: (inner.words ++ [.of .kwEnd])) ++ rest) := by
    simpa using h₇.spells
  refine (takes_closedBody hbody).achieves hinner ?_ fun b s₈ h₈ hb => ?_
  · have hlength := hrest.1
    simp only [List.length_cons, List.length_append] at hlength ⊢
    omega
  have h₉ := (h₆.spells.advance.trans h₇).trans h₈
  refine ⟨(((h₄.trans h₅).skip.trans h₆).trans h₉).add _ _, ?_⟩
  have hgrows := fun node => extendedBy_added s₈ .statement node
  exact ⟨_, x, f.id, l.id, b, get?_added _ _ _, hx.extend (h₈.arena.trans (hgrows _)),
    hf.1.extend (((h₅.spells.advance.trans h₆).trans h₉).arena.trans (hgrows _)),
    hl.1.extend (h₉.arena.trans (hgrows _)), hb.extend (hgrows _)⟩

/-- The other branch of a conditional statement. -/
theorem takes_elseBranch {inner : Option Body} (hbody : ∀ b, inner = some b → ReadsBody n self b) :
    Takes (elseBranch self) (elseWords inner)
      (fun rest => (elseWords inner ++ rest).length ≤ n ∧ nextKind rest = .kwEnd)
      fun a id => ElseStands a inner id := by
  intro s rest hs hrest
  simp only [elseBranch, achieves_bind, achieves_current, hs.current_kind]
  cases inner with
  | none =>
      rw [if_neg (by simp [elseWords, hrest.2])]
      exact achieves_pure.2 ⟨.refl hs, rfl⟩
  | some inner =>
      rw [if_pos (by rfl)]
      simp only [achieves_bind, achieves_skip, achieves_map]
      have hn : (Word.of .newline :: (inner.words ++ rest)).length < n := hrest.1
      refine (hbody inner rfl).achieves hs.advance.spells ⟨hn, by rw [hrest.2]; decide⟩ ?_
      exact fun b s₁ h₁ hb => ⟨hs.advance.trans h₁, b, rfl, hb⟩

theorem reads_branch (condition : Expression) {thenBody : Body} {elseBody : Option Body}
    (hthen : ReadsBody n self thenBody) (helse : ∀ b, elseBody = some b → ReadsBody n self b) :
    ReadsStatement n self (.branch condition thenBody elseBody) := by
  intro s rest hs hrest
  simp only [Statement.words, List.cons_append, List.append_assoc, List.nil_append] at hs hrest
  refine achieves_statementByRule hs rfl ?_
  have h₁ := hs.advance
  simp only [statementByRule, branch, achieves_bind, achieves_advance, achieves_discard,
    achieves_expect, achieves_spanFrom, achieves_add]
  refine (takes_expression condition).achieves h₁.spells (closes_of_kind rfl (by rintro ⟨⟩)) ?_
  intro c s₂ h₂ hc
  refine ⟨h₂.spells.current_kind, ?_⟩
  have h₃ := h₂.spells.advance
  have hlength := hrest.1
  simp only [List.length_cons, List.length_append] at hlength
  refine hthen.achieves h₃.spells ⟨?_, ?_⟩ fun t s₄ h₄ ht => ?_
  · simp only [List.length_cons, List.length_append]
    omega
  · cases elseBody with
    | none => exact List.mem_cons_self
    | some _ => exact List.mem_cons_of_mem _ List.mem_cons_self
  refine (takes_elseBranch helse).achieves h₄.spells ⟨?_, rfl⟩ fun e s₅ h₅ he => ?_
  · simp only [List.length_cons, List.length_append]
    omega
  refine ⟨h₅.spells.current_kind, ((((h₁.trans h₂).trans h₃).trans h₄).trans h₅.skip).add _ _, ?_⟩
  have hgrows := fun node =>
    h₅.spells.advance.arena.trans (extendedBy_added s₅.advance.2 .statement node)
  exact ⟨_, c.id, t, e, get?_added _ _ _,
    hc.1.extend (((h₃.trans h₄).trans h₅).arena.trans (hgrows _)),
    ht.extend (h₅.arena.trans (hgrows _)), he.extend (hgrows _)⟩

/-! ### Bodies -/

/-- A line break between the items of a body is skipped. -/
theorem achieves_bodyRound_line {items : BodyItems} {s : State} {rest : List Word}
    (hs : s.Spells (.of .newline :: rest)) {Q : BodyItems → State → Prop}
    (h : Achieves (loop (bodyRound self) items) s.advance.2 Q) :
    Achieves (loop (bodyRound self) items) s Q := by
  refine achieves_loop ?_
  simp only [bodyRound, achieves_bind, achieves_current, hs.current_kind, nextKind, Word.of_kind,
    achieves_skip, achieves_pure]
  exact ⟨hs.takes_token, h⟩

/-- What is not the end of a body is one of its items. -/
theorem achieves_bodyRound_item {items : BodyItems} {s : State} {Q : BodyItems → State → Prop}
    (hopens : s.current.kind = .kwVar ∨ s.current.kind = .kwType ∨
      opensStatement s.current.kind = true)
    (h : Achieves (bodyItem Grammar.standard self items) s fun next s₁ =>
      s₁.unread.length < s.unread.length ∧ Achieves (loop (bodyRound self) next) s₁ Q) :
    Achieves (loop (bodyRound self) items) s Q := by
  have hother : s.current.kind ∉ [.newline, .semicolon, .kwEnd, .kwElse, .endOfFile] := by
    intro hmem
    simp only [List.mem_cons, List.not_mem_nil, or_false] at hmem
    rcases hmem with hkind | hkind | hkind | hkind | hkind <;> rw [hkind] at hopens <;>
      revert hopens <;> decide
  refine achieves_loop ?_
  simp only [bodyRound, achieves_bind, achieves_current]
  split
  case h_6 =>
    simp only [achieves_bind, achieves_pure]
    exact h.recovering _ _ _
  all_goals exact absurd (by simp [*]) hother

/-- A declaration of a body, with the line break behind it, is read in one round. -/
theorem achieves_local {d : LocalDeclaration} {items : BodyItems} {s : State} {rest : List Word}
    {Q : BodyItems → State → Prop} (hs : s.Spells ((d.words ++ [.of .newline]) ++ rest))
    (hQ : ∀ next s', s.Onward rest s' → d.Stands s'.arena next →
      Achieves (loop (bodyRound self) ⟨items.declarations ++ [next], items.statements⟩) s' Q) :
    Achieves (loop (bodyRound self) items) s Q := by
  have htakes : ∀ {s₁ : State}, s.Onward rest s₁ → s₁.unread.length < s.unread.length := by
    intro s₁ h₁
    rw [h₁.spells.length_eq, hs.length_eq]
    simp only [List.length_append, List.length_singleton]
    omega
  cases d with
  | «variable» x =>
      have hkind : s.current.kind = .kwVar := by
        rw [hs.current_kind]
        cases x
        rfl
      refine achieves_bodyRound_item (Or.inl hkind) ?_
      simp only [bodyItem, achieves_bind, achieves_current, hkind, achieves_pure]
      exact (takes_variable x).achieves hs trivial fun id s₁ h₁ hid =>
        ⟨htakes h₁, hQ (.variable id) s₁ h₁ hid⟩
  | type name form =>
      have hkind : s.current.kind = .kwType := hs.current_kind
      refine achieves_bodyRound_item (Or.inr (Or.inl hkind)) ?_
      simp only [bodyItem, achieves_bind, achieves_current, hkind, achieves_pure]
      exact (takes_typeDecl name form).achieves hs trivial fun id s₁ h₁ hid =>
        ⟨htakes h₁, hQ (.type id) s₁ h₁ hid⟩

theorem words_ne_nil (statement : Statement) : statement.words ≠ [] := by
  intro hnil
  have hfalse := opens_statement statement []
  rw [hnil] at hfalse
  exact absurd hfalse (by decide)

/-- A statement of a body is read in one round, and the line break behind it in another one. -/
theorem achieves_statement {st : Statement} (hst : ReadsStatement n self st) {items : BodyItems}
    {s : State} {rest : List Word} {Q : BodyItems → State → Prop}
    (hs : s.Spells ((st.words ++ [.of .newline]) ++ rest))
    (hn : ((st.words ++ [Word.of .newline]) ++ rest).length ≤ n)
    (hQ : ∀ id s', s.Onward rest s' → st.Stands s'.arena id →
      Achieves (loop (bodyRound self) ⟨items.declarations, items.statements ++ [id]⟩) s' Q) :
    Achieves (loop (bodyRound self) items) s Q := by
  rw [List.append_assoc, List.singleton_append] at hs hn
  have hopens : opensStatement s.current.kind = true := by
    rw [hs.current_kind]
    exact opens_statement st _
  have hstatement : Achieves (statementWith Grammar.standard self) s fun id s₁ =>
      s₁.unread.length < s.unread.length ∧ Achieves (loop (bodyRound self)
        ⟨items.declarations, items.statements ++ [id]⟩) s₁ Q := by
    refine hst.achieves hs ⟨hn, rfl⟩ fun id s₁ h₁ hid => ⟨?_, ?_⟩
    · have hpos := List.length_pos_iff.2 (words_ne_nil st)
      rw [h₁.spells.length_eq, hs.length_eq, List.length_append]
      omega
    · exact achieves_bodyRound_line h₁.spells
        (hQ id _ h₁.skip (hid.extend h₁.spells.advance.arena))
  refine achieves_bodyRound_item (Or.inr (Or.inr hopens)) ?_
  simp only [bodyItem, achieves_bind, achieves_current]
  -- no word of a declaration opens a statement
  split
  case h_4 =>
    simp only [achieves_bind, achieves_pure]
    exact hstatement
  all_goals
    rw [‹s.current.kind = _›] at hopens
    exact absurd hopens (by decide)

/-- The declarations of a body, line by line. -/
theorem achieves_locals (declarations : List LocalDeclaration) {items : BodyItems} {s : State}
    {rest : List Word} (hs : s.Spells (localWords declarations ++ rest))
    {Q : BodyItems → State → Prop} (hQ : ∀ ds s', s.Onward rest s' →
      List.Forall₂ (LocalDeclaration.Stands s'.arena) declarations ds →
      Achieves (loop (bodyRound self) ⟨items.declarations ++ ds, items.statements⟩) s' Q) :
    Achieves (loop (bodyRound self) items) s Q :=
  achieves_loop_each
    (fun (items : BodyItems) ds => BodyItems.mk (items.declarations ++ ds) items.statements)
    (fun d => LocalDeclaration.words d ++ [Word.of .newline]) LocalDeclaration.Stands
    (fun _ => by simp) (fun _ _ _ => by simp) (fun hab hd => hd.extend hab)
    (fun _ _ _ _ _ _ hd _ hnext => achieves_local hd hnext) hs (Nat.le_refl _) hQ

/-- The statements of a body, line by line. -/
theorem achieves_statements {statements : List Statement}
    (hstatements : ∀ st ∈ statements, ReadsStatement n self st) {items : BodyItems} {s : State}
    {rest : List Word} (hs : s.Spells (statementWords statements ++ rest))
    (hn : (statementWords statements ++ rest).length ≤ n) {Q : BodyItems → State → Prop}
    (hQ : ∀ ids s', s.Onward rest s' → StatementsStand s'.arena statements ids →
      Achieves (loop (bodyRound self) ⟨items.declarations, items.statements ++ ids⟩) s' Q) :
    Achieves (loop (bodyRound self) items) s Q := by
  rw [statementWords_eq] at hs hn
  exact achieves_loop_each
    (fun (items : BodyItems) ids => BodyItems.mk items.declarations (items.statements ++ ids))
    (fun st => Statement.words st ++ [Word.of .newline]) Statement.Stands
    (fun _ => by simp) (fun _ _ _ => by simp) (fun hab hst => hst.extend hab)
    (fun st hst => achieves_statement (hstatements st hst)) hs hn
    fun ids s' h' hids => hQ ids s' h' (.of_forall₂ hids)

/-- A body, from the line break behind the word that opens it to the word that closes it. -/
theorem reads_bodyStep {declarations : List LocalDeclaration} {statements : List Statement}
    (hstatements : ∀ st ∈ statements, ReadsStatement n self st) :
    ReadsBody (n + 1) (bodyStep Grammar.standard self) (.mk declarations statements) := by
  intro s rest hs hrest
  simp only [Body.words, List.cons_append, List.append_assoc] at hs hrest
  simp only [bodyStep, bodyItems_eq, achieves_bind, achieves_current]
  refine achieves_bodyRound_line hs ?_
  have h₁ := hs.advance
  refine achieves_locals declarations h₁.spells fun ds s₂ h₂ hds => ?_
  refine achieves_statements hstatements h₂.spells ?_ fun ids s₃ h₃ hids => ?_
  · have hlength := hrest.1
    simp only [List.length_cons, List.length_append] at hlength ⊢
    omega
  have hkind : s₃.current.kind = .kwEnd ∨ s₃.current.kind = .kwElse := by
    rw [h₃.spells.current_kind]
    simpa using hrest.2
  have hdone : ∀ {Q : BodyItems → State → Prop}, Q ⟨ds, ids⟩ s₃ →
      Achieves (loop (bodyRound self) ⟨ds, ids⟩) s₃ Q := by
    intro Q hQ
    refine achieves_loop ?_
    rcases hkind with hkind | hkind
    · simp only [bodyRound, achieves_bind, achieves_current, hkind, achieves_pure]
      exact hQ
    · simp only [bodyRound, achieves_bind, achieves_current, hkind, achieves_pure]
      exact hQ
  refine hdone ?_
  simp only [achieves_spanFrom, achieves_note, achieves_add]
  refine ⟨(((h₁.trans h₂).trans h₃).note _).add _ _, ?_⟩
  have hgrows := fun event node => extendedBy_added (s₃.note event) .body node
  exact ⟨_, ds, ids, get?_added _ _ _,
    hds.imp fun _ _ hstands => hstands.extend (h₃.arena.trans (hgrows _ _)),
    StatementsStand.extend (hgrows _ _) hids⟩

end

/-- The parser for nested bodies, down to some depth. -/
def nestedBody (n : Nat) : Parser BodyId :=
  unfold (fun nested (_ : Unit) => bodyStep Grammar.standard (nested ())) n ()

mutual

theorem readsStatement : ∀ (statement : Statement) (n : Nat),
    ReadsStatement n (nestedBody n) statement
  | .assignment target value, _ => reads_assignment target value
  | .whileLoop condition inner, n => reads_whileLoop condition (readsBody inner n)
  | .forLoop name first last reverse inner, n =>
      reads_forLoop name first last reverse (readsBody inner n)
  | .branch condition thenBody none, n => reads_branch condition (readsBody thenBody n) nofun
  | .branch condition thenBody (some elseBody), n =>
      reads_branch condition (readsBody thenBody n) fun _ h =>
        Option.some.inj h ▸ readsBody elseBody n
  | .returning value, _ => reads_returning value
  | .call callee, _ => reads_call callee

theorem readsBody : ∀ (inner : Body) (n : Nat), ReadsBody n (nestedBody n) inner
  | .mk _ _, 0 => fun _ _ _ hrest => absurd hrest.1 (Nat.not_lt_zero _)
  | .mk _ statements, n + 1 => reads_bodyStep (readsStatements statements n)

theorem readsStatements : ∀ (statements : List Statement) (n : Nat), ∀ st ∈ statements,
    ReadsStatement n (nestedBody n) st
  | [], _ => nofun
  | st :: statements, n =>
      List.forall_mem_cons.2 ⟨readsStatement st n, readsStatements statements n⟩

end

/-- **A body that was written down is read back.** -/
theorem takes_body (inner : Body) :
    Takes (body Grammar.standard) (.of .newline :: inner.words) (fun rest => nextKind rest = .kwEnd)
      fun a id => inner.Stands a id := by
  intro s rest hs hrest
  refine achieves_recursive.2 ?_
  rw [hs.length_eq]
  exact readsBody inner _ s rest hs ⟨Nat.lt_succ_self _, by rw [hrest]; exact List.mem_cons_self⟩

end Source

end ProcLang
