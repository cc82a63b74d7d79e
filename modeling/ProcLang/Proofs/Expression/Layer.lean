import ProcLang.Proofs.Expression.Derivation
import ProcLang.Proofs.Parser.Reads

/-!
# ProcLang.Proofs.Expression.Layer

**One layer of the expression parser.** Each rule for an operand or a tail has an equation here that
says when it succeeds, given a parser `self` for nested expressions. An expression is an operand and
the rounds of `tailStep` behind it; arguments are the rounds of `commaStep`. Both directions of the
correctness of the parser use these equations: what a rule does if it succeeds is also what makes it
succeed.
-/

namespace ProcLang

namespace Parser

open State

/-- Between two states the tokens `w` were taken, and the node `placed` stands for `tree`. -/
structure ReadsTree (s : State) (w : List Token) (tree : ExpressionTree) (placed : Placed)
    (s' : State) : Prop where
  reads : s.Reads w s'
  stands : Stands s'.arena tree placed.id

/-! ### Placing nodes -/

theorem exists_yields_place (s : State) (node : Expression) :
    ∃ placed s', Yields (place node) s placed s' := by
  refine ⟨⟨(s.arena.add .expression node).1, node⟩, s.added .expression node, ?_⟩
  simp [place]

/-- A node that was placed is in the arena, and no token was taken for it. -/
theorem place_reads {s s' : State} {node : Expression} {placed : Placed}
    (h : Yields (place node) s placed s') :
    s.Reads [] s' ∧ s'.current = s.current ∧ s'.arena.get? placed.id = some node := by
  simp only [place, yields_add_bind, yields_pure] at h
  obtain ⟨rfl, rfl⟩ := h
  exact ⟨reads_added s .expression node, rfl, s.arena.get?_add .expression node⟩

/-! ### Literals -/

/-- The node of a literal is that of its tree. -/
theorem isLiteral_of_literalNode {token : Token} {node : Expression} (h : literalNode token = .ok node) :
    ∃ tree, IsLiteral token tree ∧ ∀ (a : Arena) id, a.get? id = some node → Stands a tree id := by
  unfold literalNode at h
  simp only at h
  split at h
  · rename_i hkind
    split at h
    · injection h with h
      subst h
      exact ⟨_, .integer hkind, fun a id hget => ⟨_, hget⟩⟩
    · cases h
  · rename_i hkind
    injection h with h
    subst h
    exact ⟨_, .real hkind rfl, fun a id hget => ⟨_, hget⟩⟩
  · rename_i hkind
    injection h with h
    subst h
    exact ⟨_, .truth hkind, fun a id hget => ⟨_, hget⟩⟩
  · rename_i hkind
    injection h with h
    subst h
    exact ⟨_, .falsity hkind, fun a id hget => ⟨_, hget⟩⟩
  · cases h

/-- Every literal that fits has a node, which is that of its tree. -/
theorem literalNode_of_isLiteral {token : Token} {tree : ExpressionTree}
    (h : IsLiteral token tree)
    (fits : token.kind = .integerLiteral → Binary64.digitsValue token.text.toList < Nat.pow 2 63) :
    ∃ node, literalNode token = .ok node ∧
      ∀ (a : Arena) id, a.get? id = some node → Stands a tree id := by
  cases h with
  | integer kind =>
      exact ⟨_, by simp only [literalNode, kind, if_pos (fits kind)],
        fun a id hget => ⟨token.span, hget⟩⟩
  | real kind point =>
      exact ⟨_, by simp only [literalNode, kind, point], fun a id hget => ⟨token.span, hget⟩⟩
  | truth kind => exact ⟨_, by simp only [literalNode, kind], fun a id hget => ⟨token.span, hget⟩⟩
  | falsity kind => exact ⟨_, by simp only [literalNode, kind], fun a id hget => ⟨token.span, hget⟩⟩

theorem yields_literal {s s' : State} {placed : Placed} :
    Yields literal s placed s' ↔ ∃ node, literalNode s.current = .ok node ∧
      Yields (place node) s.advance.2 placed s' := by
  simp only [literal, yields_current_bind]
  cases literalNode s.current with
  | error cause => simp
  | ok node => simp

/-! ### Arguments -/

/-- The step of the loop for items with commas between them. -/
def commaStep {α : Type} (item : Parser α) (items : List α) : Parser (Round (List α)) := do
  let items := items ++ [← item]
  if (← current).kind = .comma then
    skip
    return .more items
  else return .done items

theorem commaSeparated_eq {α : Type} (item : Parser α) :
    commaSeparated item = loop (commaStep item) [] := rfl

/-- One round takes an item, and then a comma if another round follows. -/
theorem yields_commaStep {α : Type} {item : Parser α} {items : List α} {s s' : State}
    {round : Round (List α)} :
    Yields (commaStep item items) s round s' ↔ ∃ x s₁, Yields item s x s₁ ∧
      (s₁.current.kind = .comma ∧ round = .more (items ++ [x]) ∧ s' = s₁.advance.2 ∨
        s₁.current.kind ≠ .comma ∧ round = .done (items ++ [x]) ∧ s' = s₁) := by
  simp only [commaStep, yields_bind, yields_current, and_assoc, exists_and_left, exists_eq_left]
  refine exists_congr fun x => exists_congr fun s₁ => and_congr_right fun _ => ?_
  by_cases hcomma : s₁.current.kind = .comma
  · simp [hcomma, and_comm]
  · simp [hcomma]

/-- What stands in front of an argument: nothing, or other arguments and a comma. -/
inductive ArgumentFront : List Token → List ExpressionTree → Prop
  | nothing : ArgumentFront [] []
  | others {w : List Token} {trees : List ExpressionTree} {comma : Token}
      (inner : Derives .arguments w trees) (separates : comma.kind = .comma) :
      ArgumentFront (w ++ [comma]) trees

/-- With one more argument these are arguments. -/
theorem ArgumentFront.concat {v w : List Token} {trees : List ExpressionTree}
    {tree : ExpressionTree} (h : ArgumentFront v trees) (inner : Derives (.level 1) w [tree]) :
    Derives .arguments (v ++ w) (trees ++ [tree]) := by
  cases h with
  | nothing => exact .lastArgument inner
  | others front separates =>
      rw [List.append_assoc, List.singleton_append]
      exact .moreArguments front separates inner

section

variable {self : BindingPower → Parser Placed} {s s' : State} {left placed : Placed}

theorem yields_arguments {items : List Placed} :
    Yields (arguments self) s items s' ↔
      (s.current.kind = .closeParen ∧ items = [] ∧ s' = s) ∨
      (s.current.kind ≠ .closeParen ∧
        Yields (loop (commaStep (self .loosest)) []) s items s') := by
  simp only [arguments, yields_current_bind, commaSeparated_eq]
  by_cases hclose : s.current.kind = .closeParen
  · simp [hclose]
  · simp [hclose]

/-! ### Operands -/

theorem yields_nameOrCall :
    Yields (nameOrCall self) s placed s' ↔
      (s.advance.2.current.kind = .openParen ∧ ∃ items s₁,
        Yields (arguments self) s.advance.2.advance.2 items s₁ ∧ s₁.current.kind = .closeParen ∧
          Yields (place (.plain (.call s.current.text none (items.map (·.id)))
            ⟨s.current.start, s₁.advance.2.lastStop⟩)) s₁.advance.2 placed s') ∨
      (s.advance.2.current.kind ≠ .openParen ∧
        Yields (place (.plain (.identifier s.current.text none) s.current.span))
          s.advance.2 placed s') := by
  simp only [nameOrCall, yields_advance_bind, yields_current_bind, advance_fst]
  by_cases hopen : s.advance.2.current.kind = .openParen
  · simp only [hopen, if_true, yields_skip_bind, yields_bind (p := arguments self),
      yields_discard_expect_bind, yields_spanFrom_bind]
    simp
  · simp [hopen]

theorem yields_grouping :
    Yields (grouping self) s placed s' ↔ ∃ s₁, Yields (self .loosest) s.advance.2 placed s₁ ∧
      s₁.current.kind = .closeParen ∧ s' = s₁.advance.2 := by
  simp only [grouping, yields_skip_bind, yields_bind (p := self .loosest),
    yields_discard_expect_bind, yields_pure]
  constructor
  · intro h
    obtain ⟨inner, s₁, hinner, hclose, rfl, rfl⟩ := h
    exact ⟨s₁, hinner, hclose, rfl⟩
  · intro h
    obtain ⟨s₁, hinner, hclose, rfl⟩ := h
    exact ⟨placed, s₁, hinner, hclose, rfl, rfl⟩

theorem yields_unary :
    Yields (unary self) s placed s' ↔ ∃ operator,
      (s.current.kind, operator) ∈ prefixOperators ∧ ∃ operand s₁,
        Yields (self .unary) s.advance.2 operand s₁ ∧
          Yields (place (.plain (.unary operator operand.id)
            ⟨s.current.start, operand.node.span.stop⟩)) s₁ placed s' := by
  simp only [mem_prefixOperators_iff, unary, yields_current_bind]
  cases UnaryOperator.ofToken? s.current.kind with
  | none => simp
  | some operator => simp [yields_bind (p := self .unary)]

/-! ### Tails -/

theorem yields_binary {power : BindingPower} :
    Yields (binary self left power) s placed s' ↔ ∃ operator,
      BinaryOperator.ofToken? s.current.kind = some operator ∧ ∃ right s₁,
        Yields (self power) s.advance.2 right s₁ ∧
          Yields (place (.plain (.binary operator left.id right.id)
            ⟨left.node.span.start, right.node.span.stop⟩)) s₁ placed s' := by
  simp only [binary, yields_current_bind]
  cases BinaryOperator.ofToken? s.current.kind with
  | none => simp
  | some operator => simp [yields_bind (p := self power)]

theorem yields_member {power : BindingPower} :
    Yields (member self left power) s placed s' ↔ ∃ field s₁,
      Yields (self power) s.advance.2 field s₁ ∧
        Yields (place (.plain (.binary .member left.id field.id)
          ⟨left.node.span.start, field.node.span.stop⟩)) s₁ placed s' := by
  simp only [member, yields_skip_bind, yields_bind (p := self power)]

theorem yields_index :
    Yields (index self left) s placed s' ↔ ∃ position s₁,
      Yields (self .loosest) s.advance.2 position s₁ ∧ s₁.current.kind = .closeBracket ∧
        Yields (place (.plain (.binary .index left.id position.id)
          ⟨left.node.span.start, s₁.advance.2.lastStop⟩)) s₁.advance.2 placed s' := by
  simp only [index, yields_skip_bind, yields_bind (p := self .loosest),
    yields_discard_expect_bind, yields_spanFrom_bind]

end

/-! ### The loop -/

/-- The step of the loop behind an operand: a tail, if the next token opens one that binds tighter
than a power. -/
def tailStep (self : BindingPower → Parser Placed) (power : BindingPower) (left : Placed) :
    Parser (Round Placed) := do
  match Grammar.standardTail (← current).kind with
  | none => return .done left
  | some (tailPower, rule) =>
      if tailPower.tighter power then return .more (← tail self rule left tailPower)
      else return .done left

/-- An expression is an operand and the rounds behind it. -/
theorem yields_expressionStep {self : BindingPower → Parser Placed} {power : BindingPower}
    {s s' : State} {placed : Placed} :
    Yields (expressionStep self Grammar.standard power) s placed s' ↔
      ∃ rule, Grammar.standardOperand s.current.kind = some rule ∧ ∃ first s₁,
        Yields (operand self rule) s first s₁ ∧
          Yields (loop (tailStep self power) first) s₁ placed s' := by
  simp only [expressionStep, yields_current_bind]
  rw [show Grammar.standard.operand = Grammar.standardOperand from rfl]
  cases Grammar.standardOperand s.current.kind with
  | none => simp
  | some rule =>
      simp only [yields_bind, Option.some.injEq, exists_eq_left']
      rfl

/-- A round reads a tail that binds tighter, or there is none and it is the last one. -/
theorem yields_tailStep {self : BindingPower → Parser Placed} {power : BindingPower}
    {left : Placed} {s s' : State} {round : Round Placed} :
    Yields (tailStep self power left) s round s' ↔
      (∃ tailPower rule, Grammar.standardTail s.current.kind = some (tailPower, rule) ∧
        tailPower.tighter power = true ∧
          ∃ next, Yields (tail self rule left tailPower) s next s' ∧ round = .more next) ∨
      (¬ ContinuesAbove power.level s.current.kind ∧ round = .done left ∧ s' = s) := by
  rw [continuesAbove_iff]
  simp only [tailStep, yields_current_bind]
  cases Grammar.standardTail s.current.kind with
  | none => simp
  | some entry =>
      obtain ⟨tailPower, rule⟩ := entry
      by_cases htighter : tailPower.tighter power = true
      · simp [htighter]
      · simp [htighter]

end Parser

end ProcLang
