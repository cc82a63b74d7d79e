import ProcLang.Proofs.Expression.Tree
import ProcLang.Grammar.Standard
import ProcLang.Parse.Expression

/-!
# ProcLang.Proofs.Expression.Derivation

**The grammar of expressions**, written without binding powers. The levels `1` to `6` are the
operators with two operands from the loosest to the tightest, all of them grouping to the left;
level `7` is an operator in front of its operand, and level `8` a member access or an index. `Derives`
relates the tokens of a phrase to the tree that the grammar prescribes for them.

The kind of a token decides everything, so the tables `infixOperators` and `prefixOperators` list
kinds.
-/

namespace ProcLang

/-- The operators with two operands, with their levels. -/
def infixOperators : List (TokenKind × Nat × BinaryOperator) :=
  [(.kwOr, 1, .or), (.kwXor, 1, .xor), (.kwAnd, 2, .and), (.equal, 3, .equal),
   (.notEqual, 3, .notEqual), (.less, 4, .less), (.lessEqual, 4, .lessEqual),
   (.greater, 4, .greater), (.greaterEqual, 4, .greaterEqual), (.plus, 5, .add),
   (.minus, 5, .subtract), (.star, 6, .multiply), (.slash, 6, .divide), (.percent, 6, .modulo)]

/-- The operators in front of their only operand. -/
def prefixOperators : List (TokenKind × UnaryOperator) :=
  [(.kwNot, .not), (.plus, .plus), (.minus, .minus)]

/-- A token that goes on with an expression whose last operand is of some level, since it holds that
operand tighter: an operator of a higher level, a point or an opening bracket. -/
def ContinuesAbove (level : Nat) (kind : TokenKind) : Prop :=
  (∃ q operator, (kind, q, operator) ∈ infixOperators ∧ level < q) ∨
    ((kind = .dot ∨ kind = .openBracket) ∧ level < 8)

/-- The tree of a literal. -/
inductive IsLiteral (token : Token) : ExpressionTree → Prop
  | integer (kind : token.kind = .integerLiteral) :
      IsLiteral token (.integer (Binary64.digitsValue token.text.toList))
  | real (kind : token.kind = .realLiteral) {whole fraction : List Char}
      (point : Parser.splitAtPoint token.text.toList = (whole, fraction)) :
      IsLiteral token (.real (.ofDecimal whole fraction))
  | truth (kind : token.kind = .kwTrue) : IsLiteral token (.boolean true)
  | falsity (kind : token.kind = .kwFalse) : IsLiteral token (.boolean false)

/-- Every integer literal among some tokens is a signed number of 64 bits. -/
def LiteralsFit (w : List Token) : Prop :=
  ∀ token ∈ w, token.kind = .integerLiteral → Binary64.digitsValue token.text.toList < Nat.pow 2 63

/-- A literal is not the end of the text. -/
theorem IsLiteral.kind_ne_endOfFile {token : Token} {tree : ExpressionTree}
    (h : IsLiteral token tree) : token.kind ≠ .endOfFile := by
  cases h <;> simp_all

/-- The symbols of the grammar: expressions of a level, the expressions that a member access or an
index can be applied to, the smallest expressions, and the arguments of a call. -/
inductive Phrase where
  | level (q : Nat)
  | postfixed
  | primary
  | arguments
  deriving DecidableEq, Repr

/-- The rules of the grammar. An expression derives one tree, and the arguments of a call as many as
there are. -/
inductive Derives : Phrase → List Token → List ExpressionTree → Prop
  /-- `Lq ::= Lq op L(q+1)` -/
  | infixed {q : Nat} {operator : BinaryOperator} {op : Token} {v w : List Token}
      {left right : ExpressionTree} (table : (op.kind, q, operator) ∈ infixOperators)
      (lhs : Derives (.level q) v [left]) (rhs : Derives (.level (q + 1)) w [right]) :
      Derives (.level q) (v ++ op :: w) [.binary operator left right]
  /-- `Lq ::= L(q+1)`, up to `L7 ::= L8` -/
  | tighter {q : Nat} {w : List Token} {tree : ExpressionTree} (low : 1 ≤ q) (high : q ≤ 7)
      (inner : Derives (.level (q + 1)) w [tree]) : Derives (.level q) w [tree]
  /-- `L7 ::= (not | + | -) L7` -/
  | prefixed {operator : UnaryOperator} {op : Token} {w : List Token} {tree : ExpressionTree}
      (table : (op.kind, operator) ∈ prefixOperators) (operand : Derives (.level 7) w [tree]) :
      Derives (.level 7) (op :: w) [.unary operator tree]
  /-- `L8 ::= M` -/
  | postfixed {w : List Token} {tree : ExpressionTree} (inner : Derives .postfixed w [tree]) :
      Derives (.level 8) w [tree]
  /-- `L8 ::= M . (not | + | -) L7` -/
  | memberPrefixed {operator : UnaryOperator} {point op : Token} {v w : List Token}
      {left right : ExpressionTree} (lhs : Derives .postfixed v [left]) (dot : point.kind = .dot)
      (table : (op.kind, operator) ∈ prefixOperators) (rhs : Derives (.level 7) w [right]) :
      Derives (.level 8) (v ++ point :: op :: w) [.binary .member left (.unary operator right)]
  /-- `M ::= P` -/
  | primary {w : List Token} {tree : ExpressionTree} (inner : Derives .primary w [tree]) :
      Derives .postfixed w [tree]
  /-- `M ::= M . P` -/
  | member {point : Token} {v w : List Token} {left right : ExpressionTree}
      (lhs : Derives .postfixed v [left]) (dot : point.kind = .dot)
      (rhs : Derives .primary w [right]) :
      Derives .postfixed (v ++ point :: w) [.binary .member left right]
  /-- `M ::= M [ L1 ]` -/
  | index {opening closing : Token} {v w : List Token} {left position : ExpressionTree}
      (lhs : Derives .postfixed v [left]) (opens : opening.kind = .openBracket)
      (inner : Derives (.level 1) w [position]) (closes : closing.kind = .closeBracket) :
      Derives .postfixed (v ++ opening :: w ++ [closing]) [.binary .index left position]
  /-- `P ::= literal` -/
  | literal {token : Token} {tree : ExpressionTree} (value : IsLiteral token tree) :
      Derives .primary [token] [tree]
  /-- `P ::= name` -/
  | name {token : Token} (kind : token.kind = .identifier) :
      Derives .primary [token] [.name token.text]
  /-- `P ::= name ( )` -/
  | emptyCall {token opening closing : Token} (kind : token.kind = .identifier)
      (opens : opening.kind = .openParen) (closes : closing.kind = .closeParen) :
      Derives .primary [token, opening, closing] [.call token.text []]
  /-- `P ::= name ( arguments )` -/
  | call {token opening closing : Token} {w : List Token} {trees : List ExpressionTree}
      (kind : token.kind = .identifier) (opens : opening.kind = .openParen)
      (inner : Derives .arguments w trees) (closes : closing.kind = .closeParen) :
      Derives .primary (token :: opening :: w ++ [closing]) [.call token.text trees]
  /-- `P ::= ( L1 )` -/
  | grouping {opening closing : Token} {w : List Token} {tree : ExpressionTree}
      (opens : opening.kind = .openParen) (inner : Derives (.level 1) w [tree])
      (closes : closing.kind = .closeParen) :
      Derives .primary (opening :: w ++ [closing]) [tree]
  /-- `arguments ::= L1` -/
  | lastArgument {w : List Token} {tree : ExpressionTree} (inner : Derives (.level 1) w [tree]) :
      Derives .arguments w [tree]
  /-- `arguments ::= arguments , L1` -/
  | moreArguments {comma : Token} {v w : List Token} {trees : List ExpressionTree}
      {tree : ExpressionTree} (front : Derives .arguments v trees) (separates : comma.kind = .comma)
      (inner : Derives (.level 1) w [tree]) :
      Derives .arguments (v ++ comma :: w) (trees ++ [tree])

/-- The level of the expressions that a binding power asks for: the one just above it. -/
def BindingPower.levelAbove (power : BindingPower) : Nat := min (power.level + 1) 7

theorem BindingPower.tighter_member (power : BindingPower) : power.tighter .member = false := by
  cases power <;> rfl

theorem BindingPower.tighter_of_ne_member {power : BindingPower} (h : power ≠ .member) :
    BindingPower.member.tighter power = true := by
  cases power <;> first | rfl | exact absurd rfl h

/-! ### Between levels -/

/-- A tight expression stands wherever a looser one may. -/
theorem Derives.loosen {q r : Nat} {w : List Token} {tree : ExpressionTree} (low : 1 ≤ q)
    (hle : q ≤ r) (high : r ≤ 8) (h : Derives (.level r) w [tree]) : Derives (.level q) w [tree] := by
  induction r with
  | zero => omega
  | succ r ih =>
      by_cases heq : q = r + 1
      · rw [heq]
        exact h
      · exact ih (by omega) (by omega) (.tighter (by omega) (by omega) h)

/-- Nothing is as tight as what a member access can be applied to. -/
theorem Derives.level_of_postfixed {q : Nat} {w : List Token} {tree : ExpressionTree} (low : 1 ≤ q)
    (high : q ≤ 8) (h : Derives .postfixed w [tree]) : Derives (.level q) w [tree] :=
  (Derives.postfixed h).loosen low high (Nat.le_refl _)

/-! ### The tables of the parser -/

/-- A tail of the standard grammar is an operator of the table with its level for a power, or a
point or an opening bracket with the tightest power. -/
theorem standardTail_cases {kind : TokenKind} {power : BindingPower} {rule : TailRule}
    (h : Grammar.standardTail kind = some (power, rule)) :
    (rule = .binary ∧ ∃ operator, (kind, power.level, operator) ∈ infixOperators) ∨
      (rule = .member ∧ kind = .dot ∧ power = .member) ∨
      (rule = .index ∧ kind = .openBracket ∧ power = .member) := by
  cases kind <;> simp [Grammar.standardTail] at h <;> obtain ⟨rfl, rfl⟩ := h <;>
    simp [infixOperators, BindingPower.level]

/-- Every operator of the table is a tail of the standard grammar. -/
theorem standardTail_of_mem {kind : TokenKind} {q : Nat} {operator : BinaryOperator}
    (h : (kind, q, operator) ∈ infixOperators) :
    ∃ power, Grammar.standardTail kind = some (power, .binary) ∧ power.level = q ∧
      BinaryOperator.ofToken? kind = some operator := by
  have table : ∀ entry ∈ infixOperators, ∃ power,
      Grammar.standardTail entry.1 = some (power, .binary) ∧ power.level = entry.2.1 ∧
        BinaryOperator.ofToken? entry.1 = some entry.2.2 := by
    simp [infixOperators, Grammar.standardTail, BinaryOperator.ofToken?, BindingPower.level]
  exact table _ h

/-- The levels of the table. -/
theorem level_of_mem {kind : TokenKind} {q : Nat} {operator : BinaryOperator}
    (h : (kind, q, operator) ∈ infixOperators) : 1 ≤ q ∧ q ≤ 6 := by
  have table : ∀ entry ∈ infixOperators, 1 ≤ entry.2.1 ∧ entry.2.1 ≤ 6 := by decide
  exact table _ h

theorem kind_ne_of_mem {kind : TokenKind} {q : Nat} {operator : BinaryOperator}
    (h : (kind, q, operator) ∈ infixOperators) : kind ≠ .endOfFile ∧ kind ≠ .openParen := by
  have table : ∀ entry ∈ infixOperators, entry.1 ≠ .endOfFile ∧ entry.1 ≠ .openParen := by decide
  exact table _ h

/-- What goes on behind a loose operand goes on behind a looser one. -/
theorem ContinuesAbove.loosen {q r : Nat} {kind : TokenKind} (h : ContinuesAbove r kind)
    (hle : q ≤ r) : ContinuesAbove q kind := by
  rcases h with ⟨p, operator, hmem, hlt⟩ | ⟨hkind, hlt⟩
  · exact Or.inl ⟨p, operator, hmem, by omega⟩
  · exact Or.inr ⟨hkind, by omega⟩

/-- The parser goes on behind an operand exactly where the grammar does. -/
theorem continuesAbove_iff {kind : TokenKind} {power : BindingPower} :
    ContinuesAbove power.level kind ↔ ∃ tailPower rule,
      Grammar.standardTail kind = some (tailPower, rule) ∧ tailPower.tighter power = true := by
  constructor
  · intro h
    rcases h with ⟨q, operator, hmem, hlt⟩ | ⟨rfl | rfl, hlt⟩
    · obtain ⟨tailPower, htail, rfl, -⟩ := standardTail_of_mem hmem
      exact ⟨tailPower, .binary, htail, by simpa [BindingPower.tighter] using hlt⟩
    · exact ⟨.member, .member, rfl, decide_eq_true hlt⟩
    · exact ⟨.member, .index, rfl, decide_eq_true hlt⟩
  · intro h
    obtain ⟨tailPower, rule, htail, htighter⟩ := h
    have hlt : power.level < tailPower.level := by simpa [BindingPower.tighter] using htighter
    rcases standardTail_cases htail with ⟨-, operator, hmem⟩ | ⟨-, rfl, rfl⟩ | ⟨-, rfl, rfl⟩
    · exact Or.inl ⟨_, operator, hmem, hlt⟩
    · exact Or.inr ⟨Or.inl rfl, hlt⟩
    · exact Or.inr ⟨Or.inr rfl, hlt⟩

/-- An operator does not go on with an expression of its own level. -/
theorem not_continuesAbove_of_mem {kind : TokenKind} {q : Nat} {operator : BinaryOperator}
    (h : (kind, q, operator) ∈ infixOperators) : ¬ ContinuesAbove q kind := by
  obtain ⟨power, htail, rfl, -⟩ := standardTail_of_mem h
  intro hcontinues
  obtain ⟨tailPower, rule, hrule, htighter⟩ := continuesAbove_iff.1 hcontinues
  rw [htail] at hrule
  cases hrule
  simp [BindingPower.tighter] at htighter

/-- Nothing goes on behind a member access as the right side of another one. -/
theorem not_continuesAbove_member {kind : TokenKind} :
    ¬ ContinuesAbove BindingPower.member.level kind := by
  intro h
  obtain ⟨tailPower, rule, -, htighter⟩ := continuesAbove_iff.1 h
  cases tailPower <;> cases htighter

/-- What closes a pair of brackets, or separates what is between them, ends every expression. -/
theorem not_continuesAbove_of_closing {kind : TokenKind} {q : Nat}
    (h : kind ∈ [.comma, .closeParen, .closeBracket]) : ¬ ContinuesAbove q kind := by
  intro hcontinues
  have hloosest : ContinuesAbove BindingPower.loosest.level kind :=
    hcontinues.loosen (Nat.zero_le q)
  obtain ⟨_, _, htail, -⟩ := continuesAbove_iff.1 hloosest
  simp only [List.mem_cons, List.not_mem_nil, or_false] at h
  rcases h with rfl | rfl | rfl <;> cases htail

/-- The operands of the standard grammar that an operator opens are those of the table. -/
theorem standardOperand_unary_iff {kind : TokenKind} :
    Grammar.standardOperand kind = some .unary ↔ ∃ operator, (kind, operator) ∈ prefixOperators := by
  cases kind <;> simp [Grammar.standardOperand, prefixOperators]

/-- Only an identifier opens a name or a call. -/
theorem standardOperand_name_iff {kind : TokenKind} :
    Grammar.standardOperand kind = some .name ↔ kind = .identifier := by
  cases kind <;> simp [Grammar.standardOperand]

/-- Only an opening parenthesis opens a grouping. -/
theorem standardOperand_grouping_iff {kind : TokenKind} :
    Grammar.standardOperand kind = some .grouping ↔ kind = .openParen := by
  cases kind <;> simp [Grammar.standardOperand]

/-- The operator that a token in front of an operand stands for is that of the table. -/
theorem mem_prefixOperators_iff {kind : TokenKind} {operator : UnaryOperator} :
    (kind, operator) ∈ prefixOperators ↔ UnaryOperator.ofToken? kind = some operator := by
  cases kind <;> cases operator <;> decide

/-- Every phrase begins with a token that opens an operand. -/
theorem Derives.opens {phrase : Phrase} {w : List Token} {trees : List ExpressionTree}
    (h : Derives phrase w trees) :
    ∃ token rest, w = token :: rest ∧ Grammar.standardOperand token.kind ≠ none := by
  induction h with
  | infixed _ _ _ ih _ | memberPrefixed _ _ _ _ ih _ | member _ _ _ ih _
  | moreArguments _ _ _ ih _ =>
      obtain ⟨token, rest, rfl, hrule⟩ := ih
      exact ⟨token, _, rfl, hrule⟩
  | index _ _ _ _ ih _ =>
      obtain ⟨token, rest, rfl, hrule⟩ := ih
      exact ⟨token, _, rfl, hrule⟩
  | tighter _ _ _ ih | postfixed _ ih | primary _ ih | lastArgument _ ih => exact ih
  | prefixed table _ _ =>
      refine ⟨_, _, rfl, ?_⟩
      rw [standardOperand_unary_iff.2 ⟨_, table⟩]
      nofun
  | literal value => exact ⟨_, _, rfl, by cases value <;> simp_all [Grammar.standardOperand]⟩
  | name kind | emptyCall kind _ _ | call kind _ _ _ _ =>
      refine ⟨_, _, rfl, ?_⟩
      rw [kind]
      nofun
  | grouping opens _ _ _ =>
      refine ⟨_, _, rfl, ?_⟩
      rw [opens]
      nofun

end ProcLang
