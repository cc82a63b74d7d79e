import ProcLang.Token
import ProcLang.Tree.Node

/-!
# ProcLang.Grammar.Rule

The rules a grammar is put together from. A `Grammar` says for each kind of token which rule reads
a construct that the token opens: an operand, the rest of an expression after its left operand, a
type or a statement. Rules for the rest of an expression come with a binding power: the rest is
taken only while it binds tighter than what stands to the left of the operand.

A grammar is data, so that rules can be added to it one at a time.
-/

namespace ProcLang

/-- How tightly an operator holds its operands, the loosest first. -/
inductive BindingPower where
  | loosest
  | disjunction
  | conjunction
  | equality
  | relational
  | additive
  | multiplicative
  | unary
  | member
  deriving DecidableEq, Repr

namespace BindingPower

/-- The number of binding powers that are looser. -/
def level : BindingPower → Nat
  | loosest => 0
  | disjunction => 1
  | conjunction => 2
  | equality => 3
  | relational => 4
  | additive => 5
  | multiplicative => 6
  | unary => 7
  | member => 8

/-- Whether the first binding power holds tighter than the second. -/
def tighter (a b : BindingPower) : Bool := b.level < a.level

end BindingPower

/-- The rules for an operand. -/
inductive OperandRule where
  /-- A number or a truth value. -/
  | literal
  /-- A name, or a call if arguments follow. -/
  | name
  /-- An expression in parentheses. -/
  | grouping
  /-- An operator in front of its operand. -/
  | unary
  deriving DecidableEq, Repr

/-- The rules for what follows a left operand. -/
inductive TailRule where
  /-- An operator and its right operand. -/
  | binary
  /-- A point and the name of a field. -/
  | member
  /-- An index in brackets. -/
  | index
  deriving DecidableEq, Repr

/-- The rules for a type. -/
inductive TypeRule where
  | primitive
  | named
  | array
  | record
  deriving DecidableEq, Repr

/-- The rules for a statement that a reserved word opens. -/
inductive StatementRule where
  | whileLoop
  | forLoop
  | branch
  | returning
  deriving DecidableEq, Repr

/-- The rule for each kind of token, where it has one. -/
structure Grammar where
  statement : TokenKind → Option StatementRule
  operand : TokenKind → Option OperandRule
  tail : TokenKind → Option (BindingPower × TailRule)
  type : TokenKind → Option TypeRule

namespace Grammar

/-- The grammar without rules. -/
def bare : Grammar := ⟨fun _ => none, fun _ => none, fun _ => none, fun _ => none⟩

/-- The grammar with another rule for the statements that a kind of token opens. -/
def setStatement (g : Grammar) (kind : TokenKind) (rule : StatementRule) : Grammar :=
  { g with statement := fun k => if k = kind then some rule else g.statement k }

/-- The grammar with another rule for the operands that a kind of token opens. -/
def setOperand (g : Grammar) (kind : TokenKind) (rule : OperandRule) : Grammar :=
  { g with operand := fun k => if k = kind then some rule else g.operand k }

/-- The grammar with another rule and binding power for a kind of token after a left operand. -/
def setTail (g : Grammar) (kind : TokenKind) (power : BindingPower) (rule : TailRule) : Grammar :=
  { g with tail := fun k => if k = kind then some (power, rule) else g.tail k }

/-- The grammar with another rule for the types that a kind of token opens. -/
def setType (g : Grammar) (kind : TokenKind) (rule : TypeRule) : Grammar :=
  { g with type := fun k => if k = kind then some rule else g.type k }

end Grammar

/-! ### Operators -/

/-- The operator with two operands that a kind of token stands for. -/
def BinaryOperator.ofToken? : TokenKind → Option BinaryOperator
  | .kwOr => some .or
  | .kwXor => some .xor
  | .kwAnd => some .and
  | .equal => some .equal
  | .notEqual => some .notEqual
  | .less => some .less
  | .lessEqual => some .lessEqual
  | .greater => some .greater
  | .greaterEqual => some .greaterEqual
  | .plus => some .add
  | .minus => some .subtract
  | .star => some .multiply
  | .slash => some .divide
  | .percent => some .modulo
  | .dot => some .member
  | .openBracket => some .index
  | _ => none

/-- The operator with one operand that a kind of token stands for. -/
def UnaryOperator.ofToken? : TokenKind → Option UnaryOperator
  | .kwNot => some .not
  | .plus => some .plus
  | .minus => some .minus
  | _ => none

end ProcLang
