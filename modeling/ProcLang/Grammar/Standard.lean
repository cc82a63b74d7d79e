import ProcLang.Grammar.Rule

/-!
# ProcLang.Grammar.Standard

The grammar of the language. From the loosest to the tightest: `or` and `xor`; `and`; `=` and `/=`;
the comparisons by size; `+` and `-`; `*`, `/` and `%`; the operators with one operand; member
access and indexing. All operators with two operands group to the left.
-/

namespace ProcLang

namespace Grammar

/-- The rule for what a token after a left operand begins. -/
def standardTail : TokenKind → Option (BindingPower × TailRule)
  | .kwOr | .kwXor => some (.disjunction, .binary)
  | .kwAnd => some (.conjunction, .binary)
  | .equal | .notEqual => some (.equality, .binary)
  | .less | .lessEqual | .greater | .greaterEqual => some (.relational, .binary)
  | .plus | .minus => some (.additive, .binary)
  | .star | .slash | .percent => some (.multiplicative, .binary)
  | .dot => some (.member, .member)
  | .openBracket => some (.member, .index)
  | _ => none

/-- The rule for the operand that a token opens. -/
def standardOperand : TokenKind → Option OperandRule
  | .integerLiteral | .realLiteral | .kwTrue | .kwFalse => some .literal
  | .identifier => some .name
  | .openParen => some .grouping
  | .kwNot | .plus | .minus => some .unary
  | _ => none

/-- The rule for the type that a token opens. -/
def standardType : TokenKind → Option TypeRule
  | .kwInteger | .kwReal | .kwBoolean => some .primitive
  | .kwArray => some .array
  | .kwRecord => some .record
  | .identifier => some .named
  | _ => none

/-- The rule for the statement that a token opens. Assignments and calls begin with an expression
and have no rule of their own. -/
def standardStatement : TokenKind → Option StatementRule
  | .kwWhile => some .whileLoop
  | .kwFor => some .forLoop
  | .kwIf => some .branch
  | .kwReturn => some .returning
  | _ => none

/-- The grammar of the language. -/
def standard : Grammar := ⟨standardStatement, standardOperand, standardTail, standardType⟩

end Grammar

end ProcLang
