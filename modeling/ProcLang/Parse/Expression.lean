import ProcLang.Grammar.Rule
import ProcLang.Parse.State

/-!
# ProcLang.Parse.Expression

Reading expressions by binding power. An expression is an operand followed by tails; a tail is an
operator with its right operand, a member access or an index. After an operand the tails are taken
as long as they bind tighter than the given power, and each one makes what has been read so far its
left operand. An operator asks for its right operand with its own power, so operators of one power
group to the left.

Parentheses leave no node. The span of an expression reaches from its first to its last operand,
or to the bracket that closes it, and does not count parentheses around operands.
-/

namespace ProcLang

namespace Parser

/-- An expression that has been added to the arena. -/
structure Placed where
  id : ExpressionId
  node : Expression
  deriving DecidableEq, Repr

/-- Adds an expression to the arena. -/
def place (node : Expression) : Parser Placed := do return ⟨← add .expression node, node⟩

/-! ### Operands -/

/-- The digits of a number before and after its point. -/
def splitAtPoint (digits : List Char) : List Char × List Char :=
  (digits.takeWhile (· ≠ '.'), (digits.dropWhile (· ≠ '.')).drop 1)

/-- The expression that a literal stands for. An integer must be below two to the power of 63. -/
def literalNode (token : Token) : Except Cause Expression :=
  let digits := token.text.toList
  match token.kind with
  | .integerLiteral =>
      let value := Binary64.digitsValue digits
      if value < Nat.pow 2 63 then .ok (.integer value token.span)
      else .error (.invalidLiteral token.text)
  | .realLiteral =>
      let (whole, fraction) := splitAtPoint digits
      .ok (.real (.ofDecimal whole fraction) token.span)
  | .kwTrue => .ok (.boolean true token.span)
  | .kwFalse => .ok (.boolean false token.span)
  | _ => .error (.unexpectedToken "literal" token.display)

/-- A number or a truth value. -/
def literal : Parser Placed := do
  let token ← current
  match literalNode token with
  | .error cause => raisePast ⟨cause, token.start⟩
  | .ok node =>
      skip
      place node

section

-- The parser for nested expressions.
variable (expression : BindingPower → Parser Placed)

/-- The arguments of a call up to its closing parenthesis. -/
def arguments : Parser (List Placed) := do
  if (← current).kind = .closeParen then return []
  else commaSeparated (expression .loosest)

/-- A name, or a call if an argument list follows. -/
def nameOrCall : Parser Placed := do
  let name ← advance
  if (← current).kind = .openParen then
    skip
    let arguments ← arguments expression
    discard <| expect .closeParen "`,` or `)`"
    let span ← spanFrom name.start
    place (.plain (.call name.text none (arguments.map (·.id))) span)
  else place (.plain (.identifier name.text none) name.span)

/-- An expression in parentheses. -/
def grouping : Parser Placed := do
  skip
  let inner ← expression .loosest
  discard <| expect .closeParen "`)`"
  return inner

/-- An operator and its only operand. -/
def unary : Parser Placed := do
  let token ← current
  match UnaryOperator.ofToken? token.kind with
  | none => raisePast ⟨.unexpectedToken "unary operator" token.display, token.start⟩
  | some operator =>
      skip
      let operand ← expression .unary
      place (.plain (.unary operator operand.id) ⟨token.start, operand.node.span.stop⟩)

/-- The operand that a rule describes. -/
def operand : OperandRule → Parser Placed
  | .literal => literal
  | .name => nameOrCall expression
  | .grouping => grouping expression
  | .unary => unary expression

/-! ### Tails -/

/-- An operator with its right operand, behind a left operand. -/
def binary (left : Placed) (power : BindingPower) : Parser Placed := do
  let token ← current
  match BinaryOperator.ofToken? token.kind with
  | none => raisePast ⟨.unexpectedToken "operator" token.display, token.start⟩
  | some operator =>
      skip
      let right ← expression power
      place (.plain (.binary operator left.id right.id)
        ⟨left.node.span.start, right.node.span.stop⟩)

/-- A point and a field name, behind a record. The field binds as tightly as the access itself. -/
def member (left : Placed) (power : BindingPower) : Parser Placed := do
  skip
  let field ← expression power
  place (.plain (.binary .member left.id field.id) ⟨left.node.span.start, field.node.span.stop⟩)

/-- An index in brackets, behind an array. -/
def index (left : Placed) : Parser Placed := do
  skip
  let position ← expression .loosest
  discard <| expect .closeBracket "`]`"
  let span ← spanFrom left.node.span.start
  place (.plain (.binary .index left.id position.id) span)

/-- The tail that a rule describes, behind a left operand. -/
def tail (rule : TailRule) (left : Placed) (power : BindingPower) : Parser Placed :=
  match rule with
  | .binary => binary expression left power
  | .member => member expression left power
  | .index => index expression left

/-- An operand, and the tails that bind tighter than a power. -/
def expressionStep (g : Grammar) (power : BindingPower) : Parser Placed := do
  match g.operand (← current).kind with
  | none => refuse "expression"
  | some rule =>
      let first ← operand expression rule
      loop (fun left => do
        match g.tail (← current).kind with
        | none => return .done left
        | some (tailPower, rule) =>
            if tailPower.tighter power then return .more (← tail expression rule left tailPower)
            else return .done left) first

end

/-- An expression whose operators all bind tighter than a power. -/
def expression (g : Grammar) : BindingPower → Parser Placed :=
  recursive (fun nested => expressionStep nested g)

end Parser

end ProcLang
