import ProcLang.Binary64
import ProcLang.Position

/-!
# ProcLang.Tree.Node

The nodes of a program's tree. Nodes do not hold one another: they refer to one another by
`NodeId`, a number within one of the seven families of nodes, and live in an arena. An id in a node
is either an owning edge, from a parent to its child, or a link that a later stage fills in: the
variable of an identifier, the routine of a call, the declaration of a named type, the type of an
expression.
-/

namespace ProcLang

/-! ### Families and ids -/

/-- The seven families of nodes. -/
inductive Family where
  | routine
  | variable
  | typeDecl
  | type
  | body
  | statement
  | expression
  deriving DecidableEq, Repr

/-- The number of a node within its family. -/
structure NodeId (family : Family) where
  index : Nat
  deriving DecidableEq, Repr

abbrev RoutineId := NodeId .routine
abbrev VariableId := NodeId .variable
abbrev TypeDeclId := NodeId .typeDecl
abbrev TypeId := NodeId .type
abbrev BodyId := NodeId .body
abbrev StatementId := NodeId .statement
abbrev ExpressionId := NodeId .expression

/-! ### Declarations -/

/-- An entry in the list of declarations of a scope. The kinds of declarations stay interleaved as
they are written, since names of all kinds must differ within one scope. -/
inductive Declaration where
  | routine (id : RoutineId)
  | variable (id : VariableId)
  | type (id : TypeDeclId)
  deriving DecidableEq, Repr

/-- The type that an entry declares, if it declares one. -/
def Declaration.type? : Declaration → Option TypeDeclId
  | type id => some id
  | _ => none

/-- A routine. Its parameters are variables without initializers. -/
structure Routine where
  span : Span
  name : String
  parameters : List VariableId
  returnType : Option TypeId
  body : BodyId
  deriving DecidableEq, Repr

/-- A variable, a parameter, a field of a record or the counter of a loop. -/
structure Variable where
  span : Span
  name : String
  declaredType : Option TypeId
  initializer : Option ExpressionId
  deriving DecidableEq, Repr

/-- A name for a type. -/
structure TypeDecl where
  span : Span
  name : String
  type : TypeId
  deriving DecidableEq, Repr

/-! ### Types -/

/-- The forms of types. -/
inductive TypeKind where
  /-- A type given by its name, with a link to the declaration of the name. -/
  | named (name : String) (target : Option TypeDeclId)
  | integer
  | real
  | boolean
  /-- An array; the length may be missing. -/
  | array (length : Option ExpressionId) (element : TypeId)
  | record (fields : List VariableId)
  deriving DecidableEq, Repr

/-- A type as it is written at one place of the program. -/
structure TypeNode where
  span : Span
  kind : TypeKind
  deriving DecidableEq, Repr

/-- Integers and reals are the numeric types; a name for one of them is not looked through. -/
def TypeKind.isNumeric : TypeKind → Bool
  | integer | real => true
  | _ => false

/-- The type with another expression for its length, if it is an array. -/
def TypeKind.setLength (length : ExpressionId) : TypeKind → TypeKind
  | array _ element => array (some length) element
  | kind => kind

/-- The type with a link to a declaration, if it is a name. -/
def TypeKind.setTarget (target : TypeDeclId) : TypeKind → TypeKind
  | named name _ => named name (some target)
  | kind => kind

/-! ### Bodies and statements -/

/-- A scope: local declarations, and the statements that run one after the other. -/
structure Body where
  span : Span
  declarations : List Declaration
  statements : List StatementId
  deriving DecidableEq, Repr

/-- The forms of statements. -/
inductive StatementKind where
  | assignment (target value : ExpressionId)
  | whileLoop (condition : ExpressionId) (body : BodyId)
  | forLoop (counter : VariableId) (first last : ExpressionId) (reverse : Bool) (body : BodyId)
  | branch (condition : ExpressionId) (thenBody : BodyId) (elseBody : Option BodyId)
  | returning (value : Option ExpressionId)
  /-- A call for its effect: a call, or a bare name until names are resolved. -/
  | call (callee : ExpressionId)
  deriving DecidableEq, Repr

/-- A statement. -/
structure Statement where
  span : Span
  kind : StatementKind
  deriving DecidableEq, Repr

namespace StatementKind

/-- The expressions that a statement owns, in the order in which they are written. -/
def expressions : StatementKind → List ExpressionId
  | assignment target value => [target, value]
  | whileLoop condition _ => [condition]
  | forLoop _ first last _ _ => [first, last]
  | branch condition _ _ => [condition]
  | returning value => value.toList
  | call callee => [callee]

/-- The statement with another expression in the place with the given index in `expressions`. -/
def setExpression (kind : StatementKind) (index : Nat) (e : ExpressionId) : StatementKind :=
  match kind, index with
  | assignment _ value, 0 => assignment e value
  | assignment target _, 1 => assignment target e
  | whileLoop _ body, 0 => whileLoop e body
  | forLoop counter _ last reverse body, 0 => forLoop counter e last reverse body
  | forLoop counter first _ reverse body, 1 => forLoop counter first e reverse body
  | branch _ thenBody elseBody, 0 => branch e thenBody elseBody
  | returning (some _), 0 => returning (some e)
  | call _, 0 => call e
  | _, _ => kind

/-- The bodies that a statement owns, in the order in which they are written. -/
def bodies : StatementKind → List BodyId
  | whileLoop _ body | forLoop _ _ _ _ body => [body]
  | branch _ thenBody elseBody => thenBody :: elseBody.toList
  | assignment _ _ | returning _ | call _ => []

/-- The counter that a loop declares. -/
def counter? : StatementKind → Option VariableId
  | forLoop counter _ _ _ _ => some counter
  | _ => none

/-- Another expression in one place does to the list of expressions what it says. -/
theorem expressions_setExpression (kind : StatementKind) (index : Nat) (e : ExpressionId) :
    (kind.setExpression index e).expressions = kind.expressions.set index e := by
  cases kind with
  | returning value => cases value <;> rcases index with _ | index <;> rfl
  | _ => rcases index with _ | _ | index <;> rfl

end StatementKind

/-! ### Expressions -/

/-- The operators with one operand. -/
inductive UnaryOperator where
  | not
  | plus
  | minus
  deriving DecidableEq, Repr

/-- How an operator is written. -/
def UnaryOperator.text : UnaryOperator → String
  | not => "not"
  | plus => "+"
  | minus => "-"

/-- The operators with two operands, member access and indexing among them. -/
inductive BinaryOperator where
  | or
  | xor
  | and
  | equal
  | notEqual
  | less
  | lessEqual
  | greater
  | greaterEqual
  | add
  | subtract
  | multiply
  | divide
  | modulo
  /-- A record and the name of its field. -/
  | member
  /-- An array and an index. -/
  | index
  deriving DecidableEq, Repr

namespace BinaryOperator

/-- How an operator is written. -/
def text : BinaryOperator → String
  | or => "or"
  | xor => "xor"
  | and => "and"
  | equal => "="
  | notEqual => "/="
  | less => "<"
  | lessEqual => "<="
  | greater => ">"
  | greaterEqual => ">="
  | add => "+"
  | subtract => "-"
  | multiply => "*"
  | divide => "/"
  | modulo => "%"
  | member => "."
  | index => "[]"

/-- The operators that apply to integers and reals alike and give a number. -/
def isArithmetic : BinaryOperator → Bool
  | add | subtract | multiply | divide => true
  | _ => false

/-- The operators that compare by size. -/
def isOrdering : BinaryOperator → Bool
  | less | lessEqual | greater | greaterEqual => true
  | _ => false

/-- The operators on truth values. -/
def isLogical : BinaryOperator → Bool
  | or | xor | and => true
  | _ => false

end BinaryOperator

/-- The forms of expressions. -/
inductive ExpressionKind where
  | unary (operator : UnaryOperator) (operand : ExpressionId)
  | binary (operator : BinaryOperator) (left right : ExpressionId)
  | integer (value : Int)
  | real (value : Binary64)
  | boolean (value : Bool)
  /-- A name, with a link to the variable it stands for. -/
  | identifier (name : String) (target : Option VariableId)
  /-- A call, with a link to the routine. -/
  | call (name : String) (target : Option RoutineId) (arguments : List ExpressionId)
  deriving DecidableEq, Repr

/-- An expression, with what the later stages find out about it: whether its value is known before
the program runs, and its type. -/
structure Expression where
  span : Span
  constant : Bool
  type : Option TypeId
  kind : ExpressionKind
  deriving DecidableEq, Repr

namespace ExpressionKind

/-- The operands that an expression owns, in the order in which they are written. -/
def operands : ExpressionKind → List ExpressionId
  | unary _ operand => [operand]
  | binary _ left right => [left, right]
  | call _ _ arguments => arguments
  | integer _ | real _ | boolean _ | identifier _ _ => []

/-- The expression with another operand in the place with the given index in `operands`. -/
def setOperand (kind : ExpressionKind) (index : Nat) (e : ExpressionId) : ExpressionKind :=
  match kind, index with
  | unary operator _, 0 => unary operator e
  | binary operator _ right, 0 => binary operator e right
  | binary operator left _, 1 => binary operator left e
  | call name target arguments, i => call name target (arguments.set i e)
  | _, _ => kind

/-- The expression with a link to a variable, if it is a name. -/
def setVariable (target : VariableId) : ExpressionKind → ExpressionKind
  | identifier name _ => identifier name (some target)
  | kind => kind

/-- The expression with a link to a routine, if it is a call. -/
def setRoutine (target : RoutineId) : ExpressionKind → ExpressionKind
  | call name _ arguments => call name (some target) arguments
  | kind => kind

/-- Another operand in one place does to the list of operands what it says. -/
theorem operands_setOperand (kind : ExpressionKind) (index : Nat) (e : ExpressionId) :
    (kind.setOperand index e).operands = kind.operands.set index e := by
  rcases index with _ | _ | index <;> cases kind <;> rfl

end ExpressionKind

namespace Expression

/-- An expression about which nothing is known yet. -/
def plain (kind : ExpressionKind) (span : Span) : Expression := ⟨span, false, none, kind⟩

/-- Calls and bare names can stand as statements. -/
def isCallLike (e : Expression) : Bool :=
  match e.kind with
  | .call _ _ _ | .identifier _ _ => true
  | _ => false

end Expression

end ProcLang
