import ProcLang.Position
import ProcLang.Text.Quoted

/-!
# ProcLang.Diagnostic

What can be wrong with a program. A `Cause` says what went wrong, a `Diagnostic` adds the place.
Each cause has a name, a message, and some have a tip on how to mend the program. Two causes are
internal: no source text gives rise to them, and they show a misuse of the interfaces.
-/

namespace ProcLang

/-- What went wrong. Texts and names are those of the program. -/
inductive Cause where
  /-- A character that begins no token. -/
  | illegalToken (text : String)
  /-- A token that cannot stand where it does. -/
  | unexpectedToken (expected found : String)
  /-- The text ends inside a body. -/
  | unterminatedBody
  /-- An expression that is not a call stands as a statement. -/
  | invalidStatement
  /-- A number that has no value. -/
  | invalidLiteral (literal : String)
  /-- A name is declared a second time in its scope. -/
  | redeclaration (name : String) (previousLine : Nat)
  /-- A name that no visible variable and no routine has. -/
  | undeclaredName (name : String)
  /-- A type name that no visible type has. -/
  | undeclaredType (name : String)
  /-- A call of a name that no routine has. -/
  | undeclaredRoutine (name : String)
  /-- A type that is defined by itself. -/
  | cyclicType (name : String)
  /-- Something other than a name stands after the point of a member access. -/
  | memberNotIdentifier
  /-- A call with too few or too many arguments. -/
  | invalidArgumentCount (expected received : Nat)
  /-- An argument of a type that its parameter does not have; arguments count from one. -/
  | invalidArgumentType (index : Nat) (expected received : String)
  /-- An array type without a length where it needs one. -/
  | arraySizeOmitted
  /-- The length of an array is not known before the program runs. -/
  | nonConstantArrayLength
  /-- A routine with a result can end without one. -/
  | missingReturn (routine : String)
  /-- A record has no field of this name. -/
  | unknownField (field : String)
  /-- Member access on something else than a record. -/
  | notARecord
  /-- Indexing of something else than an array. -/
  | notAnArray
  /-- An operator does not apply to operands of these types. -/
  | invalidOperands (operator : String)
  /-- Reading on after the end of the text. -/
  | alreadyAtEnd
  /-- A call without a link to its routine. -/
  | danglingReference (name : String)
  deriving DecidableEq, Repr

namespace Cause

/-- The name of the kind of a cause. -/
def name : Cause → String
  | illegalToken _ => "IllegalToken"
  | unexpectedToken _ _ => "UnexpectedToken"
  | unterminatedBody => "UnterminatedBody"
  | invalidStatement => "InvalidStatement"
  | invalidLiteral _ => "InvalidLiteral"
  | redeclaration _ _ => "Redeclaration"
  | undeclaredName _ => "UndeclaredName"
  | undeclaredType _ => "UndeclaredType"
  | undeclaredRoutine _ => "UndeclaredRoutine"
  | cyclicType _ => "CyclicType"
  | memberNotIdentifier => "MemberNotIdentifier"
  | invalidArgumentCount _ _ => "InvalidArgumentCount"
  | invalidArgumentType _ _ _ => "InvalidArgumentType"
  | arraySizeOmitted => "ArraySizeOmitted"
  | nonConstantArrayLength => "NonConstantArrayLength"
  | missingReturn _ => "MissingReturn"
  | unknownField _ => "UnknownField"
  | notARecord => "NotARecord"
  | notAnArray => "NotAnArray"
  | invalidOperands _ => "InvalidOperands"
  | alreadyAtEnd => "AlreadyAtEnd"
  | danglingReference _ => "DanglingReference"

/-- What a reader is told. Names of the program are quoted; descriptions of what was expected are
not. -/
def message : Cause → String
  | illegalToken text => "illegal token " ++ Text.quote text
  | unexpectedToken expected found => "expected " ++ expected ++ ", found " ++ Text.quote found
  | unterminatedBody => "body is not terminated before end of file"
  | invalidStatement => "expression cannot be used as a statement"
  | invalidLiteral literal => "invalid numeric literal " ++ Text.quote literal
  | redeclaration name line =>
      Text.quote name ++ " is already declared on line " ++ toString line
  | undeclaredName name => "undeclared name " ++ Text.quote name
  | undeclaredType name => "undeclared type " ++ Text.quote name
  | undeclaredRoutine name => "undeclared routine " ++ Text.quote name
  | cyclicType name => "type alias " ++ Text.quote name ++ " is cyclic"
  | memberNotIdentifier => "member access requires a field name"
  | invalidArgumentCount expected received =>
      "invalid argument count: expected " ++ toString expected ++ ", received " ++
        toString received
  | invalidArgumentType index expected received =>
      "invalid argument type for argument " ++ toString index ++ ": expected " ++ expected ++
        ", received " ++ received
  | arraySizeOmitted => "array size omitted"
  | nonConstantArrayLength => "array length must be a constant"
  | missingReturn routine =>
      "routine " ++ Text.quote routine ++ " does not return a value on every path"
  | unknownField field => "record has no field " ++ Text.quote field
  | notARecord => "member access on a value that is not a record"
  | notAnArray => "indexing a value that is not an array"
  | invalidOperands operator => "invalid operand types for " ++ Text.quote operator
  | alreadyAtEnd => "tokenizer is already at end of input"
  | danglingReference name =>
      "call to " ++ Text.quote name ++ " refers to a routine that does not exist"

/-- How to mend the program, for the causes that suggest it. -/
def tip : Cause → Option String
  | unexpectedToken _ _ => some "did you miss a line break or a semicolon?"
  | unterminatedBody => some "every body must be closed with `end`"
  | invalidStatement => some "only assignments and routine calls can be used as statements"
  | redeclaration name line =>
      some ("`" ++ name ++ "` was first declared on line " ++ toString line)
  | arraySizeOmitted => some "arrays may only be unsized when used as a routine parameter type"
  | nonConstantArrayLength => some "use literals and operators only, not variables or calls"
  | missingReturn _ =>
      some "loops may run zero times and an `if` needs an `else` branch that also returns"
  | cyclicType _ => some "a type alias cannot refer back to itself"
  | _ => none

/-- Whether the cause is a misuse of the interfaces and not a fault of the program. -/
def isInternal : Cause → Bool
  | alreadyAtEnd | danglingReference _ => true
  | _ => false

end Cause

/-- What went wrong, and where. -/
structure Diagnostic where
  cause : Cause
  position : Position
  deriving DecidableEq, Repr

namespace Diagnostic

/-- The name of the kind of a diagnostic. -/
def name (d : Diagnostic) : String := d.cause.name

/-- What a reader is told, without the place. -/
def message (d : Diagnostic) : String := d.cause.message

/-- The place and the message. -/
def text (d : Diagnostic) : String := d.position.text ++ ": " ++ d.message

/-- Whether the diagnostic shows a misuse of the interfaces. -/
def isInternal (d : Diagnostic) : Bool := d.cause.isInternal

end Diagnostic

end ProcLang
