import ProcLang.Check.Pass
import ProcLang.Tree.TypeView

/-!
# ProcLang.Check.Typing

Types of expressions. `deriveType` is the rule for one expression, given the types of its operands;
the visitor applies it from the leaves up and stores what it finds.

An operand whose type is not known is never a reason to complain. What is built over it has no type
either, unless its operator always gives a truth value. Types are seen through their names; the type
that is stored may be a name.

The name behind the point of a member access is bound to the field of the record when the access is
typed, since only then the record is known.
-/

namespace ProcLang

/-- What typing an expression finds: its type, if known, and the field that the name in a member
access stands for. -/
structure Derivation where
  type : Option TypeId
  field : Option (ExpressionId × VariableId)
  deriving DecidableEq, Repr

/-- A type without a field. -/
def Derivation.plain (type : Option TypeId) : Derivation := ⟨type, none⟩

/-- A finding about a tree: a value, or the cause of a diagnostic. -/
abbrev Judgement := ExceptT Cause (Except Fault)

/-! ### Operators -/

namespace TypeKind

/-- The type of integers. -/
def isInteger : TypeKind → Bool
  | integer => true
  | _ => false

/-- The type of truth values. -/
def isBoolean : TypeKind → Bool
  | boolean => true
  | _ => false

end TypeKind

/-- Whether an operator applies to an operand of a kind. -/
def UnaryOperator.applies (operator : UnaryOperator) (operand : TypeKind) : Bool :=
  match operator with
  | .not => operand.isBoolean
  | .plus | .minus => operand.isNumeric

/-- The type of a sum, difference, product or quotient: an integer if both operands are, otherwise
a real. -/
def arithmeticType (left right : TypeKind) : Option TypeId :=
  if left.isInteger && right.isInteger then some Arena.integer
  else if left.isNumeric && right.isNumeric then some Arena.real
  else none

namespace BinaryOperator

/-- The type of an operation when the kind of an operand is not known: that of a truth value for
the operators that always give one. -/
def typeOverUnknown (operator : BinaryOperator) : Option TypeId :=
  match operator with
  | .add | .subtract | .multiply | .divide | .modulo => none
  | _ => some Arena.boolean

end BinaryOperator

/-! ### One expression -/

namespace Arena

/-- The form of a type seen through its names, if there is a type and it is known. -/
def kindOf (a : Arena) : Option TypeId → Except Fault (Option TypeKind)
  | none => .ok none
  | some id => do
      match ← a.resolveType id with
      | some resolved => return some (← a.get resolved).kind
      | none => return none

/-- The form of the type of an expression. -/
def expressionKindOf (a : Arena) (id : ExpressionId) : Except Fault (Option TypeKind) := do
  a.kindOf (← a.get id).type

/-- Two types that may be missing are the same if both are there and are the same. -/
def sameTypes (a : Arena) : Option TypeId → Option TypeId → Except Fault Bool
  | some left, some right => a.sameType left right
  | _, _ => .ok false

/-- The type of an operator with one operand. -/
def deriveUnary (a : Arena) (operator : UnaryOperator) (operand : ExpressionId) :
    Judgement Derivation := do
  let operandType := (← a.get operand).type
  match ← a.kindOf operandType with
  | some kind => unless operator.applies kind do throw (.invalidOperands operator.text)
  | none => pure ()
  match operator with
  | .not => return .plain (some boolean)
  | .plus | .minus => return .plain operandType

/-- The type of an operator with two operands of known forms. Equality compares numbers, and other
values of one type. -/
def deriveKnown (a : Arena) (operator : BinaryOperator) (left right : TypeKind)
    (leftType rightType : Option TypeId) : Judgement TypeId := do
  let invalid : Cause := .invalidOperands operator.text
  let truthIf (valid : Bool) : Judgement TypeId := if valid then pure boolean else throw invalid
  match operator with
  | .add | .subtract | .multiply | .divide =>
      match arithmeticType left right with
      | some type => return type
      | none => throw invalid
  | .modulo => if left.isInteger && right.isInteger then return integer else throw invalid
  | .equal | .notEqual =>
      if left.isNumeric && right.isNumeric then return boolean
      else truthIf (← a.sameTypes leftType rightType)
  | .less | .lessEqual | .greater | .greaterEqual => truthIf (left.isNumeric && right.isNumeric)
  | .or | .xor | .and | .member | .index => truthIf (left.isBoolean && right.isBoolean)

/-- The type of an operator with two operands. -/
def deriveBinary (a : Arena) (operator : BinaryOperator) (left right : ExpressionId) :
    Judgement Derivation := do
  let leftType := (← a.get left).type
  let rightType := (← a.get right).type
  match ← a.kindOf leftType, ← a.kindOf rightType with
  | some l, some r => return .plain (some (← a.deriveKnown operator l r leftType rightType))
  | _, _ => return .plain operator.typeOverUnknown

/-- The type of an element of an array. -/
def deriveIndex (a : Arena) (array position : ExpressionId) : Judgement Derivation := do
  match ← a.expressionKindOf position with
  | some kind => unless kind.isInteger do throw (.invalidOperands BinaryOperator.index.text)
  | none => pure ()
  match ← a.expressionKindOf array with
  | none => return .plain none
  | some (.array _ element) => return .plain (some element)
  | some _ => throw .notAnArray

/-- The first of some fields that has a name. -/
def findField (a : Arena) (name : String) : List VariableId → Except Fault (Option VariableId)
  | [] => .ok none
  | field :: rest => do
      if (← a.get field).name = name then return some field else a.findField name rest

/-- The type of a field of a record, and the field. -/
def deriveMember (a : Arena) (record field : ExpressionId) : Judgement Derivation := do
  match (← a.get field).kind with
  | .identifier name _ =>
      match ← a.expressionKindOf record with
      | none => return .plain none
      | some (.record fields) =>
          match ← a.findField name fields with
          | none => throw (.unknownField name)
          | some declaration => return ⟨← a.variableType declaration, some (field, declaration)⟩
      | some _ => throw .notARecord
  | _ => return .plain none

/-- The type of an expression, from the types that are stored on its operands. -/
def deriveType (a : Arena) (id : ExpressionId) : Judgement Derivation := do
  let e ← a.get id
  match e.kind with
  | .integer _ => return .plain (some integer)
  | .real _ => return .plain (some real)
  | .boolean _ => return .plain (some boolean)
  | .identifier _ (some target) => return .plain (← a.variableType target)
  | .identifier _ none => return .plain e.type
  | .call _ (some routine) _ => return .plain (← a.get routine).returnType
  | .call _ none _ => return .plain none
  | .unary operator operand => a.deriveUnary operator operand
  | .binary .member left right => a.deriveMember left right
  | .binary .index left right => a.deriveIndex left right
  | .binary operator left right => a.deriveBinary operator left right

/-- The tree with the name in a member access bound to its field, and given the type of the
access. -/
def bindField (a : Arena) (d : Derivation) : Except Fault Arena :=
  match d.field with
  | none => .ok a
  | some (field, declaration) =>
      a.modify field fun e => { e with kind := e.kind.setVariable declaration, type := d.type }

/-- The type of an expression or what is wrong with it, and the tree with the field bound that its
typing needs. The type is not stored. -/
def settleType (a : Arena) (id : ExpressionId) :
    Except Fault (Except Cause (Option TypeId) × Arena) := do
  match ← (a.deriveType id).run with
  | .error cause => return (.error cause, a)
  | .ok derivation => return (.ok derivation.type, ← a.bindField derivation)

end Arena

/-! ### The walk -/

open WalkM

/-- Stores the type of an expression. What is wrong is reported if `reporting`. -/
def typeExpression {κ σ : Type} (reporting : Bool) (id : ExpressionId) : WalkM κ σ Unit := do
  let (outcome, settled) ← inspect (·.settleType id)
  modify fun s => { s with arena := settled }
  match outcome with
  | .ok (some type) => update id fun e => { e with type := some type }
  | .ok none => return ()
  | .error cause => if reporting then report cause (← node id).span.start

/-- The visitor that types expressions. -/
def typingVisitor {κ σ : Type} (reporting : Bool) : Visitor κ σ := fun below v =>
  match v with
  | .expression id => do
      walkExpression below id
      typeExpression reporting id
      return none
  | _ => walkThrough below v

/-- Types an expression and its operands without reporting anything. -/
def typeQuietly {κ σ : Type} (id : ExpressionId) : WalkM κ σ Unit :=
  discard (visit (typingVisitor false) (.expression id))

/-- The stage that types expressions. -/
def typing : Pass := .ofVisitor .typing (typingVisitor true : Visitor Unit Unit) () ()

/-- Typing without its diagnostics. -/
def quietTyping : Pass := .ofVisitor .typing (typingVisitor false : Visitor Unit Unit) () ()

end ProcLang
