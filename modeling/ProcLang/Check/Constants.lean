import ProcLang.Check.Pass

/-!
# ProcLang.Check.Constants

Which expressions are constant: literals are, operators are if all their operands are, names and
calls are not. The marks are set from the leaves up, whatever they were before. The length of an
array has to be constant.
-/

namespace ProcLang

/-- Whether an expression is constant, given the marks of its operands. -/
def Arena.isConstant (a : Arena) (id : ExpressionId) : Except Fault Bool := do
  match (← a.get id).kind with
  | .integer _ | .real _ | .boolean _ => return true
  | .identifier _ _ | .call _ _ _ => return false
  | .unary _ operand => return (← a.get operand).constant
  | .binary _ left right =>
      if (← a.get left).constant then return (← a.get right).constant else return false

open WalkM

/-- Marks an expression if it is constant. -/
def markConstant {κ σ : Type} (id : ExpressionId) : WalkM κ σ Unit := do
  let constant ← inspect (·.isConstant id)
  update id fun e => { e with constant }

/-- Reports the length of an array type if it is not constant. -/
def checkLength {κ σ : Type} (id : TypeId) : WalkM κ σ Unit := do
  match (← node id).kind with
  | .array (some length) _ =>
      let e ← node length
      unless e.constant do report .nonConstantArrayLength e.span.start
  | _ => return ()

/-- The visitor that marks constants. -/
def constantVisitor : Visitor Unit Unit := fun below v =>
  match v with
  | .expression id => do
      walkExpression below id
      markConstant id
      return none
  | .type id => do
      walkType below id
      checkLength id
      return none
  | _ => walkThrough below v

/-- The stage that marks constants. -/
def constants : Pass := .ofVisitor .constants constantVisitor () ()

end ProcLang
