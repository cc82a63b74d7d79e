import ProcLang.Check.Pass

/-!
# ProcLang.Check.ReturnPaths

A routine with a result has to give it back on every path. A body does so once one of its statements
does; what stands behind that statement is never reached. A conditional statement does so if both of
its branches do. A loop may run no times at all, so it never counts.
-/

namespace ProcLang

namespace Arena

/-- Whether a statement gives back on every path, given which bodies do. -/
def statementReturnsWith (a : Arena) (bodyReturns : BodyId → Except Fault Bool)
    (id : StatementId) : Except Fault Bool := do
  match (← a.get id).kind with
  | .returning _ => return true
  | .branch _ thenBody (some elseBody) =>
      if ← bodyReturns thenBody then bodyReturns elseBody else return false
  | _ => return false

/-- Whether some statement of a list gives back on every path; those behind the first one that
does are not looked at. -/
def anyReturns (returns : StatementId → Except Fault Bool) :
    List StatementId → Except Fault Bool
  | [] => .ok false
  | id :: rest => do if ← returns id then return true else anyReturns returns rest

/-- Whether a body gives back on every path, down to bodies nested `depth` deep. -/
def bodyReturnsWithin (a : Arena) : Nat → BodyId → Except Fault Bool
  | 0, _ => .error .cyclic
  | depth + 1, id => do
      anyReturns (a.statementReturnsWith (a.bodyReturnsWithin depth)) (← a.get id).statements

/-- Whether a body gives back on every path. -/
def bodyReturns (a : Arena) (id : BodyId) : Except Fault Bool :=
  a.bodyReturnsWithin (a.count .body + 1) id

/-- Whether a statement gives back on every path. -/
def statementReturns (a : Arena) (id : StatementId) : Except Fault Bool :=
  a.statementReturnsWith a.bodyReturns id

end Arena

open WalkM

/-- Reports a routine with a result that can end without one. -/
def checkRoutine (id : RoutineId) : WalkM Unit Unit Unit := do
  let routine ← node id
  if routine.returnType.isSome then
    unless ← inspect (·.bodyReturns routine.body) do
      report (.missingReturn routine.name) routine.span.start

/-- The visitor that looks at routines only. -/
def returnVisitor : Visitor Unit Unit := fun below v =>
  match v with
  | .routine id => do checkRoutine id; return none
  | .variable _ | .typeDecl _ => return none
  | _ => walkThrough below v

/-- The check that routines give their results back. -/
def returnPaths : Pass := .ofVisitor .returnPaths returnVisitor () ()

end ProcLang
