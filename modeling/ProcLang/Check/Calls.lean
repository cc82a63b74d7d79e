import ProcLang.Check.Typing

/-!
# ProcLang.Check.Calls

Calls agree with the routines they are linked to: in the number of arguments, and in the type of
each argument as far as types are known at that point. An argument is typed before it is compared,
and so are the initial values of variables, from which variables without a declared type get
theirs. A call gets the result type of its routine.
-/

namespace ProcLang

open WalkM

/-- A part of the check of calls. -/
abbrev CallsM (σ : Type) := WalkM Unit σ

/-- What is done with an argument and its parameter. Arguments count from one. -/
abbrev ArgumentCheck (σ : Type) := ExpressionId → VariableId → Nat → CallsM σ Unit

variable {σ : Type}

/-- Compares an argument with its parameter if both have types. -/
def checkArgument : ArgumentCheck σ := fun argument parameter number => do
  typeQuietly argument
  match (← node argument).type, (← node parameter).declaredType with
  | some received, some expected =>
      unless ← inspect (·.sameType received expected) do
        let expectedName ← inspect (·.typeName expected)
        let receivedName ← inspect (·.typeName received)
        report (.invalidArgumentType number expectedName receivedName)
          (← node argument).span.start
  | _, _ => return ()

section

variable (check : ArgumentCheck σ)

/-- Checks the arguments of a call against the parameters of its routine. -/
def checkArguments (arguments : List ExpressionId) (parameters : List VariableId)
    (start : Position) : CallsM σ Unit := do
  if parameters.length = arguments.length then
    (arguments.zip parameters).zipIdx.forM fun ((argument, parameter), index) =>
      check argument parameter (index + 1)
  else report (.invalidArgumentCount parameters.length arguments.length) start

/-- Checks an expression if it is a call. -/
def checkCall (id : ExpressionId) : CallsM σ Unit := do
  let e ← node id
  match e.kind with
  | .call name none _ => report (.danglingReference name) e.span.start
  | .call _ (some target) arguments =>
      let routine ← node target
      checkArguments check arguments routine.parameters e.span.start
      update id fun e => { e with type := routine.returnType }
  | _ => return ()

/-- The visitor that checks calls, and each of their arguments as `check` says. -/
def callVisitor : Visitor Unit σ := fun below v =>
  match v with
  | .variable id => do
      walkVariable below id
      match (← node id).initializer with
      | some e => typeQuietly e
      | none => pure ()
      return none
  | .expression id => do
      walkExpression below id
      checkCall check id
      return none
  | _ => walkThrough below v

end

/-- The check of calls. -/
def callValidation : Pass :=
  .ofVisitor .callValidation (callVisitor checkArgument : Visitor Unit Unit) () ()

end ProcLang
