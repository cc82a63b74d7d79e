import ProcLang.Check.Pass

/-!
# ProcLang.Check.ArrayLengths

Every array type has to state its length, except the type of a parameter: a routine may take arrays
of any length. The exception is for the type of the parameter itself and not for the types inside
of it.
-/

namespace ProcLang

open WalkM

/-- The visitor that reports missing lengths. The context says whether the next type may go
without. -/
def lengthVisitor : Visitor Bool Unit := fun below v =>
  match v with
  | .routine id => do
      let routine ← node id
      inContext true (visitEach below .variable routine.parameters)
      visitOptional below .type routine.returnType
      visitOnly below (.body routine.body)
      return none
  | .type id => do
      let type ← node id
      match type.kind with
      | .array none _ => unless ← read do report .arraySizeOmitted type.span.start
      | _ => pure ()
      inContext false (walkType below id)
      return none
  | _ => walkThrough below v

/-- The check that arrays have lengths. -/
def arrayLengths : Pass := .ofVisitor .arrayLengths lengthVisitor false ()

end ProcLang
