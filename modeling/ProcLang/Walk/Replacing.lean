import ProcLang.Walk.Recorder

/-!
# ProcLang.Walk.Replacing

Replacing the expressions of a tree from the leaves up. A rule looks at an expression whose operands
have had their turn, and may give a new expression, which is added to the tree and takes the place
of the old one. The rule is not applied to what it gave.
-/

namespace ProcLang

/-- The expression that takes the place of a given one, if any. -/
abbrev ReplacementRule := ExpressionId → Expression → Option Expression

/-- Applies a rule to every expression, operands first. -/
def replacer (rule : ReplacementRule) : Visitor Unit Unit := fun below v => do
  walk below v
  match v with
  | .expression id =>
      match rule id (← WalkM.node id) with
      | some replacement => some <$> WalkM.add .expression replacement
      | none => return none
  | _ => return none

/-- The tree with a rule applied to the expressions of its program. -/
def Arena.replaceAll (a : Arena) (rule : ReplacementRule) : Except Fault Arena := do
  return (← a.walkProgram (replacer rule) () ()).arena

/-- Puts zero in the place of every name. -/
def zeroRule : ReplacementRule := fun _ e =>
  match e.kind with
  | .identifier _ _ => some (.integer 0 e.span)
  | _ => none

/-- Puts a minus sign in front of every expression without operands. -/
def negateRule : ReplacementRule := fun id e =>
  if e.kind.operands.isEmpty then some (.plain (.unary .minus id) e.span) else none

end ProcLang
