import ProcLang.Proofs.Tree.Extension

/-!
# ProcLang.Proofs.Expression.Tree

**Expressions as trees of their own**, without ids and spans, and how the nodes of an arena stand
for them. `Stands a t id` says that the node `id` and the nodes below it are the tree `t` as the
parser builds it: nothing is linked yet, and only literals are marked constant and typed.
-/

namespace ProcLang

/-- An expression without ids and spans. -/
inductive ExpressionTree where
  | integer (value : Int)
  | real (value : Binary64)
  | boolean (value : Bool)
  | name (name : String)
  | call (name : String) (arguments : List ExpressionTree)
  | unary (operator : UnaryOperator) (operand : ExpressionTree)
  | binary (operator : BinaryOperator) (left right : ExpressionTree)

mutual

/-- A node of an arena is the root of a tree that has just been built. -/
def Stands (a : Arena) : ExpressionTree → ExpressionId → Prop
  | .integer value, id => ∃ span, a.get? id = some (Expression.integer value span)
  | .real value, id => ∃ span, a.get? id = some (Expression.real value span)
  | .boolean value, id => ∃ span, a.get? id = some (Expression.boolean value span)
  | .name name, id => ∃ span, a.get? id = some (Expression.plain (.identifier name none) span)
  | .call name arguments, id => ∃ span ids,
      a.get? id = some (Expression.plain (.call name none ids) span) ∧ StandAll a arguments ids
  | .unary operator operand, id => ∃ span o,
      a.get? id = some (Expression.plain (.unary operator o) span) ∧ Stands a operand o
  | .binary operator left right, id => ∃ span l r,
      a.get? id = some (Expression.plain (.binary operator l r) span) ∧
        Stands a left l ∧ Stands a right r

/-- Nodes of an arena are the roots of trees, one for each. -/
def StandAll (a : Arena) : List ExpressionTree → List ExpressionId → Prop
  | [], ids => ids = []
  | tree :: trees, ids => ∃ id rest, ids = id :: rest ∧ Stands a tree id ∧ StandAll a trees rest

end

mutual

/-- A tree stays what it is when its arena grows. -/
theorem Stands.extend {a b : Arena} (h : a.ExtendedBy b) :
    ∀ {tree : ExpressionTree} {id : ExpressionId}, Stands a tree id → Stands b tree id
  | .integer _, _, ⟨span, hget⟩ => ⟨span, h _ _ _ hget⟩
  | .real _, _, ⟨span, hget⟩ => ⟨span, h _ _ _ hget⟩
  | .boolean _, _, ⟨span, hget⟩ => ⟨span, h _ _ _ hget⟩
  | .name _, _, ⟨span, hget⟩ => ⟨span, h _ _ _ hget⟩
  | .call _ _, _, ⟨span, ids, hget, hall⟩ => ⟨span, ids, h _ _ _ hget, StandAll.extend h hall⟩
  | .unary _ _, _, ⟨span, o, hget, hoperand⟩ => ⟨span, o, h _ _ _ hget, hoperand.extend h⟩
  | .binary _ _ _, _, ⟨span, l, r, hget, hleft, hright⟩ =>
      ⟨span, l, r, h _ _ _ hget, hleft.extend h, hright.extend h⟩

theorem StandAll.extend {a b : Arena} (h : a.ExtendedBy b) :
    ∀ {trees : List ExpressionTree} {ids : List ExpressionId},
      StandAll a trees ids → StandAll b trees ids
  | [], _, hall => hall
  | _ :: _, _, ⟨id, rest, hids, hroot, hall⟩ =>
      ⟨id, rest, hids, hroot.extend h, StandAll.extend h hall⟩

end

/-- One more tree behind others. -/
theorem StandAll.concat {a : Arena} {trees : List ExpressionTree} {ids : List ExpressionId}
    {tree : ExpressionTree} {id : ExpressionId} (hall : StandAll a trees ids)
    (hroot : Stands a tree id) : StandAll a (trees ++ [tree]) (ids ++ [id]) := by
  induction trees generalizing ids with
  | nil =>
      subst hall
      exact ⟨id, [], rfl, hroot, rfl⟩
  | cons first rest ih =>
      obtain ⟨i, more, rfl, hfirst, hrest⟩ := hall
      exact ⟨i, more ++ [id], rfl, hfirst, ih hrest⟩

end ProcLang
