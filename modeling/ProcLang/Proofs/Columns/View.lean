import ProcLang.Check.Aliases
import ProcLang.Check.Constants
import ProcLang.Check.ReturnPaths
import ProcLang.Check.Typing
import ProcLang.Proofs.Columns.Tree

/-!
# ProcLang.Proofs.Columns.View

**What is read of a tree does not depend on columns.** Each function that looks at a tree gives on
`a.mapColumns f` what it gives on `a`; where it gives places, it gives them with the other columns.
-/

namespace ProcLang

namespace Arena

variable (f : Nat → Nat) (a : Arena)

theorem declarationName_mapColumns (d : Declaration) :
    (a.mapColumns f).declarationName d =
      (fun p => (p.1, p.2.mapColumns f)) <$> a.declarationName d := by
  cases d <;> simp [declarationName]

/-! ### Types -/

@[simp] theorem resolveWithin_mapColumns (hops : Nat) (id : TypeId) :
    (a.mapColumns f).resolveWithin hops id = a.resolveWithin hops id := by
  induction hops generalizing id with
  | zero => rfl
  | succ hops ih => simp [resolveWithin, ih]

@[simp] theorem resolveType_mapColumns (id : TypeId) :
    (a.mapColumns f).resolveType id = a.resolveType id := by
  simp [resolveType]

@[simp] theorem sameWithin_mapColumns (layers : Nat) (left right : TypeId) :
    (a.mapColumns f).sameWithin layers left right = a.sameWithin layers left right := by
  induction layers generalizing left right with
  | zero => rfl
  | succ layers ih => simp [sameWithin, ih]

@[simp] theorem sameType_mapColumns (left right : TypeId) :
    (a.mapColumns f).sameType left right = a.sameType left right := by
  simp [sameType]

@[simp] theorem typeNameWithin_mapColumns (layers : Nat) (id : TypeId) :
    (a.mapColumns f).typeNameWithin layers id = a.typeNameWithin layers id := by
  induction layers generalizing id with
  | zero => rfl
  | succ layers ih => simp [typeNameWithin, ih]

@[simp] theorem typeName_mapColumns (id : TypeId) :
    (a.mapColumns f).typeName id = a.typeName id := by
  simp [typeName]

@[simp] theorem variableType_mapColumns (id : VariableId) :
    (a.mapColumns f).variableType id = a.variableType id := by
  simp [variableType]

@[simp] theorem namedWithin_mapColumns (layers : Nat) (id : TypeId) :
    (a.mapColumns f).namedWithin layers id = a.namedWithin layers id := by
  induction layers generalizing id with
  | zero => rfl
  | succ layers ih => simp [namedWithin, ih]

@[simp] theorem leadsTo_mapColumns (id : TypeDeclId) :
    (a.mapColumns f).leadsTo id = a.leadsTo id := by
  simp [leadsTo]

@[simp] theorem circleWithin_mapColumns (start : TypeDeclId) (hops : Nat) (path : List TypeDeclId)
    (current : TypeDeclId) :
    (a.mapColumns f).circleWithin start hops path current = a.circleWithin start hops path current := by
  induction hops generalizing path current with
  | zero => rfl
  | succ hops ih => simp [circleWithin, ih]

@[simp] theorem cyclicFrom_mapColumns (seen declarations : List TypeDeclId) :
    (a.mapColumns f).cyclicFrom seen declarations = a.cyclicFrom seen declarations := by
  induction declarations generalizing seen with
  | nil => rfl
  | cons id rest ih => simp [cyclicFrom, circle, ih]

@[simp] theorem cyclicAmong_mapColumns (declarations : List TypeDeclId) :
    (a.mapColumns f).cyclicAmong declarations = a.cyclicAmong declarations := by
  simp [cyclicAmong]

/-! ### Constants and returns -/

@[simp] theorem isConstant_mapColumns (id : ExpressionId) :
    (a.mapColumns f).isConstant id = a.isConstant id := by
  simp only [isConstant, get_mapColumns, bind_map_left, Node.mapColumns_expression]
  rfl

@[simp] theorem statementReturnsWith_mapColumns (bodyReturns : BodyId → Except Fault Bool) :
    (a.mapColumns f).statementReturnsWith bodyReturns = a.statementReturnsWith bodyReturns := by
  funext id
  simp [statementReturnsWith]

@[simp] theorem bodyReturnsWithin_mapColumns (depth : Nat) :
    (a.mapColumns f).bodyReturnsWithin depth = a.bodyReturnsWithin depth := by
  induction depth with
  | zero => rfl
  | succ depth ih =>
      funext id
      simp [bodyReturnsWithin, ih]

@[simp] theorem bodyReturns_mapColumns (id : BodyId) :
    (a.mapColumns f).bodyReturns id = a.bodyReturns id := by
  simp [bodyReturns]

/-! ### Typing -/

@[simp] theorem kindOf_mapColumns (type : Option TypeId) :
    (a.mapColumns f).kindOf type = a.kindOf type := by
  cases type with
  | none => rfl
  | some id => simp [kindOf]

@[simp] theorem expressionKindOf_mapColumns (id : ExpressionId) :
    (a.mapColumns f).expressionKindOf id = a.expressionKindOf id := by
  simp [expressionKindOf]

@[simp] theorem sameTypes_mapColumns (left right : Option TypeId) :
    (a.mapColumns f).sameTypes left right = a.sameTypes left right := by
  cases left <;> cases right <;> simp [sameTypes]

@[simp] theorem findField_mapColumns (name : String) (fields : List VariableId) :
    (a.mapColumns f).findField name fields = a.findField name fields := by
  induction fields with
  | nil => rfl
  | cons field rest ih =>
      simp only [findField, get_mapColumns, bind_map_left, ih]
      rfl

@[simp] theorem deriveKnown_mapColumns (operator : BinaryOperator) (left right : TypeKind)
    (leftType rightType : Option TypeId) :
    (a.mapColumns f).deriveKnown operator left right leftType rightType =
      a.deriveKnown operator left right leftType rightType := by
  simp [deriveKnown]

/-- **Typing does not depend on columns.** -/
@[simp] theorem deriveType_mapColumns (id : ExpressionId) :
    (a.mapColumns f).deriveType id = a.deriveType id := by
  simp [deriveType, deriveUnary, deriveBinary, deriveIndex, deriveMember]

theorem bindField_mapColumns (d : Derivation) :
    (a.mapColumns f).bindField d = mapColumns f <$> a.bindField d := by
  unfold bindField
  split
  · rfl
  · exact a.modify_mapColumns f _ fun _ => rfl

theorem settleType_mapColumns (id : ExpressionId) :
    (a.mapColumns f).settleType id = (fun p => (p.1, p.2.mapColumns f)) <$> a.settleType id := by
  simp only [settleType, deriveType_mapColumns, map_bind]
  refine bind_congr fun outcome => ?_
  cases outcome with
  | error cause => rfl
  | ok d => simp [bindField_mapColumns]

end Arena

end ProcLang
