import ProcLang.Proofs.Typing.Derive

/-!
# ProcLang.Proofs.Typing.Causes

**What typing complains about is an error of the program** (`external_deriveType`). None of the rules
for the types of expressions has a complaint that shows a misuse of the interfaces.
-/

namespace ProcLang

variable {α β : Type}

/-- What a judgement complains about is an error of the program. -/
def Judgement.External (m : Judgement α) : Prop :=
  ∀ cause, m.run = .ok (.error cause) → cause.isInternal = false

namespace Judgement

theorem external_pure (x : α) : External (pure x) := fun _ h => by nomatch h

theorem external_throw {cause : Cause} (hcause : cause.isInternal = false) :
    External (throw cause : Judgement α) := by
  intro cause' h
  obtain rfl : cause = cause' := Except.error.inj (Except.ok.inj h)
  exact hcause

theorem external_bind {m : Judgement α} {f : α → Judgement β} (hm : External m)
    (hf : ∀ x, External (f x)) : External (m >>= f) := by
  intro cause h
  rw [ExceptT.run_bind] at h
  cases hrun : m.run with
  | error fault =>
      rw [hrun] at h
      nomatch h
  | ok outcome =>
      rw [hrun] at h
      cases outcome with
      | error cause' =>
          obtain rfl : cause' = cause := Except.error.inj (Except.ok.inj h)
          exact hm cause' hrun
      | ok x => exact hf x cause h

theorem external_read {m : Except Fault α} : External (liftM m) := by
  intro cause h
  cases m with
  | error fault => nomatch h
  | ok x => nomatch h

end Judgement

open Judgement

namespace Arena

variable (a : Arena)

theorem external_deriveUnary (operator : UnaryOperator) (operand : ExpressionId) :
    External (a.deriveUnary operator operand) := by
  refine external_bind external_read fun node => external_bind external_read fun kind => ?_
  have hresult : External (UnaryOperator.derivation operator node.type) := by
    cases operator <;> exact external_pure _
  cases kind with
  | none => exact hresult
  | some kind =>
      dsimp only
      split
      · exact hresult
      · exact external_throw rfl

theorem external_deriveKnown (operator : BinaryOperator) (left right : TypeKind)
    (leftType rightType : Option TypeId) :
    External (a.deriveKnown operator left right leftType rightType) := by
  have hchoice : ∀ (valid : Bool) (type : TypeId), External (if valid then pure type else
      throw (.invalidOperands operator.text) : Judgement TypeId) := by
    intro valid type
    cases valid with
    | true => exact external_pure _
    | false => exact external_throw rfl
  cases operator with
  | add | subtract | multiply | divide =>
      simp only [deriveKnown]
      split
      · exact external_pure _
      · exact external_throw rfl
  | equal | notEqual =>
      simp only [deriveKnown]
      split
      · exact external_pure _
      · exact external_bind external_read fun same => hchoice same _
  | modulo | less | lessEqual | greater | greaterEqual | or | xor | and | member | index =>
      exact hchoice _ _

theorem external_deriveBinary (operator : BinaryOperator) (left right : ExpressionId) :
    External (a.deriveBinary operator left right) := by
  refine external_bind external_read fun l => external_bind external_read fun r =>
    external_bind external_read fun kindL => external_bind external_read fun kindR => ?_
  cases kindL with
  | none => exact external_pure _
  | some kindL =>
      cases kindR with
      | none => exact external_pure _
      | some kindR =>
          exact external_bind (a.external_deriveKnown _ _ _ _ _) fun _ => external_pure _

theorem external_deriveIndex (array position : ExpressionId) :
    External (a.deriveIndex array position) := by
  refine external_bind external_read fun kind => ?_
  have hresult : External (a.elementDerivation array) := by
    refine external_bind external_read fun kind => ?_
    split
    · exact external_pure _
    · exact external_pure _
    · exact external_throw rfl
  cases kind with
  | none => exact hresult
  | some kind =>
      dsimp only
      split
      · exact hresult
      · exact external_throw rfl

theorem external_deriveMember (record field : ExpressionId) :
    External (a.deriveMember record field) := by
  refine external_bind external_read fun node => ?_
  split
  · refine external_bind external_read fun kind => ?_
    split
    · exact external_pure _
    · refine external_bind external_read fun found => ?_
      split
      · exact external_throw rfl
      · exact external_bind external_read fun _ => external_pure _
    · exact external_throw rfl
  · exact external_pure _

theorem external_deriveType (id : ExpressionId) : External (a.deriveType id) := by
  refine external_bind external_read fun node => ?_
  cases node.kind with
  | integer | real | boolean => exact external_pure _
  | identifier name target =>
      cases target with
      | none => exact external_pure _
      | some x => exact external_bind external_read fun _ => external_pure _
  | call name target arguments =>
      cases target with
      | none => exact external_pure _
      | some r => exact external_bind external_read fun _ => external_pure _
  | unary operator operand => exact a.external_deriveUnary operator operand
  | binary operator left right =>
      cases operator with
      | member => exact a.external_deriveMember left right
      | index => exact a.external_deriveIndex left right
      | or | xor | and | equal | notEqual | less | lessEqual | greater | greaterEqual | add
      | subtract | multiply | divide | modulo => exact a.external_deriveBinary _ left right

end Arena

end ProcLang
