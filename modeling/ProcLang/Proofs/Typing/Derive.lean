import ProcLang.Proofs.Typing.Refinement
import ProcLang.Proofs.Walk.Runs

/-!
# ProcLang.Proofs.Typing.Derive

**What is once derived stays derived.** When more becomes known about a tree, the type that was
derived for an expression is derived again, or something is found to be wrong with the expression;
it is never another type (`RefinedBy.derives_eq`). So the order in which expressions are typed
decides which types are found, but not what they are.

Each rule of typing has an inversion lemma here, which says all that the rule reads of the tree.
-/

namespace ProcLang

open Arena

variable {α β : Type}

/-! ### Judgements -/

/-- A judgement gives a value, with nothing to complain about. -/
def Judgement.Gives (m : Judgement α) (x : α) : Prop := m.run = .ok (.ok x)

namespace Judgement

@[simp] theorem gives_pure {x y : α} : Gives (pure x) y ↔ y = x := by
  change Except.ok (Except.ok x) = Except.ok (Except.ok y) ↔ _
  simp [eq_comm]

theorem gives_bind {m : Judgement α} {f : α → Judgement β} {y : β} :
    Gives (m >>= f) y ↔ ∃ x, Gives m x ∧ Gives (f x) y := by
  unfold Gives
  rw [ExceptT.run_bind]
  cases hm : m.run with
  | error fault => simp [bind, Except.bind]
  | ok outcome =>
      cases outcome with
      | error cause => simp [bind, Except.bind, pure, Except.pure]
      | ok x => simp [bind, Except.bind]

@[simp] theorem gives_lift {m : Except Fault α} {x : α} :
    Gives (liftM m) x ↔ m = .ok x := by
  change (Except.ok <$> m) = Except.ok (Except.ok x) ↔ _
  cases m <;> simp [Functor.map, Except.map]

@[simp] theorem gives_throw {cause : Cause} {x : α} : ¬ Gives (throw cause) x := by
  change ¬ (Except.ok (Except.error cause) = Except.ok (Except.ok x))
  simp

theorem gives_lift_bind {m : Except Fault α} {f : α → Judgement β} {y : β} :
    Gives (liftM m >>= f) y ↔ ∃ x, m = .ok x ∧ Gives (f x) y := by
  simp [gives_bind]

theorem gives_node_bind {a : Arena} {family : Family} {id : NodeId family}
    {f : Node family → Judgement β} {y : β} :
    Gives (liftM (a.get id) >>= f) y ↔ ∃ node, a.get? id = some node ∧ Gives (f node) y := by
  simp [gives_bind]

/-- Reading what is there. -/
theorem gives_read {m : Except Fault α} {f : α → Judgement β} {x : α} {y : β}
    (hm : m = .ok x) : Gives (liftM m >>= f) y ↔ Gives (f x) y := by
  rw [gives_lift_bind, hm]
  simp

theorem gives_get {a : Arena} {family : Family} {id : NodeId family} {node : Node family}
    {f : Node family → Judgement β} {y : β} (hget : a.get? id = some node) :
    Gives (liftM (a.get id) >>= f) y ↔ Gives (f node) y :=
  gives_read (get_eq_ok.2 hget)

end Judgement

open Judgement

/-! ### The rules -/

section

variable {a : Arena} {d : Derivation}

/-- The type that an operator with one operand gives. -/
def UnaryOperator.result (operator : UnaryOperator) (operand : Option TypeId) : Option TypeId :=
  match operator with
  | .not => some Arena.boolean
  | .plus | .minus => operand

/-- The type that an operator gives for two operands of known forms, if it applies to them. -/
def BinaryOperator.resultOfKnown (operator : BinaryOperator) (left right : TypeKind) :
    Option TypeId :=
  match operator with
  | .add | .subtract | .multiply | .divide => arithmeticType left right
  | .modulo => some Arena.integer
  | _ => some Arena.boolean

/-- The type that an operator gives for two operands, if it applies to them. -/
def BinaryOperator.result (operator : BinaryOperator) : Option TypeKind → Option TypeKind →
    Option TypeId
  | some left, some right => operator.resultOfKnown left right
  | _, _ => operator.typeOverUnknown

/-- What an operator gives for operands that are not known, it gives for all that it applies to. -/
theorem BinaryOperator.result_mono {operator : BinaryOperator} {l r l' r' : Option TypeKind}
    {t : TypeId} (hl : ∀ kind, l = some kind → l' = some kind)
    (hr : ∀ kind, r = some kind → r' = some kind) (h : operator.result l r = some t) :
    operator.result l' r' = some t := by
  have hunknown : operator.typeOverUnknown = some t → operator.result l' r' = some t := by
    intro ht
    cases l' with
    | none => exact ht
    | some kindL =>
        cases r' with
        | none => exact ht
        | some kindR =>
            cases operator with
            | add | subtract | multiply | divide | modulo => nomatch ht
            | or | xor | and | equal | notEqual | less | lessEqual | greater | greaterEqual | member
            | index => exact ht
  cases l with
  | none => exact hunknown h
  | some kindL =>
      cases r with
      | none => exact hunknown h
      | some kindR =>
          rw [hl kindL rfl, hr kindR rfl]
          exact h

/-- The type of the elements, if the form is that of an array. -/
def TypeKind.element? : Option TypeKind → Option TypeId
  | some (.array _ element) => some element
  | _ => none

/-- What an operator with one operand gives where it applies. -/
def UnaryOperator.derivation (operator : UnaryOperator) (operandType : Option TypeId) :
    Judgement Derivation :=
  match operator with
  | .not => return .plain (some boolean)
  | .plus | .minus => return .plain operandType

theorem deriveUnary_gives {operator : UnaryOperator} {operand : ExpressionId}
    (h : Gives (a.deriveUnary operator operand) d) :
    ∃ node, a.get? operand = some node ∧ d = .plain (operator.result node.type) := by
  obtain ⟨node, hnode, h⟩ := gives_node_bind.1 h
  refine ⟨node, hnode, ?_⟩
  obtain ⟨kind, -, h⟩ := gives_lift_bind.1 h
  cases kind with
  | none => cases operator <;> exact gives_pure.1 h
  | some kind =>
      dsimp only at h
      split at h
      · cases operator <;> exact gives_pure.1 h
      · obtain ⟨_, hthrow, -⟩ := gives_bind.1 h
        exact (gives_throw hthrow).elim

theorem deriveKnown_gives {operator : BinaryOperator} {left right : TypeKind}
    {leftType rightType : Option TypeId} {type : TypeId}
    (h : Gives (a.deriveKnown operator left right leftType rightType) type) :
    operator.resultOfKnown left right = some type := by
  have htruth : ∀ valid : Bool, Gives (if valid then pure Arena.boolean else
      throw (.invalidOperands operator.text) : Judgement TypeId) type → some Arena.boolean = some type := by
    intro valid h
    cases valid with
    | true => exact congrArg some (gives_pure.1 h).symm
    | false => exact (gives_throw h).elim
  cases operator with
  | add | subtract | multiply | divide =>
      simp only [deriveKnown] at h
      split at h
      · rename_i type' harithmetic
        obtain rfl := gives_pure.1 h
        exact harithmetic
      · exact (gives_throw h).elim
  | modulo =>
      simp only [deriveKnown] at h
      split at h
      · exact congrArg some (gives_pure.1 h).symm
      · exact (gives_throw h).elim
  | equal | notEqual =>
      simp only [deriveKnown] at h
      split at h
      · exact congrArg some (gives_pure.1 h).symm
      · obtain ⟨same, -, h⟩ := gives_lift_bind.1 h
        exact htruth same h
  | less | lessEqual | greater | greaterEqual => exact htruth _ h
  | or | xor | and | member | index => exact htruth _ h

theorem deriveBinary_gives {operator : BinaryOperator} {left right : ExpressionId}
    (h : Gives (a.deriveBinary operator left right) d) :
    ∃ l r kindL kindR, a.get? left = some l ∧ a.get? right = some r ∧ a.kindOf l.type = .ok kindL ∧
      a.kindOf r.type = .ok kindR ∧ d = .plain (operator.result kindL kindR) := by
  obtain ⟨l, hl, h⟩ := gives_node_bind.1 h
  obtain ⟨r, hr, h⟩ := gives_node_bind.1 h
  obtain ⟨kindL, hkindL, h⟩ := gives_lift_bind.1 h
  obtain ⟨kindR, hkindR, h⟩ := gives_lift_bind.1 h
  refine ⟨l, r, kindL, kindR, hl, hr, hkindL, hkindR, ?_⟩
  cases kindL with
  | none => exact gives_pure.1 h
  | some kl =>
      cases kindR with
      | none => exact gives_pure.1 h
      | some kr =>
          obtain ⟨type, htype, h⟩ := gives_bind.1 h
          rw [BinaryOperator.result, deriveKnown_gives htype]
          exact gives_pure.1 h

theorem expressionKindOf_eq_ok {id : ExpressionId} {kind : Option TypeKind} :
    a.expressionKindOf id = .ok kind ↔
      ∃ node, a.get? id = some node ∧ a.kindOf node.type = .ok kind := by
  unfold expressionKindOf
  cases hget : a.get? id <;> simp [Arena.get, hget, bind, Except.bind]

/-- What indexing gives where the form of the index is right. -/
def Arena.elementDerivation (a : Arena) (array : ExpressionId) : Judgement Derivation := do
  match ← a.expressionKindOf array with
  | none => return .plain none
  | some (.array _ element) => return .plain (some element)
  | some _ => throw .notAnArray

theorem deriveIndex_gives {array position : ExpressionId}
    (h : Gives (a.deriveIndex array position) d) :
    ∃ node kind, a.get? array = some node ∧ a.kindOf node.type = .ok kind ∧
      d = .plain (TypeKind.element? kind) := by
  obtain ⟨kindP, -, h⟩ := gives_lift_bind.1 h
  -- the form of the index is checked first
  have hrest : Gives (a.elementDerivation array) d := by
    cases kindP with
    | none => exact h
    | some kind =>
        dsimp only at h
        split at h
        · exact h
        · obtain ⟨_, hthrow, -⟩ := gives_bind.1 h
          exact (gives_throw hthrow).elim
  obtain ⟨kind, hkind, hrest⟩ := gives_lift_bind.1 hrest
  obtain ⟨node, hnode, hkind⟩ := expressionKindOf_eq_ok.1 hkind
  refine ⟨node, kind, hnode, hkind, ?_⟩
  cases kind with
  | none => exact gives_pure.1 hrest
  | some kind =>
      cases kind with
      | array length element => exact gives_pure.1 hrest
      | named | integer | real | boolean | record => exact (gives_throw hrest).elim

/-- A member access gives the type of the field; nothing as long as the record is not known. -/
theorem deriveMember_gives {record field : ExpressionId}
    (h : Gives (a.deriveMember record field) d) :
    ∃ node, a.get? field = some node ∧ ((∀ name target, node.kind ≠ .identifier name target) ∧
        d = .plain none ∨
      ∃ name target owner kind, node.kind = .identifier name target ∧ a.get? record = some owner ∧
        a.kindOf owner.type = .ok kind ∧ (kind = none ∧ d = .plain none ∨
          ∃ fields x type, kind = some (.record fields) ∧ a.findField name fields = .ok (some x) ∧
            a.variableType x = .ok type ∧ d = ⟨type, some (field, x)⟩)) := by
  obtain ⟨node, hnode, h⟩ := gives_node_bind.1 h
  refine ⟨node, hnode, ?_⟩
  split at h
  · rename_i name target hname
    obtain ⟨kind, hkind, h⟩ := gives_lift_bind.1 h
    obtain ⟨owner, howner, hkind⟩ := expressionKindOf_eq_ok.1 hkind
    refine Or.inr ⟨name, target, owner, kind, hname, howner, hkind, ?_⟩
    cases kind with
    | none => exact Or.inl ⟨rfl, gives_pure.1 h⟩
    | some kind =>
        cases kind with
        | record fields =>
            obtain ⟨found, hfound, h⟩ := gives_lift_bind.1 h
            cases found with
            | none => exact (gives_throw h).elim
            | some x =>
                obtain ⟨type, htype, h⟩ := gives_lift_bind.1 h
                exact Or.inr ⟨fields, x, type, rfl, hfound, htype, gives_pure.1 h⟩
        | named | integer | real | boolean | array => exact (gives_throw h).elim
  · rename_i hname
    exact Or.inl ⟨fun name target heq => hname name target heq, gives_pure.1 h⟩

/-- The field that is found is one of the fields, and has the name. -/
theorem findField_ok {name : String} {fields : List VariableId} {x : VariableId}
    (h : a.findField name fields = .ok (some x)) :
    x ∈ fields ∧ ∃ v, a.get? x = some v ∧ v.name = name := by
  induction fields with
  | nil => nomatch h
  | cons field rest ih =>
      cases hfield : a.get? field with
      | none => simp [findField, Arena.get, hfield, bind, Except.bind] at h
      | some v =>
          simp only [findField, Arena.get, hfield, bind, Except.bind] at h
          split at h
          · rename_i hname
            cases h
            exact ⟨List.mem_cons_self, v, hfield, hname⟩
          · obtain ⟨hmem, hfound⟩ := ih h
            exact ⟨List.mem_cons_of_mem _ hmem, hfound⟩

theorem variableType_ok {x : VariableId} {type : Option TypeId} (h : a.variableType x = .ok type) :
    ∃ v, a.get? x = some v ∧ ((∃ t, v.declaredType = some t ∧ type = some t) ∨
      (v.declaredType = none ∧ ∃ e n, v.initializer = some e ∧ a.get? e = some n ∧ type = n.type) ∨
      (v.declaredType = none ∧ v.initializer = none ∧ type = none)) := by
  unfold variableType at h
  cases hx : a.get? x with
  | none => simp [Arena.get, hx, bind, Except.bind] at h
  | some v =>
      refine ⟨v, rfl, ?_⟩
      simp only [Arena.get, hx, bind, Except.bind, pure, Except.pure] at h
      cases hdeclared : v.declaredType with
      | some t =>
          rw [hdeclared] at h
          injection h with h
          exact Or.inl ⟨t, rfl, h.symm⟩
      | none =>
          cases hvalue : v.initializer with
          | none =>
              rw [hdeclared, hvalue] at h
              injection h with h
              exact Or.inr (Or.inr ⟨rfl, rfl, h.symm⟩)
          | some e =>
              rw [hdeclared, hvalue] at h
              cases he : a.get? e with
              | none => simp [he] at h
              | some n =>
                  simp only [he] at h
                  injection h with h
                  exact Or.inr (Or.inl ⟨rfl, e, n, rfl, he, h.symm⟩)

end

/-! ### More knowledge -/

section

variable {a b : Arena}

/-- What stands in a slot is not the name behind a point. -/
theorem Arena.Separate.not_isField (h : a.Separate) {family : Family} {id : NodeId family}
    {node : Node family} (hget : a.get? id = some node) {e : ExpressionId}
    (he : e ∈ Node.slots family node) : ¬ a.IsField e :=
  fun hfield => h e hfield family id node hget he

namespace Arena.RefinedBy

variable {e : ExpressionId} {n n' : Expression} {t : TypeId}

theorem type_eq (h : a.RefinedBy b) (hfield : ¬ a.IsField e) (hget : a.get? e = some n)
    (hget' : b.get? e = some n') (ht : n.type = some t) : n'.type = some t := by
  obtain ⟨found, hfound, hrefined⟩ := h.expressions e n hget
  obtain rfl : found = n' := Option.some.inj (hfound.symm.trans hget')
  exact hrefined.type.resolve_left hfield t ht

theorem kind_eq (h : a.RefinedBy b) (hfield : ¬ a.IsField e) (hget : a.get? e = some n)
    (hget' : b.get? e = some n') : n'.kind = n.kind := by
  obtain ⟨found, hfound, hrefined⟩ := h.expressions e n hget
  obtain rfl : found = n' := Option.some.inj (hfound.symm.trans hget')
  exact hrefined.kind.resolve_right fun hchanged => hfield hchanged.1

/-- The form of a type that is known stays known. -/
theorem known_eq (h : a.RefinedBy b) (hfield : ¬ a.IsField e) (hget : a.get? e = some n)
    (hget' : b.get? e = some n') {kind : TypeKind} {kind' : Option TypeKind}
    (hkind : a.kindOf n.type = .ok (some kind)) (hkind' : b.kindOf n'.type = .ok kind') :
    kind' = some kind := by
  cases ht : n.type with
  | none =>
      rw [ht] at hkind
      nomatch hkind
  | some t =>
      rw [h.type_eq hfield hget hget' ht, ← ht, h.kindOf_eq, hkind] at hkind'
      injection hkind' with hkind'
      exact hkind'.symm

theorem variableType_eq (h : a.RefinedBy b) (hseparate : a.Separate) {x : VariableId}
    {type : Option TypeId} (ha : a.variableType x = .ok (some t)) (hb : b.variableType x = .ok type) :
    type = some t := by
  obtain ⟨v, hv, ha⟩ := variableType_ok ha
  obtain ⟨v', hv', hb⟩ := variableType_ok hb
  rw [h.get?_eq .variable (by decide)] at hv'
  obtain rfl : v = v' := Option.some.inj (hv.symm.trans hv')
  rcases ha with ⟨t', hdeclared, htype⟩ | ⟨hdeclared, e, n, hvalue, hn, htype⟩ | ⟨-, -, htype⟩
  · rcases hb with ⟨t'', hdeclared', htype'⟩ | ⟨hdeclared', -⟩ | ⟨hdeclared', -⟩
    · rw [htype', htype, ← hdeclared, hdeclared']
    · cases hdeclared.symm.trans hdeclared'
    · cases hdeclared.symm.trans hdeclared'
  · rcases hb with ⟨t'', hdeclared', -⟩ | ⟨-, e', n', hvalue', hn', htype'⟩ | ⟨-, hvalue', -⟩
    · cases hdeclared.symm.trans hdeclared'
    · obtain rfl : e = e' := Option.some.inj (hvalue.symm.trans hvalue')
      have hfield : ¬ a.IsField e := hseparate.not_isField hv (by
        rw [Node.slots, hvalue]
        exact List.mem_singleton_self e)
      rw [htype']
      exact h.type_eq hfield hn hn' htype.symm
    · cases hvalue.symm.trans hvalue'
  · cases htype

theorem binary_eq (h : a.RefinedBy b) {operator : BinaryOperator} {left right : ExpressionId}
    (hleft : ¬ a.IsField left) (hright : ¬ a.IsField right) {d d' : Derivation}
    (ha : Gives (a.deriveBinary operator left right) d) (ht : d.type = some t)
    (hb : Gives (b.deriveBinary operator left right) d') : d'.type = some t := by
  obtain ⟨l, r, kindL, kindR, hl, hr, hkindL, hkindR, rfl⟩ := deriveBinary_gives ha
  obtain ⟨l', r', kindL', kindR', hl', hr', hkindL', hkindR', rfl⟩ := deriveBinary_gives hb
  refine BinaryOperator.result_mono (fun kind heq => ?_) (fun kind heq => ?_) ht
  · exact h.known_eq hleft hl hl' (heq ▸ hkindL) hkindL'
  · exact h.known_eq hright hr hr' (heq ▸ hkindR) hkindR'

theorem index_eq (h : a.RefinedBy b) {array position : ExpressionId} (harray : ¬ a.IsField array)
    {d d' : Derivation} (ha : Gives (a.deriveIndex array position) d) (ht : d.type = some t)
    (hb : Gives (b.deriveIndex array position) d') : d'.type = some t := by
  obtain ⟨n, kind, hn, hkind, rfl⟩ := deriveIndex_gives ha
  obtain ⟨n', kind', hn', hkind', rfl⟩ := deriveIndex_gives hb
  cases kind with
  | none => nomatch ht
  | some known =>
      rw [h.known_eq harray hn hn' hkind hkind']
      exact ht

theorem member_eq (h : a.RefinedBy b) (hseparate : a.Separate) {record field : ExpressionId}
    (hrecord : ¬ a.IsField record) {d d' : Derivation}
    (ha : Gives (a.deriveMember record field) d) (ht : d.type = some t)
    (hb : Gives (b.deriveMember record field) d') : d'.type = some t := by
  obtain ⟨node, hnode, ha⟩ := deriveMember_gives ha
  obtain ⟨node', hnode', hb⟩ := deriveMember_gives hb
  rcases ha with ⟨-, rfl⟩ | ⟨name, target, n, kind, hname, hn, hkind, ha⟩
  · nomatch ht
  rcases ha with ⟨-, rfl⟩ | ⟨fields, x, type, rfl, hx, htype, rfl⟩
  · nomatch ht
  obtain rfl : type = some t := ht
  -- the name of the field is the same, whatever it is bound to
  obtain ⟨found, hfound, hrefined⟩ := h.expressions field node hnode
  obtain rfl : found = node' := Option.some.inj (hfound.symm.trans hnode')
  obtain ⟨target', hname'⟩ := hrefined.exists_identifier hname
  rcases hb with ⟨hother, -⟩ | ⟨name', target'', n', kind', hname'', hn', hkind', hb⟩
  · exact absurd hname' (hother name target')
  have hknown := h.known_eq hrecord hn hn' hkind hkind'
  rcases hb with ⟨hnone, -⟩ | ⟨fields', x', type', hfields', hx', htype', rfl⟩
  · nomatch hnone.symm.trans hknown
  · rw [hname'] at hname''
    injection hname'' with hsame
    rw [hknown] at hfields'
    injection hfields' with hfields'
    injection hfields' with hfields'
    subst hsame hfields'
    rw [h.findField_eq, hx] at hx'
    injection hx' with hx'
    injection hx' with hx'
    subst hx'
    exact h.variableType_eq hseparate htype htype'

/-- **What is once derived stays derived.** -/
theorem derives_eq (h : a.RefinedBy b) (hseparate : a.Separate) (hfield : ¬ a.IsField e)
    {d d' : Derivation} (ha : Gives (a.deriveType e) d) (ht : d.type = some t)
    (hb : Gives (b.deriveType e) d') : d'.type = some t := by
  obtain ⟨n, hn, ha⟩ := gives_node_bind.1 ha
  obtain ⟨n', hn', hb⟩ := gives_node_bind.1 hb
  have hkind := h.kind_eq hfield hn hn'
  rw [hkind] at hb
  have hslot : ∀ o ∈ Node.slots .expression n, ¬ a.IsField o := fun o ho =>
    hseparate.not_isField hn ho
  rw [Node.slots] at hslot
  cases hform : n.kind with
  | integer | real | boolean =>
      rw [hform] at ha hb
      rw [gives_pure.1 hb, ← gives_pure.1 ha, ht]
  | identifier name target =>
      rw [hform] at ha hb
      cases target with
      | none =>
          obtain rfl := gives_pure.1 ha
          obtain rfl := gives_pure.1 hb
          exact h.type_eq hfield hn hn' ht
      | some x =>
          obtain ⟨type, hx, ha⟩ := gives_lift_bind.1 ha
          obtain ⟨type', hx', hb⟩ := gives_lift_bind.1 hb
          obtain rfl := gives_pure.1 ha
          obtain rfl := gives_pure.1 hb
          obtain rfl : type = some t := ht
          exact h.variableType_eq hseparate hx hx'
  | call name target arguments =>
      rw [hform] at ha hb
      cases target with
      | none =>
          rw [gives_pure.1 hb, ← gives_pure.1 ha, ht]
      | some r =>
          obtain ⟨routine, hroutine, ha⟩ := gives_node_bind.1 ha
          obtain ⟨routine', hroutine', hb⟩ := gives_node_bind.1 hb
          rw [h.get?_eq .routine (by decide)] at hroutine'
          obtain rfl : routine = routine' := Option.some.inj (hroutine.symm.trans hroutine')
          rw [gives_pure.1 hb, ← gives_pure.1 ha, ht]
  | unary operator operand =>
      rw [hform] at ha hb hslot
      obtain ⟨o, ho, rfl⟩ := deriveUnary_gives ha
      obtain ⟨o', ho', rfl⟩ := deriveUnary_gives hb
      cases operator with
      | not => exact ht
      | plus | minus => exact h.type_eq (hslot operand List.mem_cons_self) ho ho' ht
  | binary operator left right =>
      rw [hform] at ha hb hslot
      cases operator with
      | member => exact h.member_eq hseparate (hslot left List.mem_cons_self) ha ht hb
      | index => exact h.index_eq (hslot left List.mem_cons_self) ha ht hb
      | or | xor | and | equal | notEqual | less | lessEqual | greater | greaterEqual | add
      | subtract | multiply | divide | modulo =>
          have hright := hslot right (List.mem_cons_of_mem _ List.mem_cons_self)
          exact h.binary_eq (hslot left List.mem_cons_self) hright ha ht hb

end Arena.RefinedBy

end

end ProcLang
