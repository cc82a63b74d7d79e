import ProcLang.Proofs.Resolved.Types
import ProcLang.Proofs.Resolved.Forest

/-!
# ProcLang.Proofs.Typing.Sound

**Typing an expression has no fault.** A tree is `Coherent` if no id in it leads nowhere and the types
that are stored are the ones that typing finds. In a coherent tree every judgement about an expression
comes to an end (`Closed.decides_deriveType`), and what it finds is there (`Coherent.has_of_gives`), so
the tree stays coherent. A tree is `Sound` if besides each type stands for one that is no name, and what
is behind points are names. It stays sound as well.

A tree whose names were resolved without a report is sound (`Resolves.sound`).
-/

namespace ProcLang

open Arena Judgement

variable {α β : Type} {a b : Arena} {nodes : List Visit}

/-! ### Fields -/

/-- A name behind the point of a member access stands for a field of the record, as far as the type
of the record is known. -/
def Arena.FieldOf (a : Arena) (record : ExpressionId) (name : String) (x : VariableId) : Prop :=
  ∃ node fields, a.get? record = some node ∧ a.kindOf node.type = .ok (some (.record fields)) ∧
    a.findField name fields = .ok (some x)

theorem Arena.FieldOf.refine {record : ExpressionId} {name : String} {x : VariableId}
    (h : a.FieldOf record name x) (hrefined : a.RefinedBy b) (hrecord : ¬ a.IsField record) :
    b.FieldOf record name x := by
  obtain ⟨node, fields, hget, hkind, hfound⟩ := h
  obtain ⟨node', hget', -⟩ := hrefined.expressions record node hget
  refine ⟨node', fields, hget', ?_, (hrefined.findField_eq name fields).trans hfound⟩
  cases ht : node.type with
  | none =>
      rw [ht] at hkind
      nomatch hkind
  | some t => rw [hrefined.kindOf_eq, hrefined.type_eq hrecord hget hget' ht, ← ht, hkind]

/-- What is behind points are names, each one behind one point only, and those that are linked are
linked to fields. -/
structure Arena.Bound (a : Arena) : Prop where
  named : ∀ f, a.IsField f → ∃ node name target,
    a.get? f = some node ∧ node.kind = .identifier name target
  owned : ∀ (e e' : ExpressionId) member member' left left' f, a.get? e = some member →
    member.kind = .binary .member left f → a.get? e' = some member' →
    member'.kind = .binary .member left' f → e = e'
  linked : ∀ (e : ExpressionId) member left (f : ExpressionId) node name x, a.get? e = some member →
    member.kind = .binary .member left f → a.get? f = some node →
    node.kind = .identifier name (some x) → a.FieldOf left name x

/-- When more becomes known, names behind points may be linked to fields. -/
theorem Arena.Bound.refine (h : a.Bound) (hseparate : a.Separate) (hrefined : a.RefinedBy b)
    (hlinked : ∀ (e : ExpressionId) member left (f : ExpressionId) node name x, a.get? e = some member →
      member.kind = .binary .member left f → b.get? f = some node →
      node.kind = .identifier name (some x) → a.FieldOf left name x) : b.Bound where
  named f hfield := by
    obtain ⟨old, name, target, hold, hname⟩ := h.named f (hrefined.isField_iff.1 hfield)
    obtain ⟨found, hfound, hsame⟩ := hrefined.expressions f old hold
    obtain ⟨target', hname'⟩ := hsame.exists_identifier hname
    exact ⟨found, name, target', hfound, hname'⟩
  owned e e' member member' left left' f hmember hkind hmember' hkind' := by
    obtain ⟨old, hold, hold'⟩ := hrefined.exists_member hmember hkind
    obtain ⟨old', hother, hother'⟩ := hrefined.exists_member hmember' hkind'
    exact h.owned e e' old old' left left' f hold hold' hother hother'
  linked e member left f found name x hmember hkind hfound hname := by
    obtain ⟨old, hold, hkind'⟩ := hrefined.exists_member hmember hkind
    have hrecord : ¬ a.IsField left := hseparate.not_isField hold (by
      rw [Node.slots, hkind']
      exact List.mem_cons_self)
    exact (hlinked e old left f found name x hold hkind' hfound hname).refine hrefined hrecord

/-- A name behind a point may be linked to a field. -/
theorem Arena.Bound.put (h : a.Bound) (hseparate : a.Separate) {id : ExpressionId}
    {node node' : Expression} (hget : a.get? id = some node)
    (hrefined : node.RefinedBy (a.IsField id) node')
    (hlink : node'.kind = node.kind ∨ ∀ (e : ExpressionId) member left name x,
      a.get? e = some member → member.kind = .binary .member left id →
      node'.kind = .identifier name (some x) → a.FieldOf left name x) : (a.put id node').Bound := by
  refine h.refine hseparate (.put hget hrefined) fun e member left f found name x hmember hkind hfound
    hname => ?_
  by_cases hf : f = id
  · subst hf
    rw [get?_put_self hget] at hfound
    obtain rfl := Option.some.inj hfound
    rcases hlink with hsame | hlink
    · exact h.linked e member left f node name x hmember hkind hget (hsame.symm.trans hname)
    · exact hlink e member left name x hmember hkind hname
  · rw [get?_put_of_id_ne a hf] at hfound
    exact h.linked e member left f found name x hmember hkind hfound hname

/-! ### Coherent trees and sound trees -/

/-- A tree in which typing has no fault, whatever was reported of its names. -/
structure Arena.Coherent (a : Arena) : Prop where
  consistent : a.Consistent
  closed : a.Closed
  shared : ∀ (id : TypeId) node, empty.get? id = some node → a.get? id = some node
  ordered : a.Ordered

/-- A tree in which typing cannot go wrong. -/
structure Arena.Sound (a : Arena) : Prop extends a.Coherent where
  bound : a.Bound
  resolved : ∀ id : TypeId, a.Has (.type id) →
    ∃ r node, a.resolveType id = .ok (some r) ∧ a.get? r = some node ∧ node.kind.Proper

/-- **What becomes of a parsed tree** is coherent, as long as no id leads nowhere. -/
theorem Arena.Evolves.coherent (h : Evolves a a b) (htree : a.IsTree nodes) (hclosed : b.Closed) :
    b.Coherent where
  consistent := h.consistent htree
  closed := hclosed
  shared id node hget := by
    obtain ⟨node', hget', hchanges⟩ := h.changed .type id node (htree.shared .type id node hget)
    have hmem := List.mem_of_getElem? (by simpa [get?, table, empty] using hget)
    simp only [List.mem_cons, List.not_mem_nil, or_false] at hmem
    have hsame : node' = node := by
      refine hchanges.eq_of_primitive ?_
      rcases hmem with rfl | rfl | rfl <;> exact ⟨by rintro _ _ ⟨⟩, by rintro _ _ ⟨⟩⟩
    rw [hget', hsame]
  ordered id node length element hget hkind :=
    (typeLinkValid_of_evolves htree h hget).array length element hkind

/-- **A resolved tree is sound.** -/
theorem Arena.Resolves.sound (h : a.Resolves b) (htree : a.IsTree nodes) : b.Sound where
  toCoherent := h.evolves.coherent htree (h.closed htree)
  bound := by
    refine ⟨fun f hfield => ?_, fun e e' member member' left left' f hmember hkind hmember' hkind' => ?_,
      fun e member left f node name x hmember hkind hget hname => ?_⟩
    · obtain ⟨node, name, hget, hname⟩ := h.exists_field htree hfield
      exact ⟨node, name, none, hget, hname⟩
    · exact h.member_unique htree hmember hkind hmember' hkind'
    · obtain ⟨node', name', hget', hname'⟩ := h.exists_field htree ⟨e, member, left, hmember, hkind⟩
      obtain rfl := Option.some.inj (hget.symm.trans hget')
      cases hname.symm.trans hname'
  resolved _ hhas := h.exists_resolved htree hhas

/-- A tree stays coherent when more becomes known, if that leads nowhere else. -/
theorem Arena.Coherent.refine (h : a.Coherent) (hrefined : a.RefinedBy b) (hconsistent : b.Consistent)
    (hlinks : ∀ (id : ExpressionId) node, b.get? id = some node →
      ∀ v ∈ Node.links .expression node, a.Has v) : b.Coherent where
  consistent := hconsistent
  closed family id node hget v hv := by
    refine hrefined.has_iff.2 ?_
    by_cases hfamily : family = .expression
    · subst hfamily
      rcases List.mem_append.1 hv with hv | hv
      · obtain ⟨old, hold, hsame⟩ := hrefined.exists_get? hget
        rw [Node.children, hsame.operands] at hv
        exact h.closed .expression id old hold v (List.mem_append_left _ hv)
      · exact hlinks id node hget v hv
    · rw [hrefined.get?_eq family hfamily] at hget
      exact h.closed family id node hget v hv
  shared id node hget := (hrefined.get?_eq .type nofun id).trans (h.shared id node hget)
  ordered id node length element hget := by
    rw [hrefined.get?_eq .type nofun] at hget
    exact h.ordered id node length element hget

/-- A coherent tree stays sound when more becomes known, if names behind points stand for fields. -/
theorem Arena.Sound.refine (h : a.Sound) (hrefined : a.RefinedBy b) (hcoherent : b.Coherent)
    (hbound : b.Bound) : b.Sound where
  toCoherent := hcoherent
  bound := hbound
  resolved id hhas := by
    obtain ⟨r, node, hr, hnode, hproper⟩ := h.resolved id (hrefined.has_iff.1 hhas)
    exact ⟨r, node, (hrefined.resolveType_eq id).trans hr, (hrefined.get?_eq .type nofun r).trans hnode,
      hproper⟩

/-! ### Trees that grow -/

/-- A coherent tree that is the tree `b` with more types on it, and sound if `b` is. -/
structure Arena.Extends (b a : Arena) : Prop where
  refined : b.RefinedBy a
  coherent : a.Coherent
  sound : b.Sound → a.Sound

/-- A sound tree that is the tree `b` with more types on it. -/
structure Arena.Grown (b a : Arena) : Prop where
  refined : b.RefinedBy a
  sound : a.Sound

namespace Arena.Extends

variable {c : Arena}

theorem refl (h : a.Coherent) : a.Extends a := ⟨.refl a, h, id⟩

theorem trans (h₁ : a.Extends b) (h₂ : b.Extends c) : a.Extends c :=
  ⟨h₁.refined.trans h₂.refined, h₂.coherent, fun h => h₂.sound (h₁.sound h)⟩

theorem exists_get? (h : b.Extends a) {family : Family} (id : NodeId family)
    (hhas : b.Has (Visit.of id)) : ∃ node, a.get? id = some node :=
  exists_of_has id (h.refined.has_iff.2 hhas)

end Arena.Extends

/-- **An expression is overwritten** by what refines it. -/
theorem Arena.Coherent.put (h : a.Coherent) {id : ExpressionId} {node node' : Expression}
    (hget : a.get? id = some node) (hrefined : node.RefinedBy (a.IsField id) node')
    (hsettled : ¬ a.IsField id → ∀ t, node'.type = some t → a.Settled id t)
    (hlink : node'.kind = node.kind ∨ (a.Sound → ∀ (e : ExpressionId) member left name x,
      a.get? e = some member → member.kind = .binary .member left id →
      node'.kind = .identifier name (some x) → a.FieldOf left name x))
    (hlinks : ∀ v ∈ Node.links .expression node', a.Has v) : a.Extends (a.put id node') := by
  have hput : a.RefinedBy (a.put id node') := .put hget hrefined
  have hcoherent : (a.put id node').Coherent := by
    refine h.refine hput (h.consistent.put hget hrefined hsettled) fun other found hfound v hv => ?_
    by_cases hsame : other = id
    · subst hsame
      rw [get?_put_self hget] at hfound
      obtain rfl := Option.some.inj hfound
      exact hlinks v hv
    · rw [get?_put_of_id_ne a hsame] at hfound
      exact h.closed .expression other found hfound v (List.mem_append_right _ hv)
  refine ⟨hput, hcoherent, fun hsound => hsound.refine hput hcoherent ?_⟩
  exact hsound.bound.put h.consistent.separate hget hrefined (hlink.imp_right fun hfield => hfield hsound)

namespace Arena.Grown

variable {c : Arena} {e : ExpressionId} {node : Expression}

theorem weaken (h : b.Grown a) : b.Extends a := ⟨h.refined, h.sound.toCoherent, fun _ => h.sound⟩

/-- A sound tree that grows stays sound. -/
theorem extend (h : b.Grown a) (hextends : a.Extends c) : b.Grown c :=
  ⟨h.refined.trans hextends.refined, hextends.sound h.sound⟩

/-- What stands in a slot of an expression is not the name behind a point. -/
theorem not_isField (h : b.Grown a) (hget : b.get? e = some node) {o : ExpressionId}
    (ho : o ∈ Node.slots .expression node) : ¬ b.IsField o := by
  obtain ⟨node', hget', hrefined⟩ := h.refined.expressions e node hget
  rw [← hrefined.slots] at ho
  exact h.refined.isField_iff.not.1 (h.sound.consistent.separate.not_isField hget' ho)

/-- Only names are behind points. -/
theorem not_isField_of_kind (h : b.Grown a) (hget : b.get? e = some node)
    (hkind : ∀ name target, node.kind ≠ .identifier name target) : ¬ b.IsField e := by
  intro hfield
  obtain ⟨field, name, target, hf, hname⟩ := h.sound.bound.named e (h.refined.isField_iff.2 hfield)
  obtain ⟨old, hold, hsame⟩ := h.refined.exists_get? hf
  obtain rfl := Option.some.inj (hget.symm.trans hold)
  obtain ⟨target', hname'⟩ := hsame.exists_identifier_of_new hname
  exact hkind name target' hname'

end Arena.Grown

/-! ### Types -/

section

variable {t : TypeId} {type : Option TypeId}

/-- In a sound tree a type has a form, which is no name. -/
theorem Arena.Sound.kindOf_some (h : a.Sound) (hhas : a.Has (.type t)) :
    ∃ (r : TypeId) (node : TypeNode),
      a.get? r = some node ∧ a.kindOf (some t) = .ok (some node.kind) ∧ node.kind.Proper := by
  obtain ⟨r, node, hr, hnode, hproper⟩ := h.resolved t hhas
  refine ⟨r, node, hnode, ?_, hproper⟩
  simp [kindOf, hr, get_eq_ok.2 hnode, bind, Except.bind, pure, Except.pure]

/-- What is known of a form was read from a type that is there. -/
theorem exists_of_kindOf {kind : TypeKind} (hkind : a.kindOf type = .ok (some kind)) :
    ∃ (r : TypeId) (node : TypeNode), a.get? r = some node ∧ node.kind = kind := by
  cases type with
  | none => nomatch hkind
  | some t =>
      cases hr : a.resolveType t with
      | error fault => simp [kindOf, hr, bind, Except.bind] at hkind
      | ok found =>
          cases found with
          | none => simp [kindOf, hr, bind, Except.bind, pure, Except.pure] at hkind
          | some r =>
              obtain ⟨node, hnode, -⟩ := exists_of_resolveWithin hr
              refine ⟨r, node, hnode, ?_⟩
              simpa [kindOf, hr, get_eq_ok.2 hnode, bind, Except.bind, pure, Except.pure] using hkind

namespace Arena.Closed

/-- **A type that is there has a form or none.** -/
theorem exists_kindOf (h : a.Closed) (hhas : ∀ t, type = some t → a.Has (.type t)) :
    ∃ kind, a.kindOf type = .ok kind := by
  cases type with
  | none => exact ⟨none, rfl⟩
  | some t =>
      obtain ⟨found, hr⟩ := h.exists_resolveType (hhas t rfl)
      cases found with
      | none => exact ⟨none, by simp [kindOf, hr, bind, Except.bind, pure, Except.pure]⟩
      | some r =>
          obtain ⟨node, hnode, -⟩ := exists_of_resolveWithin hr
          exact ⟨some node.kind, by
            simp [kindOf, hr, get_eq_ok.2 hnode, bind, Except.bind, pure, Except.pure]⟩

theorem exists_findField (name : String) {fields : List VariableId}
    (hfields : ∀ x ∈ fields, ∃ field, a.get? x = some field) :
    ∃ found, a.findField name fields = .ok found ∧ ∀ x, found = some x → x ∈ fields := by
  induction fields with
  | nil => exact ⟨none, rfl, nofun⟩
  | cons x rest ih =>
      obtain ⟨field, hfield⟩ := hfields x List.mem_cons_self
      obtain ⟨found, hfound, hmem⟩ := ih fun y hy => hfields y (List.mem_cons_of_mem _ hy)
      simp only [findField, get_eq_ok.2 hfield, bind, Except.bind]
      split
      · refine ⟨some x, rfl, fun y hy => ?_⟩
        cases hy
        exact List.mem_cons_self
      · exact ⟨found, hfound, fun y hy => List.mem_cons_of_mem _ (hmem y hy)⟩

/-- **A variable that is there has a type or none.** -/
theorem exists_variableType (h : a.Closed) {x : VariableId} (hhas : a.Has (.variable x)) :
    ∃ type, a.variableType x = .ok type := by
  obtain ⟨v, hv⟩ := exists_of_has x hhas
  rw [variableType, get_eq_ok.2 hv]
  cases hdeclared : v.declaredType with
  | some t => exact ⟨some t, by simp [bind, Except.bind, pure, Except.pure, hdeclared]⟩
  | none =>
      cases hinit : v.initializer with
      | none => exact ⟨none, by simp [bind, Except.bind, pure, Except.pure, hdeclared, hinit]⟩
      | some e =>
          obtain ⟨value, hvalue⟩ := h.initializer hv hinit
          exact ⟨value.type, by
            simp [bind, Except.bind, pure, Except.pure, hdeclared, hinit, get_eq_ok.2 hvalue]⟩

/-- The type of a variable is there. -/
theorem has_variableType (h : a.Closed) {x : VariableId} (hx : a.variableType x = .ok type) :
    ∀ t, type = some t → a.Has (.type t) := by
  rintro t rfl
  obtain ⟨v, hv, hcases⟩ := variableType_ok hx
  rcases hcases with ⟨t', hdeclared, ht⟩ | ⟨-, e, value, -, hvalue, ht⟩ | ⟨-, -, ht⟩
  · cases ht
    exact h.declared hv hdeclared
  · exact h.type hvalue ht.symm
  · nomatch ht

end Arena.Closed

end

/-! ### Judgements -/

/-- A judgement comes to an end: it gives a value, or a cause to complain. -/
def Judgement.Decides (m : Judgement α) : Prop := ∃ outcome, m.run = .ok outcome

namespace Judgement

theorem decides_pure (x : α) : Decides (pure x) := ⟨.ok x, rfl⟩

theorem decides_throw (cause : Cause) : Decides (throw cause : Judgement α) := ⟨.error cause, rfl⟩

theorem decides_bind {m : Judgement α} {f : α → Judgement β} (hm : Decides m)
    (hf : ∀ x, Gives m x → Decides (f x)) : Decides (m >>= f) := by
  obtain ⟨outcome, hm⟩ := hm
  cases outcome with
  | error cause => exact ⟨.error cause, by rw [ExceptT.run_bind, hm]; rfl⟩
  | ok x =>
      obtain ⟨outcome', hx⟩ := hf x hm
      exact ⟨outcome', by rw [ExceptT.run_bind, hm]; exact hx⟩

theorem decides_lift_bind {m : Except Fault α} {f : α → Judgement β} {x : α} (hm : m = .ok x)
    (hf : Decides (f x)) : Decides (liftM m >>= f) := by
  subst hm
  exact hf

theorem decides_node_bind {family : Family} {id : NodeId family} {node : Node family}
    {f : Node family → Judgement β} (hget : a.get? id = some node) (hf : Decides (f node)) :
    Decides (liftM (a.get id) >>= f) :=
  decides_lift_bind (get_eq_ok.2 hget) hf

end Judgement

namespace Arena.Closed

variable {id e e' : ExpressionId} {node : Expression}

/-- The type on an expression is there. -/
theorem has_type (h : a.Closed) (hget : a.get? id = some node) :
    ∀ t, node.type = some t → a.Has (.type t) :=
  fun _ ht => h.type hget ht

theorem decides_deriveUnary (h : a.Closed) (operator : UnaryOperator) (he : a.get? e = some node) :
    Decides (a.deriveUnary operator e) := by
  obtain ⟨kind, hkind⟩ := h.exists_kindOf (h.has_type he)
  have hresult : Decides (UnaryOperator.derivation operator node.type) := by
    cases operator <;> exact decides_pure _
  refine decides_node_bind he (decides_lift_bind hkind ?_)
  cases kind with
  | none => exact hresult
  | some kind =>
      dsimp only
      split
      · exact hresult
      · exact decides_throw _

theorem decides_deriveKnown (h : a.Closed) (operator : BinaryOperator) (left right : TypeKind)
    {leftType rightType : Option TypeId} (hleft : ∀ t, leftType = some t → a.Has (.type t))
    (hright : ∀ t, rightType = some t → a.Has (.type t)) :
    Decides (a.deriveKnown operator left right leftType rightType) := by
  have htruth : ∀ valid : Bool, Decides (if valid then pure Arena.boolean else
      throw (.invalidOperands operator.text) : Judgement TypeId) := by
    intro valid
    cases valid with
    | true => exact decides_pure _
    | false => exact decides_throw _
  cases operator with
  | add | subtract | multiply | divide =>
      simp only [deriveKnown]
      split
      · exact decides_pure _
      · exact decides_throw _
  | modulo =>
      simp only [deriveKnown]
      split
      · exact decides_pure _
      · exact decides_throw _
  | equal | notEqual =>
      simp only [deriveKnown]
      split
      · exact decides_pure _
      · obtain ⟨same, hsame⟩ : ∃ same, a.sameTypes leftType rightType = .ok same := by
          cases leftType with
          | none => exact ⟨false, rfl⟩
          | some l =>
              cases rightType with
              | none => exact ⟨false, rfl⟩
              | some r => exact h.exists_sameType (hleft l rfl) (hright r rfl)
        exact decides_lift_bind hsame (htruth same)
  | less | lessEqual | greater | greaterEqual => exact htruth _
  | or | xor | and | member | index => exact htruth _

theorem decides_deriveBinary (h : a.Closed) (operator : BinaryOperator) {left right : Expression}
    (he : a.get? e = some left) (he' : a.get? e' = some right) :
    Decides (a.deriveBinary operator e e') := by
  obtain ⟨l, hl⟩ := h.exists_kindOf (h.has_type he)
  obtain ⟨r, hr⟩ := h.exists_kindOf (h.has_type he')
  refine decides_node_bind he (decides_node_bind he' (decides_lift_bind hl (decides_lift_bind hr ?_)))
  cases l with
  | none => exact decides_pure _
  | some l =>
      cases r with
      | none => exact decides_pure _
      | some r =>
          exact decides_bind (h.decides_deriveKnown operator l r (h.has_type he) (h.has_type he'))
            fun type _ => decides_pure _

theorem exists_expressionKindOf (h : a.Closed) (he : a.get? e = some node) :
    ∃ kind, a.expressionKindOf e = .ok kind := by
  obtain ⟨kind, hkind⟩ := h.exists_kindOf (h.has_type he)
  exact ⟨kind, expressionKindOf_eq_ok.2 ⟨node, he, hkind⟩⟩

theorem decides_deriveIndex (h : a.Closed) {array position : Expression}
    (he : a.get? e = some array) (he' : a.get? e' = some position) :
    Decides (a.deriveIndex e e') := by
  obtain ⟨kindP, hkindP⟩ := h.exists_expressionKindOf he'
  obtain ⟨kindA, hkindA⟩ := h.exists_expressionKindOf he
  have hrest : Decides (a.elementDerivation e) := by
    refine decides_lift_bind hkindA ?_
    split
    · exact decides_pure _
    · exact decides_pure _
    · exact decides_throw _
  refine decides_lift_bind hkindP ?_
  cases kindP with
  | none => exact hrest
  | some kind =>
      dsimp only
      split
      · exact hrest
      · exact decides_throw _

theorem decides_deriveMember (h : a.Closed) {record field : Expression}
    (he : a.get? e = some record) (he' : a.get? e' = some field) :
    Decides (a.deriveMember e e') := by
  refine decides_node_bind he' ?_
  split
  · rename_i name target hname
    obtain ⟨kind, hkind⟩ := h.exists_expressionKindOf he
    refine decides_lift_bind hkind ?_
    split
    · exact decides_pure _
    · rename_i fields
      obtain ⟨owner, howner, hkind⟩ := expressionKindOf_eq_ok.1 hkind
      obtain ⟨r, node, hnode, hrecord⟩ := exists_of_kindOf hkind
      obtain ⟨found, hfound, hmem⟩ := exists_findField name fun x hx =>
        h.field hnode hrecord hx
      refine decides_lift_bind hfound ?_
      cases found with
      | none => exact decides_throw _
      | some x =>
          obtain ⟨v, hv⟩ := h.field hnode hrecord (hmem x rfl)
          obtain ⟨type, htype⟩ :=
            h.exists_variableType (show a.Has (Visit.of x) from has_of_get? hv)
          exact decides_lift_bind htype (decides_pure _)
    · exact decides_throw _
  · exact decides_pure _

/-- **Typing an expression has no fault.** -/
theorem decides_deriveType (h : a.Closed) (hget : a.get? id = some node) :
    Decides (a.deriveType id) := by
  refine decides_node_bind hget ?_
  have hoperand : ∀ o ∈ node.kind.operands, ∃ operand, a.get? o = some operand :=
    fun _ ho => h.operand hget ho
  cases hkind : node.kind with
  | integer | real | boolean => exact decides_pure _
  | identifier name target =>
      cases target with
      | none => exact decides_pure _
      | some x =>
          obtain ⟨type, htype⟩ := h.exists_variableType (h.variable hget hkind)
          exact decides_lift_bind htype (decides_pure _)
  | call name target arguments =>
      cases target with
      | none => exact decides_pure _
      | some r =>
          obtain ⟨routine, hr⟩ := exists_of_has r (h.routine hget hkind)
          exact decides_node_bind hr (decides_pure _)
  | unary operator o =>
      obtain ⟨operand, ho⟩ := hoperand o (by rw [hkind]; exact List.mem_cons_self)
      exact h.decides_deriveUnary operator ho
  | binary operator left right =>
      obtain ⟨l, hl⟩ := hoperand left (by rw [hkind]; exact List.mem_cons_self)
      obtain ⟨r, hr⟩ :=
        hoperand right (by rw [hkind]; exact List.mem_cons_of_mem _ List.mem_cons_self)
      cases operator with
      | member => exact h.decides_deriveMember hl hr
      | index => exact h.decides_deriveIndex hl hr
      | or | xor | and | equal | notEqual | less | lessEqual | greater | greaterEqual | add
      | subtract | multiply | divide | modulo => exact h.decides_deriveBinary _ hl hr

end Arena.Closed

namespace Arena.Coherent

variable {id : ExpressionId} {node : Expression}

/-- A shared type is there. -/
theorem has_shared (h : a.Coherent) {t : TypeId} (ht : empty.Has (.type t)) : a.Has (.type t) := by
  obtain ⟨node, hget⟩ := exists_of_has t ht
  exact (show a.Has (Visit.of t) from has_of_get? (h.shared t node hget))

theorem has_boolean (h : a.Coherent) : a.Has (.type boolean) := h.has_shared ⟨.type, 2, rfl, by decide⟩

theorem has_arithmeticType (h : a.Coherent) {left right : TypeKind} {t : TypeId}
    (ht : arithmeticType left right = some t) : a.Has (.type t) := by
  unfold arithmeticType at ht
  split at ht
  · cases ht
    exact h.has_shared ⟨.type, 0, rfl, by decide⟩
  · split at ht
    · cases ht
      exact h.has_shared ⟨.type, 1, rfl, by decide⟩
    · nomatch ht

theorem has_binaryResult (h : a.Coherent) {operator : BinaryOperator} {l r : Option TypeKind}
    {t : TypeId} (ht : operator.result l r = some t) : a.Has (.type t) := by
  have hunknown : operator.typeOverUnknown = some t → a.Has (.type t) := by
    intro ht
    cases operator with
    | add | subtract | multiply | divide | modulo => nomatch ht
    | or | xor | and | equal | notEqual | less | lessEqual | greater | greaterEqual | member
    | index =>
        cases ht
        exact h.has_boolean
  cases l with
  | none => exact hunknown ht
  | some l =>
      cases r with
      | none => exact hunknown ht
      | some r =>
          cases operator with
          | add | subtract | multiply | divide => exact h.has_arithmeticType ht
          | modulo =>
              cases ht
              exact h.has_shared ⟨.type, 0, rfl, by decide⟩
          | or | xor | and | equal | notEqual | less | lessEqual | greater | greaterEqual | member
          | index =>
              cases ht
              exact h.has_boolean

/-- **What typing finds is there**, the type and the field. -/
theorem has_of_gives (h : a.Coherent) {d : Derivation} (hd : Gives (a.deriveType id) d) :
    (∀ t, d.type = some t → a.Has (.type t)) ∧ ∀ f x, d.field = some (f, x) → a.Has (.variable x) := by
  obtain ⟨node, hget, hd⟩ := gives_node_bind.1 hd
  have hplain : ∀ {type : Option TypeId}, (∀ t, type = some t → a.Has (.type t)) →
      (∀ t, (Derivation.plain type).type = some t → a.Has (.type t)) ∧
        ∀ f x, (Derivation.plain type).field = some (f, x) → a.Has (.variable x) :=
    fun htype => ⟨htype, nofun⟩
  cases hkind : node.kind with
  | integer | real | boolean =>
      rw [hkind] at hd
      rw [gives_pure.1 hd]
      refine hplain fun t ht => ?_
      cases ht
      exact h.has_shared ⟨.type, _, rfl, by decide⟩
  | identifier name target =>
      rw [hkind] at hd
      cases target with
      | none =>
          rw [gives_pure.1 hd]
          exact hplain (h.closed.has_type hget)
      | some x =>
          obtain ⟨type, htype, hd⟩ := gives_lift_bind.1 hd
          rw [gives_pure.1 hd]
          exact hplain (h.closed.has_variableType htype)
  | call name target arguments =>
      rw [hkind] at hd
      cases target with
      | none =>
          rw [gives_pure.1 hd]
          exact hplain nofun
      | some r =>
          obtain ⟨routine, hr, hd⟩ := gives_node_bind.1 hd
          rw [gives_pure.1 hd]
          exact hplain fun t ht => h.closed.result hr ht
  | unary operator operand =>
      rw [hkind] at hd
      obtain ⟨o, ho, rfl⟩ := deriveUnary_gives hd
      refine hplain fun t ht => ?_
      cases operator with
      | not =>
          cases ht
          exact h.has_boolean
      | plus | minus => exact h.closed.has_type ho t ht
  | binary operator left right =>
      rw [hkind] at hd
      cases operator with
      | member =>
          obtain ⟨field, hfield, hcases⟩ := deriveMember_gives hd
          rcases hcases with ⟨-, rfl⟩ | ⟨name, target, owner, kind, -, howner, hkind, hcases⟩
          · exact hplain nofun
          rcases hcases with ⟨-, rfl⟩ | ⟨fields, x, type, rfl, hfound, htype, rfl⟩
          · exact hplain nofun
          refine ⟨h.closed.has_variableType htype, fun f y hf => ?_⟩
          cases hf
          obtain ⟨v, hv, -⟩ := variableType_ok htype
          exact (show a.Has (Visit.of x) from has_of_get? hv)
      | index =>
          obtain ⟨array, kind, harray, hkind, rfl⟩ := deriveIndex_gives hd
          refine hplain fun t ht => ?_
          cases kind with
          | none => nomatch ht
          | some kind =>
              obtain ⟨r, type, htype, rfl⟩ := exists_of_kindOf hkind
              cases hform : type.kind with
              | array length element =>
                  rw [hform] at ht
                  cases ht
                  exact h.closed.element htype hform
              | named | integer | real | boolean | record =>
                  rw [hform] at ht
                  nomatch ht
      | or | xor | and | equal | notEqual | less | lessEqual | greater | greaterEqual | add
      | subtract | multiply | divide | modulo =>
          obtain ⟨l, r, kindL, kindR, -, -, -, -, rfl⟩ := deriveBinary_gives hd
          exact hplain fun t ht => h.has_binaryResult ht

end Arena.Coherent

end ProcLang
