import ProcLang.Proofs.Names.Lexical
import ProcLang.Proofs.Typing.Consistency

/-!
# ProcLang.Proofs.Typing.Resolved

**A resolved tree is consistent.** Before anything is typed, a stored type is that of a literal, or
the declared type that a name took from its variable; and since the parsed tree is a tree, the name
behind the point of a member access stands nowhere else (`consistent_of_evolves`).
-/

namespace ProcLang

open Arena Judgement

variable {a b : Arena} {nodes : List Visit}

/-! ### Fields -/

/-- A slot holds what it held before, or an added call. -/
theorem Node.Change.slots {family : Family} {node node' : Node family}
    (h : Node.Change a family node node') {e : ExpressionId} (he : e ∈ Node.slots family node') :
    e ∈ Node.slots family node ∨ a.count .expression ≤ e.index := by
  cases h with
  | initializer node hold hfresh =>
      rw [List.mem_singleton.1 he]
      exact Or.inr hfresh
  | length node hold hfresh =>
      rw [List.mem_singleton.1 he]
      exact Or.inr hfresh
  | target node hold ht => cases he
  | expression node index hfresh =>
      rw [Node.slots, StatementKind.expressions_setExpression] at he
      refine (List.mem_or_eq_of_mem_set he).imp_right fun heq => ?_
      rw [heq]
      exact hfresh
  | operand node hopen hfresh =>
      rename_i index operand
      by_cases hmember : node.kind.NotMember
      · rw [slots_of_notMember (hmember.setOperand index operand),
          ExpressionKind.operands_setOperand] at he
        rw [slots_of_notMember hmember]
        refine (List.mem_or_eq_of_mem_set he).imp_right fun heq => ?_
        rw [heq]
        exact hfresh
      · obtain ⟨left, right, hkind⟩ := exists_member hmember
        rw [Node.slots, hkind] at hopen
        obtain rfl : index = 0 := Nat.lt_one_iff.1 hopen
        rw [Node.slots, hkind] at he
        rw [List.mem_singleton.1 he]
        exact Or.inr hfresh
  | link node hold hx => cases he
  | routine node hold hr =>
      rw [Node.slots, hold]
      exact Or.inl he

/-- The name behind a point stays. -/
theorem Node.Change.member {node node' : Expression} (h : Node.Change a .expression node node')
    {left f : ExpressionId} (hkind : node'.kind = .binary .member left f) :
    ∃ left', node.kind = .binary .member left' f := by
  cases h with
  | operand node hopen hfresh =>
      rename_i index operand
      by_cases hmember : node.kind.NotMember
      · exact absurd hkind (hmember.setOperand index operand left f)
      · obtain ⟨left', right, hold⟩ := exists_member hmember
        rw [Node.slots, hold] at hopen
        obtain rfl : index = 0 := Nat.lt_one_iff.1 hopen
        rw [hold] at hkind
        injection hkind with hoperator hleft hright
        exact ⟨left', hright ▸ hold⟩
  | link node hold hx => cases hkind
  | routine node hold hr => cases hkind

theorem Node.Changes.slots {family : Family} {node node' : Node family}
    (h : Node.Changes a family node node') {e : ExpressionId} (he : e ∈ Node.slots family node') :
    e ∈ Node.slots family node ∨ a.count .expression ≤ e.index := by
  induction h with
  | refl => exact Or.inl he
  | tail _ hchange ih =>
      rcases hchange.slots he with he | hfresh
      · exact ih he
      · exact Or.inr hfresh

theorem Node.Changes.member {node node' : Expression} (h : Node.Changes a .expression node node')
    {left f : ExpressionId} (hkind : node'.kind = .binary .member left f) :
    ∃ left', node.kind = .binary .member left' f := by
  induction h generalizing left with
  | refl => exact ⟨left, hkind⟩
  | tail _ hchange ih =>
      obtain ⟨left', hkind'⟩ := hchange.member hkind
      exact ih hkind'

/-- A node of a resolved tree was there before, or is an added call. -/
theorem Arena.Evolves.origin (h : Evolves a a b) {family : Family} {id : NodeId family}
    {node : Node family} (hget : b.get? id = some node) :
    (∃ old, a.get? id = some old ∧ Node.Changes a family old node) ∨
      Node.IsAdded a family node := by
  refine (h.added family id node hget).imp_left fun hhas => ?_
  obtain ⟨old, hold⟩ := hhas.exists_get?
  obtain ⟨found, hfound, hchanges⟩ := h.changed family id old hold
  obtain rfl : found = node := Option.some.inj (hfound.symm.trans hget)
  exact ⟨old, hold, hchanges⟩

theorem Arena.Evolves.separate (h : Evolves a a b) (htree : a.IsTree nodes) : b.Separate := by
  intro f hfield family id node hget hslot
  obtain ⟨e, member, left, hmember, hkind⟩ := hfield
  rcases h.origin hmember with ⟨old, hold, hchanges⟩ | ⟨name, r, span, -, rfl⟩
  · obtain ⟨left', hkind'⟩ := hchanges.member hkind
    have hchild : .expression f ∈ a.children (.expression e) := by
      rw [Visit.expression_eq e, children_of_get? hold, Node.children, hkind']
      exact List.mem_cons_of_mem _ List.mem_cons_self
    have hmem := htree.spans.child_mem (htree.raw hold).1 hchild
    have hhas : a.Has (Visit.of f) := htree.spans.has_of_mem hmem
    rcases h.origin hget with ⟨before, hbefore, hchanges'⟩ | hadded
    · rcases hchanges'.slots hslot with hslot | hfresh
      · exact htree.separate f ⟨e, old, left', hold, hkind'⟩ family id before hbefore hslot
      · exact Nat.not_lt.2 hfresh (has_of.1 hhas)
    · -- an added call has no arguments
      cases family with
      | expression =>
          obtain ⟨name, r, span, -, rfl⟩ := hadded
          cases hslot
      | routine | «variable» | typeDecl | type | body | statement => exact hadded
  · cases hkind

/-! ### Types -/

/-- The type of a literal. -/
def ExpressionKind.literalType : ExpressionKind → Option TypeId
  | integer _ => some Arena.integer
  | real _ => some Arena.real
  | boolean _ => some Arena.boolean
  | _ => none

/-- The type on an expression before anything is typed. -/
def Expression.Untyped (a : Arena) (node : Expression) : Prop :=
  node.type = node.kind.literalType ∨ ∃ name x v,
    node.kind = .identifier name (some x) ∧ a.get? x = some v ∧ v.declaredType = node.type

theorem Expression.untyped_of_raw {node : Expression} (h : Node.Raw .expression node) :
    node.Untyped a := by
  refine Or.inl ?_
  rw [Node.Raw] at h
  cases hkind : node.kind with
  | integer | real | boolean | identifier | call | unary | binary =>
      rw [hkind] at h
      exact congrArg Expression.type h

theorem literalType_setOperand (kind : ExpressionKind) (index : Nat) (e : ExpressionId) :
    (kind.setOperand index e).literalType = kind.literalType := by
  cases kind <;> rcases index with _ | _ | index <;> rfl

theorem Node.Change.untyped {node node' : Expression} (h : Node.Change a .expression node node')
    (huntyped : node.Untyped a) : node'.Untyped a := by
  cases h with
  | operand node hopen hfresh =>
      rename_i index e
      rcases huntyped with hliteral | ⟨name, x, v, hkind, hx, htype⟩
      · exact Or.inl (hliteral.trans (literalType_setOperand _ _ _).symm)
      · refine Or.inr ⟨name, x, v, ?_, hx, htype⟩
        rw [hkind]
        rcases index with _ | _ | index <;> rfl
  | link node hold hx =>
      rename_i name x declared
      refine Or.inr ⟨name, x, declared, rfl, hx, ?_⟩
      rcases huntyped with hliteral | ⟨other, y, v, hkind, -, -⟩
      · rw [hold] at hliteral
        rw [hliteral]
        cases declared.declaredType <;> rfl
      · nomatch hold.symm.trans hkind
  | routine node hold hr =>
      rcases huntyped with hliteral | ⟨other, y, v, hkind, -, -⟩
      · rw [hold] at hliteral
        exact Or.inl hliteral
      · nomatch hold.symm.trans hkind

theorem Arena.Evolves.untyped (h : Evolves a a b) (htree : a.IsTree nodes) {id : ExpressionId}
    {node : Expression} (hget : b.get? id = some node) : node.Untyped a := by
  rcases h.origin hget with ⟨old, hold, hchanges⟩ | ⟨name, r, span, -, rfl⟩
  · have hraw := (htree.raw hold).2
    clear hget hold
    induction hchanges with
    | refl => exact Expression.untyped_of_raw hraw
    | tail _ hchange ih => exact hchange.untyped ih
  · exact Or.inl rfl

/-- **A resolved tree is consistent.** -/
theorem Arena.Evolves.consistent (h : Evolves a a b) (htree : a.IsTree nodes) : b.Consistent where
  separate := h.separate htree
  settled id node t hfield hget ht := by
    intro c hrefined d hd
    obtain ⟨node', hget', hd⟩ := gives_node_bind.1 hd
    rw [hrefined.kind_eq hfield hget hget'] at hd
    rcases h.untyped htree hget with hliteral | ⟨name, x, v, hkind, hx, htype⟩
    · rw [ht] at hliteral
      cases hkind : node.kind with
      | integer | real | boolean =>
          rw [hkind] at hd hliteral
          rw [gives_pure.1 hd]
          exact hliteral.symm
      | identifier | call | unary | binary =>
          rw [hkind] at hliteral
          nomatch hliteral
    · -- the variable has its declared type in every tree
      rw [hkind] at hd
      obtain ⟨type, hfound, hd⟩ := gives_lift_bind.1 hd
      rw [gives_pure.1 hd]
      obtain ⟨v₁, hx₁, hchanges⟩ := h.changed .variable x v hx
      obtain ⟨v₂, hx₂, hfound⟩ := variableType_ok hfound
      rw [hrefined.get?_eq .variable nofun, hx₁] at hx₂
      obtain rfl := Option.some.inj hx₂
      have hdeclared : v₁.declaredType = some t := by
        rw [hchanges.variable_eq]
        exact htype.trans ht
      rw [hdeclared] at hfound
      rcases hfound with ⟨t', ht', rfl⟩ | ⟨hnone, -⟩ | ⟨hnone, -⟩
      · exact ht'.symm
      · nomatch hnone
      · nomatch hnone

end ProcLang
