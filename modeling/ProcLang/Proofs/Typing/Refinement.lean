import ProcLang.Check.Typing
import ProcLang.Proofs.Names.Progress
import ProcLang.Proofs.Tree.Height

/-!
# ProcLang.Proofs.Typing.Refinement

**Trees of which more is known.** `a.RefinedBy b` says that `b` is the tree `a` with more types on
its expressions, and otherwise the same. The name behind the point of a member access is left out:
it is bound to a field when the access is typed, and its type is the business of the access.

Types are seen through the tables of types and of type declarations alone, so in a refined tree they
look as they did before (`RefinedBy.sameType_eq`).
-/

namespace ProcLang

open Arena

/-! ### Refinement -/

/-- The same expression, of which more may be known. -/
structure Expression.RefinedBy (isField : Prop) (old new : Expression) : Prop where
  span : new.span = old.span
  kind : new.kind = old.kind ∨ isField ∧ ∃ name target target',
    old.kind = .identifier name target ∧ new.kind = .identifier name target'
  type : isField ∨ ∀ t, old.type = some t → new.type = some t

/-- The same tree, with more known about its expressions. -/
structure Arena.RefinedBy (a b : Arena) : Prop where
  program : b.program = a.program
  others : ∀ family : Family, family ≠ .expression → b.table family = a.table family
  count : b.count .expression = a.count .expression
  expressions : ∀ (id : ExpressionId) node, a.get? id = some node →
    ∃ node', b.get? id = some node' ∧ node.RefinedBy (a.IsField id) node'

theorem Expression.RefinedBy.refl (isField : Prop) (node : Expression) :
    node.RefinedBy isField node :=
  ⟨rfl, Or.inl rfl, Or.inr fun _ h => h⟩

theorem Expression.RefinedBy.trans {p q : Prop} {x y z : Expression} (hpq : q → p)
    (h₁ : x.RefinedBy p y) (h₂ : y.RefinedBy q z) : x.RefinedBy p z where
  span := h₂.span.trans h₁.span
  kind := by
    rcases h₂.kind with hsame | ⟨hq, name, target, target', hold, hnew⟩
    · rw [hsame]
      exact h₁.kind
    · rcases h₁.kind with hsame | ⟨hp, name', target₁, target₂, hold₁, hnew₁⟩
      · exact Or.inr ⟨hpq hq, name, target, target', hsame ▸ hold, hnew⟩
      · rw [hnew₁] at hold
        injection hold with hname
        exact Or.inr ⟨hp, name', target₁, target', hold₁, hname ▸ hnew⟩
  type := by
    rcases h₁.type with hp | hfirst
    · exact Or.inl hp
    · exact h₂.type.imp hpq fun hlast t ht => hlast t (hfirst t ht)

/-- The operands stay the same. -/
theorem Expression.RefinedBy.operands {isField : Prop} {node node' : Expression}
    (h : node.RefinedBy isField node') : node'.kind.operands = node.kind.operands := by
  rcases h.kind with hsame | ⟨-, name, target, target', hold, hnew⟩
  · rw [hsame]
  · rw [hold, hnew]
    rfl

theorem Expression.RefinedBy.slots {isField : Prop} {node node' : Expression}
    (h : node.RefinedBy isField node') :
    Node.slots .expression node' = Node.slots .expression node := by
  rcases h.kind with hsame | ⟨-, name, target, target', hold, hnew⟩
  · rw [Node.slots, Node.slots, hsame]
  · rw [Node.slots, Node.slots, hold, hnew]
    rfl

/-- A name stays the same name. -/
theorem Expression.RefinedBy.exists_identifier {isField : Prop} {node node' : Expression}
    (h : node.RefinedBy isField node') {name : String} {target : Option VariableId}
    (hkind : node.kind = .identifier name target) :
    ∃ target', node'.kind = .identifier name target' := by
  rcases h.kind with hsame | ⟨-, other, target₁, target₂, hold, hnew⟩
  · exact ⟨target, hsame.trans hkind⟩
  · rw [hkind] at hold
    injection hold with hname
    exact ⟨target₂, hname ▸ hnew⟩

/-- A name was the same name. -/
theorem Expression.RefinedBy.exists_identifier_of_new {isField : Prop} {node node' : Expression}
    (h : node.RefinedBy isField node') {name : String} {target : Option VariableId}
    (hkind : node'.kind = .identifier name target) :
    ∃ target', node.kind = .identifier name target' := by
  rcases h.kind with hsame | ⟨-, other, target₁, target₂, hold, hnew⟩
  · exact ⟨target, hsame.symm.trans hkind⟩
  · cases hnew.symm.trans hkind
    exact ⟨target₁, hold⟩

/-- A form that is no name stays the same. -/
theorem Expression.RefinedBy.kind_eq {isField : Prop} {node node' : Expression}
    (h : node.RefinedBy isField node') (hname : ∀ name target, node.kind ≠ .identifier name target) :
    node'.kind = node.kind :=
  h.kind.resolve_right fun ⟨_, name, target, _, hold, _⟩ => hname name target hold

/-- A form that is no name was the same. -/
theorem Expression.RefinedBy.kind_eq_of_new {isField : Prop} {node node' : Expression}
    (h : node.RefinedBy isField node')
    (hname : ∀ name target, node'.kind ≠ .identifier name target) : node.kind = node'.kind := by
  rcases h.kind with hsame | ⟨-, name, target, target', -, hnew⟩
  · exact hsame.symm
  · exact absurd hnew (hname name target')

namespace Arena.RefinedBy

variable {a b c : Arena}

theorem get?_eq (h : a.RefinedBy b) (family : Family) (hfamily : family ≠ .expression)
    (id : NodeId family) : b.get? id = a.get? id := by
  rw [get?, h.others family hfamily, get?]

theorem count_eq (h : a.RefinedBy b) (family : Family) : b.count family = a.count family := by
  by_cases hfamily : family = .expression
  · subst hfamily
    exact h.count
  · rw [Arena.count, h.others family hfamily, Arena.count]

theorem size_eq (h : a.RefinedBy b) : b.size = a.size := size_eq_of_count_eq h.count_eq

theorem has_iff (h : a.RefinedBy b) {v : Visit} : b.Has v ↔ a.Has v := by
  simp only [Has, h.count_eq]

theorem exists_get? (h : a.RefinedBy b) {id : ExpressionId} {node' : Expression}
    (hget : b.get? id = some node') :
    ∃ node, a.get? id = some node ∧ node.RefinedBy (a.IsField id) node' := by
  have hlt := index_lt_of_get? hget
  rw [h.count] at hlt
  obtain ⟨node, hnode⟩ := exists_get?_of_lt hlt
  obtain ⟨found, hfound, hrefined⟩ := h.expressions id node hnode
  obtain rfl : found = node' := Option.some.inj (hfound.symm.trans hget)
  exact ⟨node, hnode, hrefined⟩

/-- A member access was one before. -/
theorem exists_member (h : a.RefinedBy b) {e left f : ExpressionId} {member : Expression}
    (hget : b.get? e = some member) (hkind : member.kind = .binary .member left f) :
    ∃ old, a.get? e = some old ∧ old.kind = .binary .member left f := by
  obtain ⟨old, hold, hrefined⟩ := h.exists_get? hget
  exact ⟨old, hold, (hrefined.kind_eq_of_new (by rw [hkind]; nofun)).trans hkind⟩

theorem isField_iff (h : a.RefinedBy b) {f : ExpressionId} : b.IsField f ↔ a.IsField f := by
  constructor
  · intro hfield
    obtain ⟨e, node', left, hget, hkind⟩ := hfield
    obtain ⟨node, hnode, hkind'⟩ := h.exists_member hget hkind
    exact ⟨e, node, left, hnode, hkind'⟩
  · intro hfield
    obtain ⟨e, node, left, hget, hkind⟩ := hfield
    obtain ⟨node', hget', hrefined⟩ := h.expressions e node hget
    refine ⟨e, node', left, hget', ?_⟩
    rw [hrefined.kind_eq (by rw [hkind]; nofun), hkind]

theorem refl (a : Arena) : a.RefinedBy a :=
  ⟨rfl, fun _ _ => rfl, rfl, fun _ node h => ⟨node, h, .refl _ node⟩⟩

theorem trans (hab : a.RefinedBy b) (hbc : b.RefinedBy c) : a.RefinedBy c where
  program := hbc.program.trans hab.program
  others family hfamily := (hbc.others family hfamily).trans (hab.others family hfamily)
  count := hbc.count.trans hab.count
  expressions id node hget := by
    obtain ⟨node₁, hget₁, hrefined₁⟩ := hab.expressions id node hget
    obtain ⟨node₂, hget₂, hrefined₂⟩ := hbc.expressions id node₁ hget₁
    exact ⟨node₂, hget₂, hrefined₁.trans hab.isField_iff.1 hrefined₂⟩

/-- One expression is refined. -/
theorem put {id : ExpressionId} {node node' : Expression} (hget : a.get? id = some node)
    (hrefined : node.RefinedBy (a.IsField id) node') : a.RefinedBy (a.put id node') where
  program := rfl
  others family hfamily := table_mapTable_of_ne a hfamily _
  count := count_put a id node' .expression
  expressions other found hfound := by
    by_cases hsame : other = id
    · subst hsame
      obtain rfl : node = found := Option.some.inj (hget.symm.trans hfound)
      exact ⟨node', get?_put_self hget node', hrefined⟩
    · exact ⟨found, (get?_put_of_id_ne a hsame node').trans hfound, .refl _ found⟩

/-- **Below a node there are the same nodes.** -/
theorem children_eq (h : a.RefinedBy b) (v : Visit) : b.children v = a.children v := by
  have hsame : ∀ {family : Family} (id : NodeId family), family ≠ .expression →
      b.childrenOf id = a.childrenOf id := by
    intro family id hfamily
    rw [childrenOf, h.get?_eq family hfamily, childrenOf]
  cases v with
  | program => rw [children, h.program, children]
  | declaration d => rfl
  | expression id =>
      show b.childrenOf id = a.childrenOf id
      rw [childrenOf, childrenOf]
      cases hget : a.get? id with
      | some node =>
          obtain ⟨node', hget', hrefined⟩ := h.expressions id node hget
          rw [hget']
          show node'.kind.operands.map Visit.expression = node.kind.operands.map Visit.expression
          rw [hrefined.operands]
      | none =>
          cases hget' : b.get? id with
          | none => rfl
          | some node' =>
              obtain ⟨node, hnode, -⟩ := h.exists_get? hget'
              cases hnode.symm.trans hget
  | routine id | «variable» id | typeDecl id | type id | body id | statement id =>
      exact hsame id (by decide)

theorem reaches_eq (h : a.RefinedBy b) : b.Reaches = a.Reaches := by
  funext v w
  rw [Reaches, Reaches, funext h.children_eq]

/-- A refined tree is a tree with the same nodes. -/
theorem isForest {nodes : List Visit} (h : a.RefinedBy b) (hforest : a.IsForest nodes) :
    b.IsForest nodes where
  spans := by
    rw [h.children_eq]
    exact hforest.spans.congr (fun _ => h.has_iff.2) fun v _ => h.children_eq v
  nodup := hforest.nodup
  length_lt := by
    rw [h.size_eq]
    exact hforest.length_lt

theorem separate (h : a.RefinedBy b) (hseparate : a.Separate) : b.Separate := by
  intro f hfield family id node hget
  rw [h.isField_iff] at hfield
  by_cases hfamily : family = .expression
  · subst hfamily
    obtain ⟨old, hold, hrefined⟩ := h.exists_get? hget
    rw [hrefined.slots]
    exact hseparate f hfield .expression id old hold
  · rw [h.get?_eq family hfamily] at hget
    exact hseparate f hfield family id node hget

/-! ### Types look the same -/

theorem get_eq (h : a.RefinedBy b) (family : Family) (hfamily : family ≠ .expression)
    (id : NodeId family) : b.get id = a.get id := by
  rw [Arena.get, h.get?_eq family hfamily, Arena.get]

theorem resolveWithin_eq (h : a.RefinedBy b) (hops : Nat) (id : TypeId) :
    b.resolveWithin hops id = a.resolveWithin hops id := by
  induction hops generalizing id with
  | zero => rfl
  | succ hops ih => simp only [resolveWithin, h.get_eq .type nofun,
      h.get_eq .typeDecl nofun, ih]

theorem resolveType_eq (h : a.RefinedBy b) (id : TypeId) : b.resolveType id = a.resolveType id := by
  rw [resolveType, h.count_eq, h.resolveWithin_eq, resolveType]

theorem sameWithin_eq (h : a.RefinedBy b) (layers : Nat) (left right : TypeId) :
    b.sameWithin layers left right = a.sameWithin layers left right := by
  induction layers generalizing left right with
  | zero => rfl
  | succ layers ih => simp only [sameWithin, h.resolveType_eq, h.get_eq .type nofun, ih]

/-- **Types that are the same stay the same.** -/
theorem sameType_eq (h : a.RefinedBy b) (left right : TypeId) :
    b.sameType left right = a.sameType left right := by
  rw [sameType, h.count_eq, h.sameWithin_eq, sameType]

theorem kindOf_eq (h : a.RefinedBy b) (type : Option TypeId) : b.kindOf type = a.kindOf type := by
  cases type with
  | none => rfl
  | some id => simp only [kindOf, h.resolveType_eq, h.get_eq .type nofun]

theorem findField_eq (h : a.RefinedBy b) (name : String) (fields : List VariableId) :
    b.findField name fields = a.findField name fields := by
  induction fields with
  | nil => rfl
  | cons field rest ih => simp only [findField, h.get_eq .variable nofun, ih]

end Arena.RefinedBy

end ProcLang
