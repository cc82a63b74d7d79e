import ProcLang.Proofs.Tree.Extension
import ProcLang.Walk.Basic
import Mathlib.Data.List.Nodup
import Mathlib.Logic.Relation

/-!
# ProcLang.Proofs.Tree.Forest

**The trees that the ids of an arena make.** `a.children v` are the nodes that the default walk
reaches next from a node; entries in lists of declarations are passed over. `Spans a vs all` says
that the nodes at and below `vs` are finite trees in which every id leads to a node; `all` lists
them in the order of the walk.

The relation is about a list of roots, a forest, so that its two rules follow the recursion over a
first tree and the trees beside it. If `all` has no repetitions, then no node is shared.
-/

namespace ProcLang

/-! ### Nodes as visits -/

namespace Visit

/-- The visit of a node. -/
def of : {family : Family} → NodeId family → Visit
  | .routine, id => .routine id
  | .variable, id => .variable id
  | .typeDecl, id => .typeDecl id
  | .type, id => .type id
  | .body, id => .body id
  | .statement, id => .statement id
  | .expression, id => .expression id

theorem routine_eq (id : RoutineId) : routine id = of id := rfl

theorem variable_eq (id : VariableId) : «variable» id = of id := rfl

theorem typeDecl_eq (id : TypeDeclId) : typeDecl id = of id := rfl

theorem type_eq (id : TypeId) : type id = of id := rfl

theorem body_eq (id : BodyId) : body id = of id := rfl

theorem statement_eq (id : StatementId) : statement id = of id := rfl

theorem expression_eq (id : ExpressionId) : expression id = of id := rfl

/-- The table and the place in it of a visited node. -/
def address : Visit → Option (Family × Nat)
  | .program | .declaration _ => none
  | .routine id => some (.routine, id.index)
  | .variable id => some (.variable, id.index)
  | .typeDecl id => some (.typeDecl, id.index)
  | .type id => some (.type, id.index)
  | .body id => some (.body, id.index)
  | .statement id => some (.statement, id.index)
  | .expression id => some (.expression, id.index)

@[simp] theorem address_of {family : Family} (id : NodeId family) :
    (of id).address = some (family, id.index) := by
  cases family <;> rfl

/-- Visits of nodes of different families differ. -/
theorem family_eq_of_eq {family other : Family} {id : NodeId family} {id' : NodeId other}
    (h : of id = of id') : family = other := by
  have haddress : (of id).address = (of id').address := congrArg address h
  rw [address_of, address_of] at haddress
  exact (Prod.mk.inj (Option.some.inj haddress)).1

theorem of_injective {family : Family} {id other : NodeId family} (h : of id = of other) :
    id = other := by
  cases family <;> injection h

end Visit

/-- The visit of the node that an entry in a list of declarations leads to. -/
def Declaration.visit : Declaration → Visit
  | .routine id => .routine id
  | .variable id => .variable id
  | .type id => .typeDecl id

/-! ### Children -/

/-- The nodes that the default walk reaches next from a node. -/
def Node.children : (family : Family) → Node family → List Visit
  | .routine, node =>
      node.parameters.map Visit.variable ++ node.returnType.toList.map Visit.type ++
        [.body node.body]
  | .variable, node =>
      node.declaredType.toList.map Visit.type ++ node.initializer.toList.map Visit.expression
  | .typeDecl, node => [.type node.type]
  | .type, node =>
      match node.kind with
      | .array length element => length.toList.map Visit.expression ++ [.type element]
      | .record fields => fields.map Visit.variable
      | .named _ _ | .integer | .real | .boolean => []
  | .body, node => node.declarations.map Declaration.visit ++ node.statements.map Visit.statement
  | .statement, node =>
      node.kind.expressions.map Visit.expression ++
        node.kind.counter?.toList.map Visit.variable ++ node.kind.bodies.map Visit.body
  | .expression, node => node.kind.operands.map Visit.expression

namespace Arena

/-- The children of the node with an id; none if there is no such node. -/
def childrenOf (a : Arena) {family : Family} (id : NodeId family) : List Visit :=
  match a.get? id with
  | some node => Node.children family node
  | none => []

/-- The nodes that the default walk reaches next from a visit. -/
def children (a : Arena) : Visit → List Visit
  | .program => a.program.declarations.map Declaration.visit
  | .declaration d => [d.visit]
  | .routine id => a.childrenOf id
  | .variable id => a.childrenOf id
  | .typeDecl id => a.childrenOf id
  | .type id => a.childrenOf id
  | .body id => a.childrenOf id
  | .statement id => a.childrenOf id
  | .expression id => a.childrenOf id

/-- A node is at or below another one. -/
def Reaches (a : Arena) : Visit → Visit → Prop :=
  Relation.ReflTransGen fun v w => w ∈ a.children v

theorem children_of (a : Arena) {family : Family} (id : NodeId family) :
    a.children (Visit.of id) = a.childrenOf id := by
  cases family <;> rfl

theorem children_of_get? {a : Arena} {family : Family} {id : NodeId family} {node : Node family}
    (h : a.get? id = some node) : a.children (Visit.of id) = Node.children family node := by
  rw [children_of, childrenOf, h]

/-- A visit leads to a node that is there. -/
def Has (a : Arena) (v : Visit) : Prop :=
  ∃ family index, v.address = some (family, index) ∧ index < a.count family

theorem has_of {a : Arena} {family : Family} {id : NodeId family} :
    a.Has (Visit.of id) ↔ id.index < a.count family := by
  constructor
  · intro h
    obtain ⟨f, index, haddress, hlt⟩ := h
    rw [Visit.address_of] at haddress
    cases haddress
    exact hlt
  · intro h
    exact ⟨family, id.index, Visit.address_of id, h⟩

theorem exists_get?_of_lt {a : Arena} {family : Family} {id : NodeId family}
    (h : id.index < a.count family) : ∃ node, a.get? id = some node :=
  ⟨_, Array.getElem?_eq_getElem h⟩

theorem Has.exists_get? {a : Arena} {family : Family} {id : NodeId family}
    (h : a.Has (Visit.of id)) : ∃ node, a.get? id = some node :=
  exists_get?_of_lt (has_of.1 h)

theorem exists_of_has {a : Arena} {family : Family} (id : NodeId family)
    (h : a.Has (Visit.of id)) : ∃ node, a.get? id = some node :=
  h.exists_get?

theorem has_of_get? {a : Arena} {family : Family} {id : NodeId family} {node : Node family}
    (h : a.get? id = some node) : a.Has (Visit.of id) :=
  has_of.2 (index_lt_of_get? h)

theorem Has.exists_of {a : Arena} : ∀ {v : Visit}, a.Has v →
    ∃ (family : Family) (id : NodeId family), v = Visit.of id
  | .program, ⟨_, _, haddress, _⟩ => nomatch haddress
  | .declaration _, ⟨_, _, haddress, _⟩ => nomatch haddress
  | .routine id, _ => ⟨.routine, id, rfl⟩
  | .variable id, _ => ⟨.variable, id, rfl⟩
  | .typeDecl id, _ => ⟨.typeDecl, id, rfl⟩
  | .type id, _ => ⟨.type, id, rfl⟩
  | .body id, _ => ⟨.body, id, rfl⟩
  | .statement id, _ => ⟨.statement, id, rfl⟩
  | .expression id, _ => ⟨.expression, id, rfl⟩

/-- The program is no node of the tables. -/
theorem not_has_program (a : Arena) : ¬ a.Has .program := fun ⟨_, _, haddress, _⟩ => nomatch haddress

/-- Only types are shared. -/
theorem not_empty_has (family : Family) (hfamily : family ≠ .type) (id : NodeId family) :
    ¬ empty.Has (Visit.of id) := by
  intro hhas
  have hlt := has_of.1 hhas
  cases family with
  | type => exact hfamily rfl
  | _ => exact Nat.not_lt_zero _ hlt

theorem Has.extend {a b : Arena} {v : Visit} (h : a.Has v) (hext : a.ExtendedBy b) : b.Has v := by
  obtain ⟨family, index, haddress, hlt⟩ := h
  exact ⟨family, index, haddress, Nat.lt_of_lt_of_le hlt (hext.count_le family)⟩

/-- Overwriting a node leaves the sizes of the tables as they are. -/
@[simp] theorem count_put (a : Arena) {family : Family} (id : NodeId family) (node : Node family)
    (other : Family) : (a.put id node).count other = a.count other := by
  by_cases hfamily : other = family
  · subst hfamily
    rw [count, table_put, Array.size_setIfInBounds, count]
  · rw [count, put, table_mapTable_of_ne a hfamily, count]

theorem get?_put_self {a : Arena} {family : Family} {id : NodeId family} {old : Node family}
    (h : a.get? id = some old) (node : Node family) : (a.put id node).get? id = some node := by
  have hlt : id.index < (a.table family).size := index_lt_of_get? h
  rw [get?, table_put, Array.getElem?_setIfInBounds_self_of_lt hlt]

/-- Overwriting a node leaves all others as they are. -/
theorem get?_put_of_ne (a : Arena) {family other : Family} {id : NodeId family}
    {kept : NodeId other} (h : Visit.of kept ≠ Visit.of id) (node : Node family) :
    (a.put id node).get? kept = a.get? kept := by
  by_cases hfamily : other = family
  · subst hfamily
    have hindex : id.index ≠ kept.index := fun heq => h (congrArg Visit.of (congrArg NodeId.mk heq.symm))
    rw [get?, table_put, Array.getElem?_setIfInBounds_ne hindex, get?]
  · rw [get?, put, table_mapTable_of_ne a hfamily, get?]

theorem get?_put_of_id_ne (a : Arena) {family : Family} {id kept : NodeId family} (h : kept ≠ id)
    (node : Node family) : (a.put id node).get? kept = a.get? kept :=
  a.get?_put_of_ne (fun hsame => h (Visit.of_injective hsame)) node

/-- Two arenas with the same program and the same nodes are the same. -/
theorem ext_get? {a b : Arena} (hprogram : a.program = b.program)
    (hget : ∀ (family : Family) (id : NodeId family), a.get? id = b.get? id) : a = b := by
  have htable : ∀ family, a.table family = b.table family := fun family =>
    Array.ext_getElem? fun i => hget family ⟨i⟩
  obtain ⟨program, _, _, _, _, _, _, _⟩ := a
  obtain ⟨program', _, _, _, _, _, _, _⟩ := b
  obtain rfl : program = program' := hprogram
  congr 1
  · exact htable .routine
  · exact htable .variable
  · exact htable .typeDecl
  · exact htable .type
  · exact htable .body
  · exact htable .statement
  · exact htable .expression

/-- Overwriting a node with itself changes nothing. -/
theorem put_of_get? {a : Arena} {family : Family} {id : NodeId family} {node : Node family}
    (h : a.get? id = some node) : a.put id node = a := by
  have htable : (a.table family).setIfInBounds id.index node = a.table family := by
    refine Array.ext_getElem? fun i => ?_
    by_cases hi : id.index = i
    · subst hi
      rw [Array.getElem?_setIfInBounds_self_of_lt (index_lt_of_get? h)]
      exact h.symm
    · rw [Array.getElem?_setIfInBounds_ne hi]
  unfold put
  cases family <;> (simp only [mapTable]; simp only [table] at htable; rw [htable])

/-- Below a node that is there, nothing changes when the arena grows. -/
theorem ExtendedBy.children_eq {a b : Arena} (hext : a.ExtendedBy b) {v : Visit} (h : a.Has v) :
    b.children v = a.children v := by
  obtain ⟨family, id, rfl⟩ := h.exists_of
  obtain ⟨node, hget⟩ := h.exists_get?
  rw [children_of_get? hget, children_of_get? (hext family id node hget)]

end Arena

/-! ### Forests -/

/-- The nodes at and below some roots, in the order of the walk. -/
inductive Spans (a : Arena) : List Visit → List Visit → Prop
  | nil : Spans a [] []
  | cons {v : Visit} {beside below rest : List Visit} (has : a.Has v)
      (inner : Spans a (a.children v) below) (outer : Spans a beside rest) :
      Spans a (v :: beside) (v :: (below ++ rest))

namespace Spans

variable {a b : Arena} {v : Visit} {vs ws all rest : List Visit}

/-- A tree on its own. -/
theorem singleton {below : List Visit} (has : a.Has v) (inner : Spans a (a.children v) below) :
    Spans a [v] (v :: below) := by
  have h := Spans.cons has inner .nil
  rwa [List.append_nil] at h

theorem singleton_inv (h : Spans a [v] all) :
    a.Has v ∧ ∃ below, Spans a (a.children v) below ∧ all = v :: below := by
  cases h with
  | cons has inner outer =>
      cases outer
      exact ⟨has, _, inner, by rw [List.append_nil]⟩

theorem append (h₁ : Spans a vs all) (h₂ : Spans a ws rest) : Spans a (vs ++ ws) (all ++ rest) := by
  induction h₁ with
  | nil => exact h₂
  | cons has inner _ _ ih =>
      rw [List.cons_append, List.cons_append, List.append_assoc]
      exact .cons has inner ih

theorem append_inv (h : Spans a (vs ++ ws) all) :
    ∃ xs ys, all = xs ++ ys ∧ Spans a vs xs ∧ Spans a ws ys := by
  induction vs generalizing all with
  | nil => exact ⟨[], all, rfl, .nil, h⟩
  | cons v vs ih =>
      cases h with
      | cons has inner outer =>
          obtain ⟨xs, ys, rfl, hxs, hys⟩ := ih outer
          exact ⟨_, ys, by rw [List.cons_append, List.append_assoc], .cons has inner hxs, hys⟩

theorem cons_inv (h : Spans a (v :: vs) all) :
    ∃ xs ys, all = xs ++ ys ∧ Spans a [v] xs ∧ Spans a vs ys :=
  have hsplit : Spans a ([v] ++ vs) all := h
  hsplit.append_inv

/-- The roots are among the nodes. -/
theorem mem_of_root (h : Spans a vs all) (hv : v ∈ vs) : v ∈ all := by
  induction h with
  | nil => exact hv
  | cons _ _ _ _ ih =>
      rcases List.mem_cons.1 hv with rfl | hv
      · exact List.mem_cons_self
      · exact List.mem_cons_of_mem _ (List.mem_append_right _ (ih hv))

theorem has_of_mem (h : Spans a vs all) (hv : v ∈ all) : a.Has v := by
  induction h with
  | nil => nomatch hv
  | cons has _ _ ihb ihr =>
      rcases List.mem_cons.1 hv with rfl | hv
      · exact has
      · exact (List.mem_append.1 hv).elim ihb ihr

theorem program_not_mem (h : Spans a vs all) : Visit.program ∉ all := fun hmem =>
  a.not_has_program (h.has_of_mem hmem)

/-- The nodes below a node of a forest belong to the forest. -/
theorem child_mem {child : Visit} (h : Spans a vs all) (hv : v ∈ all)
    (hchild : child ∈ a.children v) : child ∈ all := by
  induction h with
  | nil => nomatch hv
  | cons _ inner _ ihb ihr =>
      refine List.mem_cons_of_mem _ (List.mem_append.2 ?_)
      rcases List.mem_cons.1 hv with rfl | hv
      · exact Or.inl (inner.mem_of_root hchild)
      · exact (List.mem_append.1 hv).imp ihb ihr

/-- A node of a forest, with the nodes below it. -/
theorem exists_node {family : Family} (h : Spans a vs all) (id : NodeId family)
    (hmem : Visit.of id ∈ all) :
    ∃ node, a.get? id = some node ∧ ∀ w ∈ Node.children family node, w ∈ all := by
  obtain ⟨node, hget⟩ := Arena.exists_of_has id (h.has_of_mem hmem)
  exact ⟨node, hget, fun w hw => h.child_mem hmem (Arena.children_of_get? hget ▸ hw)⟩

/-- In a forest without repetitions no root is below a node. -/
theorem root_not_child {child : Visit} (h : Spans a vs all) (hnodup : all.Nodup) (hroot : child ∈ vs)
    (hv : v ∈ all) : child ∉ a.children v := by
  intro hchild
  induction h with
  | nil => nomatch hroot
  | cons _ inner outer _ ihr =>
      obtain ⟨hfirst, hrest⟩ := List.nodup_cons.1 hnodup
      have hdisjoint := List.disjoint_of_nodup_append hrest
      rcases List.mem_cons.1 hroot with rfl | hroot
      · rcases List.mem_cons.1 hv with rfl | hv
        · exact hfirst (List.mem_append_left _ (inner.mem_of_root hchild))
        · rcases List.mem_append.1 hv with hv | hv
          · exact hfirst (List.mem_append_left _ (inner.child_mem hv hchild))
          · exact hfirst (List.mem_append_right _ (outer.child_mem hv hchild))
      · have hmem := outer.mem_of_root hroot
        rcases List.mem_cons.1 hv with rfl | hv
        · exact hdisjoint (inner.mem_of_root hchild) hmem
        · rcases List.mem_append.1 hv with hv | hv
          · exact hdisjoint (inner.child_mem hv hchild) hmem
          · exact ihr (List.nodup_append.1 hrest).2.1 hroot hv

/-- In a forest without repetitions every node is below one node only. -/
theorem parent_unique {w child : Visit} (h : Spans a vs all) (hnodup : all.Nodup) (hv : v ∈ all)
    (hw : w ∈ all) (hchild : child ∈ a.children v) (hchild' : child ∈ a.children w) : v = w := by
  induction h with
  | nil => nomatch hv
  | cons _ inner outer ihb ihr =>
      obtain ⟨-, hrest⟩ := List.nodup_cons.1 hnodup
      have hdisjoint := List.disjoint_of_nodup_append hrest
      have hinner := (List.nodup_append.1 hrest).1
      have houter := (List.nodup_append.1 hrest).2.1
      rcases List.mem_cons.1 hv with hfirst | hv
      · rw [hfirst] at hchild ⊢
        rcases List.mem_cons.1 hw with hfirst' | hw
        · exact hfirst'.symm
        · rcases List.mem_append.1 hw with hw | hw
          · exact absurd hchild' (inner.root_not_child hinner hchild hw)
          · exact absurd (outer.child_mem hw hchild') (hdisjoint (inner.mem_of_root hchild))
      · rcases List.mem_append.1 hv with hv | hv
        · have hmem := inner.child_mem hv hchild
          rcases List.mem_cons.1 hw with hfirst | hw
          · rw [hfirst] at hchild'
            exact absurd hchild (inner.root_not_child hinner hchild' hv)
          · rcases List.mem_append.1 hw with hw | hw
            · exact ihb hinner hv hw
            · exact absurd (outer.child_mem hw hchild') (hdisjoint hmem)
        · have hmem := outer.child_mem hv hchild
          rcases List.mem_cons.1 hw with hfirst | hw
          · rw [hfirst] at hchild'
            exact absurd hmem (hdisjoint (inner.mem_of_root hchild'))
          · rcases List.mem_append.1 hw with hw | hw
            · exact absurd hmem (hdisjoint (inner.child_mem hw hchild'))
            · exact ihr houter hv hw

theorem roots_nodup (h : Spans a vs all) (hnodup : all.Nodup) : vs.Nodup := by
  induction h with
  | nil => exact List.nodup_nil
  | cons _ _ outer _ ihr =>
      obtain ⟨hfirst, hrest⟩ := List.nodup_cons.1 hnodup
      refine List.nodup_cons.2 ⟨fun hmem => ?_, ihr (List.nodup_append.1 hrest).2.1⟩
      exact hfirst (List.mem_append_right _ (outer.mem_of_root hmem))

/-- In a forest without repetitions the children of a node differ. -/
theorem children_nodup (h : Spans a vs all) (hnodup : all.Nodup) (hv : v ∈ all) :
    (a.children v).Nodup := by
  induction h with
  | nil => nomatch hv
  | cons _ inner _ ihb ihr =>
      obtain ⟨-, hrest⟩ := List.nodup_cons.1 hnodup
      rcases List.mem_cons.1 hv with rfl | hv
      · exact inner.roots_nodup (List.nodup_append.1 hrest).1
      · rcases List.mem_append.1 hv with hv | hv
        · exact ihb (List.nodup_append.1 hrest).1 hv
        · exact ihr (List.nodup_append.1 hrest).2.1 hv

/-- A forest is one in each arena in which its nodes are there and have the same children. -/
theorem congr (h : Spans a vs all) (hhas : ∀ v, a.Has v → b.Has v)
    (hchildren : ∀ v, a.Has v → b.children v = a.children v) : Spans b vs all := by
  induction h with
  | nil => exact .nil
  | cons has _ _ ihb ihr =>
      refine .cons (hhas _ has) ?_ ihr
      rw [hchildren _ has]
      exact ihb

/-- A forest stays what it is when the arena grows. -/
theorem extend (h : Spans a vs all) (hext : a.ExtendedBy b) : Spans b vs all :=
  h.congr (fun _ has => has.extend hext) fun _ has => hext.children_eq has

/-- The trees of a forest can be taken in any order. -/
theorem perm (h : Spans a vs all) (hperm : vs.Perm ws) :
    ∃ other, Spans a ws other ∧ all.Perm other := by
  induction hperm generalizing all with
  | nil => exact ⟨all, h, .refl all⟩
  | cons x _ ih =>
      obtain ⟨xs, ys, rfl, hxs, hys⟩ := h.cons_inv
      obtain ⟨zs, hzs, hp⟩ := ih hys
      have hall : Spans a ([x] ++ _) (xs ++ zs) := hxs.append hzs
      exact ⟨xs ++ zs, hall, hp.append_left xs⟩
  | swap x y l =>
      obtain ⟨xs, ys, rfl, hxs, hys⟩ := h.cons_inv
      obtain ⟨ys, zs, rfl, hys, hzs⟩ := hys.cons_inv
      refine ⟨ys ++ (xs ++ zs), append hys (append hxs hzs), ?_⟩
      rw [← List.append_assoc, ← List.append_assoc]
      have hswap : (xs ++ ys).Perm (ys ++ xs) := List.perm_append_comm
      exact hswap.append_right zs
  | trans _ _ ih₁ ih₂ =>
      obtain ⟨other, hother, hp⟩ := ih₁ h
      obtain ⟨last, hlast, hq⟩ := ih₂ hother
      exact ⟨last, hlast, hp.trans hq⟩

end Spans

end ProcLang
