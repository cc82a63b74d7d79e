import ProcLang.Proofs.Tree.Forest
import Mathlib.Data.List.Perm.Subperm

/-!
# ProcLang.Proofs.Tree.Height

**How deep a tree is.** `a.Within n v` says that the default walk from a node reads nodes that are
there, at most `n` of them one below the other. A tree is no deeper than it has nodes
(`Spans.within`), and so the layers of a walk are enough.

`a.Closed` says that no id in the arena leads nowhere, be it an id of a child or a link.
-/

namespace ProcLang

namespace Arena

variable {a b : Arena} {v : Visit} {m n : Nat}

theorem size_eq_sum (a : Arena) : a.size = a.count .routine + a.count .variable +
    a.count .typeDecl + a.count .type + a.count .body + a.count .statement + a.count .expression :=
  rfl

/-- An arena has as many nodes as another one if it has as many of each family. -/
theorem size_eq_of_count_eq (h : ∀ family, a.count family = b.count family) : a.size = b.size := by
  simp only [size_eq_sum, h]

theorem size_le_of_count_le (h : ∀ family, a.count family ≤ b.count family) : a.size ≤ b.size := by
  have hroutine := h .routine
  have hvariable := h .variable
  have htypeDecl := h .typeDecl
  have htype := h .type
  have hbody := h .body
  have hstatement := h .statement
  have hexpression := h .expression
  simp only [size_eq_sum]
  omega

/-- The nodes at and below a node are there, at most `n` of them one below the other. -/
def Within (a : Arena) : Nat → Visit → Prop
  | 0, _ => False
  | n + 1, v => a.Has v ∧ ∀ w ∈ a.children v, a.Within n w

theorem Within.has (h : a.Within n v) : a.Has v := by
  cases n with
  | zero => exact h.elim
  | succ n => exact h.1

/-- Below a node there is one layer less. -/
theorem Within.child {w : Visit} (h : a.Within (n + 1) v) (hw : w ∈ a.children v) : a.Within n w :=
  h.2 w hw

theorem Within.mono (h : a.Within m v) (hle : m ≤ n) : a.Within n v := by
  induction m generalizing n v with
  | zero => exact h.elim
  | succ m ih =>
      obtain ⟨n, rfl⟩ := Nat.exists_eq_add_of_le' (Nat.lt_of_lt_of_le (Nat.succ_pos m) hle)
      exact ⟨h.1, fun w hw => ih (h.2 w hw) (Nat.le_of_succ_le_succ hle)⟩

theorem Within.of_reaches {w : Visit} (h : a.Within n v) (hreaches : a.Reaches v w) :
    a.Within n w := by
  induction hreaches using Relation.ReflTransGen.head_induction_on with
  | refl => exact h
  | head hchild _ ih =>
      cases n with
      | zero => exact h.elim
      | succ n => exact ih ((h.2 _ hchild).mono (Nat.le_succ n))

/-- A node lies below another one. -/
def Contains (a : Arena) : Visit → Visit → Prop := Relation.TransGen fun v w => w ∈ a.children v

theorem Within.of_contains {w : Visit} (h : a.Within (n + 1) v) (hcontains : a.Contains v w) :
    a.Within n w := by
  obtain ⟨u, hchild, hreaches⟩ := Relation.TransGen.head'_iff.1 hcontains
  exact (h.child hchild).of_reaches hreaches

/-- What is below the program is there, if its declarations are. -/
theorem has_of_reaches {w : Visit} (h : ∀ v ∈ a.children .program, a.Within n v)
    (hreaches : a.Reaches .program w) (hw : w ≠ .program) : a.Has w := by
  rcases Relation.ReflTransGen.cases_head hreaches with heq | ⟨v, hv, hrest⟩
  · exact absurd heq.symm hw
  · exact ((h v hv).of_reaches hrest).has

/-- Nodes that differ are no more than there are. -/
theorem length_le_count {family : Family} {ids : List (NodeId family)} (hnodup : ids.Nodup)
    (hhas : ∀ id ∈ ids, a.Has (Visit.of id)) : ids.length ≤ a.count family := by
  have hindices : (ids.map NodeId.index).Nodup :=
    hnodup.map fun x y heq => by
      cases x
      cases y
      exact congrArg NodeId.mk heq
  have hsub : ids.map NodeId.index ⊆ List.range (a.count family) := fun index hindex => by
    obtain ⟨id, hid, rfl⟩ := List.mem_map.1 hindex
    exact List.mem_range.2 (has_of.1 (hhas id hid))
  have hle := (List.subperm_of_subset hindices hsub).length_le
  rwa [List.length_map, List.length_range] at hle

end Arena

namespace Spans

variable {a : Arena} {vs all : List Visit} {v : Visit}

/-- **A forest is no deeper than it has nodes.** -/
theorem within (h : Spans a vs all) (hv : v ∈ vs) : a.Within all.length v := by
  induction h generalizing v with
  | nil => nomatch hv
  | @cons root beside below rest has inner _ ihb ihr =>
      rcases List.mem_cons.1 hv with rfl | hv
      · refine ⟨has, fun w hw => (ihb hw).mono ?_⟩
        rw [List.length_append]
        exact Nat.le_add_right _ _
      · refine (ihr hv).mono ?_
        rw [List.length_cons, List.length_append]
        omega

/-- Each node of a forest is at or below a root. -/
theorem exists_reaches (h : Spans a vs all) (hv : v ∈ all) : ∃ root ∈ vs, a.Reaches root v := by
  induction h with
  | nil => nomatch hv
  | cons _ _ _ ihb ihr =>
      rcases List.mem_cons.1 hv with rfl | hv
      · exact ⟨_, List.mem_cons_self, .refl⟩
      · rcases List.mem_append.1 hv with hv | hv
        · obtain ⟨child, hchild, hreaches⟩ := ihb hv
          exact ⟨_, List.mem_cons_self, .head hchild hreaches⟩
        · obtain ⟨root, hroot, hreaches⟩ := ihr hv
          exact ⟨root, List.mem_cons_of_mem _ hroot, hreaches⟩

/-- What is below a node of a forest belongs to the forest. -/
theorem mem_of_reaches {w : Visit} (h : Spans a vs all) (hv : v ∈ all) (hreaches : a.Reaches v w) :
    w ∈ all := by
  induction hreaches with
  | refl => exact hv
  | tail _ hchild ih => exact h.child_mem ih hchild

/-- The nodes below a node of a forest without repetitions form such a forest, and the node is not
among them. -/
theorem exists_below (h : Spans a vs all) (hnodup : all.Nodup) (hv : v ∈ all) :
    ∃ below, Spans a (a.children v) below ∧ (v :: below).Nodup := by
  induction h with
  | nil => nomatch hv
  | cons _ inner _ ihb ihr =>
      obtain ⟨hfirst, hrest⟩ := List.nodup_cons.1 hnodup
      obtain ⟨hinner, houter, -⟩ := List.nodup_append.1 hrest
      rcases List.mem_cons.1 hv with rfl | hv
      · exact ⟨_, inner, List.nodup_cons.2 ⟨fun hmem => hfirst (List.mem_append_left _ hmem), hinner⟩⟩
      · exact (List.mem_append.1 hv).elim (ihb hinner) (ihr houter)

end Spans

namespace Arena

variable {a : Arena} {v w : Visit} {vs ws all : List Visit}

/-- A node is at or below one of some nodes. -/
def Under (a : Arena) (vs : List Visit) (w : Visit) : Prop := ∃ v ∈ vs, a.Reaches v w

theorem Under.mem (h : a.Under vs w) (hspans : Spans a vs all) : w ∈ all := by
  obtain ⟨v, hv, hreaches⟩ := h
  exact hspans.mem_of_reaches (hspans.mem_of_root hv) hreaches

theorem under_cons : a.Under (v :: vs) w ↔ a.Reaches v w ∨ a.Under vs w := by
  simp [Under]

theorem under_single : a.Under [v] w ↔ a.Reaches v w := by
  simp [Under]

/-- What is at or below a node is the node or below one of its children. -/
theorem reaches_iff : a.Reaches v w ↔ v = w ∨ a.Under (a.children v) w :=
  Relation.ReflTransGen.cases_head_iff

/-- In a forest without repetitions a node is below one root only. -/
theorem not_under_of_reaches {v w : Visit} (h : Spans a (v :: vs) all) (hnodup : all.Nodup)
    (hreaches : a.Reaches v w) : ¬ a.Under vs w := by
  intro hunder
  obtain ⟨xs, ys, rfl, hxs, hys⟩ := h.cons_inv
  exact List.disjoint_of_nodup_append hnodup
    (hxs.mem_of_reaches (hxs.mem_of_root List.mem_cons_self) hreaches) (hunder.mem hys)

end Arena

/-! ### Whole programs -/

/-- What is below the program is a forest without repetitions. -/
structure Arena.IsForest (a : Arena) (nodes : List Visit) : Prop where
  spans : Spans a (a.children .program) nodes
  nodup : nodes.Nodup
  length_lt : nodes.length < a.size

namespace Arena.IsForest

variable {a : Arena} {nodes : List Visit} {v : Visit}

theorem within (h : a.IsForest nodes) : ∀ v ∈ a.children .program, a.Within a.size v :=
  fun _ hv => (h.spans.within hv).mono (Nat.le_of_lt h.length_lt)

theorem has_of_reaches (h : a.IsForest nodes) (hreaches : a.Reaches .program v)
    (hv : v ≠ .program) : a.Has v :=
  Arena.has_of_reaches h.within hreaches hv

/-- So is what is below a node. -/
theorem exists_below (h : a.IsForest nodes) (hreaches : a.Reaches .program v) :
    ∃ below, Spans a (a.children v) below ∧ (v :: below).Nodup := by
  rcases reaches_iff.1 hreaches with rfl | hunder
  · exact ⟨nodes, h.spans, List.nodup_cons.2 ⟨h.spans.program_not_mem, h.nodup⟩⟩
  · exact h.spans.exists_below h.nodup (hunder.mem h.spans)

/-- What is at or below a node is there. -/
theorem has_below (h : a.IsForest nodes) (hreaches : a.Reaches .program v) (hv : v ≠ .program)
    {w : Visit} (hbelow : a.Reaches v w) : a.Has w := by
  rcases reaches_iff.1 hbelow with rfl | hunder
  · exact h.has_of_reaches hreaches hv
  · obtain ⟨below, hspans, -⟩ := h.exists_below hreaches
    exact hspans.has_of_mem (hunder.mem hspans)

/-- What is at or below the program is the program or belongs to the forest. -/
theorem mem_of_reaches (h : a.IsForest nodes) (hreaches : a.Reaches .program v) :
    v = .program ∨ v ∈ nodes :=
  (reaches_iff.1 hreaches).imp Eq.symm fun hunder => hunder.mem h.spans

/-- What belongs to the forest is below the program. -/
theorem reaches_of_mem (h : a.IsForest nodes) (hv : v ∈ nodes) : a.Reaches .program v := by
  obtain ⟨root, hroot, hreaches⟩ := h.spans.exists_reaches hv
  exact .head hroot hreaches

/-- Every node is below one node only. -/
theorem parent_eq (h : a.IsForest nodes) {w child : Visit} (hv : v = .program ∨ v ∈ nodes)
    (hw : w = .program ∨ w ∈ nodes) (hchild : child ∈ a.children v)
    (hchild' : child ∈ a.children w) : v = w := by
  rcases hv with rfl | hv
  · rcases hw with rfl | hw
    · rfl
    · exact absurd hchild' (h.spans.root_not_child h.nodup hchild hw)
  · rcases hw with rfl | hw
    · exact absurd hchild (h.spans.root_not_child h.nodup hchild' hv)
    · exact h.spans.parent_unique h.nodup hv hw hchild hchild'

/-- **No node is below itself.** -/
theorem not_under_children (h : a.IsForest nodes) (hreaches : a.Reaches .program v) :
    ¬ a.Under (a.children v) v := by
  intro hunder
  obtain ⟨below, hspans, hnodup⟩ := h.exists_below hreaches
  exact (List.nodup_cons.1 hnodup).1 (hunder.mem hspans)

end Arena.IsForest

/-! ### Links -/

/-- The nodes that a node refers to and does not own. -/
def Node.links : (family : Family) → Node family → List Visit
  | .type, node =>
      match node.kind with
      | .named _ (some t) => [.typeDecl t]
      | _ => []
  | .expression, node =>
      node.type.toList.map Visit.type ++
        match node.kind with
        | .identifier _ (some x) => [.variable x]
        | .call _ (some r) _ => [.routine r]
        | _ => []
  | .routine, _ | .variable, _ | .typeDecl, _ | .body, _ | .statement, _ => []

/-- No id of a node leads nowhere. -/
def Arena.Closed (a : Arena) : Prop :=
  ∀ (family : Family) (id : NodeId family) node, a.get? id = some node →
    ∀ v ∈ Node.children family node ++ Node.links family node, a.Has v

namespace Arena.Closed

variable {a : Arena}

theorem child (h : a.Closed) {v w : Visit} (hhas : a.Has v) (hw : w ∈ a.children v) : a.Has w := by
  obtain ⟨family, id, rfl⟩ := hhas.exists_of
  obtain ⟨node, hget⟩ := hhas.exists_get?
  rw [children_of_get? hget] at hw
  exact h family id node hget w (List.mem_append_left _ hw)

theorem has_of_reaches (h : a.Closed) {v w : Visit} (hhas : a.Has v) (hreaches : a.Reaches v w) :
    a.Has w := by
  induction hreaches with
  | refl => exact hhas
  | tail _ hchild ih => exact h.child ih hchild

section

variable {id : ExpressionId} {node : Expression}

theorem type (h : a.Closed) (hget : a.get? id = some node) {t : TypeId} (ht : node.type = some t) :
    a.Has (.type t) :=
  h .expression id node hget _ (List.mem_append_right _
    (List.mem_append_left _ (List.mem_map_of_mem (Option.mem_toList.2 ht))))

theorem «variable» (h : a.Closed) (hget : a.get? id = some node) {name : String} {x : VariableId}
    (hkind : node.kind = .identifier name (some x)) : a.Has (.variable x) := by
  refine h .expression id node hget _ (List.mem_append_right _ (List.mem_append_right _ ?_))
  rw [hkind]
  exact List.mem_cons_self

theorem routine (h : a.Closed) (hget : a.get? id = some node) {name : String} {r : RoutineId}
    {arguments : List ExpressionId} (hkind : node.kind = .call name (some r) arguments) :
    a.Has (.routine r) := by
  refine h .expression id node hget _ (List.mem_append_right _ (List.mem_append_right _ ?_))
  rw [hkind]
  exact List.mem_cons_self

theorem operand (h : a.Closed) (hget : a.get? id = some node) {e : ExpressionId}
    (he : e ∈ node.kind.operands) : ∃ operand, a.get? e = some operand :=
  exists_of_has e (h .expression id node hget _ (List.mem_append_left _ (List.mem_map_of_mem he)))

end

theorem declared (h : a.Closed) {x : VariableId} {node : Variable} (hget : a.get? x = some node)
    {t : TypeId} (ht : node.declaredType = some t) : a.Has (.type t) :=
  h .variable x node hget _ (List.mem_append_left _
    (List.mem_append_left _ (List.mem_map_of_mem (Option.mem_toList.2 ht))))

theorem initializer (h : a.Closed) {x : VariableId} {node : Variable} (hget : a.get? x = some node)
    {e : ExpressionId} (he : node.initializer = some e) : ∃ value, a.get? e = some value :=
  exists_of_has e (h .variable x node hget _ (List.mem_append_left _
    (List.mem_append_right _ (List.mem_map_of_mem (Option.mem_toList.2 he)))))

theorem result (h : a.Closed) {r : RoutineId} {node : Routine} (hget : a.get? r = some node)
    {t : TypeId} (ht : node.returnType = some t) : a.Has (.type t) :=
  h .routine r node hget _ (List.mem_append_left _ (List.mem_append_left _
    (List.mem_append_right _ (List.mem_map_of_mem (Option.mem_toList.2 ht)))))

theorem element (h : a.Closed) {id : TypeId} {node : TypeNode} (hget : a.get? id = some node)
    {length : Option ExpressionId} {element : TypeId} (hkind : node.kind = .array length element) :
    a.Has (.type element) := by
  refine h .type id node hget _ (List.mem_append_left _ ?_)
  rw [Node.children, hkind]
  exact List.mem_append_right _ List.mem_cons_self

theorem field (h : a.Closed) {id : TypeId} {node : TypeNode} (hget : a.get? id = some node)
    {fields : List VariableId} (hkind : node.kind = .record fields) {x : VariableId}
    (hx : x ∈ fields) : ∃ field, a.get? x = some field := by
  refine exists_of_has x (h .type id node hget _ (List.mem_append_left _ ?_))
  rw [Node.children, hkind]
  exact List.mem_map_of_mem hx

theorem target (h : a.Closed) {id : TypeId} {node : TypeNode} (hget : a.get? id = some node)
    {name : String} {t : TypeDeclId} (hkind : node.kind = .named name (some t)) :
    ∃ declaration, a.get? t = some declaration := by
  refine exists_of_has t (h .type id node hget _ (List.mem_append_right _ ?_))
  rw [Node.links, hkind]
  exact List.mem_cons_self

theorem declaredBy (h : a.Closed) {t : TypeDeclId} {node : TypeDecl} (hget : a.get? t = some node) :
    a.Has (.type node.type) :=
  h .typeDecl t node hget _ (List.mem_append_left _ List.mem_cons_self)

end Arena.Closed

end ProcLang
