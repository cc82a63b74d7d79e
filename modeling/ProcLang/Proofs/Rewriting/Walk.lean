import ProcLang.Proofs.Passes.Ownership
import ProcLang.Proofs.Rewriting.Turns
import ProcLang.Walk.Replacing

/-!
# ProcLang.Proofs.Rewriting.Walk

**Replacing expressions from the leaves up.** A `rewriter` differs from the default visitor at
expressions only: it walks the expression, and then a rule may give a new one, which takes its
place. The rule sees the expression with its operands replaced, the tree, and a state of the
visitor's own, which it may change.

Walking a program with a rewriter comes to its end, gives every expression of the program one turn,
its operands first, and leaves the tree that the turns make of the first one
(`walkProgram_rewriter`). The induction is over the tree: if the rewriter gives all expressions
below the children of a node their turns, then the default walk does so for the node
(`ChildrenReady.walk`). In between, the tree is always the one that the turns so far make
(`Going`).
-/

namespace ProcLang

open Arena

/-! ### Rewriters -/

/-- What a rewriter does at an expression whose operands had their turns: from its own state, the
tree, the expression and its node come the expression that is given, if any, and the next state. -/
abbrev RewritingRule (σ : Type) :=
  σ → Arena → ExpressionId → Expression → Option Expression × σ

variable {σ : Type}

/-- Applies a rule to every expression, operands first. -/
def rewriter (rule : RewritingRule σ) : Visitor Unit σ := fun below v => do
  walk below v
  match v with
  | .expression id =>
      let e ← WalkM.node id
      let s ← get
      let (given, own) := rule s.own s.arena id e
      WalkM.updateOwn fun _ => own
      match given with
      | some new => some <$> WalkM.add .expression new
      | none => return none
  | _ => return none

/-- A rule without a state. -/
theorem replacer_eq_rewriter (rule : ReplacementRule) :
    replacer rule = rewriter fun _ _ id e => (rule id e, ()) := by
  funext below v
  cases v with
  | expression id =>
      refine congrArg (walk below (.expression id) >>= ·) (funext fun _ => ?_)
      refine congrArg (WalkM.node id >>= ·) (funext fun e => funext fun c => funext fun s => ?_)
      cases hgiven : rule id e with
      | none => simp only [hgiven]; rfl
      | some new => simp only [hgiven]; rfl
  | _ => rfl

/-- **Turns of a rule**: an original expression comes once and after its operands, and the rule is
applied to the expression that the turns before have made of it. -/
inductive Rewriting (rule : RewritingRule σ) (a : Arena) (own : σ) : List Turn → σ → Prop
  | start : Rewriting rule a own [] own
  | turn {turns : List Turn} {t : Turn} {current next : σ} {node : Expression}
      (before : Rewriting rule a own turns current)
      (original : a.get? t.visited = some node)
      (first : t.visited ∉ turns.map Turn.visited)
      (operands : ∀ e ∈ node.kind.operands, e ∈ turns.map Turn.visited)
      (given : rule current (a.rewritten turns) t.visited
        (Node.mapExpressions (a.swap turns) .expression node) = (t.given, next)) :
      Rewriting rule a own (turns ++ [t]) next

namespace Rewriting

variable {rule : RewritingRule σ} {a : Arena} {own current : σ} {turns : List Turn}

/-- No expression has two turns. -/
theorem nodup (h : Rewriting rule a own turns current) : (turns.map Turn.visited).Nodup := by
  induction h with
  | start => exact List.nodup_nil
  | turn _ _ first _ _ ih =>
      rw [List.map_append, List.map_singleton]
      exact ih.append (List.nodup_singleton _) (List.disjoint_singleton.2 first)

theorem last_not_mem {t : Turn} (h : Rewriting rule a own (turns ++ [t]) current) :
    t.visited ∉ turns.map Turn.visited := by
  have hnodup := h.nodup
  rw [List.map_append, List.map_singleton] at hnodup
  exact List.disjoint_singleton.1 (List.disjoint_of_nodup_append hnodup)

end Rewriting

/-! ### Nodes beside each other -/

namespace Arena

variable {a : Arena} {v w : Visit} {vs ws : List Visit}

/-- The nodes are the roots of a forest without repetitions. -/
def Beside (a : Arena) (vs : List Visit) : Prop := ∃ all, Spans a vs all ∧ all.Nodup

theorem under_append : a.Under (vs ++ ws) w ↔ a.Under vs w ∨ a.Under ws w := by
  simp [Under, or_and_right, exists_or]

namespace Beside

theorem left (h : a.Beside (vs ++ ws)) : a.Beside vs := by
  obtain ⟨all, hspans, hnodup⟩ := h
  obtain ⟨xs, ys, rfl, hxs, -⟩ := hspans.append_inv
  exact ⟨xs, hxs, (List.nodup_append.1 hnodup).1⟩

theorem right (h : a.Beside (vs ++ ws)) : a.Beside ws := by
  obtain ⟨all, hspans, hnodup⟩ := h
  obtain ⟨xs, ys, rfl, -, hys⟩ := hspans.append_inv
  exact ⟨ys, hys, (List.nodup_append.1 hnodup).2.1⟩

theorem nodup (h : a.Beside vs) : vs.Nodup := by
  obtain ⟨all, hspans, hnodup⟩ := h
  exact hspans.roots_nodup hnodup

/-- No node is below two of them. -/
theorem apart (h : a.Beside (vs ++ ws)) (hv : a.Under vs w) : ¬ a.Under ws w := by
  obtain ⟨all, hspans, hnodup⟩ := h
  obtain ⟨xs, ys, rfl, hxs, hys⟩ := hspans.append_inv
  exact fun hw => List.disjoint_of_nodup_append hnodup (hv.mem hxs) (hw.mem hys)

end Beside

end Arena

/-! ### The walk -/

namespace WalkM

variable {α : Type} {rule : RewritingRule σ} {a : Arena} {own : σ} {turns : List Turn}
  {s : WalkState σ} {vs ws : List Visit} {v : Visit} {e : ExpressionId}
  {below : Visit → WalkM Unit σ (Option ExpressionId)}

/-- Between the turns, the tree is what the turns have made of it. -/
structure Going (rule : RewritingRule σ) (a : Arena) (own : σ) (turns : List Turn)
    (s : WalkState σ) : Prop where
  arena : s.arena = a.rewritten turns
  run : Rewriting rule a own turns s.own

/-- No expression at or below some nodes had its turn. -/
def Unvisited (a : Arena) (vs : List Visit) (turns : List Turn) : Prop :=
  ∀ e, a.Under vs (.expression e) → e ∉ turns.map Turn.visited

/-- The turns of the expressions at and below some nodes. -/
def TurnsBelow (a : Arena) (vs : List Visit) (turns : List Turn) : Prop :=
  ∀ e, e ∈ turns.map Turn.visited ↔ a.Under vs (.expression e)

/-- A part of a walk gives the expressions at and below some nodes their turns. -/
def Rewrites (rule : RewritingRule σ) (a : Arena) (own : σ) (m : WalkM Unit σ Unit)
    (vs : List Visit) : Prop :=
  ∀ turns s, Going rule a own turns s → Unvisited a vs turns →
    ∃ later s', Runs m () s () s' ∧ Going rule a own (turns ++ later) s' ∧ TurnsBelow a vs later

/-- An expression can be visited. What is given in its turn, the last one, is not stored yet. -/
def Gives (rule : RewritingRule σ) (a : Arena) (own : σ)
    (below : Visit → WalkM Unit σ (Option ExpressionId)) (e : ExpressionId) : Prop :=
  ∀ turns s, Going rule a own turns s → Unvisited a [.expression e] turns →
    ∃ later t r s', Runs (below (.expression e)) () s r s' ∧ t.visited = e ∧
      Rewriting rule a own (turns ++ later ++ [t]) s'.own ∧
      TurnsBelow a [.expression e] (later ++ [t]) ∧
      match t.given with
      | none => r = none ∧ s'.arena = a.rewritten (turns ++ later)
      | some new => r = some ((a.rewritten (turns ++ later)).add .expression new).1 ∧
          s'.arena = ((a.rewritten (turns ++ later)).add .expression new).2

/-! ### Parts of the walk -/

namespace Rewrites

theorem pure : Rewrites rule a own (pure ()) [] := fun turns s hs _ =>
  ⟨[], s, runs_pure.2 ⟨rfl, rfl⟩, by rwa [List.append_nil], by simp [TurnsBelow, Under]⟩

theorem bind {m : WalkM Unit σ Unit} {f : Unit → WalkM Unit σ Unit}
    (hbeside : a.Beside (vs ++ ws)) (hm : Rewrites rule a own m vs)
    (hf : Rewrites rule a own (f ()) ws) : Rewrites rule a own (m >>= f) (vs ++ ws) := by
  intro turns s hs hun
  obtain ⟨front, s₁, hrun, hs₁, hfront⟩ := hm turns s hs fun e he =>
    hun e (under_append.2 (Or.inl he))
  obtain ⟨back, s', hrun', hs', hback⟩ := hf (turns ++ front) s₁ hs₁ fun e he => by
    rw [List.map_append, List.mem_append, not_or]
    exact ⟨hun e (under_append.2 (Or.inr he)), fun hmem => hbeside.apart ((hfront e).1 hmem) he⟩
  refine ⟨front ++ back, s', runs_bind.2 ⟨(), s₁, hrun, hrun'⟩, ?_, fun e => ?_⟩
  · rwa [← List.append_assoc]
  · rw [List.map_append, List.mem_append, hfront e, hback e, under_append]

/-- A node is read that has, in its slots, the expressions it had in the beginning. -/
theorem node_bind {family : Family} {id : NodeId family} {node : Node family}
    {f : Node family → WalkM Unit σ Unit} (hget : a.get? id = some node)
    (hf : ∀ g, (∀ e, a.Under vs (.expression e) → g e = e) →
      Rewrites rule a own (f (Node.mapExpressions g family node)) vs) :
    Rewrites rule a own (WalkM.node id >>= f) vs := by
  intro turns s hs hun
  obtain ⟨later, s', hrun, hdone⟩ := hf (a.swap turns)
    (fun e he => Turn.swap_of_not_mem (hun e he)) turns s hs hun
  refine ⟨later, s', runs_node_bind.2 ⟨_, ?_, hrun⟩, hdone⟩
  rw [hs.arena]
  exact get?_rewritten hget

theorem forM {xs : List α} {m : α → WalkM Unit σ PUnit} {f : α → Visit}
    (hbeside : a.Beside (xs.map f)) (h : ∀ x ∈ xs, Rewrites rule a own (m x) [f x]) :
    Rewrites rule a own (xs.forM m) (xs.map f) := by
  induction xs with
  | nil => exact pure
  | cons x rest ih =>
      have hsplit : a.Beside ([f x] ++ rest.map f) := hbeside
      exact bind hsplit (h x List.mem_cons_self)
        (ih hsplit.right fun y hy => h y (List.mem_cons_of_mem _ hy))

theorem visitOptional {f : α → Visit} {x : Option α}
    (h : ∀ w ∈ x.toList.map f, Rewrites rule a own (visitOnly below w) [w]) :
    Rewrites rule a own (visitOptional below f x) (x.toList.map f) := by
  cases x with
  | none => exact pure
  | some y => exact h _ List.mem_cons_self

theorem visitEach {f : α → Visit} {xs : List α} (hbeside : a.Beside (xs.map f))
    (h : ∀ x ∈ xs, Rewrites rule a own (visitOnly below (f x)) [f x]) :
    Rewrites rule a own (visitEach below f xs) (xs.map f) :=
  forM hbeside h

/-- **A slot**: the expression in it is visited, and what is given takes its place. -/
theorem visitSlot (howned : a.Owned) (h : Gives rule a own below e) {family : Family}
    {owner : NodeId family} {node : Node family} (hget : a.get? owner = some node)
    (hchild : .expression e ∈ Node.children family node)
    (store : ExpressionId → Node family → Node family)
    (hstore : ∀ g new, store new (Node.mapExpressions g family node) =
      Node.mapExpressions (Function.update g e new) family node) :
    Rewrites rule a own (visitSlot below e fun new => update owner (store new))
      [.expression e] := by
  intro turns s hs hun
  obtain ⟨later, t, r, s', hrun, rfl, hturns, hbelow, hgiven⟩ := h turns s hs hun
  cases ht : t.given with
  | none =>
      rw [ht] at hgiven
      obtain ⟨rfl, harena⟩ := hgiven
      refine ⟨later ++ [t], s', runs_bind.2 ⟨none, s', hrun, runs_pure.2 ⟨rfl, rfl⟩⟩, ?_, hbelow⟩
      rw [← List.append_assoc]
      exact ⟨harena.trans (rewritten_append_none a ht).symm, hturns⟩
  | some new =>
      rw [ht] at hgiven
      obtain ⟨rfl, harena⟩ := hgiven
      have hnode := (a.rewritten (turns ++ later)).extendedBy_add .expression new _ _ _
        (get?_rewritten hget)
      refine ⟨later ++ [t], s'.put owner _, runs_bind.2 ⟨_, s', hrun,
        runs_update.2 ⟨_, harena ▸ hnode, rfl⟩⟩, ?_, hbelow⟩
      rw [← List.append_assoc]
      refine ⟨?_, hturns⟩
      rw [WalkState.put, harena, hstore]
      exact put_add_rewritten howned hget hchild ht hturns.last_not_mem

end Rewrites

/-! ### The default walk -/

/-- A node can be visited, be it an expression or not. -/
structure Handles (rule : RewritingRule σ) (a : Arena) (own : σ)
    (below : Visit → WalkM Unit σ (Option ExpressionId)) (v : Visit) : Prop where
  gives : ∀ e, v = .expression e → Gives rule a own below e
  rewrites : (∀ e, v ≠ .expression e) → Rewrites rule a own (visitOnly below v) [v]

/-- All children of a node can be visited, also as entries in a list of declarations. -/
structure ChildrenReady (rule : RewritingRule σ) (a : Arena) (own : σ)
    (below : Visit → WalkM Unit σ (Option ExpressionId)) (v : Visit) : Prop where
  owned : a.Owned
  beside : a.Beside (a.children v)
  nodes : ∀ w ∈ a.children v, Handles rule a own below w
  declarations : ∀ d : Declaration, d.visit ∈ a.children v →
    Rewrites rule a own (visitOnly below (.declaration d)) [d.visit]

/-- Expressions that had no turn are still in their slots. -/
theorem map_eq_self {es : List ExpressionId} {g : ExpressionId → ExpressionId}
    (hg : ∀ e, a.Under (es.map Visit.expression) (.expression e) → g e = e) : es.map g = es :=
  (List.map_congr_left fun e he => hg e ⟨_, List.mem_map_of_mem he, .refl⟩).trans (List.map_id es)

namespace ChildrenReady

variable {family : Family} {id : NodeId family} {node : Node family}

theorem visitEach_declarations (h : ChildrenReady rule a own below v) {ds : List Declaration}
    (hbeside : a.Beside (ds.map Declaration.visit)) (hmem : ∀ d ∈ ds, d.visit ∈ a.children v) :
    Rewrites rule a own (visitEach below .declaration ds) (ds.map Declaration.visit) :=
  .forM hbeside fun d hd => h.declarations d (hmem d hd)

/-- The slots of a node, one after the other. -/
theorem slots (h : ChildrenReady rule a own below (Visit.of id)) (hget : a.get? id = some node)
    {es : List ExpressionId} (store : Nat → ExpressionId → Node family → Node family)
    (hbeside : a.Beside (es.map Visit.expression))
    (hes : ∀ e ∈ es, .expression e ∈ Node.children family node)
    (hstore : ∀ e i, es[i]? = some e → ∀ g new, store i new (Node.mapExpressions g family node) =
      Node.mapExpressions (Function.update g e new) family node) :
    Rewrites rule a own (es.zipIdx.forM fun p =>
      visitSlot below p.1 fun new => update id (store p.2 new)) (es.map Visit.expression) := by
  have hchildren : a.children (Visit.of id) = Node.children family node := children_of_get? hget
  rw [← Steady.map_fst_zipIdx] at hbeside ⊢
  refine .forM hbeside fun p hp => ?_
  have hmem : p.1 ∈ es := List.fst_mem_of_mem_zipIdx hp
  refine .visitSlot h.owned ((h.nodes _ (hchildren ▸ hes p.1 hmem)).gives _ rfl) hget (hes p.1 hmem)
    (store p.2) (hstore p.1 p.2 ?_)
  exact List.mem_zipIdx_iff_getElem?.1 hp

theorem walkRoutine {id : RoutineId} (h : ChildrenReady rule a own below (.routine id))
    (hhas : a.Has (.routine id)) :
    Rewrites rule a own (walkRoutine below id) (a.children (.routine id)) := by
  obtain ⟨node, hget⟩ := exists_of_has id hhas
  have hchildren : a.children (.routine id) = Node.children .routine node := children_of_get? hget
  have hbeside := h.beside
  have hnodes := h.nodes
  rw [hchildren, Node.children, List.append_assoc] at hbeside hnodes ⊢
  refine .node_bind hget fun g _ => ?_
  refine .bind hbeside (.visitEach hbeside.left fun x hx => ?_) ?_
  · exact (hnodes _ (List.mem_append_left _ (List.mem_map_of_mem hx))).rewrites (by rintro _ ⟨⟩)
  refine .bind hbeside.right (.visitOptional fun w hw => ?_) ?_
  · obtain ⟨t, -, rfl⟩ := List.mem_map.1 hw
    exact (hnodes _ (List.mem_append_right _ (List.mem_append_left _ hw))).rewrites (by rintro _ ⟨⟩)
  · exact (hnodes _ (List.mem_append_right _ (List.mem_append_right _
      List.mem_cons_self))).rewrites (by rintro _ ⟨⟩)

theorem walkVariable {id : VariableId} (h : ChildrenReady rule a own below (.variable id))
    (hhas : a.Has (.variable id)) :
    Rewrites rule a own (walkVariable below id) (a.children (.variable id)) := by
  obtain ⟨node, hget⟩ := exists_of_has id hhas
  have hchildren : a.children (.variable id) = Node.children .variable node :=
    children_of_get? hget
  have hbeside := h.beside
  have hnodes := h.nodes
  rw [hchildren, Node.children] at hbeside hnodes ⊢
  refine .node_bind hget fun g _ => ?_
  refine .bind hbeside (.visitOptional fun w hw => ?_) (.node_bind hget fun g hg => ?_)
  · obtain ⟨t, -, rfl⟩ := List.mem_map.1 hw
    exact (hnodes _ (List.mem_append_left _ hw)).rewrites (by rintro _ ⟨⟩)
  cases hinit : node.initializer with
  | none =>
      simp only [Node.mapExpressions, hinit]
      exact .pure
  | some e =>
      rw [hinit] at hg hnodes
      have hsame : g e = e := hg e ⟨_, List.mem_cons_self, .refl⟩
      simp only [Node.mapExpressions, hinit, Option.map_some, hsame]
      have hchild : Visit.expression e ∈ Node.children .variable node := by
        rw [Node.children, hinit]
        exact List.mem_append_right _ List.mem_cons_self
      refine .visitSlot h.owned
        ((hnodes _ (List.mem_append_right _ List.mem_cons_self)).gives e rfl) hget hchild
        (fun new node => { node with initializer := some new }) fun g new => ?_
      simp only [Node.mapExpressions, hinit, Option.map_some, Function.update_self]

theorem walkType {id : TypeId} (h : ChildrenReady rule a own below (.type id))
    (hhas : a.Has (.type id)) :
    Rewrites rule a own (walkType below id) (a.children (.type id)) := by
  obtain ⟨node, hget⟩ := exists_of_has id hhas
  have hchildren : a.children (.type id) = Node.children .type node := children_of_get? hget
  have hbeside := h.beside
  have hnodes := h.nodes
  rw [hchildren, Node.children] at hbeside hnodes ⊢
  refine .node_bind hget fun g hg => ?_
  cases hkind : node.kind with
  | array length element =>
      rw [hkind] at hbeside hnodes hg
      simp only [Node.mapExpressions, hkind, TypeKind.mapExpressions]
      have helement : Rewrites rule a own (visitOnly below (.type element)) [.type element] :=
        (hnodes _ (List.mem_append_right _ List.mem_cons_self)).rewrites (by rintro _ ⟨⟩)
      cases length with
      | none => exact helement
      | some e =>
          have hsame : g e = e := hg e ⟨_, List.mem_cons_self, .refl⟩
          have hchild : Visit.expression e ∈ Node.children .type node := by
            rw [Node.children, hkind]
            exact List.mem_cons_self
          refine .bind hbeside ?_ helement
          simp only [hsame]
          refine .visitSlot h.owned ((hnodes _ List.mem_cons_self).gives e rfl) hget hchild
            (fun new type => { type with kind := type.kind.setLength new }) fun g new => ?_
          simp only [Node.mapExpressions, hkind, TypeKind.mapExpressions, TypeKind.setLength,
            Option.map_some, Function.update_self]
  | record fields =>
      rw [hkind] at hbeside hnodes
      simp only [Node.mapExpressions, hkind, TypeKind.mapExpressions]
      exact .visitEach hbeside fun x hx => (hnodes _ (List.mem_map_of_mem hx)).rewrites (by rintro _ ⟨⟩)
  | named | integer | real | boolean =>
      simp only [Node.mapExpressions, hkind, TypeKind.mapExpressions]
      exact .pure

theorem walkBody {id : BodyId} (h : ChildrenReady rule a own below (.body id))
    (hhas : a.Has (.body id)) :
    Rewrites rule a own (walkBody below id) (a.children (.body id)) := by
  obtain ⟨node, hget⟩ := exists_of_has id hhas
  have hchildren : a.children (.body id) = Node.children .body node := children_of_get? hget
  have hbeside := h.beside
  rw [hchildren, Node.children] at hbeside ⊢
  refine .node_bind hget fun g _ => ?_
  refine .bind hbeside (h.visitEach_declarations hbeside.left fun d hd => ?_)
    (.visitEach hbeside.right fun x hx => (h.nodes _ ?_).rewrites (by rintro _ ⟨⟩))
  · rw [hchildren]
    exact List.mem_append_left _ (List.mem_map_of_mem hd)
  · rw [hchildren]
    exact List.mem_append_right _ (List.mem_map_of_mem hx)

theorem walkStatement {id : StatementId} (h : ChildrenReady rule a own below (.statement id))
    (hhas : a.Has (.statement id)) :
    Rewrites rule a own (walkStatement below id) (a.children (.statement id)) := by
  obtain ⟨node, hget⟩ := exists_of_has id hhas
  have hchildren : a.children (.statement id) = Node.children .statement node :=
    children_of_get? hget
  have hbeside := h.beside
  have hnodes := h.nodes
  rw [hchildren, Node.children, List.append_assoc] at hbeside hnodes ⊢
  refine .bind hbeside (.node_bind hget fun g hg => ?_) (.node_bind hget fun g _ => ?_)
  · have hsame : (Node.mapExpressions g .statement node).kind.expressions =
        node.kind.expressions :=
      (StatementKind.expressions_mapExpressions node.kind).trans (map_eq_self hg)
    rw [hsame]
    exact h.slots hget (fun i new statement =>
        { statement with kind := statement.kind.setExpression i new }) hbeside.left
      (fun e he => List.mem_append_left _ (List.mem_append_left _ (List.mem_map_of_mem he)))
      fun e i hslot g new => congrArg (Statement.mk node.span)
        (StatementKind.setExpression_mapExpressions (.of_map _ hbeside.left.nodup) hslot)
  · simp only [Node.mapExpressions, StatementKind.counter?_mapExpressions,
      StatementKind.bodies_mapExpressions]
    refine .bind hbeside.right (.visitOptional fun w hw => ?_)
      (.visitEach hbeside.right.right fun x hx => ?_)
    · obtain ⟨x, -, rfl⟩ := List.mem_map.1 hw
      exact (hnodes _ (List.mem_append_right _ (List.mem_append_left _ hw))).rewrites (by rintro _ ⟨⟩)
    · exact (hnodes _ (List.mem_append_right _ (List.mem_append_right _
        (List.mem_map_of_mem hx)))).rewrites (by rintro _ ⟨⟩)

theorem walkExpression {id : ExpressionId} (h : ChildrenReady rule a own below (.expression id))
    (hhas : a.Has (.expression id)) :
    Rewrites rule a own (walkExpression below id) (a.children (.expression id)) := by
  obtain ⟨node, hget⟩ := exists_of_has id hhas
  have hchildren : a.children (.expression id) = Node.children .expression node :=
    children_of_get? hget
  have hbeside := h.beside
  rw [hchildren, Node.children] at hbeside ⊢
  refine .node_bind hget fun g hg => ?_
  have hsame : (Node.mapExpressions g .expression node).kind.operands = node.kind.operands :=
    (ExpressionKind.operands_mapExpressions node.kind).trans (map_eq_self hg)
  rw [hsame]
  exact h.slots hget (fun i new e => { e with kind := e.kind.setOperand i new }) hbeside
    (fun e he => List.mem_map_of_mem he)
    fun e i hslot g new => congrArg (Expression.mk node.span node.constant node.type)
      (ExpressionKind.setOperand_mapExpressions (.of_map _ hbeside.nodup) hslot)

/-- **The default walk gives all expressions below a node their turns.** -/
theorem walk (h : ChildrenReady rule a own below v) (hv : v = .program ∨ a.Has v) :
    Rewrites rule a own (walk below v) (a.children v) := by
  have hhas : v ≠ .program → a.Has v := hv.resolve_left
  cases v with
  | program =>
      have hwalk : Rewrites rule a own (visitEach below .declaration a.program.declarations)
          (a.children .program) :=
        h.visitEach_declarations h.beside fun d hd => List.mem_map_of_mem hd
      intro turns s hs hun
      obtain ⟨later, s', hrun, hdone⟩ := hwalk turns s hs hun
      refine ⟨later, s', runs_arena_bind.2 ?_, hdone⟩
      rw [hs.arena]
      exact hrun
  | declaration d =>
      obtain ⟨family, index, haddress, -⟩ := hhas nofun
      nomatch haddress
  | routine id => exact h.walkRoutine (hhas nofun)
  | «variable» id => exact h.walkVariable (hhas nofun)
  | typeDecl id =>
      obtain ⟨node, hget⟩ := exists_of_has id (hhas nofun)
      have hchildren : a.children (.typeDecl id) = [.type node.type] := children_of_get? hget
      have hnodes := h.nodes
      rw [hchildren] at hnodes ⊢
      exact .node_bind hget fun g _ => (hnodes _ List.mem_cons_self).rewrites nofun
  | type id => exact h.walkType (hhas nofun)
  | body id => exact h.walkBody (hhas nofun)
  | statement id => exact h.walkStatement (hhas nofun)
  | expression id => exact h.walkExpression (hhas nofun)

end ChildrenReady

/-! ### Layers -/

/-- A node other than an expression is visited as by default. -/
theorem rewrites_layer (hv : ∀ e, v ≠ .expression e)
    (hwalk : Rewrites rule a own (walk below v) (a.children v)) :
    Rewrites rule a own (discard (rewriter rule below v)) [v] := by
  intro turns s hs hun
  have hunder : ∀ e, a.Under [v] (.expression e) ↔ a.Under (a.children v) (.expression e) :=
    fun e => by rw [under_single, reaches_iff, or_iff_right (hv e)]
  obtain ⟨later, s', hrun, hs', hbelow⟩ := hwalk turns s hs fun e he => hun e ((hunder e).2 he)
  refine ⟨later, s', runs_discard.2 ⟨none, runs_bind.2 ⟨(), s', hrun, ?_⟩⟩, hs', fun e =>
    (hbelow e).trans (hunder e).symm⟩
  cases v with
  | expression e => exact absurd rfl (hv e)
  | _ => exact runs_pure.2 ⟨rfl, rfl⟩

/-- **The turn of an expression** comes when its operands had theirs. -/
theorem gives_layer (hhas : a.Has (.expression e))
    (hacyclic : ¬ a.Under (a.children (.expression e)) (.expression e))
    (hwalk : Rewrites rule a own (walk below (.expression e)) (a.children (.expression e))) :
    Gives rule a own (rewriter rule below) e := by
  intro turns s hs hun
  have hunder : ∀ x, a.Under [.expression e] (.expression x) ↔
      e = x ∨ a.Under (a.children (.expression e)) (.expression x) := fun x => by
    rw [under_single, reaches_iff, Visit.expression.injEq]
  obtain ⟨later, s₁, hrun, hs₁, hbelow⟩ := hwalk turns s hs fun x hx =>
    hun x ((hunder x).2 (Or.inr hx))
  obtain ⟨node, hget⟩ := exists_of_has e hhas
  have hread : s₁.arena.get? e =
      some (Node.mapExpressions (a.swap (turns ++ later)) .expression node) := by
    rw [hs₁.arena]
    exact get?_rewritten hget
  cases hrule : rule s₁.own s₁.arena e
    (Node.mapExpressions (a.swap (turns ++ later)) .expression node) with
  | mk given next =>
  have hturn : Rewriting rule a own (turns ++ later ++ [⟨e, given⟩]) next := by
    refine .turn hs₁.run hget ?_ (fun operand hoperand => ?_) (by rw [← hs₁.arena]; exact hrule)
    · rw [List.map_append, List.mem_append, not_or]
      exact ⟨hun e ((hunder e).2 (Or.inl rfl)), fun hmem => hacyclic ((hbelow e).1 hmem)⟩
    · rw [List.map_append, List.mem_append]
      refine Or.inr ((hbelow operand).2 ⟨_, ?_, .refl⟩)
      rw [Visit.expression_eq e, children_of_get? hget]
      exact List.mem_map_of_mem hoperand
  have hall : TurnsBelow a [.expression e] (later ++ [⟨e, given⟩]) := by
    intro x
    rw [List.map_append, List.mem_append, hbelow x, hunder x, or_comm, List.map_singleton,
      List.mem_singleton, @eq_comm _ x]
  cases given with
  | none =>
      refine ⟨later, ⟨e, none⟩, none, { s₁ with own := next }, ?_, rfl, hturn, hall, rfl, hs₁.arena⟩
      refine runs_bind.2 ⟨(), s₁, hrun, runs_node_bind.2 ⟨_, hread, runs_get_bind.2 ?_⟩⟩
      simp only [hrule]
      exact runs_updateOwn_bind.2 (runs_pure.2 ⟨rfl, rfl⟩)
  | some new =>
      refine ⟨later, ⟨e, some new⟩, some (s₁.arena.add .expression new).1,
        WalkState.added { s₁ with own := next } .expression new, ?_, rfl, hturn, hall, ?_, ?_⟩
      · refine runs_bind.2 ⟨(), s₁, hrun, runs_node_bind.2 ⟨_, hread, runs_get_bind.2 ?_⟩⟩
        simp only [hrule]
        exact runs_updateOwn_bind.2 (runs_map.2 ⟨_, runs_add.2 ⟨rfl, rfl⟩, rfl⟩)
      · rw [hs₁.arena]
      · rw [← hs₁.arena]
        rfl

section

variable {nodes : List Visit} {n k : Nat}

/-- A layer of the visitor handles a node if its children are ready. -/
theorem handles_layer (hforest : a.IsForest nodes) (hreaches : a.Reaches .program v)
    (hhas : a.Has v) (h : ChildrenReady rule a own (visitWithin (rewriter rule) n) v) :
    Handles rule a own (visitWithin (rewriter rule) (n + 1)) v where
  gives := by
    rintro e rfl
    exact gives_layer hhas (hforest.not_under_children hreaches) (h.walk (Or.inr hhas))
  rewrites hv := rewrites_layer hv (h.walk (Or.inr hhas))

theorem rewrites_declaration {d : Declaration}
    (h : Handles rule a own (visitWithin (rewriter rule) n) d.visit) :
    Rewrites rule a own (visitOnly (visitWithin (rewriter rule) (n + 1)) (.declaration d))
      [d.visit] := by
  have hd : Rewrites rule a own (ProcLang.walk (visitWithin (rewriter rule) n) (.declaration d))
      [d.visit] := by
    cases d <;> exact h.rewrites nofun
  intro turns s hs hun
  obtain ⟨later, s', hrun, hdone⟩ := hd turns s hs hun
  exact ⟨later, s', runs_discard.2 ⟨none, runs_bind.2 ⟨(), s', hrun, runs_pure.2 ⟨rfl, rfl⟩⟩⟩,
    hdone⟩

/-- **Two layers for each node are enough.** -/
theorem handles_visitWithin (howned : a.Owned) (hforest : a.IsForest nodes)
    (hreaches : a.Reaches .program v) (hwithin : a.Within k v) (hlayers : 2 * k ≤ n) :
    Handles rule a own (visitWithin (rewriter rule) n) v := by
  induction k generalizing v n with
  | zero => exact hwithin.elim
  | succ k ih =>
      obtain ⟨n, rfl⟩ :=
        Nat.exists_eq_add_of_le' (Nat.le_trans (by omega : 2 ≤ 2 * (k + 1)) hlayers)
      obtain ⟨below, hbelow, hnodup⟩ := hforest.exists_below hreaches
      refine handles_layer hforest hreaches hwithin.1
        ⟨howned, ⟨below, hbelow, (List.nodup_cons.1 hnodup).2⟩, fun w hw => ?_, fun d hd => ?_⟩
      · exact ih (hreaches.tail hw) (hwithin.child hw) (by omega)
      · exact rewrites_declaration (ih (hreaches.tail hd) (hwithin.child hd) (by omega))

/-- The layers that a walk has are enough. -/
theorem rewrites_visit (howned : a.Owned) (hforest : a.IsForest nodes) :
    Rewrites rule a own (discard (visitWithin (rewriter rule) a.depthBound .program))
      [.program] := by
  have hready :
      ChildrenReady rule a own (visitWithin (rewriter rule) (2 * a.size + 1)) .program := by
    refine ⟨howned, ⟨nodes, hforest.spans, hforest.nodup⟩, fun w hw => ?_, fun d hd => ?_⟩
    · exact handles_visitWithin howned hforest (.single hw) (hforest.within w hw) (by omega)
    · exact rewrites_declaration
        (handles_visitWithin howned hforest (.single hd) (hforest.within _ hd) (Nat.le_refl _))
  exact rewrites_layer nofun (hready.walk (Or.inl rfl))

end

end WalkM

open WalkM

/-- **A rewriter on a whole program.** -/
theorem exists_walkProgram_rewriter {a : Arena} {nodes : List Visit} (howned : a.Owned)
    (hforest : a.IsForest nodes) (rule : RewritingRule σ) (own : σ) :
    ∃ turns final, a.walkProgram (rewriter rule) () own = .ok final ∧
      final.arena = a.rewritten turns ∧ Rewriting rule a own turns final.own ∧
      ∀ e, e ∈ turns.map Turn.visited ↔ a.Reaches .program (.expression e) := by
  have hstart : Going rule a own [] ⟨a, #[], #[], own⟩ := ⟨a.rewritten_nil.symm, .start⟩
  obtain ⟨turns, final, hrun, hfinal, hall⟩ := rewrites_visit howned hforest [] _ hstart
    fun _ _ => List.not_mem_nil
  obtain ⟨r, hrun⟩ := runs_discard.1 hrun
  refine ⟨turns, final, walkProgram_eq_ok.2 ⟨r, runs_arena_bind.2 hrun⟩, hfinal.arena, hfinal.run,
    fun e => (hall e).trans under_single⟩

/-- A rule without a state does to a tree what its turns do. -/
theorem exists_replaceAll {a : Arena} {nodes : List Visit} (howned : a.Owned)
    (hforest : a.IsForest nodes) (rule : ReplacementRule) :
    ∃ turns, a.replaceAll rule = .ok (a.rewritten turns) ∧
      Rewriting (fun _ _ id e => (rule id e, ())) a () turns () ∧
      ∀ e, e ∈ turns.map Turn.visited ↔ a.Reaches .program (.expression e) := by
  obtain ⟨turns, final, hwalk, harena, hrun, hall⟩ :=
    exists_walkProgram_rewriter howned hforest (fun _ _ id e => (rule id e, ())) ()
  refine ⟨turns, ?_, hrun, hall⟩
  rw [replaceAll, replacer_eq_rewriter, hwalk, ← harena]
  rfl

namespace Parser

/-- **Replacement through the visitor is a bottom-up rewriting of the tree.** For every rule,
walking the program with its rewriter comes to its end. The expressions of the program have one turn
each, after their operands, and no others have one. Then the nodes of the source are as they were
but for their slots: where an expression stood that was visited, there is what was given in its
turn, or the expression itself if nothing was given. -/
theorem walkProgram_rewriter (source : String) (h : (parse source).errors = [])
    (rule : RewritingRule σ) (own : σ) :
    ∃ turns final,
      (parse source).arena.walkProgram (rewriter rule) () own = .ok final ∧
      final.arena = (parse source).arena.rewritten turns ∧
      Rewriting rule (parse source).arena own turns final.own ∧
      (turns.map Turn.visited).Nodup ∧
      (∀ e, e ∈ turns.map Turn.visited ↔ (parse source).arena.Reaches .program (.expression e)) ∧
      ∀ t ∈ turns, match t.given with
        | none => (parse source).arena.swap turns t.visited = t.visited
        | some new => final.arena.get? ((parse source).arena.swap turns t.visited) = some new := by
  obtain ⟨all, htree⟩ := parse_isTree source h
  obtain ⟨turns, final, hwalk, harena, hrun, hall⟩ := exists_walkProgram_rewriter htree.owned
    htree.isForest rule own
  refine ⟨turns, final, hwalk, harena, hrun, hrun.nodup, hall, fun t ht => ?_⟩
  cases hgiven : t.given with
  | none => exact Turn.swap_of_none hrun.nodup ht hgiven
  | some new => exact harena ▸ get?_swap hrun.nodup ht hgiven

/-- Zero takes the place of the names, and the rewriter counts them. -/
theorem walkProgram_rewriter_names :
    (parse "var v is a + f(b)").errors = [] ∧
    ∃ turns final,
      (parse "var v is a + f(b)").arena.walkProgram (rewriter fun count _ id e =>
        (zeroRule id e, count + (zeroRule id e).toList.length)) () 0 = .ok final ∧
      final.arena = (parse "var v is a + f(b)").arena.rewritten turns ∧
      Rewriting (fun count _ id e => (zeroRule id e, count + (zeroRule id e).toList.length))
        (parse "var v is a + f(b)").arena 0 turns final.own ∧
      (turns.map Turn.visited).Nodup ∧
      (∀ e, e ∈ turns.map Turn.visited ↔
        (parse "var v is a + f(b)").arena.Reaches .program (.expression e)) ∧
      ∀ t ∈ turns, match t.given with
        | none => (parse "var v is a + f(b)").arena.swap turns t.visited = t.visited
        | some new =>
            final.arena.get? ((parse "var v is a + f(b)").arena.swap turns t.visited) = some new :=
  have hparse : (parse "var v is a + f(b)").errors = [] := by decide +kernel
  ⟨hparse, walkProgram_rewriter _ hparse _ _⟩

end Parser

end ProcLang
