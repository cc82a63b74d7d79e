import ProcLang.Proofs.Tree.Height
import ProcLang.Proofs.Typing.Refinement
import ProcLang.Proofs.Walk.Runs

/-!
# ProcLang.Proofs.Walk.Total

**Walks that come to their end.** Let `I` be an invariant under which a tree only ever becomes a
refinement of the tree `a`, and let the visit of a node `w`, which replaces nothing, do what `P w`
says. If all children of a node can be visited, then the default walk visits them one after the other
(`Ready.exists_walk`); so a visitor that can go on at each node can go on through the whole tree
(`Proceeds.visit`), since no tree has more layers than the bound allows. A visitor `GoesOn` if besides
it passes over entries in lists of declarations.
-/

namespace ProcLang

open Arena

namespace WalkM

variable {κ σ α : Type} {a : Arena} {I : WalkState σ → Prop}
  {P : Visit → WalkState σ → WalkState σ → Prop}
  {below : Visit → WalkM κ σ (Option ExpressionId)} {c : κ} {s s₁ s' : WalkState σ}
  {v w : Visit} {vs ws : List Visit}

/-! ### One after the other -/

/-- Nodes are visited one after the other. -/
inductive InTurn (P : Visit → WalkState σ → WalkState σ → Prop) :
    List Visit → WalkState σ → WalkState σ → Prop
  | nil (s : WalkState σ) : InTurn P [] s s
  | cons {w : Visit} {ws : List Visit} {s s₁ s' : WalkState σ} (first : P w s s₁)
      (others : InTurn P ws s₁ s') : InTurn P (w :: ws) s s'

theorem InTurn.append (h₁ : InTurn P vs s s₁) (h₂ : InTurn P ws s₁ s') :
    InTurn P (vs ++ ws) s s' := by
  induction h₁ with
  | nil => exact h₂
  | cons first _ ih => exact .cons first (ih h₂)

theorem InTurn.single (h : P w s s') : InTurn P [w] s s' := .cons h (.nil s')

/-- In a context a node can be visited, and nothing takes its place. -/
def VisitsIn (c : κ) (I : WalkState σ → Prop) (P : Visit → WalkState σ → WalkState σ → Prop)
    (below : Visit → WalkM κ σ (Option ExpressionId)) (w : Visit) : Prop :=
  ∀ s, I s → ∃ s', Runs (below w) c s none s' ∧ I s' ∧ P w s s'

/-- A node can be visited in any context, and nothing takes its place. -/
def Visits (I : WalkState σ → Prop) (P : Visit → WalkState σ → WalkState σ → Prop)
    (below : Visit → WalkM κ σ (Option ExpressionId)) (w : Visit) : Prop :=
  ∀ c s, I s → ∃ s', Runs (below w) c s none s' ∧ I s' ∧ P w s s'

/-- A part of a walk visits nodes one after the other. -/
def Turns (I : WalkState σ → Prop) (P : Visit → WalkState σ → WalkState σ → Prop)
    (m : WalkM κ σ Unit) (c : κ) (ws : List Visit) (s : WalkState σ) : Prop :=
  ∃ s', Runs m c s () s' ∧ I s' ∧ InTurn P ws s s'

theorem Turns.bind {m : WalkM κ σ Unit} {f : Unit → WalkM κ σ Unit} (hm : Turns I P m c vs s)
    (hf : ∀ s, I s → Turns I P (f ()) c ws s) : Turns I P (m >>= f) c (vs ++ ws) s := by
  obtain ⟨s₁, hrun, hs₁, hvs⟩ := hm
  obtain ⟨s', hrun', hs', hws⟩ := hf s₁ hs₁
  exact ⟨s', runs_bind.2 ⟨(), s₁, hrun, hrun'⟩, hs', hvs.append hws⟩

theorem Turns.node_bind {family : Family} {id : NodeId family} {node : Node family}
    {f : Node family → WalkM κ σ Unit} (hget : s.arena.get? id = some node)
    (hf : Turns I P (f node) c ws s) : Turns I P (WalkM.node id >>= f) c ws s := by
  obtain ⟨s', hrun, hdone⟩ := hf
  exact ⟨s', runs_node_bind.2 ⟨node, hget, hrun⟩, hdone⟩

theorem Turns.pure (hs : I s) : Turns I P (pure () : WalkM κ σ Unit) c [] s :=
  ⟨s, runs_pure.2 ⟨rfl, rfl⟩, hs, .nil s⟩

theorem turns_visitOnly (h : VisitsIn c I P below w) (hs : I s) :
    Turns I P (visitOnly below w) c [w] s := by
  obtain ⟨s', hrun, hs', hP⟩ := h s hs
  exact ⟨s', runs_discard.2 ⟨none, hrun⟩, hs', .single hP⟩

theorem turns_visitSlot {e : ExpressionId} {store : ExpressionId → WalkM κ σ Unit}
    (h : VisitsIn c I P below (.expression e)) (hs : I s) :
    Turns I P (visitSlot below e store) c [.expression e] s := by
  obtain ⟨s', hrun, hs', hP⟩ := h s hs
  exact ⟨s', runs_bind.2 ⟨none, s', hrun, runs_pure.2 ⟨rfl, rfl⟩⟩, hs', .single hP⟩

theorem turns_visitOptional {f : α → Visit} {x : Option α}
    (h : ∀ w ∈ x.toList.map f, VisitsIn c I P below w) (hs : I s) :
    Turns I P (visitOptional below f x) c (x.toList.map f) s := by
  cases x with
  | none => exact .pure hs
  | some y => exact turns_visitOnly (h _ List.mem_cons_self) hs

theorem turns_forM {xs : List α} {m : α → WalkM κ σ PUnit} {f : α → Visit}
    (h : ∀ x ∈ xs, ∀ s, I s → Turns I P (m x) c [f x] s) (hs : I s) :
    Turns I P (xs.forM m) c (xs.map f) s := by
  induction xs generalizing s with
  | nil => exact ⟨s, runs_forM_nil.2 rfl, hs, .nil s⟩
  | cons x rest ih =>
      obtain ⟨s₁, hrun, hs₁, hfirst⟩ := h x List.mem_cons_self s hs
      obtain ⟨s', hrest, hs', hothers⟩ := ih (fun y hy => h y (List.mem_cons_of_mem _ hy)) hs₁
      exact ⟨s', runs_forM_cons.2 ⟨s₁, hrun, hrest⟩, hs', hfirst.append hothers⟩

theorem turns_visitEach {f : α → Visit} {xs : List α}
    (h : ∀ x ∈ xs, VisitsIn c I P below (f x)) (hs : I s) :
    Turns I P (visitEach below f xs) c (xs.map f) s :=
  turns_forM (fun x hx _ hs => turns_visitOnly (h x hx) hs) hs

/-! ### The default walk -/

/-- In a context all children of a node can be visited, also as entries in a list of declarations. -/
structure ReadyIn (c : κ) (a : Arena) (I : WalkState σ → Prop)
    (P : Visit → WalkState σ → WalkState σ → Prop)
    (below : Visit → WalkM κ σ (Option ExpressionId)) (v : Visit) : Prop where
  refined : ∀ {s}, I s → a.RefinedBy s.arena
  nodes : ∀ w ∈ a.children v, VisitsIn c I P below w
  declarations : ∀ d : Declaration, d.visit ∈ a.children v →
    VisitsIn c I (fun _ => P d.visit) below (.declaration d)

/-- All children of a node can be visited, also as entries in a list of declarations. -/
structure Ready (a : Arena) (I : WalkState σ → Prop)
    (P : Visit → WalkState σ → WalkState σ → Prop)
    (below : Visit → WalkM κ σ (Option ExpressionId)) (v : Visit) : Prop where
  refined : ∀ {s}, I s → a.RefinedBy s.arena
  nodes : ∀ w ∈ a.children v, Visits I P below w
  declarations : ∀ d : Declaration, d.visit ∈ a.children v →
    Visits I (fun _ => P d.visit) below (.declaration d)

/-- A node other than an expression is as it was. -/
theorem exists_kept_node (hrefined : ∀ {s}, I s → a.RefinedBy s.arena) {family : Family}
    (id : NodeId family) (hfamily : family ≠ .expression) (hhas : a.Has (Visit.of id)) :
    ∃ node, a.get? id = some node ∧ ∀ {s}, I s → s.arena.get? id = some node := by
  obtain ⟨node, hget⟩ := hhas.exists_get?
  exact ⟨node, hget, fun hs => ((hrefined hs).get?_eq family hfamily id).trans hget⟩

namespace ReadyIn

theorem exists_node (h : ReadyIn c a I P below v) {family : Family} (id : NodeId family)
    (hfamily : family ≠ .expression) (hhas : a.Has (Visit.of id)) : ∃ node, a.get? id = some node ∧
      ∀ {s}, I s → s.arena.get? id = some node :=
  exists_kept_node h.refined id hfamily hhas

theorem visitEach_declarations (h : ReadyIn c a I P below v) {ds : List Declaration}
    (hmem : ∀ d ∈ ds, d.visit ∈ a.children v) (hs : I s) :
    Turns I P (visitEach below .declaration ds) c (ds.map Declaration.visit) s := by
  refine turns_forM (fun d hd s hs => ?_) hs
  obtain ⟨s', hrun, hs', hP⟩ := h.declarations d (hmem d hd) s hs
  exact ⟨s', runs_discard.2 ⟨none, hrun⟩, hs', .single hP⟩

theorem slots {es : List ExpressionId} {m : ExpressionId × Nat → ExpressionId → WalkM κ σ Unit}
    (hes : ∀ e ∈ es, VisitsIn c I P below (.expression e)) (hs : I s) :
    Turns I P (es.zipIdx.forM fun p => visitSlot below p.1 (m p)) c (es.map Visit.expression) s := by
  have hmap : es.map Visit.expression = es.zipIdx.map fun p => Visit.expression p.1 := by
    rw [show (fun p : ExpressionId × Nat => Visit.expression p.1) = Visit.expression ∘ Prod.fst from
      rfl, ← List.map_map, List.zipIdx_map_fst]
  rw [hmap]
  exact turns_forM (fun p hp _ hs => turns_visitSlot (hes p.1 (List.fst_mem_of_mem_zipIdx hp)) hs) hs

theorem walkRoutine {id : RoutineId} (h : ReadyIn c a I P below (.routine id))
    (hhas : a.Has (.routine id)) (hs : I s) :
    Turns I P (walkRoutine below id) c (a.children (.routine id)) s := by
  obtain ⟨node, hget, hread⟩ := h.exists_node id (by decide) hhas
  have hchildren : a.children (.routine id) = Node.children .routine node := children_of_get? hget
  have hnodes := h.nodes
  rw [hchildren] at hnodes ⊢
  rw [Node.children, List.append_assoc] at hnodes ⊢
  refine .node_bind (hread hs) ?_
  refine (turns_visitEach (fun x hx => hnodes _ ?_) hs).bind fun s hs => ?_
  · exact List.mem_append_left _ (List.mem_map_of_mem hx)
  refine (turns_visitOptional (fun w hw => hnodes w ?_) hs).bind fun s hs => ?_
  · exact List.mem_append_right _ (List.mem_append_left _ hw)
  exact turns_visitOnly
    (hnodes _ (List.mem_append_right _ (List.mem_append_right _ List.mem_cons_self))) hs

theorem walkVariable {id : VariableId} (h : ReadyIn c a I P below (.variable id))
    (hhas : a.Has (.variable id)) (hs : I s) :
    Turns I P (walkVariable below id) c (a.children (.variable id)) s := by
  obtain ⟨node, hget, hread⟩ := h.exists_node id (by decide) hhas
  have hchildren : a.children (.variable id) = Node.children .variable node :=
    children_of_get? hget
  have hnodes := h.nodes
  rw [hchildren] at hnodes ⊢
  rw [Node.children] at hnodes ⊢
  refine .node_bind (hread hs) ?_
  refine (turns_visitOptional (fun w hw => hnodes w ?_) hs).bind fun s hs =>
    .node_bind (hread hs) ?_
  · exact List.mem_append_left _ hw
  cases hinit : node.initializer with
  | none => exact .pure hs
  | some e =>
      refine turns_visitSlot (hnodes _ (List.mem_append_right _ ?_)) hs
      rw [hinit]
      exact List.mem_cons_self

theorem walkType {id : TypeId} (h : ReadyIn c a I P below (.type id)) (hhas : a.Has (.type id))
    (hs : I s) : Turns I P (walkType below id) c (a.children (.type id)) s := by
  obtain ⟨node, hget, hread⟩ := h.exists_node id (by decide) hhas
  have hchildren : a.children (.type id) = Node.children .type node := children_of_get? hget
  have hnodes := h.nodes
  rw [hchildren] at hnodes ⊢
  rw [Node.children] at hnodes ⊢
  refine .node_bind (hread hs) ?_
  cases hkind : node.kind with
  | array length element =>
      rw [hkind] at hnodes
      have helement : ∀ s, I s → Turns I P (visitOnly below (.type element)) c [.type element] s :=
        fun s hs => turns_visitOnly (hnodes _ (List.mem_append_right _ List.mem_cons_self)) hs
      cases length with
      | none => exact helement s hs
      | some e => exact (turns_visitSlot (hnodes _ List.mem_cons_self) hs).bind helement
  | record fields =>
      rw [hkind] at hnodes
      exact turns_visitEach (fun x hx => hnodes _ (List.mem_map_of_mem hx)) hs
  | named | integer | real | boolean => exact .pure hs

theorem walkBody {id : BodyId} (h : ReadyIn c a I P below (.body id)) (hhas : a.Has (.body id))
    (hs : I s) : Turns I P (walkBody below id) c (a.children (.body id)) s := by
  obtain ⟨node, hget, hread⟩ := h.exists_node id (by decide) hhas
  have hchildren : a.children (.body id) = Node.children .body node := children_of_get? hget
  have hchild : ∀ w ∈ Node.children .body node, w ∈ a.children (.body id) := by simp [hchildren]
  rw [hchildren, Node.children]
  refine .node_bind (hread hs) ?_
  refine (h.visitEach_declarations (fun d hd => hchild _ ?_) hs).bind fun s hs => ?_
  · exact List.mem_append_left _ (List.mem_map_of_mem hd)
  · refine turns_visitEach (fun x hx => h.nodes _ (hchild _ ?_)) hs
    exact List.mem_append_right _ (List.mem_map_of_mem hx)

theorem walkStatement {id : StatementId} (h : ReadyIn c a I P below (.statement id))
    (hhas : a.Has (.statement id)) (hs : I s) :
    Turns I P (walkStatement below id) c (a.children (.statement id)) s := by
  obtain ⟨node, hget, hread⟩ := h.exists_node id (by decide) hhas
  have hchildren : a.children (.statement id) = Node.children .statement node :=
    children_of_get? hget
  have hnodes := h.nodes
  rw [hchildren] at hnodes ⊢
  rw [Node.children, List.append_assoc] at hnodes ⊢
  have hexpressions : Turns I P (walkStatementExpressions below id) c
      (node.kind.expressions.map Visit.expression) s := by
    exact .node_bind (hread hs) (slots (fun e he =>
      hnodes _ (List.mem_append_left _ (List.mem_map_of_mem he))) hs)
  refine hexpressions.bind fun s hs => .node_bind (hread hs) ?_
  refine (turns_visitOptional (fun w hw => hnodes w ?_) hs).bind fun s hs => ?_
  · exact List.mem_append_right _ (List.mem_append_left _ hw)
  · exact turns_visitEach (fun x hx => hnodes _
      (List.mem_append_right _ (List.mem_append_right _ (List.mem_map_of_mem hx)))) hs

theorem walkExpression {id : ExpressionId} (h : ReadyIn c a I P below (.expression id))
    (hhas : a.Has (.expression id)) (hs : I s) :
    Turns I P (walkExpression below id) c (a.children (.expression id)) s := by
  obtain ⟨node, hget⟩ := exists_of_has id hhas
  obtain ⟨node', hget', hrefined⟩ := (h.refined hs).expressions id node hget
  have hchildren : a.children (.expression id) = node'.kind.operands.map Visit.expression := by
    rw [hrefined.operands]
    exact children_of_get? hget
  have hnodes := h.nodes
  rw [hchildren] at hnodes ⊢
  exact .node_bind hget' (slots (fun e he => hnodes _ (List.mem_map_of_mem he)) hs)

/-- **The default walk visits all children, one after the other.** -/
theorem exists_walk (h : ReadyIn c a I P below v) (hv : v = .program ∨ a.Has v) (hs : I s) :
    Turns I P (walk below v) c (a.children v) s := by
  have hhas : v ≠ .program → a.Has v := hv.resolve_left
  cases v with
  | program =>
      have hprogram := (h.refined hs).program
      have hturns : Turns I P (visitEach below .declaration a.program.declarations) c
          (a.children .program) s :=
        h.visitEach_declarations (fun d hd => List.mem_map_of_mem hd) hs
      rw [← hprogram] at hturns
      exact hturns
  | declaration d =>
      obtain ⟨family, index, haddress, -⟩ := hhas nofun
      nomatch haddress
  | routine id => exact h.walkRoutine (hhas nofun) hs
  | «variable» id => exact h.walkVariable (hhas nofun) hs
  | typeDecl id =>
      obtain ⟨node, hget, hread⟩ := h.exists_node id nofun (hhas nofun)
      have hchildren : a.children (.typeDecl id) = [.type node.type] := children_of_get? hget
      have hnodes := h.nodes
      rw [hchildren] at hnodes ⊢
      exact .node_bind (hread hs) (turns_visitOnly (hnodes _ List.mem_cons_self) hs)
  | type id => exact h.walkType (hhas nofun) hs
  | body id => exact h.walkBody (hhas nofun) hs
  | statement id => exact h.walkStatement (hhas nofun) hs
  | expression id => exact h.walkExpression (hhas nofun) hs

end ReadyIn

namespace Ready

theorem readyIn (h : Ready a I P below v) (c : κ) : ReadyIn c a I P below v :=
  ⟨h.refined, fun w hw => h.nodes w hw c, fun d hd => h.declarations d hd c⟩

theorem exists_node (h : Ready a I P below v) {family : Family} (id : NodeId family)
    (hfamily : family ≠ .expression) (hhas : a.Has (Visit.of id)) : ∃ node, a.get? id = some node ∧
      ∀ {s}, I s → s.arena.get? id = some node :=
  exists_kept_node h.refined id hfamily hhas

/-- In any context the default walk visits all children. -/
theorem exists_walk (h : Ready a I P below v) (hv : v = .program ∨ a.Has v) (hs : I s) :
    Turns I P (walk below v) c (a.children v) s :=
  (h.readyIn c).exists_walk hv hs

end Ready

/-- Walking on is going on. -/
theorem visits_walkThrough (hready : Ready a I P below v) (hv : v = .program ∨ a.Has v) (c : κ)
    (s : WalkState σ) (hs : I s) : ∃ s', Runs (walkThrough below v) c s none s' ∧ I s' ∧ True := by
  obtain ⟨s₁, hwalk, hs₁, -⟩ := hready.exists_walk (c := c) hv hs
  exact ⟨s₁, runs_bind.2 ⟨(), s₁, hwalk, runs_pure.2 ⟨rfl, rfl⟩⟩, hs₁, trivial⟩

/-! ### Layers -/

/-- All that is below a node can be visited in the contexts that are right for it. -/
structure ReadyWhere (ok : κ → Visit → Prop) (a : Arena) (I : WalkState σ → Prop)
    (P : Visit → WalkState σ → WalkState σ → Prop)
    (below : Visit → WalkM κ σ (Option ExpressionId)) (v : Visit) : Prop where
  refined : ∀ {s}, I s → a.RefinedBy s.arena
  nodes : ∀ w, a.Contains v w → ∀ c, ok c w → VisitsIn c I P below w
  declarations : ∀ d : Declaration, a.Contains v d.visit → ∀ c, ok c d.visit →
    VisitsIn c I (fun _ => P d.visit) below (.declaration d)

namespace ReadyWhere

variable {ok : κ → Visit → Prop}

theorem child (h : ReadyWhere ok a I P below v) (hw : w ∈ a.children v) (hok : ok c w) :
    VisitsIn c I P below w :=
  h.nodes w (.single hw) c hok

theorem readyIn (h : ReadyWhere ok a I P below v) (hok : ∀ w ∈ a.children v, ok c w) :
    ReadyIn c a I P below v :=
  ⟨h.refined, fun w hw => h.child hw (hok w hw),
    fun d hd => h.declarations d (.single hd) c (hok _ hd)⟩

end ReadyWhere

/-- A visitor that can go on at each node of the program in the contexts that are right for the node,
and at an entry in a list of declarations if it can go on at what the entry leads to. -/
structure ProceedsWhere (ok : κ → Visit → Prop) (a : Arena) (I : WalkState σ → Prop)
    (P : Visit → WalkState σ → WalkState σ → Prop) (visitor : Visitor κ σ) : Prop where
  refined : ∀ {s}, I s → a.RefinedBy s.arena
  entry : ∀ n (d : Declaration), (∀ c, ok c d.visit → VisitsIn c I P (visitWithin visitor n) d.visit) →
    ∀ c, ok c d.visit →
      VisitsIn c I (fun _ => P d.visit) (visitor (visitWithin visitor n)) (.declaration d)
  layer : ∀ n v c, ok c v → a.Reaches .program v → v = .program ∨ a.Has v →
    ReadyWhere ok a I P (visitWithin visitor n) v → VisitsIn c I P (visitor (visitWithin visitor n)) v

namespace ProceedsWhere

variable {ok : κ → Visit → Prop} {visitor : Visitor κ σ} {n k : Nat}

/-- **Two layers for each node are enough.** -/
theorem visitWithin (h : ProceedsWhere ok a I P visitor) (hok : ok c v)
    (hreaches : a.Reaches .program v) (hwithin : a.Within k v) (hlayers : 2 * k ≤ n) :
    VisitsIn c I P (visitWithin visitor n) v := by
  induction k generalizing v n c with
  | zero => exact hwithin.elim
  | succ k ih =>
      obtain ⟨n, rfl⟩ := Nat.exists_eq_add_of_le' (Nat.le_trans (by omega : 2 ≤ 2 * (k + 1)) hlayers)
      refine h.layer (n + 1) v c hok hreaches (Or.inr hwithin.1)
        ⟨h.refined, fun w hw c hc => ?_, fun d hd c hc => ?_⟩
      · exact ih hc (hreaches.trans hw.to_reflTransGen) (hwithin.of_contains hw) (by omega)
      · exact h.entry n d (fun c hc => ih hc (hreaches.trans hd.to_reflTransGen)
          (hwithin.of_contains hd) (by omega)) c hc

/-- All that is below the program can be visited. -/
theorem readyWhere (h : ProceedsWhere ok a I P visitor)
    (hbound : ∀ v ∈ a.children .program, a.Within a.size v) :
    ReadyWhere ok a I P (ProcLang.visitWithin visitor (2 * a.size + 1)) .program := by
  have hbelow : ∀ w, a.Contains .program w → a.Within a.size w := fun w hw => by
    obtain ⟨root, hroot, hreaches⟩ := Relation.TransGen.head'_iff.1 hw
    exact (hbound root hroot).of_reaches hreaches
  refine ⟨h.refined, fun w hw c hc => ?_, fun d hd => ?_⟩
  · exact h.visitWithin hc hw.to_reflTransGen (hbelow w hw) (by omega)
  · exact h.entry _ d fun c hc => h.visitWithin hc hd.to_reflTransGen (hbelow _ hd) (Nat.le_refl _)

/-- The layers that a walk has are enough for all that is below the program. -/
theorem visit (h : ProceedsWhere ok a I P visitor)
    (hbound : ∀ v ∈ a.children .program, a.Within a.size v) (hok : ok c v)
    (hreaches : a.Reaches .program v) : VisitsIn c I P (visit visitor) v := by
  intro s hs
  have hdepth : s.arena.depthBound = 2 * a.size + 2 := by
    rw [Arena.depthBound, (h.refined hs).size_eq]
  have hvisits : VisitsIn c I P (ProcLang.visitWithin visitor (2 * a.size + 2)) v := by
    rcases Relation.ReflTransGen.cases_head hreaches with rfl | ⟨root, hroot, hbelow⟩
    · exact h.layer _ _ c hok .refl (Or.inl rfl) (h.readyWhere hbound)
    · exact h.visitWithin hok hreaches ((hbound root hroot).of_reaches hbelow) (by omega)
  obtain ⟨s', hrun, hdone⟩ := hvisits s hs
  refine ⟨s', ?_, hdone⟩
  rw [ProcLang.visit, runs_arena_bind, hdepth]
  exact hrun

/-- **The walk over a program comes to its end.** -/
theorem exists_walkProgram (h : ProceedsWhere ok a I P visitor)
    (hbound : ∀ v ∈ a.children .program, a.Within a.size v) (hok : ok c .program) (b : Arena) (own : σ)
    (hs : I ⟨b, #[], #[], own⟩) :
    ∃ s, b.walkProgram visitor c own = .ok s ∧ I s ∧ P .program ⟨b, #[], #[], own⟩ s := by
  obtain ⟨s, hrun, hdone⟩ := h.visit hbound hok .refl _ hs
  exact ⟨s, walkProgram_eq_ok.2 ⟨none, hrun⟩, hdone⟩

end ProceedsWhere

/-- Walking on at an entry in a list of declarations is visiting what it leads to. -/
theorem visitsIn_declaration {d : Declaration} (h : VisitsIn c I P below d.visit) :
    VisitsIn c I (fun _ => P d.visit) (walkThrough below) (.declaration d) := by
  intro s hs
  obtain ⟨s', hrun, hs', hP⟩ := h s hs
  refine ⟨s', runs_bind.2 ⟨(), s', ?_, runs_pure.2 ⟨rfl, rfl⟩⟩, hs', hP⟩
  cases d <;> exact runs_discard.2 ⟨none, hrun⟩

/-- A visitor that can go on at each node of the program, and at an entry in a list of declarations if
it can go on at what the entry leads to. -/
structure Proceeds (a : Arena) (I : WalkState σ → Prop)
    (P : Visit → WalkState σ → WalkState σ → Prop) (visitor : Visitor κ σ) : Prop where
  refined : ∀ {s}, I s → a.RefinedBy s.arena
  entry : ∀ n (d : Declaration), Visits I P (visitWithin visitor n) d.visit →
    Visits I (fun _ => P d.visit) (visitor (visitWithin visitor n)) (.declaration d)
  layer : ∀ n v, a.Reaches .program v → v = .program ∨ a.Has v →
    Ready a I P (visitWithin visitor n) v → Visits I P (visitor (visitWithin visitor n)) v

namespace Proceeds

variable {visitor : Visitor κ σ} {n k : Nat}

/-- It can go on in all contexts. -/
theorem proceedsWhere (h : Proceeds a I P visitor) : ProceedsWhere (fun _ _ => True) a I P visitor where
  refined := h.refined
  entry n d hvisits c _ := h.entry n d (fun c => hvisits c trivial) c
  layer n v c _ hreaches hv hready := h.layer n v hreaches hv ⟨h.refined,
    fun _ hw _ => hready.child hw trivial,
    fun d hd c => hready.declarations d (.single hd) c trivial⟩ c

/-- The layers that a walk has are enough for all that is below the program. -/
theorem visit (h : Proceeds a I P visitor) (hbound : ∀ v ∈ a.children .program, a.Within a.size v)
    (hreaches : a.Reaches .program v) : Visits I P (visit visitor) v :=
  fun _ => h.proceedsWhere.visit hbound trivial hreaches

/-- **The walk over a program comes to its end.** -/
theorem exists_walkProgram (h : Proceeds a I P visitor)
    (hbound : ∀ v ∈ a.children .program, a.Within a.size v) (c : κ) (b : Arena) (own : σ)
    (hs : I ⟨b, #[], #[], own⟩) :
    ∃ s, b.walkProgram visitor c own = .ok s ∧ I s ∧ P .program ⟨b, #[], #[], own⟩ s :=
  h.proceedsWhere.exists_walkProgram hbound trivial b own hs

end Proceeds

/-- A visitor that can go on at each node of the program, and passes over entries in lists of
declarations. -/
structure GoesOn (a : Arena) (I : WalkState σ → Prop)
    (P : Visit → WalkState σ → WalkState σ → Prop) (visitor : Visitor κ σ) : Prop where
  refined : ∀ {s}, I s → a.RefinedBy s.arena
  declaration : ∀ below d, visitor below (.declaration d) = walkThrough below (.declaration d)
  layer : ∀ n v, a.Reaches .program v → v = .program ∨ a.Has v →
    Ready a I P (visitWithin visitor n) v → Visits I P (visitor (visitWithin visitor n)) v

namespace GoesOn

variable {visitor : Visitor κ σ}

/-- An entry in a list of declarations is one more layer. -/
theorem proceeds (h : GoesOn a I P visitor) : Proceeds a I P visitor where
  refined := h.refined
  entry n d hvisits c s hs := by
    rw [h.declaration]
    exact visitsIn_declaration (hvisits c) s hs
  layer := h.layer

/-- The layers that a walk has are enough for all that is below the program. -/
theorem visit (h : GoesOn a I P visitor) (hbound : ∀ v ∈ a.children .program, a.Within a.size v)
    (hreaches : a.Reaches .program v) : Visits I P (visit visitor) v :=
  h.proceeds.visit hbound hreaches

/-- **The walk over a program comes to its end.** -/
theorem exists_walkProgram (h : GoesOn a I P visitor)
    (hbound : ∀ v ∈ a.children .program, a.Within a.size v) (c : κ) (b : Arena) (own : σ)
    (hs : I ⟨b, #[], #[], own⟩) :
    ∃ s, b.walkProgram visitor c own = .ok s ∧ I s ∧ P .program ⟨b, #[], #[], own⟩ s :=
  h.proceeds.exists_walkProgram hbound c b own hs

end GoesOn

end WalkM

end ProcLang
