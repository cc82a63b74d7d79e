import ProcLang.Proofs.Tree.Forest
import ProcLang.Proofs.Walk.Runs

/-!
# ProcLang.Proofs.Walk.Steps

**What a walk does, it does in its visits.** Let `R` be a relation between states that is kept by the
visits of the nodes and, where a visit may give an expression to take another one's place, by storing
it in a slot. Then the default walk keeps `R` (`Steady.walk`), and it meets each child of a node: at
some point between its two ends the child is visited (`Steady.walk_meets`).

So a fact about all runs of a visitor needs no more than a proof for what the visitor itself does at
a node.
-/

namespace ProcLang

/-- Another expression is stored in a slot of a node. -/
inductive Node.SlotChange : (family : Family) → Node family → Node family → Prop
  | initializer (node : Variable) (e : ExpressionId) :
      SlotChange .variable node { node with initializer := some e }
  | length (node : TypeNode) (e : ExpressionId) :
      SlotChange .type node { node with kind := node.kind.setLength e }
  | expression (node : Statement) (index : Nat) (e : ExpressionId) :
      SlotChange .statement node { node with kind := node.kind.setExpression index e }
  | operand (node : Expression) (index : Nat) (e : ExpressionId) :
      SlotChange .expression node { node with kind := node.kind.setOperand index e }

namespace WalkM

variable {κ σ α : Type}

/-- A relation that is kept when another expression is stored in a slot. -/
def SlotSteps (R : WalkState σ → WalkState σ → Prop) : Prop :=
  ∀ (s : WalkState σ) (family : Family) (id : NodeId family) node node',
    s.arena.get? id = some node → Node.SlotChange family node node' → R s (s.put id node')

/-- The visits of nodes keep a relation between states. -/
structure Steady (R : WalkState σ → WalkState σ → Prop)
    (below : Visit → WalkM κ σ (Option ExpressionId)) : Prop where
  refl : ∀ s, R s s
  trans : ∀ {s s₁ s'}, R s s₁ → R s₁ s' → R s s'
  visit : ∀ {v c s r s'}, Runs (below v) c s r s' → R s s'
  store : ∀ {v c s e s'}, Runs (below v) c s (some e) s' → SlotSteps R

/-- A node is visited between two states. -/
def Meets (R : WalkState σ → WalkState σ → Prop)
    (below : Visit → WalkM κ σ (Option ExpressionId)) (s s' : WalkState σ) (w : Visit) : Prop :=
  ∃ c r s₁ s₂, R s s₁ ∧ Runs (below w) c s₁ r s₂ ∧ R s₂ s'

namespace Steady

variable {R : WalkState σ → WalkState σ → Prop} {visitor : Visitor κ σ}
  {below : Visit → WalkM κ σ (Option ExpressionId)} {c : κ} {s s₁ s₂ s' : WalkState σ} {v w : Visit}

/-- What is met is met on any longer way. -/
theorem meets_mono (h : Steady R below) (hfirst : R s s₁) (hmeets : Meets R below s₁ s₂ w)
    (hlast : R s₂ s') : Meets R below s s' w := by
  obtain ⟨c, r, t, t', ht, hrun, ht'⟩ := hmeets
  exact ⟨c, r, t, t', h.trans hfirst ht, hrun, h.trans ht' hlast⟩

theorem meets_run (h : Steady R below) {r : Option ExpressionId} (hrun : Runs (below v) c s r s') :
    Meets R below s s' v :=
  ⟨c, r, s, s', h.refl s, hrun, h.refl s'⟩

/-! ### Parts of the walk -/

theorem visitOnly (h : Steady R below) {u : Unit} (hrun : Runs (visitOnly below v) c s u s') :
    R s s' ∧ Meets R below s s' v := by
  obtain ⟨r, hrun⟩ := runs_discard.1 hrun
  exact ⟨h.visit hrun, h.meets_run hrun⟩

theorem visitOptional (h : Steady R below) {f : α → Visit} {x : Option α} {u : Unit}
    (hrun : Runs (visitOptional below f x) c s u s') :
    R s s' ∧ ∀ w ∈ x.toList.map f, Meets R below s s' w := by
  cases x with
  | none =>
      obtain ⟨-, rfl⟩ := runs_pure.1 hrun
      exact ⟨h.refl _, nofun⟩
  | some y =>
      obtain ⟨hR, hmeets⟩ := h.visitOnly hrun
      refine ⟨hR, fun w hw => ?_⟩
      rw [List.mem_singleton.1 hw]
      exact hmeets

/-- Visits one after the other. -/
theorem forM (h : Steady R below) {xs : List α} {m : α → WalkM κ σ PUnit} {f : α → Visit}
    (hstep : ∀ x ∈ xs, ∀ s s₁, Runs (m x) c s ⟨⟩ s₁ → R s s₁ ∧ Meets R below s s₁ (f x))
    {u : PUnit} (hrun : Runs (xs.forM m) c s u s') :
    R s s' ∧ ∀ w ∈ xs.map f, Meets R below s s' w := by
  induction xs generalizing s with
  | nil =>
      obtain rfl := runs_forM_nil.1 hrun
      exact ⟨h.refl _, nofun⟩
  | cons x rest ih =>
      obtain ⟨s₁, hx, hrest⟩ := runs_forM_cons.1 hrun
      obtain ⟨hfirst, hmeets⟩ := hstep x List.mem_cons_self s s₁ hx
      obtain ⟨hlast, hall⟩ := ih (fun y hy => hstep y (List.mem_cons_of_mem _ hy)) hrest
      refine ⟨h.trans hfirst hlast, fun w hw => ?_⟩
      rcases List.mem_cons.1 hw with rfl | hw
      · exact h.meets_mono (h.refl _) hmeets hlast
      · exact h.meets_mono hfirst (hall w hw) (h.refl _)

theorem visitEach (h : Steady R below) {f : α → Visit} {xs : List α} {u : Unit}
    (hrun : Runs (visitEach below f xs) c s u s') :
    R s s' ∧ ∀ w ∈ xs.map f, Meets R below s s' w :=
  h.forM (fun _ _ _ _ hrun => h.visitOnly hrun) hrun

theorem visitSlot (h : Steady R below) {e : ExpressionId} {store : ExpressionId → WalkM κ σ Unit}
    (hstore : ∀ e s s₁, SlotSteps R → Runs (store e) c s () s₁ → R s s₁) {u : Unit}
    (hrun : Runs (visitSlot below e store) c s u s') :
    R s s' ∧ Meets R below s s' (.expression e) := by
  obtain ⟨r, s₁, hvisit, hrest⟩ := runs_bind.1 hrun
  have hmeets := h.meets_run hvisit
  cases r with
  | none =>
      obtain ⟨-, rfl⟩ := runs_pure.1 hrest
      exact ⟨h.visit hvisit, hmeets⟩
  | some replacement =>
      have hlast : R s₁ s' := hstore replacement s₁ s' (h.store hvisit) hrest
      exact ⟨h.trans (h.visit hvisit) hlast, h.meets_mono (h.refl _) hmeets hlast⟩

theorem visitOperand (h : Steady R below) {parent operand : ExpressionId} {index : Nat} {u : Unit}
    (hrun : Runs (visitOperand below parent index operand) c s u s') :
    R s s' ∧ Meets R below s s' (.expression operand) := by
  refine h.visitSlot (fun e s s₁ hslot hrun => ?_) hrun
  obtain ⟨node, hnode, rfl⟩ := runs_update.1 hrun
  exact hslot s .expression parent node _ hnode (.operand node index e)

theorem map_fst_zipIdx (es : List ExpressionId) :
    (es.zipIdx.map fun p => Visit.expression p.1) = es.map Visit.expression := by
  rw [show (fun p : ExpressionId × Nat => Visit.expression p.1) = Visit.expression ∘ Prod.fst from rfl,
    ← List.map_map, List.zipIdx_map_fst]

theorem walkExpression (h : Steady R below) {id : ExpressionId} {u : Unit}
    (hrun : Runs (walkExpression below id) c s u s') :
    ∃ node, s.arena.get? id = some node ∧ R s s' ∧
      ∀ w ∈ Node.children .expression node, Meets R below s s' w := by
  obtain ⟨node, hnode, hrun⟩ := runs_node_bind.1 hrun
  refine ⟨node, hnode, ?_⟩
  rw [Node.children, ← map_fst_zipIdx]
  exact h.forM (fun _ _ _ _ hrun => h.visitOperand hrun) hrun

theorem walkStatementExpressions (h : Steady R below) {id : StatementId} {u : Unit}
    (hrun : Runs (walkStatementExpressions below id) c s u s') :
    ∃ node, s.arena.get? id = some node ∧ R s s' ∧
      ∀ w ∈ node.kind.expressions.map Visit.expression, Meets R below s s' w := by
  obtain ⟨node, hnode, hrun⟩ := runs_node_bind.1 hrun
  refine ⟨node, hnode, ?_⟩
  rw [← map_fst_zipIdx]
  refine h.forM (fun p _ s s₁ hrun => ?_) hrun
  refine h.visitSlot (fun e s s₁ hslot hrun => ?_) hrun
  obtain ⟨old, hold, rfl⟩ := runs_update.1 hrun
  exact hslot s .statement id old _ hold (.expression old p.2 e)

theorem walkRoutine (h : Steady R below) {id : RoutineId} {u : Unit}
    (hrun : Runs (walkRoutine below id) c s u s') :
    ∃ node, s.arena.get? id = some node ∧ R s s' ∧
      ∀ w ∈ Node.children .routine node, Meets R below s s' w := by
  obtain ⟨node, hnode, hrun⟩ := runs_node_bind.1 hrun
  obtain ⟨_, s₁, hparameters, hrun⟩ := runs_bind.1 hrun
  obtain ⟨_, s₂, hresult, hbody⟩ := runs_bind.1 hrun
  obtain ⟨hR, hparameters⟩ := h.visitEach hparameters
  obtain ⟨hR₁, hresult⟩ := h.visitOptional hresult
  obtain ⟨hR₂, hbody⟩ := h.visitOnly hbody
  refine ⟨node, hnode, h.trans hR (h.trans hR₁ hR₂), fun w hw => ?_⟩
  rcases List.mem_append.1 hw with hw | hw
  · rcases List.mem_append.1 hw with hw | hw
    · exact h.meets_mono (h.refl _) (hparameters w hw) (h.trans hR₁ hR₂)
    · exact h.meets_mono hR (hresult w hw) hR₂
  · rw [List.mem_singleton.1 hw]
    exact h.meets_mono (h.trans hR hR₁) hbody (h.refl _)

/-- The initial value is read when the declared type has been visited. -/
theorem walkVariable (h : Steady R below) {id : VariableId} {u : Unit}
    (hrun : Runs (walkVariable below id) c s u s') :
    R s s' ∧ ∃ node s₁ node₁, s.arena.get? id = some node ∧ R s s₁ ∧
      s₁.arena.get? id = some node₁ ∧
      ∀ w ∈ node.declaredType.toList.map Visit.type ++
        node₁.initializer.toList.map Visit.expression, Meets R below s s' w := by
  obtain ⟨node, hnode, hrun⟩ := runs_node_bind.1 hrun
  obtain ⟨_, s₁, htype, hrun⟩ := runs_bind.1 hrun
  obtain ⟨hR, htype⟩ := h.visitOptional htype
  obtain ⟨node₁, hnode₁, hrun⟩ := runs_node_bind.1 hrun
  have hvalue : R s₁ s' ∧
      ∀ w ∈ node₁.initializer.toList.map Visit.expression, Meets R below s₁ s' w := by
    cases hinit : node₁.initializer with
    | none =>
        rw [hinit] at hrun
        obtain ⟨-, rfl⟩ := runs_pure.1 hrun
        exact ⟨h.refl _, nofun⟩
    | some e =>
        rw [hinit] at hrun
        obtain ⟨hR₁, hmeets⟩ := h.visitSlot (fun e s s₁ hslot hrun => by
          obtain ⟨old, hold, rfl⟩ := runs_update.1 hrun
          exact hslot s .variable id old _ hold (.initializer old e)) hrun
        refine ⟨hR₁, fun w hw => ?_⟩
        rw [List.mem_singleton.1 hw]
        exact hmeets
  refine ⟨h.trans hR hvalue.1, node, s₁, node₁, hnode, hR, hnode₁, fun w hw => ?_⟩
  rcases List.mem_append.1 hw with hw | hw
  · exact h.meets_mono (h.refl _) (htype w hw) hvalue.1
  · exact h.meets_mono hR (hvalue.2 w hw) (h.refl _)

theorem walkType (h : Steady R below) {id : TypeId} {u : Unit}
    (hrun : Runs (walkType below id) c s u s') :
    ∃ node, s.arena.get? id = some node ∧ R s s' ∧
      ∀ w ∈ Node.children .type node, Meets R below s s' w := by
  obtain ⟨node, hnode, hrun⟩ := runs_node_bind.1 hrun
  refine ⟨node, hnode, ?_⟩
  rw [Node.children]
  cases hkind : node.kind with
  | array length element =>
      rw [hkind] at hrun
      cases length with
      | none =>
          obtain ⟨hR, hmeets⟩ := h.visitOnly hrun
          refine ⟨hR, fun w hw => ?_⟩
          rw [List.mem_singleton.1 hw]
          exact hmeets
      | some e =>
          obtain ⟨_, s₁, hlength, helement⟩ := runs_bind.1 hrun
          obtain ⟨hR, hlength⟩ := h.visitSlot (fun e s s₁ hslot hrun => by
            obtain ⟨old, hold, rfl⟩ := runs_update.1 hrun
            exact hslot s .type id old _ hold (.length old e)) hlength
          obtain ⟨hR₁, helement⟩ := h.visitOnly helement
          refine ⟨h.trans hR hR₁, fun w hw => ?_⟩
          rcases List.mem_cons.1 hw with rfl | hw
          · exact h.meets_mono (h.refl _) hlength hR₁
          · rw [List.mem_singleton.1 hw]
            exact h.meets_mono hR helement (h.refl _)
  | record fields =>
      rw [hkind] at hrun
      exact h.visitEach hrun
  | named | integer | real | boolean =>
      rw [hkind] at hrun
      obtain ⟨-, rfl⟩ := runs_pure.1 hrun
      exact ⟨h.refl _, nofun⟩

theorem walkBody (h : Steady R below) {id : BodyId} {u : Unit}
    (hrun : Runs (walkBody below id) c s u s') :
    ∃ node, s.arena.get? id = some node ∧ R s s' ∧
      ∀ w ∈ node.declarations.map Visit.declaration ++ node.statements.map Visit.statement,
        Meets R below s s' w := by
  obtain ⟨node, hnode, hrun⟩ := runs_node_bind.1 hrun
  obtain ⟨_, s₁, hdeclarations, hstatements⟩ := runs_bind.1 hrun
  obtain ⟨hR, hdeclarations⟩ := h.visitEach hdeclarations
  obtain ⟨hR₁, hstatements⟩ := h.visitEach hstatements
  refine ⟨node, hnode, h.trans hR hR₁, fun w hw => ?_⟩
  rcases List.mem_append.1 hw with hw | hw
  · exact h.meets_mono (h.refl _) (hdeclarations w hw) hR₁
  · exact h.meets_mono hR (hstatements w hw) (h.refl _)

/-- The bodies are read when the expressions have been visited. -/
theorem walkStatement (h : Steady R below) {id : StatementId} {u : Unit}
    (hrun : Runs (walkStatement below id) c s u s') :
    R s s' ∧ ∃ node s₁ node₁, s.arena.get? id = some node ∧ R s s₁ ∧
      s₁.arena.get? id = some node₁ ∧
      ∀ w ∈ node.kind.expressions.map Visit.expression ++
        node₁.kind.counter?.toList.map Visit.variable ++ node₁.kind.bodies.map Visit.body,
        Meets R below s s' w := by
  obtain ⟨_, s₁, hexpressions, hrun⟩ := runs_bind.1 hrun
  obtain ⟨node, hnode, hR, hexpressions⟩ := h.walkStatementExpressions hexpressions
  obtain ⟨node₁, hnode₁, hrun⟩ := runs_node_bind.1 hrun
  obtain ⟨_, s₂, hcounter, hbodies⟩ := runs_bind.1 hrun
  obtain ⟨hR₁, hcounter⟩ := h.visitOptional hcounter
  obtain ⟨hR₂, hbodies⟩ := h.visitEach hbodies
  refine ⟨h.trans hR (h.trans hR₁ hR₂), node, s₁, node₁, hnode, hR, hnode₁, fun w hw => ?_⟩
  rcases List.mem_append.1 hw with hw | hw
  · rcases List.mem_append.1 hw with hw | hw
    · exact h.meets_mono (h.refl _) (hexpressions w hw) (h.trans hR₁ hR₂)
    · exact h.meets_mono hR (hcounter w hw) hR₂
  · exact h.meets_mono (h.trans hR hR₁) (hbodies w hw) (h.refl _)

/-! ### The walk -/

/-- **The default walk keeps what the visits keep.** -/
theorem walk (h : Steady R below) {u : Unit} (hrun : Runs (walk below v) c s u s') : R s s' := by
  cases v with
  | program => exact (h.visitEach hrun).1
  | declaration d =>
      cases d <;> exact (h.visitOnly hrun).1
  | routine id =>
      obtain ⟨-, -, hR, -⟩ := h.walkRoutine hrun
      exact hR
  | «variable» id => exact (h.walkVariable hrun).1
  | typeDecl id =>
      obtain ⟨node, -, hrun⟩ := runs_node_bind.1 hrun
      exact (h.visitOnly hrun).1
  | type id =>
      obtain ⟨-, -, hR, -⟩ := h.walkType hrun
      exact hR
  | body id =>
      obtain ⟨-, -, hR, -⟩ := h.walkBody hrun
      exact hR
  | statement id => exact (h.walkStatement hrun).1
  | expression id =>
      obtain ⟨-, -, hR, -⟩ := h.walkExpression hrun
      exact hR

/-- **The default walk meets all children**, if they stay what they are on the way. An entry in a list
of declarations is met in place of what it leads to. -/
theorem walk_meets (h : Steady R below)
    (hkept : ∀ s₁, R s s₁ → s₁.arena.children v = s.arena.children v) {u : Unit}
    (hrun : Runs (ProcLang.walk below v) c s u s') (hw : w ∈ s.arena.children v) :
    Meets R below s s' w ∨ ∃ d, w = Declaration.visit d ∧ Meets R below s s' (.declaration d) := by
  cases v with
  | program =>
      obtain ⟨d, hd, rfl⟩ := List.mem_map.1 hw
      exact Or.inr ⟨d, rfl, (h.visitEach hrun).2 _ (List.mem_map_of_mem hd)⟩
  | declaration d =>
      rw [List.mem_singleton.1 hw]
      cases d <;> exact Or.inl (h.visitOnly hrun).2
  | routine id =>
      obtain ⟨node, hnode, -, hmeets⟩ := h.walkRoutine hrun
      rw [Visit.routine_eq id, Arena.children_of_get? hnode] at hw
      exact Or.inl (hmeets w hw)
  | «variable» id =>
      obtain ⟨-, node, s₁, node₁, hnode, hR, hnode₁, hmeets⟩ := h.walkVariable hrun
      have hsame := hkept s₁ hR
      rw [Visit.variable_eq id, Arena.children_of_get? hnode] at hw hsame
      rw [Arena.children_of_get? hnode₁] at hsame
      refine Or.inl (hmeets w (List.mem_append.2 ?_))
      rcases List.mem_append.1 hw with htype | hvalue
      · exact Or.inl htype
      · rw [← hsame] at hw
        refine Or.inr ((List.mem_append.1 hw).resolve_left fun htype => ?_)
        obtain ⟨e, -, rfl⟩ := List.mem_map.1 hvalue
        obtain ⟨t, -, heq⟩ := List.mem_map.1 htype
        nomatch heq
  | typeDecl id =>
      obtain ⟨node, hnode, hrun⟩ := runs_node_bind.1 hrun
      rw [Visit.typeDecl_eq id, Arena.children_of_get? hnode] at hw
      rw [List.mem_singleton.1 hw]
      exact Or.inl (h.visitOnly hrun).2
  | type id =>
      obtain ⟨node, hnode, -, hmeets⟩ := h.walkType hrun
      rw [Visit.type_eq id, Arena.children_of_get? hnode] at hw
      exact Or.inl (hmeets w hw)
  | body id =>
      obtain ⟨node, hnode, -, hmeets⟩ := h.walkBody hrun
      rw [Visit.body_eq id, Arena.children_of_get? hnode] at hw
      rcases List.mem_append.1 hw with hw | hw
      · obtain ⟨d, hd, rfl⟩ := List.mem_map.1 hw
        exact Or.inr ⟨d, rfl, hmeets _ (List.mem_append_left _ (List.mem_map_of_mem hd))⟩
      · exact Or.inl (hmeets w (List.mem_append_right _ hw))
  | statement id =>
      obtain ⟨-, node, s₁, node₁, hnode, hR, hnode₁, hmeets⟩ := h.walkStatement hrun
      have hsame := hkept s₁ hR
      rw [Visit.statement_eq id, Arena.children_of_get? hnode] at hw hsame
      rw [Arena.children_of_get? hnode₁] at hsame
      refine Or.inl (hmeets w ?_)
      -- the expressions are read before, the counter and the bodies behind their visits
      rw [List.append_assoc]
      refine List.mem_append.2 ?_
      by_cases hexpression : ∃ e, w = .expression e
      · obtain ⟨e, rfl⟩ := hexpression
        refine Or.inl ?_
        rcases List.mem_append.1 hw with hw | hw
        · refine (List.mem_append.1 hw).resolve_right fun hcounter => ?_
          obtain ⟨x, -, heq⟩ := List.mem_map.1 hcounter
          nomatch heq
        · obtain ⟨b, -, heq⟩ := List.mem_map.1 hw
          nomatch heq
      · rw [← hsame, Node.children, List.append_assoc] at hw
        refine Or.inr ((List.mem_append.1 hw).resolve_left fun hold => hexpression ?_)
        obtain ⟨e, -, rfl⟩ := List.mem_map.1 hold
        exact ⟨e, rfl⟩
  | expression id =>
      obtain ⟨node, hnode, -, hmeets⟩ := h.walkExpression hrun
      rw [Visit.expression_eq id, Arena.children_of_get? hnode] at hw
      exact Or.inl (hmeets w hw)

theorem walkThrough (h : Steady R below) {r : Option ExpressionId}
    (hrun : Runs (walkThrough below v) c s r s') : r = none ∧ R s s' := by
  obtain ⟨_, s₁, hwalk, hrun⟩ := runs_bind.1 hrun
  obtain ⟨rfl, rfl⟩ := runs_pure.1 hrun
  exact ⟨rfl, h.walk hwalk⟩

/-- **A relation that each layer of a visitor keeps is kept by the visitor.** -/
theorem visitWithin (hrefl : ∀ s, R s s) (htrans : ∀ {s s₁ s'}, R s s₁ → R s₁ s' → R s s')
    (hlayer : ∀ below, Steady R below → ∀ v c s r s', Runs (visitor below v) c s r s' →
      R s s' ∧ ∀ e, r = some e → SlotSteps R) (n : Nat) : Steady R (visitWithin visitor n) := by
  induction n with
  | zero => exact ⟨hrefl, htrans, fun hrun => (runs_throw hrun).elim,
      fun hrun => (runs_throw hrun).elim⟩
  | succ n ih => exact ⟨hrefl, htrans, fun hrun => (hlayer _ ih _ _ _ _ _ hrun).1,
      fun hrun => (hlayer _ ih _ _ _ _ _ hrun).2 _ rfl⟩

/-- So is one that is kept by a visitor which replaces nothing. -/
theorem visitWithin_of_none (hrefl : ∀ s, R s s) (htrans : ∀ {s s₁ s'}, R s s₁ → R s₁ s' → R s s')
    (hlayer : ∀ below, Steady R below → ∀ v c s r s', Runs (visitor below v) c s r s' →
      r = none ∧ R s s') (n : Nat) : Steady R (ProcLang.visitWithin visitor n) := by
  refine visitWithin hrefl htrans (fun below h v c s r s' hrun => ?_) n
  obtain ⟨rfl, hR⟩ := hlayer below h v c s r s' hrun
  exact ⟨hR, nofun⟩

/-- **A visitor that begins with the default walk comes to all nodes**, if an invariant `I` fixes
where the children of nodes are. -/
theorem exists_visit_of_reaches {a : Arena} {I : WalkState σ → Prop}
    (hsteady : ∀ n, Steady R (ProcLang.visitWithin visitor n))
    (hkept : ∀ {s s'}, I s → R s s' → I s') (hchildren : ∀ {s}, I s → s.arena.children = a.children)
    (hlayer : ∀ n v c s r s', Runs (visitor (ProcLang.visitWithin visitor n) v) c s r s' →
      ∃ s₁, Runs (ProcLang.walk (ProcLang.visitWithin visitor n) v) c s () s₁ ∧ R s₁ s')
    (hreaches : a.Reaches v w) :
    ∀ {n c s r s'}, I s → Runs (ProcLang.visitWithin visitor n v) c s r s' →
      ∃ m c₁ r₁ s₁ s₂, R s s₁ ∧ Runs (ProcLang.visitWithin visitor m w) c₁ s₁ r₁ s₂ ∧ R s₂ s' := by
  induction hreaches using Relation.ReflTransGen.head_induction_on with
  | refl =>
      intro n c s r s' hI hrun
      exact ⟨n, c, r, s, s', (hsteady 0).refl s, hrun, (hsteady 0).refl s'⟩
  | head hchild _ ih =>
      intro n c s r s' hI hrun
      cases n with
      | zero => exact (runs_throw hrun).elim
      | succ n =>
          have h := hsteady n
          obtain ⟨s₁, hwalk, hlast⟩ := hlayer n _ _ _ _ _ hrun
          have hsame : ∀ s₁, R s s₁ → s₁.arena.children = s.arena.children := fun s₁ hR =>
            (hchildren (hkept hI hR)).trans (hchildren hI).symm
          rw [← hchildren hI] at hchild
          rcases h.walk_meets (fun s₁ hR => congrFun (hsame s₁ hR) _) hwalk hchild with
            hmeets | ⟨d, rfl, hmeets⟩
          · obtain ⟨c₁, r₁, t, t', hfirst, hvisit, hrest⟩ := hmeets
            obtain ⟨m, c₂, r₂, u, u', hu, hvisit', hu'⟩ := ih (hkept hI hfirst) hvisit
            exact ⟨m, c₂, r₂, u, u', h.trans hfirst hu, hvisit',
              h.trans hu' (h.trans hrest hlast)⟩
          · -- an entry in a list of declarations is one more layer
            obtain ⟨c₁, r₁, t, t', hfirst, hvisit, hrest⟩ := hmeets
            cases n with
            | zero => exact (runs_throw hvisit).elim
            | succ n =>
                obtain ⟨t₁, hinner, hend⟩ := hlayer n _ _ _ _ _ hvisit
                have hdecl : ∃ r₂, Runs (ProcLang.visitWithin visitor n d.visit) c₁ t r₂ t₁ := by
                  cases d <;> exact runs_discard.1 hinner
                obtain ⟨r₂, hdecl⟩ := hdecl
                obtain ⟨m, c₂, r₃, u, u', hu, hvisit', hu'⟩ := ih (hkept hI hfirst) hdecl
                exact ⟨m, c₂, r₃, u, u', h.trans hfirst hu, hvisit',
                  h.trans hu' (h.trans hend (h.trans hrest hlast))⟩

end Steady

end WalkM

end ProcLang
