import ProcLang.Proofs.Resolved.Tree

/-!
# ProcLang.Proofs.Resolved.Forest

**A resolved tree has the shape of the parsed one** (`Settles.reshapes`): below each node stands
what stood there before, or a call in place of a bare name. That holds whatever is reported on the
way, since a scope that declares a name twice is left alone. Since no two names begin at the same
place, no call stands in two places, and so no node is shared in the resolved tree either
(`Resolves.exists_forest`).
-/

namespace ProcLang

open Arena

variable {a b : Arena} {nodes : List Visit}

/-- What stands in the tree `b` where a node of the tree `a` stood. -/
inductive Arena.Replaces (a b : Arena) : Visit → Visit → Prop
  | same {w : Visit} (hhas : a.Has w) : Replaces a b w w
  | called {e call : ExpressionId} {node : Expression} {name : String} {target : Option VariableId}
      {r : RoutineId} (hnode : a.get? e = some node) (hkind : node.kind = .identifier name target)
      (hfresh : a.count .expression ≤ call.index)
      (hcall : b.get? call = some (.plain (.call name (some r) []) node.span)) :
      Replaces a b (.expression e) (.expression call)

theorem StandsFor.replaces {ds : List Diagnostic} {scopes : List (List Declaration)}
    {e e' : ExpressionId} (h : StandsFor a b ds scopes e e') :
    a.Replaces b (.expression e) (.expression e') := by
  cases h with
  | called hnode hkind hvariable hname hfresh hcall hsilent => exact .called hnode hkind hfresh hcall
  | linked hnode => exact .same (show a.Has (Visit.of e) from has_of_get? hnode)
  | undeclared hnode => exact .same (show a.Has (Visit.of e) from has_of_get? hnode)
  | other hnode => exact .same (show a.Has (Visit.of e) from has_of_get? hnode)

/-- What is replaced owned nothing. -/
theorem Arena.Replaces.eq_or_leaf {v w : Visit} (h : a.Replaces b v w) :
    w = v ∨ a.children v = [] := by
  cases h with
  | same => exact Or.inl rfl
  | @called e call node name target r hnode hkind hfresh hcall =>
      refine Or.inr ?_
      rw [Visit.expression_eq e, children_of_get? hnode, Node.children, hkind]
      rfl

/-- Nothing stands in two places. -/
theorem Arena.Replaces.injective (htree : a.IsTree nodes) {v w u : Visit} (hv : a.Replaces b v u)
    (hw : a.Replaces b w u) : v = w := by
  have hnot : ∀ {e : ExpressionId}, a.Has (.expression e) → ¬ a.count .expression ≤ e.index :=
    fun hhas hle => Nat.not_lt.2 hle (has_of.1 hhas)
  cases hv with
  | same hhas =>
      cases hw with
      | same => rfl
      | called hnode hkind hfresh hcall => exact absurd hfresh (hnot hhas)
  | @called e call node name target r hnode hkind hfresh hcall =>
      cases hw with
      | same hhas => exact absurd hfresh (hnot hhas)
      | @called e' _ node' name' target' r' hnode' hkind' hfresh' hcall' =>
          by_contra hne
          have hsame := Option.some.inj (hcall.symm.trans hcall')
          have hspan := congrArg Expression.span hsame
          change node.span = node'.span at hspan
          refine htree.start?_ne (htree.raw hnode).1 (htree.raw hnode').1 hne
            (start?_of_identifier hnode hkind) ?_
          rw [hspan]
          exact start?_of_identifier hnode' hkind'

/-! ### Below one node -/

/-- Of a statement only the expressions change. -/
theorem Node.Changes.statement_eq {node node' : Statement}
    (h : Node.Changes a .statement node node') :
    node'.kind.counter? = node.kind.counter? ∧ node'.kind.bodies = node.kind.bodies := by
  induction h with
  | refl => exact ⟨rfl, rfl⟩
  | tail _ hchange ih =>
      cases hchange with
      | expression middle index hfresh =>
          rw [setExpression_counter?, setExpression_bodies]
          exact ih

/-- A member access keeps the name behind its point. -/
theorem Node.Changes.member_kept {node node' : Expression}
    (h : Node.Changes a .expression node node') {left f : ExpressionId}
    (hkind : node.kind = .binary .member left f) : ∃ left', node'.kind = .binary .member left' f := by
  induction h with
  | refl => exact ⟨left, hkind⟩
  | tail _ hchange ih =>
      obtain ⟨left', hkind'⟩ := ih
      cases hchange with
      | operand middle hopen hfresh =>
          rename_i index e
          rw [Node.slots, hkind'] at hopen
          obtain rfl : index = 0 := Nat.lt_one_iff.1 hopen
          exact ⟨e, by rw [hkind']; rfl⟩
      | link middle hold hx => cases hold.symm.trans hkind'
      | routine middle hold hr => cases hold.symm.trans hkind'

/-- What is below a node changes as its slots do. An expression in no slot is behind a point. -/
theorem Node.Changes.children_forall₂ {R : Visit → Visit → Prop} {family : Family} {id : NodeId family}
    {node node' : Node family} (h : Node.Changes a family node node') (hget : a.get? id = some node)
    (hsame : ∀ w ∈ Node.children family node, (∀ e, w = .expression e → a.IsField e) → R w w)
    (hslots : List.Forall₂ (fun e e' => R (.expression e) (.expression e')) (Node.slots family node)
      (Node.slots family node')) :
    List.Forall₂ R (Node.children family node) (Node.children family node') := by
  have hmap : ∀ {es es' : List ExpressionId},
      List.Forall₂ (fun e e' => R (.expression e) (.expression e')) es es' →
      List.Forall₂ R (es.map Visit.expression) (es'.map Visit.expression) := fun hes =>
    List.forall₂_map_left_iff.2 (List.forall₂_map_right_iff.2 hes)
  have hrest : ∀ w ∈ Node.children family node, (∀ e ∈ Node.slots family node, w ≠ .expression e) →
      R w w := fun w hw hout => hsame w hw fun e heq =>
    (slot_or_isField hget (heq ▸ hw)).resolve_left fun he => hout e he heq
  cases family with
  | routine =>
      rw [h.routine_eq]
      exact List.forall₂_same.2 fun w hw => hrest w hw (by rintro _ ⟨⟩)
  | typeDecl =>
      rw [h.typeDecl_eq]
      exact List.forall₂_same.2 fun w hw => hrest w hw (by rintro _ ⟨⟩)
  | body =>
      rw [h.body_eq]
      exact List.forall₂_same.2 fun w hw => hrest w hw (by rintro _ ⟨⟩)
  | «variable» =>
      rw [h.variable_eq]
      refine List.rel_append (List.forall₂_same.2 fun w hw => ?_) (hmap hslots)
      obtain ⟨t, -, rfl⟩ := List.mem_map.1 hw
      exact hrest _ (List.mem_append_left _ hw) (by simp)
  | type =>
      rw [Node.slots, Node.slots] at hslots
      rw [Node.children, Node.slots] at hrest
      rw [Node.children, Node.children]
      rcases h.type_cases with heq | ⟨name, target, target', hold, hnew⟩ | ⟨l, l', element, hold, hnew⟩
      · rw [heq] at hslots ⊢
        cases hkind : node.kind with
        | array length element =>
            rw [hkind] at hslots hrest
            refine List.rel_append (hmap hslots) (.cons (hrest _ ?_ (by simp)) .nil)
            exact List.mem_append_right _ List.mem_cons_self
        | record fields =>
            rw [hkind] at hrest
            exact List.forall₂_same.2 fun w hw => hrest w hw (by rintro _ ⟨⟩)
        | named | integer | real | boolean => exact .nil
      · rw [hold, hnew]
        exact .nil
      · rw [hold] at hslots hrest
        rw [hnew] at hslots
        rw [hold, hnew]
        refine List.rel_append (hmap hslots) (.cons (hrest _ ?_ (by simp)) .nil)
        exact List.mem_append_right _ List.mem_cons_self
  | statement =>
      obtain ⟨hcounter, hbodies⟩ := h.statement_eq
      rw [Node.children, List.append_assoc] at hrest
      rw [Node.children, Node.children, List.append_assoc, List.append_assoc, hcounter, hbodies]
      refine List.rel_append (hmap hslots) (List.forall₂_same.2 fun w hw => ?_)
      refine hrest w (List.mem_append_right _ hw) fun e _ heq => ?_
      subst heq
      simp at hw
  | expression =>
      by_cases hmember : node.kind.NotMember
      · have hmember' : node'.kind.NotMember := by
          intro left f hkind
          obtain ⟨left', hkind'⟩ := h.member hkind
          exact hmember left' f hkind'
        rw [slots_of_notMember hmember, slots_of_notMember hmember'] at hslots
        exact hmap hslots
      · obtain ⟨left, f, hkind⟩ := exists_member hmember
        obtain ⟨left', hkind'⟩ := h.member_kept hkind
        rw [Node.slots, Node.slots, hkind, hkind'] at hslots
        rw [Node.children, hkind] at hsame
        rw [Node.children, Node.children, hkind, hkind']
        obtain ⟨hleft, -⟩ := List.forall₂_cons.1 hslots
        refine .cons hleft (.cons (hsame _ (List.mem_cons_of_mem _ List.mem_cons_self) ?_) .nil)
        rintro e heq
        cases heq
        exact ⟨id, node, left, hget, hkind⟩

/-- The tree `b` has the shape of the parsed tree `a`: **below a node** stands what stood there
before, or a call in place of a bare name. -/
structure Arena.Reshapes (a b : Arena) : Prop where
  evolves : Evolves a a b
  children : ∀ v, a.Has v → List.Forall₂ (a.Replaces b) (a.children v) (b.children v)

section

variable (htree : a.IsTree nodes)

include htree

/-- Below a node that did not change nothing is replaced. -/
theorem Arena.IsTree.children_same {family : Family} {id : NodeId family} {node : Node family}
    (hget : a.get? id = some node) (hget' : b.get? id = some node) :
    List.Forall₂ (a.Replaces b) (a.children (Visit.of id)) (b.children (Visit.of id)) := by
  rw [children_of_get? hget, children_of_get? hget']
  exact List.forall₂_same.2 fun w hw => .same (htree.has_child hget hw)

/-- Below a node the slots decide what is replaced. -/
theorem Arena.Evolves.children_replaced (h : Evolves a a b) {family : Family} {id : NodeId family}
    {node : Node family} (hget : a.get? id = some node)
    (hslots : List.Forall₂ (fun e e' => a.Replaces b (.expression e) (.expression e'))
      (a.slots (Visit.of id)) (b.slots (Visit.of id))) :
    List.Forall₂ (a.Replaces b) (a.children (Visit.of id)) (b.children (Visit.of id)) := by
  obtain ⟨node', hget', hchanges⟩ := h.changed family id node hget
  rw [slots_of_get? hget, slots_of_get? hget'] at hslots
  rw [children_of_get? hget, children_of_get? hget']
  exact hchanges.children_forall₂ hget (fun w hw _ => .same (htree.has_child hget hw)) hslots

/-- Below a node without slots nothing is replaced. -/
theorem Arena.Evolves.children_kept (h : Evolves a a b) {family : Family} {id : NodeId family}
    {node : Node family} (hget : a.get? id = some node) (hempty : a.slots (Visit.of id) = []) :
    List.Forall₂ (a.Replaces b) (a.children (Visit.of id)) (b.children (Visit.of id)) := by
  refine h.children_replaced htree hget ?_
  obtain ⟨node', hget', hchanges⟩ := h.changed family id node hget
  have hlength := hchanges.length_slots
  rw [← slots_of_get? hget, ← slots_of_get? hget', hempty, List.length_nil,
    List.length_eq_zero_iff] at hlength
  rw [hempty, hlength]
  exact .nil

theorem Arena.Resolves.reshapes (h : a.Resolves b) : a.Reshapes b := by
  refine ⟨h.evolves, fun v hhas => ?_⟩
  obtain ⟨family, id, rfl⟩ := hhas.exists_of
  obtain ⟨node, hget⟩ := hhas.exists_get?
  by_cases hempty : Node.children family node = []
  · refine h.evolves.children_kept htree hget (List.eq_nil_iff_forall_not_mem.2 fun e he => ?_)
    have hchild := slots_subset he hhas
    rw [children_of_get? hget, hempty] at hchild
    nomatch hchild
  · obtain ⟨w, hw⟩ := List.exists_mem_of_ne_nil _ hempty
    rcases exists_site htree h (htree.mem_of_child hget hw) with ⟨scopes, hbelow⟩ | hnameless
    · exact h.evolves.children_replaced htree hget
        ((h.names _ hbelow).slots.imp fun _ _ hstands => hstands.replaces)
    · exact h.evolves.children_kept htree hget hnameless.slots_eq

/-- A node in a scope that declares a name twice stays what it was, and so does a node without a
site. The others are resolved. -/
theorem Arena.Settles.reshapes {outcome : PassOutcome} (h : a.Settles nodes outcome) :
    a.Reshapes outcome.arena := by
  refine ⟨h.evolves, fun v hhas => ?_⟩
  obtain ⟨family, id, rfl⟩ := hhas.exists_of
  obtain ⟨node, hget⟩ := hhas.exists_get?
  by_cases hhidden : a.Hidden (Visit.of id)
  · exact htree.children_same hget (h.hidden family id node hhidden hget)
  · obtain ⟨scopes, hbelow⟩ := exists_site_of_not_hidden hhidden
    have hsettled := h.settled _ hbelow
    by_cases hdistinct : a.DistinctScopes scopes
    · have hslots := (hsettled.resolved hdistinct).slots
      exact h.evolves.children_replaced htree hget (hslots.imp fun _ _ hstands => hstands.replaces)
    · refine htree.children_same hget ?_
      rw [hsettled.kept hdistinct family id rfl, hget]

end

/-! ### All of the tree -/

namespace Arena.Reshapes

variable (h : a.Reshapes b)

include h

theorem has {v w : Visit} (hreplaces : a.Replaces b v w) : b.Has w := by
  cases hreplaces with
  | same hhas => exact h.evolves.has hhas
  | @called e call node name target r hnode hkind hfresh hcall =>
      exact (show b.Has (Visit.of call) from has_of_get? hcall)

/-- A forest in which bare names may have been replaced by calls. -/
theorem exists_spans {vs vs' all : List Visit} (hspans : Spans a vs all)
    (hroots : List.Forall₂ (a.Replaces b) vs vs') :
    ∃ all', Spans b vs' all' ∧ List.Forall₂ (a.Replaces b) all all' := by
  induction hspans generalizing vs' with
  | nil =>
      cases hroots
      exact ⟨[], .nil, .nil⟩
  | @cons v beside below rest has inner outer ihb ihr =>
      cases hroots with
      | @cons _ w _ ws hfirst hothers =>
          obtain ⟨rest', hspans', hrest'⟩ := ihr hothers
          have hinner : ∃ below', Spans b (b.children w) below' ∧
              List.Forall₂ (a.Replaces b) below below' := by
            cases hfirst with
            | same => exact ihb (h.children v has)
            | @called e call node name target r hnode hkind hfresh hcall =>
                have hleaf : a.children (.expression e) = [] := by
                  rw [Visit.expression_eq e, children_of_get? hnode, Node.children, hkind]
                  rfl
                have hleaf' : b.children (.expression call) = [] := by
                  rw [Visit.expression_eq call, children_of_get? hcall]
                  rfl
                rw [hleaf'] at *
                refine ihb ?_
                rw [hleaf]
                exact .nil
          obtain ⟨below', hspansBelow, hbelow'⟩ := hinner
          exact ⟨w :: (below' ++ rest'), .cons (h.has hfirst) hspansBelow hspans',
            .cons hfirst (List.rel_append hbelow' hrest')⟩

/-- What is below the program, and what it was before. -/
theorem exists_replaced (htree : a.IsTree nodes) :
    ∃ all, Spans b (b.children .program) all ∧ List.Forall₂ (a.Replaces b) nodes all := by
  refine h.exists_spans htree.spans ?_
  rw [Arena.children, Arena.children, h.evolves.program]
  exact List.forall₂_same.2 fun v hv => .same (htree.spans.has_of_mem (htree.spans.mem_of_root hv))

end Arena.Reshapes

/-- What stands for different nodes is different. -/
theorem nodup_of_replaced (htree : a.IsTree nodes) {all all' : List Visit} (hnodup : all.Nodup)
    (hall : List.Forall₂ (a.Replaces b) all all') : all'.Nodup := by
  induction hall with
  | nil => exact .nil
  | @cons v w vs ws hfirst hothers ih =>
      obtain ⟨hv, hvs⟩ := List.nodup_cons.1 hnodup
      refine List.nodup_cons.2 ⟨fun hmem => hv ?_, ih hvs⟩
      obtain ⟨u, hu, hother⟩ := exists_of_forall₂ hothers hmem
      exact hfirst.injective htree hother ▸ hu

/-- A tree that was just read is a forest below the program. -/
theorem Arena.IsTree.isForest (htree : a.IsTree nodes) : a.IsForest nodes :=
  ⟨htree.spans, htree.nodup, htree.length_lt⟩

/-- **A tree of the shape of the parsed one** is a tree, of the same size. -/
theorem Arena.Reshapes.exists_forest (h : a.Reshapes b) (htree : a.IsTree nodes) :
    ∃ all, b.IsForest all := by
  obtain ⟨all, hspans, hall⟩ := h.exists_replaced htree
  refine ⟨all, hspans, nodup_of_replaced htree htree.nodup hall, ?_⟩
  rw [← hall.length_eq]
  exact Nat.lt_of_lt_of_le htree.length_lt h.evolves.size_le

/-- So is a resolved tree. -/
theorem Arena.Resolves.exists_forest (h : a.Resolves b) (htree : a.IsTree nodes) :
    ∃ all, b.IsForest all :=
  (h.reshapes htree).exists_forest htree

end ProcLang
