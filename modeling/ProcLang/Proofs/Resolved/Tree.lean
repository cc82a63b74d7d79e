import ProcLang.Proofs.Tree.Height
import ProcLang.Proofs.Typing.Resolved

/-!
# ProcLang.Proofs.Resolved.Tree

**The tree that name resolution leaves when it reports nothing.** `a.Resolves b` says what is known
of it: the changes are links and added calls, each name is resolved as its site says, and each site
was checked. From that follows that no id leads nowhere (`Resolves.closed`).

Every node has a site but for those in which no name is looked up (`exists_site`), and so every name
that is reached is linked (`Resolves.identifier_linked`, `Resolves.exists_routine`).
-/

namespace ProcLang

open Arena

variable {a b : Arena} {nodes : List Visit}

/-- What name resolution leaves of the tree `a` when it reports nothing. -/
structure Arena.Resolves (a b : Arena) : Prop where
  evolves : Evolves a a b
  names : ∀ site, a.Below a.top site → NamesResolved a b [] site
  checked : ∀ site, a.Below a.top site → a.Checked site
  fields : ∀ (f : ExpressionId) node, a.IsField f → a.get? f = some node → b.get? f = some node

/-- **Without a report all names are resolved.** -/
theorem resolves_of_silent {outcome : PassOutcome} (htree : a.IsTree nodes)
    (hrun : nameResolution.run a = .ok outcome) (hsilent : outcome.diagnostics = []) :
    a.Resolves outcome.arena := by
  have hsettles := htree.settles hrun
  refine ⟨hsettles.evolves, fun site hbelow => ?_,
    fun site hbelow => (hsettles.checked hsilent site hbelow).2,
    fun f node hfield => hsettles.hidden .expression f node (htree.hidden_of_isField hfield)⟩
  have hresolved := (hsettles.settled site hbelow).resolved (hsettles.checked hsilent site hbelow).1
  rwa [hsilent] at hresolved

/-! ### Sites -/

namespace Arena

/-- The nodes in which no name is looked up: the names behind points, the counters of loops and
their types. -/
inductive Nameless (a : Arena) : Visit → Prop
  | field {f : ExpressionId} {node : Expression} {name : String} {target : Option VariableId}
      (hfield : a.IsField f) (hget : a.get? f = some node)
      (hkind : node.kind = .identifier name target) : Nameless a (.expression f)
  | counter {x : VariableId} (h : a.IsCounter x) : Nameless a (.variable x)
  | count {t : TypeId} {node : TypeNode} (hget : a.get? t = some node) (hkind : node.kind = .integer) :
      Nameless a (.type t)

/-- Below a node without names there are only such nodes. -/
theorem Nameless.child {v w : Visit} (h : a.Nameless v) (hw : w ∈ a.children v) : a.Nameless w := by
  cases h with
  | @field f node name target hfield hget hkind =>
      rw [Visit.expression_eq f, children_of_get? hget, Node.children, hkind] at hw
      cases hw
  | @counter x h =>
      obtain ⟨node, t, type, hget, ht, hinit, htype, hkind⟩ := h
      rw [Visit.variable_eq x, children_of_get? hget, Node.children, ht, hinit] at hw
      rw [List.mem_singleton.1 hw]
      exact .count htype hkind
  | @count t node hget hkind =>
      rw [Visit.type_eq t, children_of_get? hget, Node.children, hkind] at hw
      cases hw

/-- Each child has a site right below the site of its parent, or no name is looked up in it. -/
theorem exists_inside_of_child (hcounted : a.Counted) {scopes : List (List Declaration)}
    {family : Family} {id : NodeId family} {node : Node family} (hget : a.get? id = some node)
    (hchecked : a.Checked ⟨scopes, Visit.of id⟩) {w : Visit} (hw : w ∈ Node.children family node) :
    (∃ child ∈ a.insideNode scopes family node, child.visit = w) ∨ a.Nameless w := by
  have hsame : ∀ {vs : List Visit}, w ∈ vs → ∃ child ∈ vs.map (Site.mk scopes), child.visit = w :=
    fun hmem => ⟨⟨scopes, w⟩, List.mem_map_of_mem hmem, rfl⟩
  cases family with
  | routine =>
      rcases List.mem_append.1 hw with hw | hw
      · obtain ⟨child, hchild, hvisit⟩ := hsame hw
        exact Or.inl ⟨child, List.mem_append_left _ hchild, hvisit⟩
      · rw [List.mem_singleton.1 hw]
        exact Or.inl ⟨_, List.mem_append_right _ List.mem_cons_self, rfl⟩
  | statement =>
      rcases List.mem_append.1 hw with hw | hw
      · rcases List.mem_append.1 hw with hw | hw
        · obtain ⟨child, hchild, hvisit⟩ := hsame hw
          exact Or.inl ⟨child, List.mem_append_left _ hchild, hvisit⟩
        · obtain ⟨x, hx, rfl⟩ := List.mem_map.1 hw
          exact Or.inr (.counter (hcounted id node x hget (Option.mem_toList.1 hx)))
      · obtain ⟨body, hbody, rfl⟩ := List.mem_map.1 hw
        exact Or.inl ⟨_, List.mem_append_right _ (List.mem_map_of_mem hbody), rfl⟩
  | expression =>
      obtain ⟨e, he, rfl⟩ := List.mem_map.1 hw
      by_cases hmember : node.kind.NotMember
      · refine Or.inl (hsame (List.mem_map_of_mem ?_))
        rwa [slots_of_notMember hmember]
      · obtain ⟨left, f, hkind⟩ := exists_member hmember
        rw [hkind] at he
        rcases List.mem_cons.1 he with rfl | he
        · refine Or.inl (hsame (List.mem_map_of_mem ?_))
          rw [Node.slots, hkind]
          exact List.mem_singleton_self _
        · rw [List.mem_singleton.1 he]
          obtain ⟨field, name, target, hfield, hname⟩ := hchecked node left f hget hkind
          exact Or.inr (.field ⟨id, node, left, hget, hkind⟩ hfield hname)
  | «variable» | typeDecl | type | body => exact Or.inl (hsame hw)

/-- What is in a slot of a node has its site in the same scopes. -/
theorem mem_insideNode_of_slot {scopes : List (List Declaration)} {family : Family}
    {node : Node family} {e : ExpressionId} (he : e ∈ Node.slots family node) :
    ⟨scopes, .expression e⟩ ∈ a.insideNode scopes family node := by
  cases family with
  | statement => exact List.mem_append_left _ (List.mem_map_of_mem (List.mem_map_of_mem he))
  | expression => exact List.mem_map_of_mem (List.mem_map_of_mem he)
  | «variable» | type => exact List.mem_map_of_mem (Node.slots_subset _ node he)
  | routine | typeDecl | body => nomatch he

/-- An expression that a node owns is in one of its slots, or the node is an access to it. -/
theorem slot_or_access {family : Family} {id : NodeId family} {node : Node family}
    (hget : a.get? id = some node) {e : ExpressionId}
    (he : .expression e ∈ Node.children family node) : e ∈ Node.slots family node ∨
      ∃ (access : ExpressionId) (member : Expression) (left : ExpressionId),
        Visit.of id = .expression access ∧ a.get? access = some member ∧
          member.kind = .binary .member left e := by
  by_cases hfamily : family = .expression
  · subst hfamily
    obtain ⟨e', howned, heq⟩ := List.mem_map.1 he
    cases heq
    by_cases hmember : node.kind.NotMember
    · rw [slots_of_notMember hmember]
      exact Or.inl howned
    · obtain ⟨left, f, hkind⟩ := exists_member hmember
      rw [hkind] at howned
      rcases List.mem_cons.1 howned with rfl | howned
      · rw [Node.slots, hkind]
        exact Or.inl (List.mem_singleton_self _)
      · rw [List.mem_singleton.1 howned]
        exact Or.inr ⟨id, node, left, rfl, hget, hkind⟩
  · exact Or.inl (Node.slot_of_child hfamily he)

/-- So it is in one of its slots, or the name behind a point. -/
theorem slot_or_isField {family : Family} {id : NodeId family} {node : Node family}
    (hget : a.get? id = some node) {e : ExpressionId}
    (he : .expression e ∈ Node.children family node) : e ∈ Node.slots family node ∨ a.IsField e :=
  (slot_or_access hget he).imp_right fun ⟨access, member, left, _, hmember, hkind⟩ =>
    ⟨access, member, left, hmember, hkind⟩

end Arena

/-- **Every node has a site**, or no name is looked up in it. -/
theorem exists_site (htree : a.IsTree nodes) (h : a.Resolves b) {v : Visit} (hv : v ∈ nodes) :
    (∃ scopes, a.Below a.top ⟨scopes, v⟩) ∨ a.Nameless v := by
  obtain ⟨root, hroot, hreaches⟩ := htree.spans.exists_reaches hv
  have hmem : ∀ w, a.Reaches root w → w ∈ nodes := by
    intro w hw
    induction hw with
    | refl => exact htree.spans.mem_of_root hroot
    | tail _ hchild ih => exact htree.spans.child_mem ih hchild
  induction hreaches with
  | refl => exact Or.inl ⟨a.top.scopes, .inside (List.mem_map_of_mem hroot) (.here _)⟩
  | @tail v w hreaches hchild ih =>
      have hhas := htree.spans.has_of_mem (hmem v hreaches)
      rcases ih (hmem v hreaches) with ⟨scopes, hbelow⟩ | hnameless
      · obtain ⟨family, id, rfl⟩ := hhas.exists_of
        obtain ⟨node, hget⟩ := hhas.exists_get?
        rw [children_of_get? hget] at hchild
        have hinside : _ = Arena.insideNode _ scopes _ _ := inside_of_get? hget
        rcases exists_inside_of_child htree.counted hget (h.checked _ hbelow) hchild with
          ⟨child, hmem, rfl⟩ | hnameless
        · exact Or.inl ⟨child.scopes, hbelow.tail (hinside ▸ hmem)⟩
        · exact Or.inr hnameless
      · exact Or.inr (hnameless.child hchild)

/-! ### Slots -/

/-- There are as many slots as before. -/
theorem Node.Change.length_slots {family : Family} {node node' : Node family}
    (h : Node.Change a family node node') :
    (Node.slots family node').length = (Node.slots family node).length := by
  cases h with
  | initializer node hold hfresh =>
      rw [Node.slots, Node.slots, hold]
      rfl
  | length node hold hfresh =>
      rw [Node.slots, Node.slots, hold]
      rfl
  | target node hold ht =>
      rw [Node.slots, Node.slots, hold]
  | expression node index hfresh =>
      rw [Node.slots, StatementKind.expressions_setExpression, List.length_set, Node.slots]
  | operand node hopen hfresh =>
      rename_i index e
      by_cases hmember : node.kind.NotMember
      · rw [slots_of_notMember (hmember.setOperand index e), slots_of_notMember hmember,
          ExpressionKind.operands_setOperand, List.length_set]
      · obtain ⟨left, right, hkind⟩ := exists_member hmember
        rw [Node.slots, hkind] at hopen
        obtain rfl : index = 0 := Nat.lt_one_iff.1 hopen
        rw [Node.slots, Node.slots, hkind]
        rfl
  | link node hold hx =>
      rw [Node.slots, Node.slots, hold]
      rfl
  | routine node hold hr =>
      rw [Node.slots, Node.slots, hold]
      rfl

theorem Node.Changes.length_slots {family : Family} {node node' : Node family}
    (h : Node.Changes a family node node') :
    (Node.slots family node').length = (Node.slots family node).length := by
  induction h with
  | refl => rfl
  | tail _ hchange ih => exact hchange.length_slots.trans ih

/-- A node in which no name is looked up has no slots. -/
theorem Arena.Nameless.slots_eq {v : Visit} (h : a.Nameless v) : a.slots v = [] := by
  cases h with
  | @field f node name target hfield hget hkind =>
      rw [Visit.expression_eq f, slots_of_get? hget, Node.slots, hkind]
      rfl
  | @counter x h =>
      obtain ⟨node, t, type, hget, ht, hinit, htype, hkind⟩ := h
      rw [Visit.variable_eq x, slots_of_get? hget, Node.slots, hinit]
      rfl
  | @count t node hget hkind =>
      rw [Visit.type_eq t, slots_of_get? hget, Node.slots, hkind]

theorem Arena.Evolves.isField (h : Evolves a a b) {f : ExpressionId} (hfield : b.IsField f) :
    a.IsField f := by
  obtain ⟨e, node, left, hget, hkind⟩ := hfield
  rcases h.origin hget with ⟨old, hold, hchanges⟩ | ⟨name, r, span, -, rfl⟩
  · obtain ⟨left', hkind'⟩ := hchanges.member hkind
    exact ⟨e, old, left', hold, hkind'⟩
  · nomatch hkind

/-- In a tree no child is missing. -/
theorem Arena.IsTree.has_child (htree : a.IsTree nodes) {family : Family} {id : NodeId family}
    {node : Node family} (hget : a.get? id = some node) {w : Visit}
    (hw : w ∈ Node.children family node) : a.Has w := by
  have hmem := htree.mem_of_child hget hw
  exact htree.spans.has_of_mem (htree.spans.child_mem hmem (children_of_get? hget ▸ hw))

theorem Arena.IsTree.has_field (htree : a.IsTree nodes) {f : ExpressionId} (h : a.IsField f) :
    a.Has (.expression f) := by
  obtain ⟨e, node, left, hget, hkind⟩ := h
  refine htree.has_child hget ?_
  rw [Node.children, hkind]
  exact List.mem_cons_of_mem _ List.mem_cons_self

/-- Each element on the right belongs to one on the left. -/
theorem exists_of_forall₂ {α β : Type} {R : α → β → Prop} {xs : List α} {ys : List β}
    (h : List.Forall₂ R xs ys) {y : β} (hy : y ∈ ys) : ∃ x ∈ xs, R x y := by
  induction h with
  | nil => nomatch hy
  | cons hR _ ih =>
      rcases List.mem_cons.1 hy with rfl | hy
      · exact ⟨_, List.mem_cons_self, hR⟩
      · obtain ⟨x, hx, hR'⟩ := ih hy
        exact ⟨x, List.mem_cons_of_mem _ hx, hR'⟩

/-- **What stands in a slot** of a resolved tree stands there for an expression of the parsed one, in
the scopes around the slot. -/
theorem Arena.Resolves.exists_standsFor (h : a.Resolves b) (htree : a.IsTree nodes) {family : Family}
    {id : NodeId family} {node : Node family} (hget : b.get? id = some node) {e : ExpressionId}
    (he : e ∈ Node.slots family node) :
    ∃ scopes e₀, a.Below a.top ⟨scopes, .expression e₀⟩ ∧ StandsFor a b [] scopes e₀ e := by
  rcases h.evolves.origin hget with ⟨old, hold, hchanges⟩ | hadded
  · obtain ⟨first, hfirst⟩ : ∃ first, first ∈ Node.slots family old :=
      List.exists_mem_of_length_pos (hchanges.length_slots ▸ List.length_pos_of_mem he)
    have hmem := htree.mem_of_child hold (Node.slots_subset family old hfirst)
    rcases exists_site htree h hmem with ⟨scopes, hbelow⟩ | hnameless
    · have hslots := (h.names _ hbelow).slots
      rw [slots_of_get? hold, slots_of_get? hget] at hslots
      obtain ⟨e₀, he₀, hstands⟩ := exists_of_forall₂ hslots he
      refine ⟨scopes, e₀, hbelow.tail ?_, hstands⟩
      rw [inside_of_get? hold]
      exact mem_insideNode_of_slot he₀
    · rw [← slots_of_get? hold, hnameless.slots_eq] at hfirst
      nomatch hfirst
  · cases family with
    | expression =>
        obtain ⟨name, r, span, -, rfl⟩ := hadded
        nomatch he
    | routine | «variable» | typeDecl | type | body | statement => exact hadded.elim

/-! ### Children -/

/-- An expression that was added. -/
def Arena.Added (a : Arena) (w : Visit) : Prop :=
  ∃ e : ExpressionId, w = .expression e ∧ a.count .expression ≤ e.index

/-- Below a node there is what was there before, or an added call. -/
theorem Node.Change.children {family : Family} {node node' : Node family}
    (h : Node.Change a family node node') {w : Visit} (hw : w ∈ Node.children family node') :
    w ∈ Node.children family node ∨ a.Added w := by
  have hset : ∀ {es : List ExpressionId} {index : Nat} {e : ExpressionId},
      a.count .expression ≤ e.index → w ∈ (es.set index e).map Visit.expression →
      w ∈ es.map Visit.expression ∨ a.Added w := by
    intro es index e hfresh hmem
    obtain ⟨e', he', rfl⟩ := List.mem_map.1 hmem
    rcases List.mem_or_eq_of_mem_set he' with he' | rfl
    · exact Or.inl (List.mem_map_of_mem he')
    · exact Or.inr ⟨e', rfl, hfresh⟩
  cases h with
  | initializer node hold hfresh =>
      rcases List.mem_append.1 hw with hw | hw
      · exact Or.inl (List.mem_append_left _ hw)
      · exact Or.inr ⟨_, List.mem_singleton.1 hw, hfresh⟩
  | length node hold hfresh =>
      rcases List.mem_append.1 hw with hw | hw
      · exact Or.inr ⟨_, List.mem_singleton.1 hw, hfresh⟩
      · rw [Node.children, hold]
        exact Or.inl (List.mem_append_right _ hw)
  | target node hold ht => cases hw
  | expression node index hfresh =>
      rw [Node.children, StatementKind.expressions_setExpression, setExpression_counter?,
        setExpression_bodies, List.append_assoc] at hw
      rw [Node.children, List.append_assoc]
      rcases List.mem_append.1 hw with hw | hw
      · exact (hset hfresh hw).imp_left (List.mem_append_left _)
      · exact Or.inl (List.mem_append_right _ hw)
  | operand node hopen hfresh =>
      rw [Node.children, ExpressionKind.operands_setOperand] at hw
      exact hset hfresh hw
  | link node hold hx => cases hw
  | routine node hold hr =>
      rw [Node.children, hold]
      exact Or.inl hw

theorem Node.Changes.children {family : Family} {node node' : Node family}
    (h : Node.Changes a family node node') {w : Visit} (hw : w ∈ Node.children family node') :
    w ∈ Node.children family node ∨ a.Added w := by
  induction h with
  | refl => exact Or.inl hw
  | tail _ hchange ih =>
      rcases hchange.children hw with hw | hadded
      · exact ih hw
      · exact Or.inr hadded

theorem Arena.Evolves.size_le (h : Evolves a a b) : a.size ≤ b.size := size_le_of_count_le h.count_le

namespace Arena.Resolves

/-- In a resolved tree no child is missing. -/
theorem has_child (h : a.Resolves b) (htree : a.IsTree nodes) {family : Family} {id : NodeId family}
    {node : Node family} (hget : b.get? id = some node) {w : Visit}
    (hw : w ∈ Node.children family node) : b.Has w := by
  rcases h.evolves.origin hget with ⟨old, hold, hchanges⟩ | hadded
  · rcases hchanges.children hw with hw' | ⟨e, rfl, hfresh⟩
    · exact h.evolves.has (htree.has_child hold hw')
    · rcases slot_or_isField hget hw with hslot | hfield
      · obtain ⟨scopes, e₀, -, hstands⟩ := h.exists_standsFor htree hget hslot
        exact hstands.has h.evolves
      · exact h.evolves.has (htree.has_field (h.evolves.isField hfield))
  · cases family with
    | expression =>
        obtain ⟨name, r, span, -, rfl⟩ := hadded
        nomatch hw
    | routine | «variable» | typeDecl | type | body | statement => exact hadded.elim

end Arena.Resolves

/-! ### Links -/

/-- Storing an operand makes no name. -/
theorem identifier_of_setOperand {kind : ExpressionKind} {index : Nat} {e : ExpressionId}
    {name : String} {target : Option VariableId}
    (h : kind.setOperand index e = .identifier name target) : kind = .identifier name target := by
  cases kind with
  | identifier => rcases index with _ | _ | index <;> exact h
  | unary | binary | integer | real | boolean | call =>
      rcases index with _ | _ | index <;> nomatch h

/-- Storing an operand makes no call. -/
theorem call_of_setOperand {kind : ExpressionKind} {index : Nat} {e : ExpressionId} {name : String}
    {target : Option RoutineId} {arguments : List ExpressionId}
    (h : kind.setOperand index e = .call name target arguments) :
    ∃ old, kind = .call name target old := by
  cases kind with
  | call other r old => rcases index with _ | _ | index <;> cases h <;> exact ⟨old, rfl⟩
  | unary | binary | integer | real | boolean | identifier =>
      rcases index with _ | _ | index <;> nomatch h

/-- The links of an expression lead to what is there. -/
structure LinksValid (a : Arena) (node : Expression) : Prop where
  «variable» : ∀ name x, node.kind = .identifier name (some x) → a.Has (.variable x)
  routine : ∀ name r arguments, node.kind = .call name (some r) arguments → a.Has (.routine r)

theorem LinksValid.of_raw {node : Expression} (h : Node.Raw .expression node) : LinksValid a node := by
  rw [Node.Raw] at h
  refine ⟨fun name x hkind => ?_, fun name r arguments hkind => ?_⟩
  · rw [hkind] at h
    cases hkind.symm.trans (congrArg Expression.kind h)
  · rw [hkind] at h
    cases hkind.symm.trans (congrArg Expression.kind h)

theorem LinksValid.change {node node' : Expression} (h : LinksValid a node)
    (hchange : Node.Change a .expression node node') : LinksValid a node' := by
  cases hchange with
  | operand node hopen hfresh =>
      refine ⟨fun name x hkind => h.variable name x (identifier_of_setOperand hkind),
        fun name r arguments hkind => ?_⟩
      obtain ⟨old, hold⟩ := call_of_setOperand hkind
      exact h.routine name r old hold
  | link node hold hx =>
      refine ⟨fun name x hkind => ?_, nofun⟩
      cases hkind
      exact has_of_get? hx
  | routine node hold hr =>
      refine ⟨nofun, fun name r arguments hkind => ?_⟩
      cases hkind
      exact hr

theorem Arena.Evolves.linksValid (h : Evolves a a b) (htree : a.IsTree nodes) {id : ExpressionId}
    {node : Expression} (hget : b.get? id = some node) : LinksValid a node := by
  rcases h.origin hget with ⟨old, hold, hchanges⟩ | ⟨name, r, span, hr, rfl⟩
  · have hraw := (htree.raw hold).2
    clear hget hold
    induction hchanges with
    | refl => exact .of_raw hraw
    | tail _ hchange ih => exact ih.change hchange
  · refine ⟨nofun, fun name r arguments hkind => ?_⟩
    cases hkind
    exact hr

/-- A name was a name before. -/
theorem Node.Changes.exists_identifier {node node' : Expression}
    (h : Node.Changes a .expression node node') {name : String} {target : Option VariableId}
    (hkind : node'.kind = .identifier name target) : ∃ old, node.kind = .identifier name old := by
  induction h generalizing target with
  | refl => exact ⟨target, hkind⟩
  | tail _ hchange ih =>
      cases hchange with
      | operand middle hopen hfresh => exact ih (identifier_of_setOperand hkind)
      | link middle hold hx =>
          cases hkind
          exact ih hold
      | routine middle hold hr => nomatch hkind

/-- A call was a call before. -/
theorem Node.Changes.exists_call {node node' : Expression}
    (h : Node.Changes a .expression node node') {name : String} {target : Option RoutineId}
    {arguments : List ExpressionId} (hkind : node'.kind = .call name target arguments) :
    ∃ old arguments', node.kind = .call name old arguments' := by
  induction h generalizing target arguments with
  | refl => exact ⟨target, arguments, hkind⟩
  | tail _ hchange ih =>
      cases hchange with
      | operand middle hopen hfresh =>
          obtain ⟨old, hold⟩ := call_of_setOperand hkind
          exact ih hold
      | link middle hold hx => nomatch hkind
      | routine middle hold hr =>
          cases hkind
          exact ih hold

/-- A named type was a named type before. -/
theorem Node.Changes.exists_named {node node' : TypeNode} (h : Node.Changes a .type node node')
    {name : String} {target : Option TypeDeclId} (hkind : node'.kind = .named name target) :
    ∃ old, node.kind = .named name old := by
  rcases h.type_cases with hsame | ⟨other, old, new, hold, hnew⟩ | ⟨l, l', other, -, hnew⟩
  · exact ⟨target, hsame.symm.trans hkind⟩
  · cases hnew.symm.trans hkind
    exact ⟨old, hold⟩
  · nomatch hnew.symm.trans hkind

theorem Node.Changes.exists_array {node node' : TypeNode} (h : Node.Changes a .type node node')
    {length : Option ExpressionId} {element : TypeId} (hkind : node'.kind = .array length element) :
    ∃ old, node.kind = .array old element := by
  rcases h.type_cases with hsame | ⟨name, old, new, -, hnew⟩ | ⟨l, l', other, hold, hnew⟩
  · exact ⟨length, hsame.symm.trans hkind⟩
  · nomatch hnew.symm.trans hkind
  · cases hnew.symm.trans hkind
    exact ⟨l, hold⟩

/-- The shared types are the primitive ones. -/
theorem Arena.kind_of_shared {t : TypeId} {node : TypeNode} (hget : empty.get? t = some node) :
    node.kind = .integer ∨ node.kind = .real ∨ node.kind = .boolean := by
  have hmem := List.mem_of_getElem? (by simpa [get?, table, empty] using hget)
  simp only [List.mem_cons, List.not_mem_nil, or_false] at hmem
  rcases hmem with rfl | rfl | rfl <;> simp

/-- None of the shared types is a name. -/
theorem Arena.IsTree.mem_of_named (htree : a.IsTree nodes) {id : TypeId} {node : TypeNode}
    (hget : a.get? id = some node) {name : String} {target : Option TypeDeclId}
    (hkind : node.kind = .named name target) : .type id ∈ nodes := by
  rcases htree.covers .type id node hget with hshared | ⟨hmem, -⟩
  · obtain ⟨shared, hempty⟩ := exists_of_has id hshared
    obtain rfl : shared = node :=
      Option.some.inj ((htree.shared .type id shared hempty).symm.trans hget)
    rcases kind_of_shared hempty with hbase | hbase | hbase <;> nomatch hbase.symm.trans hkind
  · exact hmem

/-- No link of a resolved tree leads nowhere. -/
theorem Arena.Evolves.has_link (h : Evolves a a b) (htree : a.IsTree nodes) {family : Family}
    {id : NodeId family} {node : Node family} (hget : b.get? id = some node) {v : Visit}
    (hv : v ∈ Node.links family node) : b.Has v := by
  refine h.has ?_
  cases family with
  | type =>
      rw [Node.links] at hv
      split at hv
      · rename_i name t hkind
        rw [List.mem_singleton.1 hv]
        exact (typeLinkValid_of_evolves htree h hget).named name t hkind
      · cases hv
  | expression =>
      rcases List.mem_append.1 hv with hv | hv
      · obtain ⟨t, ht, rfl⟩ := List.mem_map.1 hv
        have ht : node.type = some t := Option.mem_toList.1 ht
        rcases h.untyped htree hget with hliteral | ⟨name, x, v, -, hx, htype⟩
        · have hshared : empty.Has (.type t) := by
            rw [ht] at hliteral
            cases hkind : node.kind with
            | integer | real | boolean =>
                rw [hkind] at hliteral
                cases hliteral
                exact ⟨.type, _, rfl, by decide⟩
            | identifier | call | unary | binary =>
                rw [hkind] at hliteral
                cases hliteral
          exact hshared.extend htree.shared
        · refine htree.has_child hx (List.mem_append_left _ (List.mem_map_of_mem ?_))
          rw [htype, ht]
          exact List.mem_singleton_self t
      · have hvalid := h.linksValid htree hget
        split at hv
        · rename_i name x hkind
          rw [List.mem_singleton.1 hv]
          exact hvalid.variable name x hkind
        · rename_i name r arguments hkind
          rw [List.mem_singleton.1 hv]
          exact hvalid.routine name r arguments hkind
        · cases hv
  | routine | «variable» | typeDecl | body | statement => cases hv

/-- **No id of a resolved tree leads nowhere.** -/
theorem Arena.Resolves.closed (h : a.Resolves b) (htree : a.IsTree nodes) : b.Closed := by
  intro family id node hget v hv
  rcases List.mem_append.1 hv with hv | hv
  · exact h.has_child htree hget hv
  · exact h.evolves.has_link htree hget hv

namespace Arena.Resolves

/-- What is reached in a resolved tree is there. -/
theorem has_of_reaches (h : a.Resolves b) (htree : a.IsTree nodes) {v : Visit}
    (hreaches : b.Reaches .program v) (hv : v ≠ .program) : b.Has v := by
  induction hreaches with
  | refl => exact absurd rfl hv
  | @tail v w _ hchild ih =>
      by_cases hprogram : v = .program
      · subst hprogram
        rw [children, h.evolves.program] at hchild
        exact h.evolves.has (htree.spans.has_of_mem (htree.spans.mem_of_root hchild))
      · obtain ⟨family, id, rfl⟩ := (ih hprogram).exists_of
        obtain ⟨node, hget⟩ := exists_of_has id (ih hprogram)
        exact h.has_child htree hget (children_of_get? hget ▸ hchild)

/-- An expression that is reached has an owner. -/
theorem exists_owner (h : a.Resolves b) (htree : a.IsTree nodes) {id : ExpressionId}
    (hreaches : b.Reaches .program (.expression id)) :
    ∃ (family : Family) (owner : NodeId family) (node : Node family),
      b.Reaches .program (Visit.of owner) ∧ b.get? owner = some node ∧
        .expression id ∈ Node.children family node := by
  rcases Relation.ReflTransGen.cases_tail hreaches with heq | ⟨v, hv, hchild⟩
  · nomatch heq
  have hprogram : v ≠ .program := by
    rintro rfl
    obtain ⟨d, -, heq⟩ := List.mem_map.1 hchild
    cases d <;> nomatch heq
  obtain ⟨family, owner, rfl⟩ := (h.has_of_reaches htree hv hprogram).exists_of
  obtain ⟨node, hget⟩ := exists_of_has owner (h.has_of_reaches htree hv hprogram)
  exact ⟨family, owner, node, hv, hget, children_of_get? hget ▸ hchild⟩

/-- A name is behind one point only. -/
theorem member_unique (h : a.Resolves b) (htree : a.IsTree nodes) {e e' left left' f : ExpressionId}
    {member member' : Expression} (hmember : b.get? e = some member)
    (hkind : member.kind = .binary .member left f) (hmember' : b.get? e' = some member')
    (hkind' : member'.kind = .binary .member left' f) : e = e' := by
  have hparsed : ∀ {e left : ExpressionId} {member : Expression}, b.get? e = some member →
      member.kind = .binary .member left f →
      .expression e ∈ nodes ∧ .expression f ∈ a.children (.expression e) := by
    intro e left member hmember hkind
    rcases h.evolves.origin hmember with ⟨old, hold, hchanges⟩ | ⟨name, r, span, -, rfl⟩
    · obtain ⟨left', hkind'⟩ := hchanges.member hkind
      refine ⟨(htree.raw hold).1, ?_⟩
      rw [Visit.expression_eq e, children_of_get? hold, Node.children, hkind']
      exact List.mem_cons_of_mem _ List.mem_cons_self
    · cases hkind
  obtain ⟨hmem, hchild⟩ := hparsed hmember hkind
  obtain ⟨hmem', hchild'⟩ := hparsed hmember' hkind'
  have hsame := htree.spans.parent_unique htree.nodup hmem hmem' hchild hchild'
  injection hsame

/-- A name behind a point that is reached is reached through its access. -/
theorem reaches_access (h : a.Resolves b) (htree : a.IsTree nodes) {access left f : ExpressionId}
    {member : Expression} (hreaches : b.Reaches .program (.expression f))
    (hget : b.get? access = some member) (hkind : member.kind = .binary .member left f) :
    b.Reaches .program (.expression access) := by
  obtain ⟨family, owner, node, howner, hnode, hchild⟩ := h.exists_owner htree hreaches
  rcases slot_or_access hnode hchild with hslot | ⟨other, member', left', heq, hmember', hkind'⟩
  · exact absurd hslot (h.evolves.separate htree f ⟨access, member, left, hget, hkind⟩ _ _ node hnode)
  · rw [h.member_unique htree hget hkind hmember' hkind', ← heq]
    exact howner

/-- The names behind points are not touched. -/
theorem exists_field (h : a.Resolves b) (htree : a.IsTree nodes) {f : ExpressionId}
    (hfield : b.IsField f) :
    ∃ node name, b.get? f = some node ∧ node.kind = .identifier name none := by
  have hfield' := h.evolves.isField hfield
  obtain ⟨e, member, left, hmember, hkind⟩ := h.evolves.isField hfield
  obtain ⟨scopes, hbelow⟩ : ∃ scopes, a.Below a.top ⟨scopes, .expression e⟩ := by
    refine (exists_site htree h (htree.raw hmember).1).resolve_right fun hnameless => ?_
    cases hnameless with
    | field _ hget hname =>
        obtain rfl := Option.some.inj (hget.symm.trans hmember)
        nomatch hname.symm.trans hkind
  obtain ⟨node, name, target, hget, hname⟩ := h.checked _ hbelow member left f hmember hkind
  exact ⟨node, name, h.fields f node hfield' hget, htree.unlinked hget hname⟩

/-- **Every name that is reached is linked** to the innermost variable of its name, but for those
behind points. -/
theorem identifier_linked (h : a.Resolves b) (htree : a.IsTree nodes) {id : ExpressionId}
    (hreaches : b.Reaches .program (.expression id)) {node : Expression}
    (hget : b.get? id = some node) {name : String} {target : Option VariableId}
    (hkind : node.kind = .identifier name target) :
    b.IsField id ∨ ∃ scopes x, a.Below a.top ⟨scopes, .expression id⟩ ∧
      a.innermost Declaration.variable? name scopes = some x ∧ target = some x := by
  obtain ⟨family, owner, ownerNode, -, howner, hchild⟩ := h.exists_owner htree hreaches
  refine (slot_or_isField howner hchild).symm.imp_right fun hslot => ?_
  obtain ⟨scopes, e, hbelow, hstands⟩ := h.exists_standsFor htree howner hslot
  cases hstands with
  | linked hnode hkind' hname hlinked hlink hspan hsilent =>
      obtain rfl := Option.some.inj (hlinked.symm.trans hget)
      cases hlink.symm.trans hkind
      exact ⟨scopes, _, hbelow, hname, rfl⟩
  | called hnode hkind' hvariable hname hfresh hcall hsilent =>
      obtain rfl := Option.some.inj (hcall.symm.trans hget)
      nomatch hkind
  | undeclared hnode hkind' hvariable hroutine hkept hreport => nomatch hreport
  | other hnode hother =>
      obtain ⟨node', hget', hchanges⟩ := h.evolves.changed .expression id _ hnode
      obtain rfl := Option.some.inj (hget'.symm.trans hget)
      obtain ⟨target', hold⟩ := hchanges.exists_identifier hkind
      exact absurd hold (hother name target')

/-- Every call is linked. -/
theorem call_linked (h : a.Resolves b) (htree : a.IsTree nodes) {id : ExpressionId}
    {node : Expression} (hget : b.get? id = some node) {name : String} {target : Option RoutineId}
    {arguments : List ExpressionId} (hkind : node.kind = .call name target arguments) :
    ∃ r, target = some r := by
  rcases h.evolves.origin hget with ⟨old, hold, hchanges⟩ | ⟨other, r, span, -, rfl⟩
  · obtain ⟨target', arguments', hkind'⟩ := hchanges.exists_call hkind
    rcases exists_site htree h (htree.raw hold).1 with ⟨scopes, hbelow⟩ | hnameless
    · obtain ⟨linked, hlinked, hcall⟩ :=
        (h.names _ hbelow).call id old name target' arguments' rfl hold hkind'
      obtain rfl := Option.some.inj (hlinked.symm.trans hget)
      cases hcall with
      | linked hname hlink hsilent =>
          cases hlink.symm.trans hkind
          exact ⟨_, rfl⟩
      | undeclared hname hlink hreport => nomatch hreport
    · cases hnameless with
      | field hfield hget' hname =>
          obtain rfl := Option.some.inj (hget'.symm.trans hold)
          nomatch hname.symm.trans hkind'
  · cases hkind
    exact ⟨_, rfl⟩

/-- Every type that is given by its name is linked, as the scopes around it say. -/
theorem named_linked (h : a.Resolves b) (htree : a.IsTree nodes) {id : TypeId} {node : TypeNode}
    (hget : b.get? id = some node) {name : String} {target : Option TypeDeclId}
    (hkind : node.kind = .named name target) :
    ∃ scopes t, a.Below a.top ⟨scopes, .type id⟩ ∧
      a.innermost Declaration.type? name scopes = some t ∧ target = some t := by
  rcases h.evolves.origin hget with ⟨old, hold, hchanges⟩ | hadded
  · obtain ⟨target', hkind'⟩ := hchanges.exists_named hkind
    have hmem : .type id ∈ nodes := htree.mem_of_named hold hkind'
    rcases exists_site htree h hmem with ⟨scopes, hbelow⟩ | hnameless
    · obtain ⟨linked, hlinked, hlink⟩ := (h.names _ hbelow).type id old name target' rfl hold hkind'
      obtain rfl := Option.some.inj (hlinked.symm.trans hget)
      cases hlink with
      | linked hname hlink hsilent =>
          rw [hlink] at hkind
          cases hkind
          exact ⟨scopes, _, hbelow, hname, rfl⟩
      | undeclared hname hlink hreport => nomatch hreport
    · cases hnameless with
      | count hget' hinteger =>
          obtain rfl := Option.some.inj (hget'.symm.trans hold)
          nomatch hinteger.symm.trans hkind'
  · exact hadded.elim

end Arena.Resolves

end ProcLang
