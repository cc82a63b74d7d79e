import ProcLang.Proofs.Account.Scopes
import ProcLang.Proofs.Resolved.Forest

/-!
# ProcLang.Proofs.Account.Layer

**One layer of name resolution tells its part of the account.** There is one lemma for each kind of
node; each of them follows the text of the layer.
-/

namespace ProcLang

open Arena WalkM

variable {a : Arena} {routines : Routines} {nodes : List Visit}
  {below : Visit → NamesM (Option ExpressionId)} {n : Nat} {all xs todo : List Visit}
  {s s₁ s₂ s' : WalkState Routines} {scopes : List (List Declaration)}

/-- A node keeps its text. -/
theorem Node.Changes.span_eq {family : Family} {node node' : Node family}
    (h : Node.Changes a family node node') : Node.span family node' = Node.span family node := by
  induction h with
  | refl => rfl
  | tail _ hchange ih =>
      rw [← ih]
      cases hchange <;> rfl

theorem Recount.of_nil {sites : List Site} (h : sites = []) (s : WalkState Routines) :
    Recount a scopes sites xs s s := by
  subst h
  exact .quiet (.refl s)

/-- A node is told: what is said in front of it, what is inside, and what is said behind it. -/
theorem Recount.of_node {outer : List (List Declaration)} {family : Family} {id : NodeId family}
    {node : Node family} (hget : a.get? id = some node)
    (hopened : (⟨scopes, Visit.of id⟩ : Site).opened = none)
    (hahead : Told a outer xs (a.aheadNode ⟨scopes, Visit.of id⟩ family node) s s₁)
    (h : Recount a outer (a.insideNode scopes family node) xs s₁ s₂)
    (hbehind : Told a outer xs (a.behindNode ⟨scopes, Visit.of id⟩ family node) s₂ s') :
    Recount a outer [⟨scopes, Visit.of id⟩] xs s s' := by
  have hahead' : Told a outer xs (a.ahead ⟨scopes, Visit.of id⟩) s s₁ := by
    rwa [ahead, ofNode_of_get? hget]
  have hbehind' : Told a outer xs (a.behind ⟨scopes, Visit.of id⟩) s₂ s' := by
    rwa [behind, ofNode_of_get? hget]
  refine .node hopened hahead' ?_ hbehind'
  rwa [inside_of_get? hget]

/-- A node that is not visited itself is read as before. -/
theorem Passed.read {sites : List Site} (h : Passed a routines nodes scopes sites xs todo s s')
    {family : Family} {id : NodeId family} {node found : Node family}
    (hget : s.arena.get? id = some node) (hmem : Visit.of id ∉ xs)
    (hfound : s'.arena.get? id = some found) : found = node :=
  Option.some.inj (hfound.symm.trans (h.effect.frame family id node hget hmem))

/-- What is known when a node is to be told. -/
structure Reached (a : Arena) (routines : Routines) (nodes : List Visit) (n : Nat)
    (scopes : List (List Declaration)) (v : Visit) (all : List Visit) (s : WalkState Routines) :
    Prop where
  top : a.Below a.top ⟨scopes, v⟩
  spans : Spans a [v] all
  layers : 2 * all.length ≤ n + 1
  facing : Facing a routines nodes scopes all s

/-- The node is read as it was parsed, and what is below it is ahead. -/
theorem Reached.begin {family : Family} (id : NodeId family)
    (h : Reached a routines nodes n scopes (Visit.of id) all s) :
    ∃ node rest, a.get? id = some node ∧ s.arena.get? id = some node ∧
      Spans a (Node.children family node) rest ∧ all = Visit.of id :: rest ∧
      2 * rest.length + 1 ≤ n ∧ Visit.of id ∈ nodes ∧ Visit.of id ∉ rest ∧
      (∀ child ∈ a.insideNode scopes family node, a.Below a.top child) ∧
      Facing a routines nodes scopes rest s := by
  obtain ⟨hhas, rest, hspans, rfl⟩ := h.spans.singleton_inv
  obtain ⟨node, hget⟩ := hhas.exists_get?
  have hlayers := h.layers
  rw [List.length_cons] at hlayers
  rw [children_of_get? hget] at hspans
  obtain ⟨hmem, hnodup⟩ := List.nodup_cons.1 h.facing.nodup
  refine ⟨node, rest, hget,
    (h.facing.ready.untouched family id List.mem_cons_self).trans hget, hspans, rfl, by omega,
    h.facing.subset List.mem_cons_self, hmem, fun child hchild => h.top.tail ?_,
    h.facing.sub (List.subset_cons_self _ _) hnodup⟩
  rwa [inside_of_get? hget]

/-! ### Variables and type declarations -/

theorem walkVariable_recounts (htree : a.IsTree nodes)
    (hbelow : Recounts a routines nodes below n) {id : VariableId}
    (h : Reached a routines nodes n scopes (.variable id) all s)
    (hrun : Runs (walkVariable below id) (a.scopeOf scopes) s () s') :
    Recount a scopes [⟨scopes, .variable id⟩] all s s' := by
  obtain ⟨node, rest, hget, hread, hspans, rfl, hlayers, hmem, hself, htop, hfacing⟩ := h.begin id
  have hsub : ∀ v ∈ Node.children .variable node, a.Below a.top ⟨scopes, v⟩ :=
    fun v hv => htop _ (List.mem_map_of_mem hv)
  obtain ⟨xs, ys, rfl, hxs, hys⟩ := hspans.append_inv
  rw [List.length_append] at hlayers
  obtain ⟨found, hfound, hrun⟩ := runs_node_bind.1 hrun
  obtain rfl := Option.some.inj (hread.symm.trans hfound)
  obtain ⟨⟨⟩, s₁, hrun₁, hrun⟩ := runs_bind.1 hrun
  rw [visitOptional_eq] at hrun₁
  have hpassed₁ := hbelow.visitNodes htree Visit.type nofun
    (fun t ht => hsub _ (List.mem_append_left _ (List.mem_map_of_mem ht))) hxs (by omega) hfacing hrun₁
  obtain ⟨found, hfound₁, hrun₂⟩ := runs_node_bind.1 hrun
  obtain rfl := hpassed₁.read hread (fun hxs => hself (List.mem_append_left _ hxs)) hfound₁
  refine .of_node hget rfl (.refl s) ?_ (.refl s')
  cases hinitializer : found.initializer with
  | none =>
      rw [hinitializer] at hrun₂
      obtain ⟨-, rfl⟩ := runs_pure.1 hrun₂
      have hinside : a.insideNode scopes .variable found =
          found.declaredType.toList.map fun t => ⟨scopes, .type t⟩ := by
        simp [insideNode, Node.children, hinitializer, Function.comp_def]
      rw [hinside]
      exact (hpassed₁.recount.mono (List.subset_append_left _ _)).mono (List.subset_cons_self _ _)
  | some e =>
      rw [hinitializer] at hrun₂ hys
      have hfacing₁ := hpassed₁.facing
      rw [← List.append_nil ys] at hself hfacing₁
      obtain ⟨hpassed₂, -⟩ := hbelow.visitSlot htree id h.top hmem
        (fun hys => hself (List.mem_append_right _ hys)) hfound₁
        (f := fun c node => { node with initializer := some c })
        (fun c hfresh => .initializer found hinitializer hfresh)
        (fun c => .initializer found c)
        (hsub _ (List.mem_append_right _ (by rw [hinitializer]; exact List.mem_cons_self))) hys
        (by omega) hfacing₁ hrun₂
      have hinside : a.insideNode scopes .variable found =
          (found.declaredType.toList.map fun t => ⟨scopes, .type t⟩) ++ [⟨scopes, .expression e⟩] := by
        simp [insideNode, Node.children, hinitializer, Function.comp_def]
      rw [hinside]
      exact ((hpassed₁.recount.mono (List.subset_append_left _ ys)).mono (List.subset_cons_self _ _)).trans
        (hpassed₂.recount.mono (List.cons_subset_cons _ (List.subset_append_right _ _)))

theorem walkTypeDecl_recounts (htree : a.IsTree nodes)
    (hbelow : Recounts a routines nodes below n) {id : TypeDeclId}
    (h : Reached a routines nodes n scopes (.typeDecl id) all s)
    (hrun : Runs (walk below (.typeDecl id)) (a.scopeOf scopes) s () s') :
    Recount a scopes [⟨scopes, .typeDecl id⟩] all s s' := by
  obtain ⟨node, rest, hget, hread, hspans, rfl, hlayers, hmem, hself, htop, hfacing⟩ := h.begin id
  obtain ⟨found, hfound, hrun⟩ := runs_node_bind.1 hrun
  obtain rfl := Option.some.inj (hread.symm.trans hfound)
  rw [← List.append_nil rest] at hfacing
  have hpassed := hbelow.visitNode htree (.type node.type) nofun (htop _ List.mem_cons_self) hspans
    hlayers hfacing hrun
  exact .of_node hget rfl (.refl s) (hpassed.recount.mono (List.subset_cons_self _ _)) (.refl s')

/-! ### Types -/

/-- **A named type is told**: it is reported if nothing has its name. -/
theorem resolveTypeName_recounts {id : TypeId} {node : TypeNode} {name : String}
    {target : Option TypeDeclId} (h : Reached a routines nodes n scopes (.type id) all s)
    (hget : a.get? id = some node) (hkind : node.kind = .named name target)
    (hrun : Runs (resolveTypeName id name) (a.scopeOf scopes) s () s') :
    Recount a scopes [⟨scopes, .type id⟩] all s s' := by
  have hread : s.arena.get? id = some node :=
    (h.facing.ready.untouched .type id (h.spans.mem_of_root List.mem_cons_self)).trans hget
  have hinside : a.insideNode scopes .type node = [] := by
    simp [insideNode, Node.children, hkind]
  rw [resolveTypeName] at hrun
  simp only [runs_read_bind, lookup_typeNames] at hrun
  cases hname : a.innermost Declaration.type? name scopes with
  | some t =>
      rw [hname] at hrun
      obtain ⟨found, hfound, rfl⟩ := runs_update.1 hrun
      obtain rfl := Option.some.inj (hread.symm.trans hfound)
      have hahead : a.aheadNode ⟨scopes, Visit.of id⟩ .type node = [] := by
        simp [aheadNode, hkind, hname]
      refine .of_node hget rfl ?_ (.of_nil hinside _) (.refl _)
      rw [hahead]
      refine ⟨⟨[], (List.append_nil _).symm, .nil⟩, fun t' e ht' => ?_,
        fun e name r hcall => Or.inl (hcall.of_put (by simp [Visit.of])),
        fun e x hidentifier => Or.inl (hidentifier.of_put (by simp [Visit.of]))⟩
      by_cases hsame : Visit.of t' = Visit.of id
      · obtain rfl := Visit.of_injective hsame
        obtain ⟨linked, other, hlinked, hlink⟩ := ht'
        obtain rfl := Option.some.inj ((get?_put_self hread _).symm.trans hlinked)
        rw [hkind] at hlink
        cases hlink
        obtain ⟨scope, hscope, d, hd, -, hselect⟩ := innermost_mem hname
        cases d with
        | type other =>
            cases hselect
            exact Or.inr (Or.inl ⟨scope, hscope, hd⟩)
        | routine | «variable» => cases hselect
      · exact Or.inl (ht'.of_put hsame)
  | none =>
      rw [hname] at hrun
      obtain ⟨found, hfound, hrun⟩ := runs_node_bind.1 hrun
      obtain rfl := Option.some.inj (hread.symm.trans hfound)
      obtain rfl := runs_report.1 hrun
      have hahead : a.aheadNode ⟨scopes, Visit.of id⟩ .type node =
          [⟨Visit.of id, .undeclaredType name⟩] := by
        simp [aheadNode, hkind, hname, Visit.of]
      refine .of_node hget rfl ?_ (.of_nil hinside _) (.refl _)
      rw [hahead]
      exact .single hget _ s

/-- The names of the fields of a record are those of the entries that they would make in a scope. -/
theorem entries_of_fields {c : Scope} {fields : List VariableId} {names : List (String × Position)}
    (hevolves : Evolves a a s.arena) (hhas : ∀ x ∈ fields, a.Has (.variable x))
    (hrun : Runs (fields.mapM fun (id : VariableId) => do
      let field ← node id
      return (field.name, field.span.start) : NamesM _) c s names s') :
    s' = s ∧ names = (a.entries (fields.map Declaration.variable)).map fun entry =>
      (entry.name, entry.start) := by
  induction fields generalizing names with
  | nil =>
      obtain ⟨rfl, rfl⟩ := runs_pure.1 hrun
      exact ⟨rfl, rfl⟩
  | cons x rest ih =>
      rw [List.mapM_cons] at hrun
      obtain ⟨first, s₁, hfirst, hmore⟩ := runs_bind.1 hrun
      obtain ⟨field, hfield, hread⟩ := runs_node_bind.1 hfirst
      obtain ⟨rfl, rfl⟩ := runs_pure.1 hread
      obtain ⟨others, s₂, hothers, hlast⟩ := runs_bind.1 hmore
      obtain ⟨rfl, rfl⟩ := runs_pure.1 hlast
      obtain ⟨rfl, rfl⟩ := ih (fun y hy => hhas y (List.mem_cons_of_mem _ hy)) hothers
      obtain ⟨old, hold⟩ := exists_of_has x (hhas x List.mem_cons_self)
      obtain ⟨found, hfound, hchanges⟩ := hevolves.changed .variable x old hold
      obtain rfl := Option.some.inj (hfound.symm.trans hfield)
      refine ⟨rfl, ?_⟩
      rw [hchanges.variable_eq]
      simp [entries, declarationName, get_eq_ok.2 hold, bind, Except.bind, pure, Except.pure,
        Node.span]

/-- **What is said of the fields of a record.** -/
theorem checkFields_told (scopes : List (List Declaration)) (xs : List Visit) {c : Scope}
    {fields : List VariableId} (hevolves : Evolves a a s.arena)
    (hhas : ∀ x ∈ fields, a.Has (.variable x)) (hrun : Runs (checkFields fields) c s () s') :
    s'.arena = s.arena ∧ s'.own = s.own ∧
      Told a scopes xs (a.repeated (fields.map Declaration.variable)) s s' := by
  obtain ⟨names, s₁, hnames, hreport⟩ := runs_bind.1 hrun
  obtain ⟨rfl, rfl⟩ := entries_of_fields hevolves hhas hnames
  obtain ⟨harena, hown, hds⟩ := runs_reportAll hreport
  exact ⟨harena, hown, .of_reports hds (reports_repeated a _) (harena ▸ .refl _)⟩

/-- An array is told: its length, and the type of its elements. -/
theorem walkArray_recounts (htree : a.IsTree nodes) (hbelow : Recounts a routines nodes below n)
    {id : TypeId} {node : TypeNode} {length : Option ExpressionId} {element : TypeId}
    (h : Reached a routines nodes n scopes (.type id) all s) (hget : a.get? id = some node)
    (hkind : node.kind = .array length element)
    (hrun : Runs (walkType below id) (a.scopeOf scopes) s () s') :
    Recount a scopes (a.insideNode scopes .type node) all s s' := by
  obtain ⟨found, rest, hfound, hread, hspans, rfl, hlayers, hmem, hself, htop, hfacing⟩ := h.begin id
  obtain rfl : found = node := Option.some.inj (hfound.symm.trans hget)
  have hchildren : Node.children .type found =
      length.toList.map Visit.expression ++ [Visit.type element] := by
    rw [Node.children, hkind]
  have hinside : a.insideNode scopes .type found =
      (length.toList.map Visit.expression ++ [Visit.type element]).map (Site.mk scopes) := by
    rw [← hchildren]
    rfl
  rw [hchildren] at hspans
  rw [hinside] at htop ⊢
  obtain ⟨xs, ys, rfl, hxs, hys⟩ := hspans.append_inv
  rw [List.length_append] at hlayers
  have helement : a.Below a.top ⟨scopes, .type element⟩ :=
    htop _ (List.mem_map_of_mem (List.mem_append_right _ List.mem_cons_self))
  rw [← List.append_nil ys] at hfacing hself
  obtain ⟨node', hread', hmore⟩ := runs_node_bind.1 hrun
  obtain rfl := Option.some.inj (hread.symm.trans hread')
  rw [hkind] at hmore
  cases length with
  | none =>
      cases hxs
      have hpassed := hbelow.visitNode htree (.type element) (by rintro _ ⟨⟩) helement hys (by omega)
        hfacing hmore
      exact hpassed.recount.mono (List.subset_cons_self _ _)
  | some e =>
      have hstore : ∀ c, { found with kind := .array (some c) element } =
          { found with kind := found.kind.setLength c } := by
        intro c
        rw [hkind, TypeKind.setLength]
      obtain ⟨⟨⟩, s₁, hrun₁, hrun₂⟩ := runs_bind.1 hmore
      obtain ⟨hpassed₁, -⟩ := hbelow.visitSlot htree id h.top hmem hself hread
        (f := fun c type => { type with kind := type.kind.setLength c })
        (fun c hfresh => hstore c ▸ .length found hkind hfresh)
        (fun c => .length found c)
        (htop _ (List.mem_map_of_mem (List.mem_append_left _ List.mem_cons_self))) hxs (by omega)
        hfacing hrun₁
      have hpassed₂ := hbelow.visitNode htree (.type element) (by rintro _ ⟨⟩) helement hys (by omega)
        hpassed₁.facing hrun₂
      exact (hpassed₁.recount.mono (List.cons_subset_cons _ (List.subset_append_left _ _))).trans
        ((hpassed₂.recount.mono (List.subset_append_right _ _)).mono (List.subset_cons_self _ _))

/-- **A type is told.** -/
theorem resolveTypeNode_recounts (htree : a.IsTree nodes) (hbelow : Recounts a routines nodes below n)
    {id : TypeId} (h : Reached a routines nodes n scopes (.type id) all s)
    (hrun : Runs (resolveTypeNode below id) (a.scopeOf scopes) s () s') :
    Recount a scopes [⟨scopes, .type id⟩] all s s' := by
  obtain ⟨node, rest, hget, hread, hspans, hall, hlayers, hmem, hself, htop, hfacing⟩ := h.begin id
  have hinside : a.insideNode scopes .type node =
      (Node.children .type node).map (Site.mk scopes) := rfl
  obtain ⟨found, hfound, hmore⟩ := runs_node_bind.1 hrun
  obtain rfl := Option.some.inj (hread.symm.trans hfound)
  cases hkind : node.kind with
  | named name target =>
      rw [hkind] at hmore
      exact resolveTypeName_recounts h hget hkind hmore
  | integer | real | boolean =>
      rw [hkind] at hmore
      obtain ⟨found, hfound, hlast⟩ := runs_node_bind.1 hmore
      obtain rfl := Option.some.inj (hread.symm.trans hfound)
      rw [hkind] at hlast
      obtain ⟨-, rfl⟩ := runs_pure.1 hlast
      have hahead : a.aheadNode ⟨scopes, Visit.of id⟩ .type node = [] := by
        rw [aheadNode, hkind]
      refine .of_node hget rfl (.silent hahead s') (.of_nil ?_ s') (.refl s')
      rw [hinside, Node.children, hkind]
      rfl
  | array length element =>
      rw [hkind] at hmore
      have hahead : a.aheadNode ⟨scopes, Visit.of id⟩ .type node = [] := by
        rw [aheadNode, hkind]
      exact .of_node hget rfl (.silent hahead s) (walkArray_recounts htree hbelow h hget hkind hmore)
        (.refl s')
  | record fields =>
      have hchildren : Node.children .type node = fields.map Visit.variable := by
        rw [Node.children, hkind]
      have hahead : a.aheadNode ⟨scopes, Visit.of id⟩ .type node =
          a.repeated (fields.map Declaration.variable) := by
        rw [aheadNode, hkind]
      rw [hkind] at hmore
      obtain ⟨⟨⟩, s₁, hrun₁, hrun₂⟩ := runs_bind.1 hmore
      have hhas : ∀ x ∈ fields, a.Has (.variable x) := fun x hx =>
        hspans.has_of_mem (hspans.mem_of_root (hchildren ▸ List.mem_map_of_mem hx))
      obtain ⟨harena, hown, htold⟩ := checkFields_told scopes all h.facing.ready.evolves hhas
        hrun₁
      obtain ⟨t, hrun', hremarks⟩ := exists_runs_checkFields (a := a) (s := s) (a.scopeOf scopes) fields
        fun x hx => h.facing.ready.evolves.has (hhas x hx)
      obtain rfl := (hrun'.unique hrun₁).2
      obtain ⟨found, hfound, hlast⟩ := runs_node_bind.1 hrun₂
      obtain rfl := Option.some.inj ((harena ▸ hread).symm.trans hfound)
      rw [hkind] at hlast
      have hfacing₁ := hfacing.after htree hremarks.effect (htold.mono_nil harena)
        (List.nil_subset _) (List.disjoint_nil_right _)
      rw [hchildren] at hspans
      rw [hinside, hchildren] at htop
      rw [← List.append_nil rest] at hfacing₁
      have hpassed := hbelow.visitNodes htree Visit.variable (by rintro _ _ ⟨⟩)
        (fun x hx => htop _ (List.mem_map_of_mem (List.mem_map_of_mem hx))) hspans hlayers hfacing₁
        hlast
      refine .of_node hget rfl (hahead ▸ htold) ?_ (.refl s')
      rw [hinside, hchildren, List.map_map, hall]
      exact hpassed.recount.mono (List.subset_cons_self _ _)

/-! ### Routines -/

theorem resolveRoutine_recounts (hset : Setting a routines nodes)
    (hbelow : Recounts a routines nodes below n) {id : RoutineId}
    (h : Reached a routines nodes n scopes (.routine id) all s)
    (hrun : Runs (resolveRoutine below id) (a.scopeOf scopes) s () s') :
    Recount a scopes [⟨scopes, .routine id⟩] all s s' := by
  have htree := hset.tree
  obtain ⟨node, rest, hget, hread, hspans, rfl, hlayers, hmem, hself, htop, hfacing⟩ := h.begin id
  have hsub : ∀ v ∈ node.parameters.map Visit.variable ++ node.returnType.toList.map Visit.type,
      a.Below a.top ⟨scopes, v⟩ :=
    fun v hv => htop _ (List.mem_append_left _ (List.mem_map_of_mem hv))
  obtain ⟨xs, zs, rfl, hxs, hzs⟩ := hspans.append_inv
  obtain ⟨xs, ys, rfl, hxs, hys⟩ := hxs.append_inv
  rw [List.length_append, List.length_append] at hlayers
  rw [List.append_assoc] at hfacing
  obtain ⟨found, hfound, hmore⟩ := runs_node_bind.1 hrun
  obtain rfl := Option.some.inj (hread.symm.trans hfound)
  obtain ⟨⟨⟩, s₁, hrun₁, hmore⟩ := runs_bind.1 hmore
  obtain ⟨⟨⟩, s₂, hrun₂, hrun₃⟩ := runs_bind.1 hmore
  rw [visitOptional_eq] at hrun₂
  have hpassed₁ := hbelow.visitNodes htree Visit.variable nofun
    (fun x hx => hsub _ (List.mem_append_left _ (List.mem_map_of_mem hx))) hxs (by omega) hfacing hrun₁
  have hpassed₂ := hbelow.visitNodes htree Visit.type nofun
    (fun x hx => hsub _ (List.mem_append_right _ (List.mem_map_of_mem hx))) hys (by omega)
    hpassed₁.facing hrun₂
  have hrecount₃ := resolveBody_recounts hset hbelow
    (htop _ (List.mem_append_right _ List.mem_cons_self)) hzs (by omega) hpassed₂.facing hrun₃
  have hinside : a.insideNode scopes .routine node =
      ((node.parameters.map fun x => ⟨scopes, .variable x⟩) ++
        node.returnType.toList.map fun t => ⟨scopes, .type t⟩) ++
        [a.bodySite node.parameters scopes node.body] := by
    simp [insideNode, Function.comp_def]
  refine .of_node hget rfl (.refl s) ?_ (.refl s')
  rw [hinside]
  exact (((hpassed₁.recount.mono (List.subset_append_left _ _)).trans
    (hpassed₂.recount.mono (List.subset_append_right _ _))).mono
      (List.subset_cons_of_subset _ (List.subset_append_left _ _))).trans
    (hrecount₃.mono (List.subset_cons_of_subset _ (List.subset_append_right _ _)))

/-! ### Statements -/

/-- The expressions of a statement are told. -/
theorem walkStatementExpressions_passed (htree : a.IsTree nodes)
    (hbelow : Recounts a routines nodes below n) {id : StatementId} {node : Statement}
    (howner : a.Below a.top ⟨scopes, .statement id⟩) (hmem : .statement id ∈ nodes)
    (hself : Visit.statement id ∉ xs ++ todo) (hread : s.arena.get? id = some node)
    (htop : ∀ e ∈ node.kind.expressions, a.Below a.top ⟨scopes, .expression e⟩)
    (hspans : Spans a (node.kind.expressions.map Visit.expression) xs) (hlayers : 2 * xs.length ≤ n)
    (h : Facing a routines nodes scopes (xs ++ todo) s)
    (hrun : Runs (walkStatementExpressions below id) (a.scopeOf scopes) s () s') :
    Passed a routines nodes scopes (node.kind.expressions.map fun e => ⟨scopes, .expression e⟩)
      (.statement id :: xs) todo s s' := by
  obtain ⟨found, hfound, hmore⟩ := runs_node_bind.1 hrun
  obtain rfl := Option.some.inj (hread.symm.trans hfound)
  exact hbelow.visitSlots htree id howner hmem hself hread .refl
    (f := fun index c m => { m with kind := m.kind.setExpression index c })
    (fun m index c _ _ hfresh => .expression m index hfresh) .expression (by simp [Node.slots]) htop hspans
    hlayers h hmore

/-- **What is said of a call statement**: it is no call if the name is that of a variable. -/
theorem checkCallStatement_told {c : Scope} {id : StatementId} {node changed : Statement}
    {callee e' : ExpressionId} (htree : a.IsTree nodes) (hevolves : Evolves a a s.arena)
    (hget : a.get? id = some node) (hkind : node.kind = .call callee)
    (hread : s.arena.get? id = some changed) (hspan : changed.span = node.span)
    (hkind' : changed.kind = .call e') {ds : List Diagnostic}
    (hstands : StandsFor a s.arena ds scopes callee e')
    (hrun : Runs (checkCallStatement id) c s () s') :
    Told a scopes xs (a.behindNode ⟨scopes, Visit.of id⟩ .statement node) s s' := by
  obtain ⟨found, hfound, hmore⟩ := runs_node_bind.1 hrun
  obtain rfl := Option.some.inj (hread.symm.trans hfound)
  rw [hkind'] at hmore
  obtain ⟨called, hcalled, hlast⟩ := runs_node_bind.1 hmore
  have hbehind : a.behindNode ⟨scopes, Visit.of id⟩ .statement node =
      if a.isVariable scopes callee then [⟨Visit.of id, .invalidStatement⟩] else [] := by
    rw [behindNode, hkind]
  have hvariable : ∀ {e : Expression} {name : String} {target : Option VariableId},
      a.get? callee = some e → e.kind = .identifier name target →
      a.isVariable scopes callee = (a.innermost Declaration.variable? name scopes).isSome := by
    intro e name target hcallee hname
    rw [isVariable, hcallee]
    simp [hname]
  rw [hbehind]
  -- whatever is no linked name is silent
  have hsilent : a.isVariable scopes callee = false →
      (∀ name x, called.kind ≠ .identifier name (some x)) →
      Told a scopes xs (if a.isVariable scopes callee then [⟨Visit.of id, .invalidStatement⟩] else [])
        s s' := by
    intro hno hlink
    rw [hno]
    split at hlast
    · rename_i name x hname
      exact absurd hname (hlink name x)
    · obtain ⟨-, rfl⟩ := runs_pure.1 hlast
      exact .refl s'
  cases hstands with
  | linked hnode hname hx hlinked hlink _ _ =>
      obtain rfl := Option.some.inj (hlinked.symm.trans hcalled)
      rw [hlink] at hlast
      obtain rfl := runs_report.1 hlast
      rw [hvariable hnode hname, hx, hspan]
      exact .single hget _ s
  | called hnode hname hx _ _ hcall _ =>
      obtain rfl := Option.some.inj (hcall.symm.trans hcalled)
      exact hsilent (by rw [hvariable hnode hname, hx]; rfl) nofun
  | undeclared hnode hname hx _ hkept _ =>
      obtain rfl := Option.some.inj (hkept.symm.trans hcalled)
      refine hsilent (by rw [hvariable hnode hname, hx]; rfl) fun other x hlink => ?_
      nomatch (htree.unlinked hnode hname).symm.trans hlink
  | other hnode hname =>
      obtain ⟨found, hfound, hchanges⟩ := hevolves.changed .expression callee _ hnode
      obtain rfl := Option.some.inj (hfound.symm.trans hcalled)
      refine hsilent ?_ fun other x hlink => ?_
      · rw [isVariable, hnode]
        split
        · rename_i other target hother
          exact absurd (Option.some.inj hother) (hname other target)
        · rfl
      · obtain ⟨old, hold⟩ := hchanges.exists_identifier hlink
        exact hname other old hold

/-- A call statement stays one. -/
theorem Node.Changes.exists_callee {node node' : Statement}
    (h : Node.Changes a .statement node node') {callee : ExpressionId}
    (hkind : node.kind = .call callee) : ∃ e', node'.kind = .call e' := by
  induction h with
  | refl => exact ⟨callee, hkind⟩
  | tail _ hchange ih =>
      obtain ⟨e', hkind'⟩ := ih
      cases hchange with
      | expression middle index hfresh =>
          rw [hkind']
          rcases index with _ | index
          · exact ⟨_, rfl⟩
          · exact ⟨e', rfl⟩

/-- A call statement is told. -/
theorem resolveCallStatement_recounts (hset : Setting a routines nodes)
    (hbelow : Recounts a routines nodes below n) {id : StatementId} {node : Statement}
    {callee : ExpressionId} (h : Reached a routines nodes n scopes (.statement id) all s)
    (hget : a.get? id = some node) (hkind : node.kind = .call callee)
    (hexpressions : Recount a scopes (node.kind.expressions.map fun e => ⟨scopes, .expression e⟩) all
      s s₁) (hrun₁ : Runs (walkStatementExpressions below id) (a.scopeOf scopes) s () s₁)
    (hrun₂ : Runs (checkCallStatement id) (a.scopeOf scopes) s₁ () s') :
    Recount a scopes [⟨scopes, .statement id⟩] all s s' := by
  have harrival : Arrival a routines nodes n ⟨scopes, .statement id⟩ all s :=
    ⟨h.top, h.spans, h.facing.subset, h.facing.nodup, h.layers, h.facing.ready, h.facing.distinct⟩
  obtain ⟨found, node₁, rest, xs, zs, stood, t, -, -, hrun', hbegun⟩ :=
    harrival.begin_statement hset hbelow.handles
  obtain rfl : found = node := Option.some.inj (hbegun.parsed.symm.trans hget)
  obtain rfl := (hrun'.unique hrun₁).2
  have hevolves := hbegun.progress.ready.evolves
  obtain ⟨found', hfound', hchanges⟩ := hevolves.changed .statement id found hget
  obtain rfl := Option.some.inj (hfound'.symm.trans hbegun.read)
  obtain ⟨e', hkind'⟩ := hchanges.exists_callee hkind
  have hslots := hbegun.progress.forall₂
  rw [← hbegun.expressions, ← hbegun.stored, hkind, hkind'] at hslots
  cases hslots with
  | cons hstands _ =>
      have hinside : a.insideNode scopes .statement found =
          found.kind.expressions.map fun e => ⟨scopes, .expression e⟩ := by
        rw [insideNode, hkind]
        rfl
      exact .of_node hget rfl (.refl s) (hinside ▸ hexpressions) (checkCallStatement_told hset.tree
        hevolves hget hkind hbegun.read hchanges.span_eq hkind' hstands hrun₂)

/-- **A statement is told.** -/
theorem resolveStatement_recounts (hset : Setting a routines nodes)
    (hbelow : Recounts a routines nodes below n) {id : StatementId}
    (h : Reached a routines nodes n scopes (.statement id) all s)
    (hrun : Runs (resolveStatement below id) (a.scopeOf scopes) s () s') :
    Recount a scopes [⟨scopes, .statement id⟩] all s s' := by
  have htree := hset.tree
  obtain ⟨node, rest, hget, hread, hspans, hall, hlayers, hmem, hself, htop, hfacing⟩ := h.begin id
  have hexpressions : ∀ e ∈ node.kind.expressions, a.Below a.top ⟨scopes, .expression e⟩ := fun e he =>
    htop _ (List.mem_append_left _ (List.mem_map_of_mem (List.mem_map_of_mem he)))
  have hbodies : ∀ body ∈ node.kind.bodies,
      a.Below a.top (a.bodySite node.kind.counter?.toList scopes body) := fun body hbody =>
    htop _ (List.mem_append_right _ (List.mem_map_of_mem hbody))
  obtain ⟨xs, zs, rfl, hxs, hzs⟩ := hspans.append_inv
  obtain ⟨xs, ys, rfl, hxs, hys⟩ := hxs.append_inv
  rw [List.length_append, List.length_append] at hlayers
  rw [List.append_assoc] at hfacing hself
  obtain ⟨found, hfound, hmore⟩ := runs_node_bind.1 hrun
  obtain rfl := Option.some.inj (hread.symm.trans hfound)
  have hsub : Visit.statement id :: xs ⊆ all ∧ zs ⊆ all := by
    rw [hall, List.append_assoc]
    exact ⟨List.cons_subset_cons _ (List.subset_append_left _ _), List.subset_cons_of_subset _
      (List.subset_append_of_subset_right _ (List.subset_append_right _ _))⟩
  have hpassed : ∀ {t}, Runs (walkStatementExpressions below id) (a.scopeOf scopes) s () t →
      Passed a routines nodes scopes (node.kind.expressions.map fun e => ⟨scopes, .expression e⟩)
        (.statement id :: xs) (ys ++ zs) s t := fun hrun₁ =>
    walkStatementExpressions_passed htree hbelow h.top hmem hself hread hexpressions hxs (by omega)
      hfacing hrun₁
  have hinside : a.insideNode scopes .statement node =
      (node.kind.expressions.map fun e => ⟨scopes, .expression e⟩) ++
        node.kind.bodies.map (a.bodySite node.kind.counter?.toList scopes) := by
    rw [insideNode, List.map_map]
    rfl
  -- the statement is told when its expressions and its bodies are
  have hfinish : ∀ {t}, a.behindNode ⟨scopes, Visit.of id⟩ .statement node = [] →
      Runs (walkStatementExpressions below id) (a.scopeOf scopes) s () t →
      Recount a scopes (node.kind.bodies.map (a.bodySite node.kind.counter?.toList scopes)) zs t s' →
      Recount a scopes [⟨scopes, .statement id⟩] all s s' := fun hbehind hrun₁ hrecount =>
    .of_node hget rfl (.refl s) (hinside ▸ ((hpassed hrun₁).recount.mono hsub.1).trans
      (hrecount.mono hsub.2)) (.silent hbehind s')
  cases hkind : node.kind with
  | forLoop counter first last reverse body =>
      rw [hkind] at hmore hbodies hzs
      obtain ⟨⟨⟩, s₁, hrun₁, hrun₂⟩ := runs_bind.1 hmore
      refine hfinish (by rw [behindNode, hkind]) hrun₁ ?_
      rw [hkind]
      exact resolveBody_recounts hset hbelow (hbodies body List.mem_cons_self) hzs (by omega)
        (hpassed hrun₁).facing.right hrun₂
  | call callee =>
      rw [hkind] at hmore
      obtain ⟨⟨⟩, s₁, hrun₁, hrun₂⟩ := runs_bind.1 hmore
      exact resolveCallStatement_recounts hset hbelow h hget hkind
        ((hpassed hrun₁).recount.mono hsub.1) hrun₁ hrun₂
  | assignment | whileLoop | branch | returning =>
      rw [hkind] at hmore
      have hcounter : node.kind.counter? = none := by
        rw [hkind]
        rfl
      obtain ⟨⟨⟩, s₁, hrun₁, hlast⟩ := runs_bind.1 hmore
      obtain ⟨node₁, hread₁, hlast⟩ := runs_node_bind.1 hlast
      obtain ⟨found, hfound, hchanges⟩ :=
        (hpassed hrun₁).effect.evolves.changed .statement id node hread
      obtain rfl := Option.some.inj (hfound.symm.trans hread₁)
      obtain ⟨hcounter', hbodies'⟩ := hchanges.statement_eq
      dsimp only at hlast
      rw [hcounter', hcounter, hbodies'] at hlast
      obtain ⟨⟨⟩, s₂, hnone, hrun₂⟩ := runs_bind.1 hlast
      obtain ⟨-, rfl⟩ := runs_pure.1 hnone
      refine hfinish (by rw [behindNode, hkind]) hrun₁ ?_
      rw [hcounter] at hbodies ⊢
      have hfacing₁ := (hpassed hrun₁).facing.right
      rw [← List.append_nil zs] at hfacing₁
      exact (hbelow.visitEach htree Visit.body (a.bodySite [] scopes) (fun body _ => .body scopes body)
        hbodies hzs (by omega) hfacing₁ hrun₂).recount

end ProcLang
