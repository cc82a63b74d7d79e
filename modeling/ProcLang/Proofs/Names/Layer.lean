import ProcLang.Proofs.Names.Parts

/-!
# ProcLang.Proofs.Names.Layer

**One layer of name resolution.** If the visits of the nodes below resolve them, then so does the
visit of the node itself (`resolver_handles`). There is one lemma for each kind of node; each of
them follows the text of the layer.
-/

namespace ProcLang

open Arena WalkM

variable {a : Arena} {routines : Routines} {nodes : List Visit}
  {below : Visit → NamesM (Option ExpressionId)} {n : Nat} {all : List Visit}
  {s : WalkState Routines} {scopes : List (List Declaration)}

/-! ### Variables and type declarations -/

theorem walkVariable_resolves (hset : Setting a routines nodes)
    (hbelow : Handles a routines nodes below n) {id : VariableId}
    (h : Arrival a routines nodes n ⟨scopes, .variable id⟩ all s) :
    ∃ s', Runs (walkVariable below id) (a.scopeOf scopes) s () s' ∧
      Visited a ⟨scopes, .variable id⟩ all none s s' := by
  have htree := hset.tree
  obtain ⟨node, rest, hget, hread, hspans, rfl, hlayers, hmem, htop, hprogress⟩ :=
    h.begin id rfl
  have hsub : ∀ v ∈ Node.children .variable node, a.Below a.top ⟨scopes, v⟩ :=
    fun v hv => htop _ (List.mem_map_of_mem hv)
  obtain ⟨xs, ys, rfl, hxs, hys⟩ := hspans.append_inv
  rw [List.length_append] at hlayers
  obtain ⟨s₁, hrun₁, hprogress₁, heffect₁⟩ := hbelow.visitNodes htree Visit.type nofun nofun
    (fun t ht => hsub _ (List.mem_append_left _ (List.mem_map_of_mem ht))) hxs (by omega) hprogress
  have hread₁ := heffect₁.frame .variable id node hread hprogress.self_not_mem
  rw [← visitOptional_eq] at hrun₁
  cases hinitializer : node.initializer with
  | none =>
      refine ⟨s₁, runs_node_bind.2 ⟨node, hread, runs_bind.2 ⟨(), s₁, hrun₁,
        runs_node_bind.2 ⟨node, hread₁, ?_⟩⟩⟩, ?_⟩
      · rw [hinitializer]
        exact runs_pure.2 ⟨rfl, rfl⟩
      · refine hprogress₁.complete id rfl hget hread₁ ?_ ?_ rfl
          (List.subset_append_left _ _) ?_ fun _ => trivial
        · rw [Node.slots, hinitializer]
          rfl
        · rw [Node.slots, hinitializer]
          rfl
        · simp [insideNode, Node.children, hinitializer, Function.comp_def]
  | some e =>
      rw [hinitializer] at hys
      obtain ⟨e', node₂, s₂, hrun₂, hprogress₂, hread₂, hnode₂, -⟩ := hbelow.visitSlot htree id rfl
        hmem hread₁ (f := fun c node => { node with initializer := some c })
        (fun c hfresh => .initializer node hinitializer hfresh)
        (hsub _ (List.mem_append_right _ (by rw [hinitializer]; exact List.mem_cons_self))) hys
        (by omega) (by rwa [List.append_nil])
      refine ⟨s₂, runs_node_bind.2 ⟨node, hread, runs_bind.2 ⟨(), s₁, hrun₁,
        runs_node_bind.2 ⟨node, hread₁, ?_⟩⟩⟩, ?_⟩
      · rw [hinitializer]
        exact hrun₂
      · refine hprogress₂.complete id rfl hget hread₂ ?_ ?_ rfl (List.Subset.refl _) ?_
          fun _ => trivial
        · rw [Node.slots, hinitializer]
          rfl
        · rcases hnode₂ with ⟨rfl, rfl⟩ | ⟨-, rfl⟩
          · rw [Node.slots, hinitializer]
            rfl
          · rfl
        · simp [insideNode, Node.children, hinitializer, Function.comp_def]

theorem walkTypeDecl_resolves (hset : Setting a routines nodes)
    (hbelow : Handles a routines nodes below n) {id : TypeDeclId}
    (h : Arrival a routines nodes n ⟨scopes, .typeDecl id⟩ all s) :
    ∃ s', Runs (walk below (.typeDecl id)) (a.scopeOf scopes) s () s' ∧
      Visited a ⟨scopes, .typeDecl id⟩ all none s s' := by
  have htree := hset.tree
  obtain ⟨node, rest, hget, hread, hspans, rfl, hlayers, hmem, htop, hprogress⟩ := h.begin id rfl
  rw [← List.append_nil rest] at hprogress
  obtain ⟨s₁, hrun, hprogress₁, heffect⟩ := hbelow.visitNode htree (.type node.type) nofun nofun
    (htop _ List.mem_cons_self) hspans hlayers hprogress
  have hread₁ := heffect.frame .typeDecl id node hread hprogress.self_not_mem
  refine ⟨s₁, runs_node_bind.2 ⟨node, hread, hrun⟩, ?_⟩
  exact hprogress₁.complete id rfl hget hread₁ rfl rfl rfl (List.Subset.refl _) (List.Subset.refl _)
    fun _ => trivial

/-! ### Types -/

theorem exists_runs_checkFields (c : Scope) (fields : List VariableId)
    (hfields : ∀ id ∈ fields, s.arena.Has (.variable id)) :
    ∃ s', Runs (checkFields fields) c s () s' ∧ Remarks a s s' := by
  have hnames : ∃ names, Runs (fields.mapM fun (id : VariableId) => do
      let field ← node id
      return (field.name, field.span.start) : NamesM _) c s names s := by
    induction fields with
    | nil => exact ⟨[], runs_pure.2 ⟨rfl, rfl⟩⟩
    | cons id rest ih =>
        obtain ⟨field, hfield⟩ := exists_of_has id (hfields id List.mem_cons_self)
        obtain ⟨names, hnames⟩ := ih fun other hother => hfields other (List.mem_cons_of_mem _ hother)
        rw [List.mapM_cons]
        have hone : Runs (do
            let field ← node id
            return (field.name, field.span.start) : NamesM _) c s (field.name, field.span.start) s :=
          runs_node_bind.2 ⟨field, hfield, runs_pure.2 ⟨rfl, rfl⟩⟩
        exact ⟨_, runs_bind.2 ⟨_, s, hone, runs_bind.2 ⟨names, s, hnames, runs_pure.2 ⟨rfl, rfl⟩⟩⟩⟩
  obtain ⟨names, hnames⟩ := hnames
  obtain ⟨s', hrun, hremarks, -⟩ := exists_runs_reportAll a c s (repetitionsAfter_declared [] names)
  exact ⟨s', runs_bind.2 ⟨names, s, hnames, hrun⟩, hremarks⟩

theorem undeclaredAt_push_self {ds : Array Diagnostic} {cause : Cause} {p : Position}
    (h : cause.isUndeclared = true) (hsilent : undeclaredAt ds.toList p = []) :
    undeclaredAt (ds.push ⟨cause, p⟩).toList p = [⟨cause, p⟩] := by
  rw [undeclaredAt] at hsilent ⊢
  rw [Array.toList_push, List.filter_append, hsilent]
  simp [h]

/-- **A named type is linked** to the type of its name in the innermost scope that has one. -/
theorem resolveTypeName_resolves (htree : a.IsTree nodes) {id : TypeId} {node : TypeNode} {name : String}
    {target : Option TypeDeclId} (h : Arrival a routines nodes n ⟨scopes, .type id⟩ all s)
    (hget : a.get? id = some node) (hkind : node.kind = .named name target) :
    ∃ s', Runs (resolveTypeName id name) (a.scopeOf scopes) s () s' ∧
      Visited a ⟨scopes, .type id⟩ all none s s' := by
  have hread : s.arena.get? id = some node := (h.read id rfl).trans hget
  have hstart := start?_of_named hget hkind
  have hsilent := h.silent hstart
  have hinside : a.inside ⟨scopes, .type id⟩ = [] := by
    rw [Visit.type_eq id, inside_of_get? hget]
    simp [insideNode, Node.children, hkind]
  rw [resolveTypeName]
  simp only [runs_read_bind, lookup_typeNames]
  cases hname : a.innermost Declaration.type? name scopes with
  | some t =>
      have ht : a.Has (.typeDecl t) := by
        refine htree.has_of_innermost (fun d x hd => ?_) h.top hname
        cases d with
        | type other =>
            cases hd
            rfl
        | routine | «variable» => cases hd
      have hchanged : { node with kind := node.kind.setTarget t } =
          { node with kind := .named name (some t) } := by
        rw [hkind]
        rfl
      refine ⟨s.put id { node with kind := .named name (some t) },
        runs_update.2 ⟨node, hread, by rw [hchanged]⟩, ?_⟩
      exact h.leaf (.put hread (.single (.target node hkind ht)) fun hhidden => hhidden _ h.top rfl) hinside
        (.of_named hget hkind (get?_put_self hread _) rfl (.linked hname rfl hsilent)) trivial
        (.of_count (count_put s.arena id _ .expression))
  | none =>
      refine ⟨s.reported (.undeclaredType name) node.span.start,
        runs_node_bind.2 ⟨node, hread, runs_report.2 rfl⟩, ?_⟩
      have hslots : Node.slots .type node = [] := by
        rw [Node.slots, hkind]
      exact h.leaf (.reported_at s _ hstart) hinside
        (.of_named hget hkind hread hslots
          (.undeclared hname rfl (undeclaredAt_push_self rfl hsilent))) trivial (.of_count rfl)

theorem walkArray_resolves (hset : Setting a routines nodes)
    (hbelow : Handles a routines nodes below n) {id : TypeId} {node : TypeNode}
    {length : Option ExpressionId} {element : TypeId}
    (h : Arrival a routines nodes n ⟨scopes, .type id⟩ all s) (hget : a.get? id = some node)
    (hkind : node.kind = .array length element) :
    ∃ s', Runs (walkType below id) (a.scopeOf scopes) s () s' ∧
      Visited a ⟨scopes, .type id⟩ all none s s' := by
  have htree := hset.tree
  obtain ⟨found, rest, hfound, hread, hspans, hall, hlayers, hmem, htop, hprogress⟩ :=
    h.begin id rfl
  obtain rfl : found = node := Option.some.inj (hfound.symm.trans hget)
  have hchildren : Node.children .type found =
      length.toList.map Visit.expression ++ [Visit.type element] := by
    rw [Node.children, hkind]
  have hinside : a.insideNode scopes .type found =
      (length.toList.map Visit.expression ++ [Visit.type element]).map (Site.mk scopes) := by
    rw [← hchildren]
    rfl
  rw [hchildren] at hspans
  rw [hinside] at htop
  obtain ⟨xs, ys, rfl, hxs, hys⟩ := hspans.append_inv
  rw [List.length_append] at hlayers
  have helement : a.Below a.top ⟨scopes, .type element⟩ :=
    htop _ (List.mem_map_of_mem (List.mem_append_right _ List.mem_cons_self))
  rw [← List.append_nil ys] at hprogress
  have hname : Node.start? .type found = none := by
    rw [Node.start?, hkind]
  have hslots : Node.slots .type found = length.toList := by
    rw [Node.slots, hkind]
  rw [walkType, hall]
  cases length with
  | none =>
      cases hxs
      replace hprogress : Progress a routines nodes ⟨scopes, .type id⟩ [] (ys ++ []) [] [] s s :=
        hprogress
      obtain ⟨s₁, hrun₁, hprogress₁, heffect₁⟩ :=
        hbelow.visitNode htree (.type element) (by rintro _ ⟨⟩) (by rintro _ ⟨⟩) helement hys (by omega) hprogress
      have hread₁ := heffect₁.frame .type id found hread hprogress.self_not_mem
      refine ⟨s₁, runs_node_bind.2 ⟨found, hread, ?_⟩, ?_⟩
      · rw [hkind]
        exact hrun₁
      · exact hprogress₁.complete id rfl hget hread₁ hslots hslots hname (List.Subset.refl _)
          (hinside ▸ List.Subset.refl _) fun _ => trivial
  | some e =>
      have hstore : ∀ c, { found with kind := .array (some c) element } =
          { found with kind := found.kind.setLength c } := by
        intro c
        rw [hkind, TypeKind.setLength]
      obtain ⟨e', node₁, s₁, hrun₁, hprogress₁, hread₁, hnode₁, -⟩ := hbelow.visitSlot htree id rfl
        hmem hread (f := fun c type => { type with kind := type.kind.setLength c })
        (fun c hfresh => hstore c ▸ .length found hkind hfresh)
        (htop _ (List.mem_map_of_mem (List.mem_append_left _ List.mem_cons_self))) hxs (by omega)
        hprogress
      obtain ⟨s₂, hrun₂, hprogress₂, heffect₂⟩ :=
        hbelow.visitNode htree (.type element) (by rintro _ ⟨⟩) (by rintro _ ⟨⟩) helement hys (by omega) hprogress₁
      have hread₂ := heffect₂.frame .type id node₁ hread₁ hprogress₁.self_not_mem
      refine ⟨s₂, runs_node_bind.2 ⟨found, hread, ?_⟩, ?_⟩
      · rw [hkind]
        exact runs_bind.2 ⟨(), s₁, hrun₁, hrun₂⟩
      · refine hprogress₂.complete id rfl hget hread₂ hslots ?_ hname (List.Subset.refl _)
          (hinside ▸ List.Subset.refl _) fun _ => trivial
        rcases hnode₁ with ⟨rfl, rfl⟩ | ⟨-, rfl⟩
        · exact hslots
        · rw [← hstore, Node.slots]
          rfl

theorem resolveTypeNode_resolves (hset : Setting a routines nodes)
    (hbelow : Handles a routines nodes below n) {id : TypeId}
    (h : Arrival a routines nodes n ⟨scopes, .type id⟩ all s) :
    ∃ s', Runs (resolveTypeNode below id) (a.scopeOf scopes) s () s' ∧
      Visited a ⟨scopes, .type id⟩ all none s s' := by
  have htree := hset.tree
  obtain ⟨node, rest, hget, hread, hspans, hall, hlayers, hmem, htop, hprogress⟩ :=
    h.begin id rfl
  have hsub : ∀ v ∈ Node.children .type node, a.Below a.top ⟨scopes, v⟩ :=
    fun v hv => htop _ (List.mem_map_of_mem hv)
  have hinside : a.insideNode scopes .type node =
      (Node.children .type node).map (Site.mk scopes) := rfl
  rw [resolveTypeNode]
  cases hkind : node.kind with
  | named name target =>
      obtain ⟨s', hrun, hvisited⟩ := resolveTypeName_resolves htree h hget hkind
      refine ⟨s', runs_node_bind.2 ⟨node, hread, ?_⟩, hvisited⟩
      rw [hkind]
      exact hrun
  | integer | real | boolean =>
      refine ⟨s, runs_node_bind.2 ⟨node, hread, ?_⟩, ?_⟩
      · rw [hkind]
        refine runs_node_bind.2 ⟨node, hread, ?_⟩
        rw [hkind]
        exact runs_pure.2 ⟨rfl, rfl⟩
      · rw [hall]
        refine hprogress.complete id rfl hget hread ?_ ?_ ?_ (List.nil_subset _) ?_ fun _ => trivial
        · rw [Node.slots, hkind]
          rfl
        · rw [Node.slots, hkind]
          rfl
        · rw [Node.start?, hkind]
        · rw [hinside, Node.children, hkind]
          exact List.Subset.refl _
  | array length element =>
      obtain ⟨s', hrun, hvisited⟩ := walkArray_resolves hset hbelow h hget hkind
      refine ⟨s', runs_node_bind.2 ⟨node, hread, ?_⟩, hvisited⟩
      rw [hkind]
      exact hrun
  | record fields =>
      have hchildren : Node.children .type node = fields.map Visit.variable := by
        rw [Node.children, hkind]
      rw [hchildren] at hspans hsub hinside
      obtain ⟨s₁, hrun₁, hremarks₁⟩ := exists_runs_checkFields (a := a) (s := s)
        (a.scopeOf scopes) fields fun id hid => h.ready.evolves.has
          (hspans.has_of_mem (hspans.mem_of_root (List.mem_map_of_mem hid)))
      rw [← List.append_nil rest] at hprogress
      have hread₁ := hremarks₁.effect.frame .type id node hread List.not_mem_nil
      obtain ⟨s₂, hrun₂, hprogress₂, heffect₂⟩ := hbelow.visitNodes htree Visit.variable (by rintro _ _ ⟨⟩) (by rintro _ _ ⟨⟩)
        (fun x hx => hsub _ (List.mem_map_of_mem hx)) hspans hlayers
        (hprogress.aside htree hremarks₁)
      have hread₂ := heffect₂.frame .type id node hread₁ hprogress.self_not_mem
      refine ⟨s₂, runs_node_bind.2 ⟨node, hread, ?_⟩, ?_⟩
      · rw [hkind]
        refine runs_bind.2 ⟨(), s₁, hrun₁, runs_node_bind.2 ⟨node, hread₁, ?_⟩⟩
        rw [hkind]
        exact hrun₂
      · rw [hall]
        refine hprogress₂.complete id rfl hget hread₂ ?_ ?_ ?_ (List.Subset.refl _) ?_
          fun _ => trivial
        · rw [Node.slots, hkind]
          rfl
        · rw [Node.slots, hkind]
          rfl
        · rw [Node.start?, hkind]
        · rw [hinside, List.map_map]
          exact List.Subset.refl _

/-! ### Bodies -/

/-- Types are visited before the other declarations of a scope. -/
theorem perm_types_first (declarations : List Declaration) :
    (declarations.map Declaration.visit).Perm
      ((declarations.filterMap Declaration.type?).map Visit.typeDecl ++
        (declarations.filter fun d => d.type?.isNone).map Declaration.visit) := by
  induction declarations with
  | nil => exact .nil
  | cons d rest ih =>
      cases d with
      | type id => exact ih.cons _
      | routine id => exact (ih.cons _).trans List.perm_middle.symm
      | «variable» id => exact (ih.cons _).trans List.perm_middle.symm

section

variable {site : Site} {visited todo xs : List Visit} {roots : List Site}
  {stood : List (ExpressionId × ExpressionId)} {s₀ : WalkState Routines}

/-- **The declarations of an open scope are resolved.** If nothing is reported, then none of its types
leads back to itself. -/
theorem resolveDeclarations_resolves (hset : Setting a routines nodes)
    (hbelow : Handles a routines nodes below n) {declarations : List Declaration}
    (htop : ∀ d ∈ declarations, a.Below a.top ⟨site.scopes, d.visit⟩)
    (hspans : Spans a (declarations.map Declaration.visit) xs) (hlayers : 2 * xs.length + 1 ≤ n)
    (h : Progress a routines nodes site visited (xs ++ todo) roots stood s₀ s) :
    ∃ s' xs', Runs (resolveDeclarations below declarations) (a.scopeOf site.scopes) s () s' ∧
      Progress a routines nodes site (visited ++ xs) todo
        (roots ++ declarations.map fun d => ⟨site.scopes, d.visit⟩) stood s₀ s' ∧
      Effect a xs' s s' ∧ xs' ⊆ xs ∧
      (s'.diagnostics = #[] → (∀ d, .type d ∈ site.scopes.headD [] → .type d ∈ declarations) →
        a.CircleFree site.scopes) := by
  have htree := hset.tree
  obtain ⟨all, hall, hperm⟩ := hspans.perm (perm_types_first declarations)
  obtain ⟨ys, zs, rfl, hys, hzs⟩ := hall.append_inv
  have hlength := hperm.length_eq
  rw [List.length_append] at hlength
  have hstart : Progress a routines nodes site visited (ys ++ (zs ++ todo)) roots stood s₀ s := by
    rw [← List.append_assoc]
    exact h.perm (.refl _) (hperm.append_right _) (List.Subset.refl _)
  obtain ⟨s₁, hrun₁, hprogress₁, heffect₁⟩ := hbelow.visitNodes htree Visit.typeDecl nofun nofun
    (fun id hid => by
      obtain ⟨d, hd, htype⟩ := List.mem_filterMap.1 hid
      cases d with
      | type other =>
          cases htype
          exact htop _ hd
      | routine | «variable» => nomatch htype)
    hys (by omega) hstart
  obtain ⟨s₂, hrun₂, hremarks₂, hcycles⟩ := exists_runs_checkCycles htree hprogress₁.ready.evolves
    (a.scopeOf site.scopes) rfl (declarations.filterMap Declaration.type?)
    fun id hid => hys.has_of_mem (hys.mem_of_root (List.mem_map_of_mem hid))
  obtain ⟨s₃, hrun₃, hprogress₃, heffect₃⟩ := hbelow.visitEach htree Visit.declaration
    (fun d => ⟨site.scopes, d.visit⟩) (fun d _ => .declaration site.scopes d)
    (fun d hd => htop d (List.mem_of_mem_filter hd)) h.distinct (fun d => by cases d <;> nofun) hzs
    (by omega) (hprogress₁.aside htree hremarks₂)
  refine ⟨s₃, ys ++ ([] ++ zs), ?_, ?_, heffect₁.append (hremarks₂.effect.append heffect₃),
    hperm.symm.subset, fun hsilent hhead => ?_⟩
  · exact runs_bind.2 ⟨(), s₁, hrun₁, runs_bind.2 ⟨(), s₂, hrun₂, hrun₃⟩⟩
  · refine hprogress₃.perm ?_ (.refl _) ?_
    · rw [List.append_assoc]
      exact hperm.symm.append_left _
    · rw [List.append_assoc]
      refine List.append_subset.2 ⟨List.subset_append_left _ _, fun child hchild => ?_⟩
      refine List.mem_append_right _ ?_
      obtain ⟨d, hd, rfl⟩ := List.mem_map.1 hchild
      have hmem := (perm_types_first declarations).subset (List.mem_map_of_mem hd)
      rcases List.mem_append.1 hmem with hmem | hmem
      · obtain ⟨id, hid, heq⟩ := List.mem_map.1 hmem
        exact List.mem_append_left _ (List.mem_map.2 ⟨id, hid, by rw [heq]⟩)
      · obtain ⟨other, hother, heq⟩ := List.mem_map.1 hmem
        exact List.mem_append_right _ (List.mem_map.2 ⟨other, hother, by rw [heq]⟩)
  · -- when circles are looked for, the types of the scope are resolved
    have hsettled : ∀ d, .type d ∈ declarations → ∀ inner, a.Below ⟨site.scopes, .typeDecl d⟩ inner →
        inner.scopes = site.scopes → NamesResolved a s₁.arena s₁.diagnostics.toList inner :=
      fun d hd inner hbelow hscopes =>
        (hprogress₁.settled _ (List.mem_append_right _
          (List.mem_map_of_mem (List.mem_filterMap.2 ⟨.type d, hd, rfl⟩))) inner hbelow).resolved
          (hscopes ▸ h.distinct)
    exact circleFree_of_cyclicAmong htree hprogress₁.ready.evolves hhead
      (fun d hd => hspans.has_of_mem (hspans.mem_of_root (List.mem_map_of_mem hd))) hsettled
      (hcycles (heffect₃.silent hsilent))

end

theorem routinesOf_eq_nil {scope : List Declaration} (h : ∀ r, .routine r ∉ scope)
    {entries : List ScopeEntry} (hentries : entries ⊆ a.entries scope) : routinesOf entries = [] := by
  rw [routinesOf_eq, selected, List.filterMap_eq_nil_iff]
  intro entry hentry
  obtain ⟨d, hd, heq⟩ := List.mem_filterMap.1 (hentries hentry)
  split at heq
  · cases heq
    cases d with
    | routine r => exact absurd hd (h r)
    | type | «variable» => rfl
  · cases heq

/-- In a body no routines are declared. -/
theorem routine_not_mem_bodySite (htree : a.IsTree nodes) {id : BodyId} {node : Body}
    (hget : a.get? id = some node) (seeds : List VariableId) (r : RoutineId) :
    .routine r ∉ seeds.map Declaration.variable ++ node.declarations := by
  have hraw : Node.Raw .body node := by
    rcases htree.covers .body id node hget with hshared | ⟨-, hraw⟩
    · exact absurd (has_of.1 hshared) (Nat.not_lt_zero _)
    · exact hraw
  intro hr
  rcases List.mem_append.1 hr with hr | hr
  · obtain ⟨x, -, heq⟩ := List.mem_map.1 hr
    nomatch heq
  · exact hraw r hr

theorem bodySite_of_get? {id : BodyId} {node : Body} (hget : a.get? id = some node)
    (seeds : List VariableId) (scopes : List (List Declaration)) : a.bodySite seeds scopes id =
      ⟨(seeds.map Declaration.variable ++ node.declarations) :: scopes, .body id⟩ := by
  rw [bodySite, hget]
  rfl

/-- A body whose scope declares a name twice is left alone: nothing at and below it is changed. -/
theorem resolveBody_abandons (htree : a.IsTree nodes) {seeds : List VariableId} {id : BodyId}
    (htop : a.Below a.top (a.bodySite seeds scopes id)) (hspans : Spans a [.body id] all)
    (hready : Ready a routines all s) (hdistinct : a.DistinctScopes scopes)
    (hrepeated : ¬ a.DistinctScopes (a.bodySite seeds scopes id).scopes) :
    ∃ s', Runs (resolveBody below seeds id) (a.scopeOf scopes) s () s' ∧
      Visited a (a.bodySite seeds scopes id) all none s s' := by
  have hmem : Visit.body id ∈ all := hspans.mem_of_root List.mem_cons_self
  obtain ⟨node, hget⟩ := exists_of_has id (hspans.has_of_mem hmem)
  have hread : s.arena.get? id = some node := (hready.untouched .body id hmem).trans hget
  have hhas := htree.has_of_scope htop
  have hinner : ∀ inner, a.Below (a.bodySite seeds scopes id) inner →
      ¬ a.DistinctScopes inner.scopes := fun inner hbelow hscopes =>
    hrepeated fun scope hscope => hscopes scope (hbelow.scopes_subset hscope)
  have hown : ¬ ((seeds.map Declaration.variable ++ node.declarations).map a.nameOf).Nodup := by
    intro hnodup
    rw [bodySite_of_get? hget] at hrepeated
    exact hrepeated (List.forall_mem_cons.2 ⟨hnodup, hdistinct⟩)
  rw [bodySite_of_get? hget] at hhas
  obtain ⟨s₁, hdeclare, hremarks, hreported⟩ := exists_runs_declareScope_repeated scopes
    (s := s.noted (.scopeEntered node.span.start)) hready.evolves hown
    (hhas _ List.mem_cons_self)
  rw [routinesOf_eq_nil (routine_not_mem_bodySite htree hget seeds) (firstsAfter_subset [] _),
    List.append_nil] at hdeclare
  have hall : Remarks a s (s₁.noted (.scopeLeft node.span.start)) :=
    ((Remarks.noted a s _).trans hremarks).trans (.noted a s₁ _)
  refine ⟨s₁.noted (.scopeLeft node.span.start), ?_, hall.effect.mono (List.nil_subset _), ?_, ?_,
    .of_count (by rw [hall.arena])⟩
  · refine runs_node_bind.2 ⟨node, hread, runs_note_bind.2 (runs_bind.2 ⟨none, s₁, hdeclare, ?_⟩)⟩
    exact runs_note.2 rfl
  · intro inner hbelow
    refine ⟨fun hscopes => absurd hscopes (hinner inner hbelow), fun _ family other hother => ?_⟩
    rw [hall.arena]
    exact hready.untouched family other (hother ▸ hbelow.mem hspans hmem)
  · exact fun hsilent => absurd hsilent hreported

/-- A body with distinct names opens its scope, and in it its declarations and its statements are
resolved. -/
theorem runs_resolveBody (htree : a.IsTree nodes) {seeds : List VariableId} {id : BodyId} {node : Body}
    {inner : List (List Declaration)}
    (hinner : inner = (seeds.map Declaration.variable ++ node.declarations) :: scopes)
    (hget : a.get? id = some node) (hread : s.arena.get? id = some node)
    (hevolves : Evolves a a s.arena) (htop : a.Below a.top ⟨inner, .body id⟩)
    (hdistinct : a.DistinctScopes inner) {s' : WalkState Routines} :
    Runs (resolveBody below seeds id) (a.scopeOf scopes) s () s' ↔
      ∃ s₁ s₂, Runs (resolveDeclarations below node.declarations) (a.scopeOf inner)
          (s.noted (.scopeEntered node.span.start)) () s₁ ∧
        Runs (visitEach below .statement node.statements) (a.scopeOf inner) s₁ () s₂ ∧
        s' = s₂.noted (.scopeLeft node.span.start) := by
  subst hinner
  have hdeclare := runs_declareScope scopes (s := s.noted (.scopeEntered node.span.start)) hevolves
    (hdistinct _ List.mem_cons_self) (htree.has_of_scope htop _ List.mem_cons_self)
  rw [routinesOf_eq_nil (routine_not_mem_bodySite htree hget seeds) (List.Subset.refl _),
    List.append_nil] at hdeclare
  constructor
  · intro hrun
    obtain ⟨found, hfound, hrun⟩ := runs_node_bind.1 hrun
    obtain rfl := Option.some.inj (hread.symm.trans hfound)
    obtain ⟨r, s₁, hopened, hrun⟩ := runs_bind.1 (runs_note_bind.1 hrun)
    obtain ⟨rfl, rfl⟩ := hdeclare.unique hopened
    obtain ⟨⟨⟩, s₂, hwithin, hnote⟩ := runs_bind.1 hrun
    obtain ⟨⟨⟩, s₁, hfirst, hsecond⟩ := runs_bind.1 (runs_inContext.1 hwithin)
    exact ⟨s₁, s₂, hfirst, hsecond, runs_note.1 hnote⟩
  · rintro ⟨s₁, s₂, hfirst, hsecond, rfl⟩
    refine runs_node_bind.2 ⟨node, hread, runs_note_bind.2 (runs_bind.2 ⟨_, _, hdeclare, ?_⟩)⟩
    refine runs_bind.2 ⟨(), s₂, ?_, runs_note.2 rfl⟩
    exact runs_inContext.2 (runs_bind.2 ⟨(), s₁, hfirst, hsecond⟩)

/-- A body with distinct names is resolved in the scope that it opens. -/
theorem resolveBody_enters (hset : Setting a routines nodes)
    (hbelow : Handles a routines nodes below n) {seeds : List VariableId} {id : BodyId}
    (h : Arrival a routines nodes n (a.bodySite seeds scopes id) all s) :
    ∃ s', Runs (resolveBody below seeds id) (a.scopeOf scopes) s () s' ∧
      Visited a (a.bodySite seeds scopes id) all none s s' := by
  have htree := hset.tree
  obtain ⟨node, rest, hget, hread, hspans, hall, hlayers, hmem, htop, hprogress⟩ :=
    h.begin id rfl
  have hsite := bodySite_of_get? hget seeds scopes
  rw [hsite] at h hmem htop hprogress hall ⊢
  have hsub : ∀ v ∈ Node.children .body node, a.Below a.top ⟨_ :: scopes, v⟩ :=
    fun v hv => htop _ (List.mem_map_of_mem hv)
  obtain ⟨xs, ys, rfl, hxs, hys⟩ := hspans.append_inv
  rw [List.length_append] at hlayers
  rw [← List.append_nil ys] at hprogress
  obtain ⟨s₂, zs, hrun₂, hprogress₂, heffect₂, hzs, hcircles⟩ := resolveDeclarations_resolves hset hbelow
    (fun d hd => hsub _ (List.mem_append_left _ (List.mem_map_of_mem hd))) hxs (by omega)
    (hprogress.aside htree (.noted a s (.scopeEntered node.span.start)))
  have hread₂ := heffect₂.frame .body id node hread fun hzs' => hprogress.self_not_mem (hzs hzs')
  obtain ⟨s₃, hrun₃, hprogress₃, heffect₃⟩ := hbelow.visitNodes htree Visit.statement (by rintro _ _ ⟨⟩) (by rintro _ _ ⟨⟩)
    (fun x hx => hsub _ (List.mem_append_right _ (List.mem_map_of_mem hx))) hys (by omega)
    hprogress₂
  have hread₃ := heffect₃.frame .body id node hread₂ hprogress₂.self_not_mem
  refine ⟨s₃.noted (.scopeLeft node.span.start), (runs_resolveBody htree rfl hget hread h.ready.evolves
    h.top h.distinct).2 ⟨s₂, s₃, hrun₂, hrun₃, rfl⟩, ?_⟩
  rw [hall]
  refine (hprogress₃.aside htree (.noted a s₃ _)).complete id rfl hget hread₃ rfl rfl rfl
    (List.Subset.refl _) ?_ fun hsilent => hcircles (heffect₃.silent hsilent) fun d hd => ?_
  · simp [insideNode, Node.children, Function.comp_def]
  · refine (List.mem_append.1 hd).resolve_left fun hd => ?_
    obtain ⟨x, -, heq⟩ := List.mem_map.1 hd
    cases heq

/-- **A body is resolved** in the scope that it opens together with what its owner declares. -/
theorem resolveBody_resolves (hset : Setting a routines nodes)
    (hbelow : Handles a routines nodes below n) {seeds : List VariableId} {id : BodyId}
    (htop : a.Below a.top (a.bodySite seeds scopes id)) (hdistinct : a.DistinctScopes scopes)
    (hspans : Spans a [.body id] all) (hsub : all ⊆ nodes) (hnodup : all.Nodup)
    (hlayers : 2 * all.length ≤ n + 1) (hready : Ready a routines all s) :
    ∃ s', Runs (resolveBody below seeds id) (a.scopeOf scopes) s () s' ∧
      Visited a (a.bodySite seeds scopes id) all none s s' := by
  by_cases hown : a.DistinctScopes (a.bodySite seeds scopes id).scopes
  · exact resolveBody_enters hset hbelow ⟨htop, hspans, hsub, hnodup, hlayers, hready, hown⟩
  · exact resolveBody_abandons hset.tree htop hspans hready hdistinct hown

section

variable {site : Site} {visited todo xs : List Visit} {roots : List Site}
  {stood : List (ExpressionId × ExpressionId)} {s₀ : WalkState Routines}

/-- A body is resolved as a part of what its owner is made of. -/
theorem resolveBody_part (hset : Setting a routines nodes)
    (hbelow : Handles a routines nodes below n) {seeds : List VariableId} {id : BodyId}
    (htop : a.Below a.top (a.bodySite seeds site.scopes id)) (hspans : Spans a [.body id] xs)
    (hlayers : 2 * xs.length ≤ n + 1)
    (h : Progress a routines nodes site visited (xs ++ todo) roots stood s₀ s) :
    ∃ s', Runs (resolveBody below seeds id) (a.scopeOf site.scopes) s () s' ∧
      Progress a routines nodes site (visited ++ xs) todo
        (roots ++ [a.bodySite seeds site.scopes id]) stood s₀ s' ∧
      Effect a xs s s' := by
  obtain ⟨s', hrun, hvisited⟩ := resolveBody_resolves hset hbelow htop h.distinct hspans
    h.part_subset h.part_nodup hlayers h.part_ready
  exact ⟨s', hrun, h.part hset.tree hspans hvisited, hvisited.effect⟩

end

/-! ### Routines -/

theorem resolveRoutine_resolves (hset : Setting a routines nodes)
    (hbelow : Handles a routines nodes below n) {id : RoutineId}
    (h : Arrival a routines nodes n ⟨scopes, .routine id⟩ all s) :
    ∃ s', Runs (resolveRoutine below id) (a.scopeOf scopes) s () s' ∧
      Visited a ⟨scopes, .routine id⟩ all none s s' := by
  have htree := hset.tree
  obtain ⟨node, rest, hget, hread, hspans, rfl, hlayers, hmem, htop, hprogress⟩ := h.begin id rfl
  have hsub : ∀ v ∈ node.parameters.map Visit.variable ++ node.returnType.toList.map Visit.type,
      a.Below a.top ⟨scopes, v⟩ :=
    fun v hv => htop _ (List.mem_append_left _ (List.mem_map_of_mem hv))
  obtain ⟨xs, zs, rfl, hxs, hzs⟩ := hspans.append_inv
  obtain ⟨xs, ys, rfl, hxs, hys⟩ := hxs.append_inv
  rw [List.length_append, List.length_append] at hlayers
  rw [← List.append_nil zs, List.append_assoc] at hprogress
  obtain ⟨s₁, hrun₁, hprogress₁, heffect₁⟩ := hbelow.visitNodes htree Visit.variable nofun nofun
    (fun x hx => hsub _ (List.mem_append_left _ (List.mem_map_of_mem hx))) hxs (by omega) hprogress
  have hread₁ := heffect₁.frame .routine id node hread hprogress.self_not_mem
  obtain ⟨s₂, hrun₂, hprogress₂, heffect₂⟩ := hbelow.visitNodes htree Visit.type nofun nofun
    (fun x hx => hsub _ (List.mem_append_right _ (List.mem_map_of_mem hx))) hys (by omega)
    hprogress₁
  have hread₂ := heffect₂.frame .routine id node hread₁ hprogress₁.self_not_mem
  obtain ⟨s₃, hrun₃, hprogress₃, heffect₃⟩ := resolveBody_part hset hbelow
    (htop _ (List.mem_append_right _ List.mem_cons_self)) hzs (by omega) hprogress₂
  have hread₃ := heffect₃.frame .routine id node hread₂ hprogress₂.self_not_mem
  refine ⟨s₃, runs_node_bind.2 ⟨node, hread, runs_bind.2 ⟨(), s₁, hrun₁, runs_bind.2 ⟨(), s₂, ?_,
    hrun₃⟩⟩⟩, ?_⟩
  · rw [visitOptional_eq]
    exact hrun₂
  · refine hprogress₃.complete id rfl hget hread₃ rfl rfl rfl (List.Subset.refl _) ?_ fun _ => trivial
    simp [insideNode, Function.comp_def]

/-! ### Statements -/

theorem setExpression_counter? (kind : StatementKind) (index : Nat) (e : ExpressionId) :
    (kind.setExpression index e).counter? = kind.counter? := by
  cases kind with
  | returning value => cases value <;> rcases index with _ | index <;> rfl
  | _ => rcases index with _ | _ | index <;> rfl

theorem setExpression_bodies (kind : StatementKind) (index : Nat) (e : ExpressionId) :
    (kind.setExpression index e).bodies = kind.bodies := by
  cases kind with
  | returning value => cases value <;> rcases index with _ | index <;> rfl
  | _ => rcases index with _ | _ | index <;> rfl

/-- The expressions of a statement are visited; its bodies and its counter stay. -/
theorem walkStatementExpressions_part (hset : Setting a routines nodes)
    (hbelow : Handles a routines nodes below n) {id : StatementId} {node : Statement}
    {xs todo : List Visit} {s₀ : WalkState Routines} (hmem : .statement id ∈ nodes)
    (hread : s.arena.get? id = some node)
    (htop : ∀ e ∈ node.kind.expressions, a.Below a.top ⟨scopes, .expression e⟩)
    (hspans : Spans a (node.kind.expressions.map Visit.expression) xs) (hlayers : 2 * xs.length ≤ n)
    (h : Progress a routines nodes ⟨scopes, .statement id⟩ [] (xs ++ todo) [] [] s₀ s) :
    ∃ stood node' s', Runs (walkStatementExpressions below id) (a.scopeOf scopes) s () s' ∧
      Progress a routines nodes ⟨scopes, .statement id⟩ xs todo
        (node.kind.expressions.map fun e => ⟨scopes, .expression e⟩) stood s₀ s' ∧
      node.kind.expressions = stood.map (·.1) ∧ s'.arena.get? id = some node' ∧
      node'.kind.expressions = stood.map (·.2) ∧
      node'.kind.counter? = node.kind.counter? ∧ node'.kind.bodies = node.kind.bodies := by
  obtain ⟨stood, node', s', hrun, hprogress, hfst, hread', hkept, hslots, -⟩ := hbelow.visitSlots
    hset.tree id rfl hmem
    (fun m => m.kind.counter? = node.kind.counter? ∧ m.kind.bodies = node.kind.bodies)
    (f := fun index c m => { m with kind := m.kind.setExpression index c })
    (fun m index c hP _ hfresh => ⟨.expression m index hfresh,
      ⟨(setExpression_counter? _ _ _).trans hP.1, (setExpression_bodies _ _ _).trans hP.2⟩,
      StatementKind.expressions_setExpression _ _ _⟩)
    hread ⟨rfl, rfl⟩ rfl htop hspans hlayers h
  exact ⟨stood, node', s', runs_node_bind.2 ⟨node, hread, hrun⟩, hprogress, hfst.symm, hread',
    hslots, hkept⟩

/-- What stands in a slot is there. -/
theorem StandsFor.has {b : Arena} {ds : List Diagnostic} {e e' : ExpressionId}
    (h : StandsFor a b ds scopes e e') (hevolves : Evolves a a b) : b.Has (.expression e') := by
  cases h with
  | linked _ _ _ hlinked =>
    show b.Has (Visit.of e)
    exact has_of_get? hlinked
  | called _ _ _ _ _ hcall =>
    show b.Has (Visit.of e')
    exact has_of_get? hcall
  | undeclared _ _ _ _ hkept =>
    show b.Has (Visit.of e)
    exact has_of_get? hkept
  | other hnode =>
    show b.Has (Visit.of e)
    exact hevolves.has (has_of_get? hnode)

theorem exists_runs_checkCallStatement {c : Scope} {id : StatementId} {node : Statement}
    (hread : s.arena.get? id = some node)
    (hhas : ∀ e ∈ node.kind.expressions, s.arena.Has (.expression e)) :
    ∃ s', Runs (checkCallStatement id) c s () s' ∧ Remarks a s s' := by
  cases hkind : node.kind with
  | call callee =>
      obtain ⟨e, he⟩ := exists_of_has callee (hhas callee (by rw [hkind]; exact List.mem_cons_self))
      by_cases hbare : ∃ name x, e.kind = .identifier name (some x)
      · obtain ⟨name, x, hname⟩ := hbare
        refine ⟨s.reported .invalidStatement node.span.start, ?_, .reported a s rfl _⟩
        refine runs_node_bind.2 ⟨node, hread, ?_⟩
        rw [hkind]
        refine runs_node_bind.2 ⟨e, he, ?_⟩
        rw [hname]
        exact runs_report.2 rfl
      · refine ⟨s, runs_node_bind.2 ⟨node, hread, ?_⟩, .refl a s⟩
        rw [hkind]
        refine runs_node_bind.2 ⟨e, he, ?_⟩
        split
        · rename_i hname
          exact absurd ⟨_, _, hname⟩ hbare
        · exact runs_pure.2 ⟨rfl, rfl⟩
  | _ =>
      refine ⟨s, runs_node_bind.2 ⟨node, hread, ?_⟩, .refl a s⟩
      rw [hkind]
      exact runs_pure.2 ⟨rfl, rfl⟩

/-- The expressions of a statement have been visited, and its bodies are all that is left. -/
structure StatementBegun (a : Arena) (routines : Routines) (nodes : List Visit) (n : Nat)
    (scopes : List (List Declaration)) (id : StatementId) (node node₁ : Statement)
    (all xs zs : List Visit) (stood : List (ExpressionId × ExpressionId))
    (s s₁ : WalkState Routines) : Prop where
  parsed : a.get? id = some node
  read : s₁.arena.get? id = some node₁
  expressions : node.kind.expressions = stood.map (·.1)
  stored : node₁.kind.expressions = stood.map (·.2)
  counter : node₁.kind.counter? = node.kind.counter?
  bodies : node₁.kind.bodies = node.kind.bodies
  top : ∀ body ∈ node.kind.bodies, a.Below a.top (a.bodySite node.kind.counter?.toList scopes body)
  spans : Spans a (node.kind.bodies.map Visit.body) zs
  layers : 2 * zs.length + 1 ≤ n
  subset : xs ++ zs ⊆ all
  progress : Progress a routines nodes ⟨scopes, .statement id⟩ xs (zs ++ [])
    (node.kind.expressions.map fun e => ⟨scopes, .expression e⟩) stood s s₁

/-- Every statement begins with its expressions. -/
theorem Arrival.begin_statement (hset : Setting a routines nodes)
    (hbelow : Handles a routines nodes below n) {id : StatementId}
    (h : Arrival a routines nodes n ⟨scopes, .statement id⟩ all s) :
    ∃ node node₁ rest xs zs stood s₁, s.arena.get? id = some node ∧ all = .statement id :: rest ∧
      Runs (walkStatementExpressions below id) (a.scopeOf scopes) s () s₁ ∧
      StatementBegun a routines nodes n scopes id node node₁ rest xs zs stood s s₁ := by
  obtain ⟨node, rest, hget, hread, hspans, hall, hlayers, hmem, htop, hprogress⟩ := h.begin id rfl
  have hexpressions : ∀ e ∈ node.kind.expressions, a.Below a.top ⟨scopes, .expression e⟩ := fun e he =>
    htop _ (List.mem_append_left _ (List.mem_map_of_mem (List.mem_map_of_mem he)))
  obtain ⟨xs, zs, rfl, hxs, hzs⟩ := hspans.append_inv
  obtain ⟨xs, ys, rfl, hxs, hys⟩ := hxs.append_inv
  rw [List.length_append, List.length_append] at hlayers
  rw [← List.append_nil zs, List.append_assoc] at hprogress
  obtain ⟨stood, node₁, s₁, hrun, hprogress₁, hfst, hread₁, hsnd, hcounter, hbodies⟩ :=
    walkStatementExpressions_part hset hbelow hmem hread hexpressions hxs (by omega) hprogress
  refine ⟨node, node₁, _, xs, zs, stood, s₁, hread, hall, hrun, ?_⟩
  exact
    { parsed := hget
      read := hread₁
      expressions := hfst
      stored := hsnd
      counter := hcounter
      bodies := hbodies
      top := fun body hbody => htop _ (List.mem_append_right _ (List.mem_map_of_mem hbody))
      spans := hzs
      layers := by omega
      subset := List.append_subset.2
        ⟨List.Subset.trans (List.subset_append_left _ _) (List.subset_append_left _ _),
          List.subset_append_right _ _⟩
      -- the counter of a loop has no names to look up
      progress := hprogress₁.skip }

namespace StatementBegun

variable {id : StatementId} {node node₁ : Statement} {rest xs zs : List Visit}
  {stood : List (ExpressionId × ExpressionId)} {s₁ : WalkState Routines}

/-- When the bodies have been visited as well, the statement is resolved. -/
theorem finish (h : StatementBegun a routines nodes n scopes id node node₁ rest xs zs stood s s₁)
    {visited : List Visit} {s' : WalkState Routines} (hvisited : visited ⊆ xs ++ zs)
    (hprogress : Progress a routines nodes ⟨scopes, .statement id⟩ visited []
      ((node.kind.expressions.map fun e => ⟨scopes, .expression e⟩) ++
        node.kind.bodies.map (a.bodySite node.kind.counter?.toList scopes)) stood s s')
    (hread : s'.arena.get? id = some node₁) :
    Visited a ⟨scopes, .statement id⟩ (.statement id :: rest) none s s' := by
  refine hprogress.complete id rfl h.parsed hread h.expressions h.stored rfl
    (List.Subset.trans hvisited h.subset) ?_ fun _ => trivial
  simp [insideNode, Function.comp_def]

/-- The bodies of a statement without a counter have no more than their own scopes. -/
theorem walk (h : StatementBegun a routines nodes n scopes id node node₁ rest xs zs stood s s₁)
    (hset : Setting a routines nodes) (hbelow : Handles a routines nodes below n)
    (hrun : Runs (walkStatementExpressions below id) (a.scopeOf scopes) s () s₁)
    (hcounter : node.kind.counter? = none) :
    ∃ s', Runs (walkStatement below id) (a.scopeOf scopes) s () s' ∧
      Visited a ⟨scopes, .statement id⟩ (.statement id :: rest) none s s' := by
  have htop := h.top
  rw [hcounter] at htop
  obtain ⟨s₂, hrun₂, hprogress₂, heffect₂⟩ := hbelow.visitEach hset.tree Visit.body
    (a.bodySite [] scopes) (fun body _ => .body scopes body) htop h.progress.distinct nofun h.spans
    h.layers h.progress
  refine ⟨s₂, ?_, h.finish (List.Subset.refl _) ?_
    (heffect₂.frame .statement id node₁ h.read h.progress.self_not_mem)⟩
  · refine runs_bind.2 ⟨(), s₁, hrun, runs_node_bind.2 ⟨node₁, h.read, ?_⟩⟩
    dsimp only
    rw [h.counter, hcounter, h.bodies]
    exact runs_bind.2 ⟨(), s₁, runs_pure.2 ⟨rfl, rfl⟩, hrun₂⟩
  · rw [hcounter]
    exact hprogress₂

/-- A call statement has no bodies. What it calls is looked at. -/
theorem call (h : StatementBegun a routines nodes n scopes id node node₁ rest xs zs stood s s₁)
    (hset : Setting a routines nodes) {callee : ExpressionId}
    (hkind : node.kind = .call callee) :
    ∃ s', Runs (checkCallStatement id) (a.scopeOf scopes) s₁ () s' ∧
      Visited a ⟨scopes, .statement id⟩ (.statement id :: rest) none s s' := by
  obtain ⟨s₂, hrun₂, hremarks₂⟩ := exists_runs_checkCallStatement (a := a) (c := a.scopeOf scopes)
    h.read fun e he => by
      rw [h.stored] at he
      obtain ⟨p, hp, rfl⟩ := List.mem_map.1 he
      exact (h.progress.stands p hp).has h.progress.ready.evolves
  have hprogress := h.progress.skip
  refine ⟨s₂, hrun₂, h.finish (List.subset_append_left _ _) ?_
    (hremarks₂.effect.frame .statement id node₁ h.read List.not_mem_nil)⟩
  rw [hkind] at hprogress ⊢
  exact hprogress.aside hset.tree hremarks₂

/-- The body of a loop is resolved in the scope of its counter. -/
theorem loop (h : StatementBegun a routines nodes n scopes id node node₁ rest xs zs stood s s₁)
    (hset : Setting a routines nodes) (hbelow : Handles a routines nodes below n)
    {counter : VariableId} {first last : ExpressionId} {reverse : Bool} {body : BodyId}
    (hkind : node.kind = .forLoop counter first last reverse body) :
    ∃ s', Runs (resolveBody below [counter] body) (a.scopeOf scopes) s₁ () s' ∧
      Visited a ⟨scopes, .statement id⟩ (.statement id :: rest) none s s' := by
  have htop := h.top
  have hspans := h.spans
  rw [hkind] at htop hspans
  have hlayers := h.layers
  obtain ⟨s₂, hrun₂, hprogress₂, heffect₂⟩ := resolveBody_part hset hbelow
    (htop body List.mem_cons_self) hspans (by omega) h.progress
  refine ⟨s₂, hrun₂, h.finish (List.Subset.refl _) ?_
    (heffect₂.frame .statement id node₁ h.read h.progress.self_not_mem)⟩
  rw [hkind]
  rw [hkind] at hprogress₂
  exact hprogress₂

end StatementBegun

/-- **A statement is resolved.** -/
theorem resolveStatement_resolves (hset : Setting a routines nodes)
    (hbelow : Handles a routines nodes below n) {id : StatementId}
    (h : Arrival a routines nodes n ⟨scopes, .statement id⟩ all s) :
    ∃ s', Runs (resolveStatement below id) (a.scopeOf scopes) s () s' ∧
      Visited a ⟨scopes, .statement id⟩ all none s s' := by
  obtain ⟨node, node₁, rest, xs, zs, stood, s₁, hread, rfl, hrun, hbegun⟩ :=
    h.begin_statement hset hbelow
  cases hkind : node.kind with
  | forLoop counter first last reverse body =>
      obtain ⟨s', hbody, hvisited⟩ := hbegun.loop hset hbelow hkind
      refine ⟨s', runs_node_bind.2 ⟨node, hread, ?_⟩, hvisited⟩
      rw [hkind]
      exact runs_bind.2 ⟨(), s₁, hrun, hbody⟩
  | call callee =>
      obtain ⟨s', hcheck, hvisited⟩ := hbegun.call hset hkind
      refine ⟨s', runs_node_bind.2 ⟨node, hread, ?_⟩, hvisited⟩
      rw [hkind]
      exact runs_bind.2 ⟨(), s₁, hrun, hcheck⟩
  | assignment | whileLoop | branch | returning =>
      obtain ⟨s', hwalk, hvisited⟩ := hbegun.walk hset hbelow hrun (by rw [hkind]; rfl)
      refine ⟨s', runs_node_bind.2 ⟨node, hread, ?_⟩, hvisited⟩
      rw [hkind]
      exact hwalk

end ProcLang
