import ProcLang.Proofs.Account.Parts

/-!
# ProcLang.Proofs.Account.Scopes

**How a scope is told.** Opening a scope reports the names that it repeats (`declareScope_told`). The
declarations of a scope that repeats none are told with the types first, and then the circles among
them (`resolveDeclarations_recounts`): in the part of the tree that belongs to the scope no name has
been linked from outside, and so no chain of types that leaves the scope comes back into it.
-/

namespace ProcLang

open Arena WalkM

variable {a b : Arena} {routines : Routines} {nodes : List Visit} {scopes : List (List Declaration)}
  {s s' : WalkState Routines}

/-! ### Repeated names -/

theorem reports_of_entry {scope : List Declaration} {entry : ScopeEntry} (h : entry ∈ a.entries scope)
    (cause : Cause) : a.Reports ⟨entry.declaration.visit, cause⟩ ⟨cause, entry.start⟩ := by
  obtain ⟨d, -, heq⟩ := List.mem_filterMap.1 h
  have hget : ∀ {family : Family} {id : NodeId family} {found : Node family},
      a.get id = .ok found → a.Reports ⟨Visit.of id, cause⟩ ⟨cause, (Node.span family found).start⟩ :=
    fun hfound => .intro (get_eq_ok.1 hfound) cause
  cases d with
  | routine id =>
      cases hfound : a.get id with
      | error fault => simp [declarationName, hfound, bind, Except.bind] at heq
      | ok node =>
          simp only [declarationName, hfound, bind, Except.bind, pure, Except.pure] at heq
          obtain rfl := Option.some.inj heq
          exact hget hfound
  | «variable» id =>
      cases hfound : a.get id with
      | error fault => simp [declarationName, hfound, bind, Except.bind] at heq
      | ok node =>
          simp only [declarationName, hfound, bind, Except.bind, pure, Except.pure] at heq
          obtain rfl := Option.some.inj heq
          exact hget hfound
  | type id =>
      cases hfound : a.get id with
      | error fault => simp [declarationName, hfound, bind, Except.bind] at heq
      | ok node =>
          simp only [declarationName, hfound, bind, Except.bind, pure, Except.pure] at heq
          obtain rfl := Option.some.inj heq
          exact hget hfound

/-- The repetitions among entries are reported where the entries begin. -/
theorem reports_repeatedAfter {entries : List ScopeEntry}
    (h : ∀ entry ∈ entries, ∀ cause, a.Reports ⟨entry.declaration.visit, cause⟩ ⟨cause, entry.start⟩)
    (seen : List (String × Nat)) : List.Forall₂ a.Reports (repeatedAfter seen entries)
      (repetitionsAfter seen (entries.map fun entry => (entry.name, entry.start))) := by
  induction entries generalizing seen with
  | nil => exact .nil
  | cons entry rest ih =>
      have hrest := ih fun other hother => h other (List.mem_cons_of_mem _ hother)
      rw [List.map_cons, repeatedAfter, repetitionsAfter]
      cases seen.lookup entry.name with
      | some line => exact .cons (h entry List.mem_cons_self _) (hrest seen)
      | none => exact hrest _

theorem reports_repeated (a : Arena) (scope : List Declaration) :
    List.Forall₂ a.Reports (a.repeated scope)
      (repetitions ((a.entries scope).map fun entry => (entry.name, entry.start))) :=
  reports_repeatedAfter (fun _ h => reports_of_entry h) []

/-- A scope repeats no name if its names are distinct. -/
theorem repeated_eq_nil_iff {scope : List Declaration} (hhas : ∀ d ∈ scope, a.Has d.visit) :
    a.repeated scope = [] ↔ (scope.map a.nameOf).Nodup := by
  rw [← names_nodup_iff hhas]
  have hreports := reports_repeated a scope
  constructor
  · intro h
    rw [h, List.forall₂_nil_left_iff] at hreports
    have hnodup := (nodup_of_repetitionsAfter hreports).1
    rwa [List.map_map] at hnodup
  · intro h
    have hnone : repetitions ((a.entries scope).map fun entry => (entry.name, entry.start)) = [] := by
      refine repetitionsAfter_eq_nil ?_ fun _ _ => rfl
      rwa [List.map_map]
    rwa [hnone, List.forall₂_nil_right_iff] at hreports

theorem runs_reportAll {c : Scope} {ds : List Diagnostic} (h : Runs (reportAll ds) c s () s') :
    s'.arena = s.arena ∧ s'.own = s.own ∧ s'.diagnostics.toList = s.diagnostics.toList ++ ds := by
  induction ds generalizing s with
  | nil =>
      obtain rfl := runs_forM_nil.1 h
      exact ⟨rfl, rfl, (List.append_nil _).symm⟩
  | cons d rest ih =>
      obtain ⟨s₁, hfirst, hothers⟩ := runs_forM_cons.1 h
      obtain rfl := runs_report.1 hfirst
      obtain ⟨harena, hown, hds⟩ := ih hothers
      exact ⟨harena, hown, by simp [hds, WalkState.reported]⟩

/-- **What is said when a scope is opened.** -/
theorem declareScope_told (scopes : List (List Declaration)) (xs : List Visit)
    {seeds : List VariableId} {declarations : List Declaration} {c : Scope} {r : Option Scope}
    (h : Runs (declareScope seeds declarations) c s r s') (hevolves : Evolves a a s.arena)
    (hhas : ∀ d ∈ seeds.map Declaration.variable ++ declarations, a.Has d.visit) :
    s'.arena = s.arena ∧
      Told a scopes xs (a.repeated (seeds.map Declaration.variable ++ declarations)) s s' ∧
      (a.repeated (seeds.map Declaration.variable ++ declarations) ≠ [] → r = none) := by
  rw [declareScope] at h
  obtain ⟨entries, s₁, hentries, h⟩ := runs_bind.1 h
  obtain ⟨rfl, rfl⟩ := (runs_scopeEntries hevolves hhas).unique hentries
  obtain ⟨⟨⟩, s₂, hreport, h⟩ := runs_bind.1 h
  obtain ⟨harena, -, hds⟩ := runs_reportAll hreport
  have hreports := reports_repeated a (seeds.map Declaration.variable ++ declarations)
  simp only [runs_updateOwn_bind] at h
  have hlast : s' = { s₂ with own := s₂.own ++ routinesOf (firstsAfter []
      (a.entries (seeds.map Declaration.variable ++ declarations))) } := by
    split at h
    · rw [runs_read_bind] at h
      exact (runs_pure.1 h).2
    · exact (runs_pure.1 h).2
  subst hlast
  refine ⟨harena, .of_reports hds hreports (harena ▸ .refl _), fun hrepeated => ?_⟩
  split at h
  · rename_i hempty
    rw [List.isEmpty_iff.1 hempty, List.forall₂_nil_right_iff] at hreports
    exact absurd hreports hrepeated
  · exact (runs_pure.1 h).1

/-! ### Circles -/

theorem cyclic_of_get? {d : TypeDeclId} {node : TypeDecl} (h : a.get? d = some node) :
    a.cyclic d = ⟨.typeDecl d, .cyclicType node.name⟩ := by
  rw [cyclic, h]
  rfl

/-- **What is said of circles.** -/
theorem checkCycles_told (scopes : List (List Declaration)) (xs : List Visit) {c : Scope}
    {ids : List TypeDeclId} (hevolves : Evolves a a s.arena) (hhas : ∀ d ∈ ids, a.Has (.typeDecl d))
    (hsub : ∀ heads, s.arena.cyclicAmong ids = .ok heads → heads ⊆ ids)
    (h : Runs (checkCycles ids) c s () s') : ∃ heads, s.arena.cyclicAmong ids = .ok heads ∧
      Told a scopes xs (heads.map a.cyclic) s s' := by
  obtain ⟨heads, hheads, hrun⟩ := runs_inspect_bind.1 h
  refine ⟨heads, hheads, ?_⟩
  replace hsub := hsub heads hheads
  clear hheads h
  induction heads generalizing s with
  | nil =>
      obtain rfl := runs_forM_nil.1 hrun
      exact .refl _
  | cons d rest ih =>
      obtain ⟨s₁, hfirst, hothers⟩ := runs_forM_cons.1 hrun
      obtain ⟨node, hnode, hfirst⟩ := runs_node_bind.1 hfirst
      obtain rfl := runs_report.1 hfirst
      obtain ⟨old, hold⟩ := exists_of_has d (hhas d (hsub List.mem_cons_self))
      obtain ⟨found, hfound, hchanges⟩ := hevolves.changed .typeDecl d old hold
      obtain rfl := hchanges.typeDecl_eq
      obtain rfl := Option.some.inj (hfound.symm.trans hnode)
      rw [List.map_cons, cyclic_of_get? hold]
      exact (Told.single hold _ s).trans (ih hevolves hothers
        (List.Subset.trans (List.subset_cons_self _ _) hsub))

/-! ### Inside and outside of a scope -/

/-- Each node of a forest that is no root has a parent in it. -/
theorem Spans.exists_parent {vs all : List Visit} {w : Visit} (h : Spans a vs all) (hw : w ∈ all)
    (hroot : w ∉ vs) : ∃ v ∈ all, w ∈ a.children v := by
  obtain ⟨root, hmem, hreaches⟩ := h.exists_reaches hw
  rcases Relation.ReflTransGen.cases_tail hreaches with rfl | ⟨v, hv, hchild⟩
  · exact absurd hmem hroot
  · exact ⟨v, h.mem_of_reaches (h.mem_of_root hmem) hv, hchild⟩

section

variable (htree : a.IsTree nodes)

include htree

/-- What is outside of a body has nothing inside of it, but for the body itself. -/
theorem Arena.IsTree.child_not_mem {id : BodyId} {all : List Visit} (hspans : Spans a [.body id] all)
    (hsub : all ⊆ nodes) {v w : Visit} (hv : v ∈ nodes) (hout : v ∉ all) (hchild : w ∈ a.children v)
    (hw : w ≠ .body id) : w ∉ all := by
  intro hmem
  obtain ⟨u, hu, hchild'⟩ := hspans.exists_parent hmem fun heq => hw (List.mem_singleton.1 heq)
  exact hout (htree.spans.parent_unique htree.nodup hv (hsub hu) hchild hchild' ▸ hu)

/-- A type outside of a body names nothing inside of it, if no type outside is linked there. -/
theorem not_mem_of_namedWithin (hevolves : Evolves a a b) {id : BodyId} {all : List Visit}
    (hspans : Spans a [.body id] all) (hsub : all ⊆ nodes)
    (hlinks : ∀ t e, .type t ∉ all → b.Targets t e → .typeDecl e ∉ all) {layers : Nat} {t : TypeId}
    {e : TypeDeclId} (hmem : .type t ∈ nodes) (hout : .type t ∉ all)
    (h : b.namedWithin layers t = .ok (some e)) : .typeDecl e ∉ all := by
  induction layers generalizing t with
  | zero => cases h
  | succ layers ih =>
      obtain ⟨node, hget⟩ := exists_of_has t (htree.spans.has_of_mem hmem)
      obtain ⟨node', hget', hchanges⟩ := hevolves.changed .type t node hget
      simp only [namedWithin, get_eq_ok.2 hget', bind, Except.bind] at h
      cases hkind' : node'.kind with
      | named name target =>
          rw [hkind'] at h
          obtain rfl : target = some e := Except.ok.inj h
          exact hlinks t e hout ⟨node', name, hget', hkind'⟩
      | array length element =>
          rw [hkind'] at h
          obtain ⟨old, hkind⟩ := hchanges.exists_array hkind'
          have hchild : Visit.type element ∈ a.children (.type t) := by
            rw [Visit.type_eq t, children_of_get? hget, Node.children, hkind]
            exact List.mem_append_right _ List.mem_cons_self
          exact ih (htree.spans.child_mem hmem hchild)
            (htree.child_not_mem hspans hsub hmem hout hchild (by simp)) h
      | integer | real | boolean | record =>
          rw [hkind'] at h
          cases h

/-- **No chain of types comes back into a body.** -/
theorem leadsOutward_of_facing {seeds : List VariableId} {id : BodyId} {node : Body}
    {all ys : List Visit} {s₁ : WalkState Routines} (hget : a.get? id = some node)
    (hspans : Spans a [.body id] all) (h : Facing a routines nodes scopes all s)
    (heffect : Effect a ys s s₁) (hys : ys ⊆ all) :
    LeadsOutward a s₁.arena (a.bodySite seeds scopes id).scopes (· ∈ all) where
  inner d hd := by
    rw [bodySite_of_get? hget] at hd
    rcases List.mem_append.1 hd with hd | hd
    · obtain ⟨x, -, heq⟩ := List.mem_map.1 hd
      cases heq
    · refine hspans.child_mem (hspans.mem_of_root List.mem_cons_self) ?_
      rw [Visit.body_eq id, children_of_get? hget]
      exact List.mem_append_left _ (List.mem_map_of_mem (f := Declaration.visit) hd)
  outer scope hscope d hd :=
    h.closed id all hspans (List.Subset.refl _) d (Or.inr ⟨scope, hscope, hd⟩)
  outward d e hout hleads := by
    have hevolves := h.ready.evolves.trans heffect.evolves
    rw [LeadsNow, leadsTo] at hleads
    cases hread : s₁.arena.get d with
    | error fault => simp [hread, bind, Except.bind] at hleads
    | ok declaration =>
        simp only [hread, bind, Except.bind] at hleads
        obtain ⟨old, hold, hchanges⟩ :=
          (hevolves.origin (get_eq_ok.1 hread)).resolve_right fun hadded => hadded
        obtain rfl := hchanges.typeDecl_eq
        have hchild : Visit.type declaration.type ∈ Node.children .typeDecl declaration :=
          List.mem_cons_self
        have hmem : Visit.typeDecl d ∈ nodes := htree.mem_of_child hold hchild
        rw [← children_of_get? hold] at hchild
        refine not_mem_of_namedWithin htree hevolves hspans h.subset (fun t e hout htarget => ?_)
          (htree.spans.child_mem hmem hchild)
          (htree.child_not_mem hspans h.subset hmem hout hchild (by simp)) hleads
        -- outside of the body nothing has changed
        obtain ⟨type, name, htype, hname⟩ := htarget
        obtain ⟨before, hbefore, -⟩ :=
          (hevolves.origin htype).resolve_right fun hadded => hadded
        have hhas : s.arena.Has (Visit.of t) := h.ready.evolves.has (has_of_get? hbefore)
        rw [heffect.get?_eq hhas fun hmem => hout (hys hmem)] at htype
        exact h.closed id all hspans (List.Subset.refl _) e (Or.inl ⟨t, type, name, htype, hname⟩)

/-- What is ahead when the scope of a body has been opened. -/
theorem Facing.enter {seeds : List VariableId} {id : BodyId} {node : Body} {rest : List Visit}
    (hget : a.get? id = some node) (h : Facing a routines nodes scopes (.body id :: rest) s)
    (hdistinct : a.DistinctScopes (a.bodySite seeds scopes id).scopes) :
    Facing a routines nodes (a.bodySite seeds scopes id).scopes rest s where
  ready := h.ready.mono (List.subset_cons_self _ _)
  subset := List.Subset.trans (List.subset_cons_self _ _) h.subset
  nodup := (List.nodup_cons.1 h.nodup).2
  distinct := hdistinct
  closed y ys hys hsub e he hmem := by
    have hwider : ys ⊆ .body id :: rest := List.subset_cons_of_subset _ hsub
    rcases he with htarget | ⟨scope, hscope, hd⟩
    · exact h.closed y ys hys hwider e (Or.inl htarget) hmem
    · rw [bodySite_of_get? hget] at hscope
      rcases List.mem_cons.1 hscope with rfl | hscope
      · -- what the body declares belongs to no body inside
        rcases List.mem_append.1 hd with hd | hd
        · obtain ⟨x, -, heq⟩ := List.mem_map.1 hd
          nomatch heq
        · have hchild : Visit.typeDecl e ∈ a.children (.body id) := by
            rw [Visit.body_eq id, children_of_get? hget]
            exact List.mem_append_left _ (List.mem_map_of_mem (f := Declaration.visit) hd)
          refine htree.child_not_mem hys (List.Subset.trans hwider h.subset)
            (h.subset List.mem_cons_self) (fun hid => ?_) hchild nofun hmem
          exact (List.nodup_cons.1 h.nodup).1 (hsub hid)
      · exact h.closed y ys hys hwider e (Or.inr ⟨scope, hscope, hd⟩) hmem

end

/-! ### Declarations -/

section

variable {below : Visit → NamesM (Option ExpressionId)} {n : Nat}

/-- The declarations of an open scope are told: the types, the circles among them, and the others. -/
theorem resolveDeclarations_recounts (hset : Setting a routines nodes)
    (hbelow : Recounts a routines nodes below n) {site : Site} {visited xs todo : List Visit}
    {roots : List Site} {stood : List (ExpressionId × ExpressionId)} {s₀ : WalkState Routines}
    {N : Visit → Prop} {declarations : List Declaration}
    (htop : ∀ d ∈ declarations, a.Below a.top ⟨site.scopes, d.visit⟩)
    (hdeclared : ∀ d, .type d ∈ site.scopes.headD [] ↔ .type d ∈ declarations)
    (hspans : Spans a (declarations.map Declaration.visit) xs) (hlayers : 2 * xs.length + 1 ≤ n)
    (hprogress : Progress a routines nodes site visited (xs ++ todo) roots stood s₀ s)
    (houtward : ∀ s₁ ys, Effect a ys s s₁ → ys ⊆ xs → LeadsOutward a s₁.arena site.scopes N)
    (h : Facing a routines nodes site.scopes (xs ++ todo) s)
    (hrun : Runs (resolveDeclarations below declarations) (a.scopeOf site.scopes) s () s') :
    ∃ types heads others,
      a.Account ((declarations.filterMap Declaration.type?).map fun d => ⟨site.scopes, .typeDecl d⟩)
        types ∧
      CircleHeads (a.LeadsInside site.scopes) [] (declarations.filterMap Declaration.type?) heads ∧
      a.Account ((declarations.filter fun d => d.type?.isNone).map fun d => ⟨site.scopes, d.visit⟩)
        others ∧
      Told a site.scopes xs (types ++ heads.map a.cyclic ++ others) s s' ∧ Effect a xs s s' ∧
      Facing a routines nodes site.scopes todo s' := by
  have htree := hset.tree
  obtain ⟨⟨⟩, s₁, hrun₁, hrun⟩ := runs_bind.1 hrun
  obtain ⟨⟨⟩, s₂, hrun₂, hrun₃⟩ := runs_bind.1 hrun
  obtain ⟨all, hall, hperm⟩ := hspans.perm (perm_types_first declarations)
  obtain ⟨ys, zs, rfl, hys, hzs⟩ := hall.append_inv
  have hlength := hperm.length_eq
  rw [List.length_append] at hlength
  have hstart : Facing a routines nodes site.scopes (ys ++ (zs ++ todo)) s := by
    rw [← List.append_assoc]
    exact h.perm (hperm.append_right _)
  have htypes : ∀ d ∈ declarations.filterMap Declaration.type?,
      a.Below a.top ⟨site.scopes, .typeDecl d⟩ :=
    fun d hd => htop _ (mem_filterMap_type?.1 hd)
  have hpassed₁ := hbelow.visitNodes htree Visit.typeDecl nofun htypes hys (by omega) hstart hrun₁
  -- when circles are looked for, the types of the scope are resolved
  have hsettled : ∀ d, .type d ∈ site.scopes.headD [] → ∀ inner,
      a.Below ⟨site.scopes, .typeDecl d⟩ inner → inner.scopes = site.scopes →
        NamesResolved a s₁.arena s₁.diagnostics.toList inner := by
    have hbegun : Progress a routines nodes site visited (ys ++ (zs ++ todo)) roots stood s₀ s := by
      rw [← List.append_assoc]
      exact hprogress.perm (.refl _) (hperm.append_right _) (List.Subset.refl _)
    have hhandles : Handles a routines nodes below n := hbelow.handles
    obtain ⟨t, hrun', hdone, -⟩ := Handles.visitNodes htree hhandles Visit.typeDecl nofun nofun
      htypes hys (by omega) hbegun
    obtain rfl := (hrun'.unique hrun₁).2
    intro d hd inner hinner hscopes
    refine (hdone.settled _ (List.mem_append_right _ (List.mem_map_of_mem
      (mem_filterMap_type?.2 ((hdeclared d).1 hd)))) inner hinner).resolved (hscopes ▸ h.distinct)
  have hevolves := hpassed₁.facing.ready.evolves
  have hhas : ∀ d ∈ declarations.filterMap Declaration.type?, a.Has (.typeDecl d) := fun d hd =>
    hys.has_of_mem (hys.mem_of_root (List.mem_map_of_mem hd))
  obtain ⟨found, hfound, hsub⟩ := exists_cyclicFrom htree hevolves [] hhas
  obtain ⟨heads, hheads, htold₂⟩ := checkCycles_told site.scopes (ys ++ zs) hevolves hhas
    (fun heads hheads => by
      obtain rfl : found = heads := Except.ok.inj (hfound.symm.trans hheads)
      exact hsub) hrun₂
  obtain ⟨t, hrun', hremarks, -⟩ := exists_runs_checkCycles htree hevolves (a.scopeOf site.scopes)
    rfl (declarations.filterMap Declaration.type?) hhas
  obtain rfl := (hrun'.unique hrun₂).2
  have hcircles : CircleHeads (a.LeadsInside site.scopes) []
      (declarations.filterMap Declaration.type?) heads := by
    refine (circleHeads_of_cyclicAmong htree hevolves hheads hhas).congr fun d hd e he => ?_
    exact transGen_leadsInside htree hevolves
      (houtward s₁ ys hpassed₁.effect (List.Subset.trans (List.subset_append_left _ _) hperm.symm.subset))
      (fun d hd => hhas d (mem_filterMap_type?.2 ((hdeclared d).1 hd))) hsettled
      ((hdeclared d).2 (mem_filterMap_type?.1 hd)) ((hdeclared e).2 (mem_filterMap_type?.1 he))
  have hfacing₂ : Facing a routines nodes site.scopes (zs ++ todo) t :=
    hpassed₁.facing.after htree hremarks.effect (htold₂.mono_nil hremarks.arena) (List.nil_subset _)
      (List.disjoint_nil_right _)
  have hpassed₃ := hbelow.visitEach htree Visit.declaration (fun d => ⟨site.scopes, d.visit⟩)
    (fun d _ => .declaration site.scopes d) (fun d hd => htop d (List.mem_of_mem_filter hd)) hzs
    (by omega) hfacing₂ hrun₃
  obtain ⟨types, haccount₁, htold₁⟩ := hpassed₁.recount
  obtain ⟨others, haccount₃, htold₃⟩ := hpassed₃.recount
  refine ⟨types, heads, others, haccount₁, hcircles, haccount₃, ?_, ?_, hpassed₃.facing⟩
  · exact (((htold₁.mono (List.subset_append_left _ _)).trans htold₂).trans
      (htold₃.mono (List.subset_append_right _ _))).mono hperm.symm.subset
  · exact ((hpassed₁.effect.append hremarks.effect).append hpassed₃.effect).mono
      (by rw [List.append_nil]; exact hperm.symm.subset)

/-- The types among the sites of a scope. -/
theorem filter_declaresType (scopes : List (List Declaration)) (declarations : List Declaration) :
    ((declarations.map Declaration.visit).map (Site.mk scopes)).filter Site.declaresType =
      (declarations.filterMap Declaration.type?).map fun d => ⟨scopes, .typeDecl d⟩ := by
  induction declarations with
  | nil => rfl
  | cons d rest ih =>
      cases d with
      | type id => exact congrArg (List.cons _) ih
      | routine | «variable» => exact ih

/-- The other sites of a scope. -/
theorem filter_not_declaresType (scopes : List (List Declaration))
    (declarations : List Declaration) :
    (((declarations.map Declaration.visit).map (Site.mk scopes)).filter fun child =>
        !child.declaresType) =
      (declarations.filter fun d => d.type?.isNone).map fun d => ⟨scopes, d.visit⟩ := by
  induction declarations with
  | nil => rfl
  | cons d rest ih =>
      cases d with
      | type id => exact ih
      | routine | «variable» => exact congrArg (List.cons _) ih

theorem filter_declaresType_statements {scopes : List (List Declaration)}
    (statements : List StatementId) :
    ((statements.map Visit.statement).map (Site.mk scopes)).filter Site.declaresType = [] := by
  simp [List.filter_eq_nil_iff, Site.declaresType]

theorem filter_not_declaresType_statements {scopes : List (List Declaration)}
    (statements : List StatementId) :
    (((statements.map Visit.statement).map (Site.mk scopes)).filter fun child =>
        !child.declaresType) = statements.map fun id => ⟨scopes, .statement id⟩ := by
  rw [List.filter_eq_self.2, List.map_map]
  · rfl
  · simp [Site.declaresType]

theorem filterMap_type?_variables (seeds : List VariableId) :
    (seeds.map Declaration.variable).filterMap Declaration.type? = [] := by
  simp [List.filterMap_eq_nil_iff, Declaration.type?]

/-- A body with a repeated name is told: its repetitions are all there is to say. -/
theorem resolveBody_abandoned (htree : a.IsTree nodes) {seeds : List VariableId} {id : BodyId}
    {all : List Visit} (htop : a.Below a.top (a.bodySite seeds scopes id))
    (hspans : Spans a [.body id] all) (h : Facing a routines nodes scopes all s)
    (hrepeated : ∀ node, a.get? id = some node →
      a.repeated (seeds.map Declaration.variable ++ node.declarations) ≠ [])
    (hrun : Runs (resolveBody below seeds id) (a.scopeOf scopes) s () s') :
    Recount a scopes [a.bodySite seeds scopes id] all s s' := by
  have hmem : Visit.body id ∈ all := hspans.mem_of_root List.mem_cons_self
  obtain ⟨node, hget⟩ := exists_of_has id (hspans.has_of_mem hmem)
  obtain ⟨found, hfound, hrun⟩ := runs_node_bind.1 hrun
  obtain rfl := Option.some.inj
    (((h.ready.untouched .body id hmem).trans hget).symm.trans hfound)
  have hsite := bodySite_of_get? hget seeds scopes
  have hhas := htree.has_of_scope htop
  rw [hsite] at hhas ⊢
  replace hrepeated := hrepeated _ hget
  obtain ⟨r, s₁, hdeclare, hrest⟩ := runs_bind.1 (runs_note_bind.1 hrun)
  obtain ⟨-, htold, hnone⟩ := declareScope_told scopes all hdeclare h.ready.evolves
    (hhas _ List.mem_cons_self)
  obtain rfl := hnone hrepeated
  obtain rfl := runs_note.1 hrest
  refine ⟨_, .repeated rfl hrepeated .nil, ?_⟩
  simpa using ((Told.noted s _).trans htold).trans (.noted s₁ _)

/-- The types that a body declares are its own. -/
theorem type_mem_bodySite {seeds : List VariableId} {id : BodyId} {node : Body}
    (hget : a.get? id = some node) (d : TypeDeclId) :
    .type d ∈ (a.bodySite seeds scopes id).scopes.headD [] ↔ .type d ∈ node.declarations := by
  rw [bodySite_of_get? hget, List.headD_cons, List.mem_append, or_iff_right]
  intro hd
  obtain ⟨x, -, heq⟩ := List.mem_map.1 hd
  nomatch heq

/-- All there is to say of a body with distinct names: its types, the circles among them, its other
declarations, and its statements. -/
theorem account_body {seeds : List VariableId} {id : BodyId} {node : Body} {heads : List TypeDeclId}
    {types others statements : List Remark} (hget : a.get? id = some node)
    (hdistinct : a.repeated (seeds.map Declaration.variable ++ node.declarations) = [])
    (htypes : a.Account ((node.declarations.filterMap Declaration.type?).map fun d =>
      ⟨(a.bodySite seeds scopes id).scopes, .typeDecl d⟩) types)
    (hheads : CircleHeads (a.LeadsInside (a.bodySite seeds scopes id).scopes) []
      (node.declarations.filterMap Declaration.type?) heads)
    (hothers : a.Account ((node.declarations.filter fun d => d.type?.isNone).map fun d =>
      ⟨(a.bodySite seeds scopes id).scopes, d.visit⟩) others)
    (hstatements : a.Account (node.statements.map fun id' =>
      ⟨(a.bodySite seeds scopes id).scopes, .statement id'⟩) statements) :
    a.Account [a.bodySite seeds scopes id] (types ++ heads.map a.cyclic ++ (others ++ statements)) := by
  have hsite := bodySite_of_get? hget seeds scopes
  have hchildren : a.inside (a.bodySite seeds scopes id) =
      (node.declarations.map Declaration.visit ++ node.statements.map Visit.statement).map
        (Site.mk (a.bodySite seeds scopes id).scopes) := by
    rw [hsite, Visit.body_eq id, inside_of_get? hget]
    rfl
  have hopened : (a.bodySite seeds scopes id).opened =
      some (seeds.map Declaration.variable ++ node.declarations) := by
    rw [hsite]
    rfl
  rw [← List.append_nil (types ++ heads.map a.cyclic ++ (others ++ statements))]
  refine .scope hopened hdistinct ?_ ?_ ?_ .nil
  · rwa [hchildren, List.map_append, List.filter_append, filter_declaresType,
      filter_declaresType_statements, List.append_nil]
  · rwa [List.filterMap_append, filterMap_type?_variables, List.nil_append]
  · rw [hchildren, List.map_append, List.filter_append, filter_not_declaresType,
      filter_not_declaresType_statements]
    exact hothers.append hstatements

/-- A body with distinct names is told in the scope that it opens. -/
theorem resolveBody_entered (hset : Setting a routines nodes)
    (hbelow : Recounts a routines nodes below n) {seeds : List VariableId} {id : BodyId}
    {all : List Visit} (htop : a.Below a.top (a.bodySite seeds scopes id))
    (hspans : Spans a [.body id] all) (hlayers : 2 * all.length ≤ n + 1)
    (h : Facing a routines nodes scopes all s)
    (hdistinct : a.DistinctScopes (a.bodySite seeds scopes id).scopes)
    (hrun : Runs (resolveBody below seeds id) (a.scopeOf scopes) s () s') :
    Recount a scopes [a.bodySite seeds scopes id] all s s' := by
  have htree := hset.tree
  have harrival : Arrival a routines nodes n (a.bodySite seeds scopes id) all s :=
    ⟨htop, hspans, h.subset, h.nodup, hlayers, h.ready, hdistinct⟩
  obtain ⟨node, rest, hget, hread, hrest, hall, hlayers', hmem, hinside, hprogress⟩ :=
    harrival.begin id rfl
  have hsite := bodySite_of_get? hget seeds scopes
  obtain ⟨s₁, s₂, hrun₁, hrun₂, rfl⟩ := (runs_resolveBody htree (congrArg Site.scopes hsite) hget hread
    h.ready.evolves htop hdistinct).1 hrun
  -- what is ahead when the scope has been opened
  have hentered : Facing a routines nodes scopes all (s.noted (.scopeEntered node.span.start)) :=
    have htold : Told a scopes [] [] s (s.noted (.scopeEntered node.span.start)) := .noted s _
    h.after htree (.noted a s _) htold (List.nil_subset _) (List.disjoint_nil_right _)
  obtain ⟨xs, ys, rfl, hxs, hys⟩ := hrest.append_inv
  rw [List.length_append] at hlayers'
  have hsub : ∀ v ∈ Node.children .body node,
      a.Below a.top ⟨(a.bodySite seeds scopes id).scopes, v⟩ :=
    fun v hv => hinside _ (List.mem_map_of_mem hv)
  rw [hall] at hentered
  have hinner := hentered.enter htree hget hdistinct
  rw [← List.append_nil ys] at hprogress hinner
  obtain ⟨types, heads, others, htypes, hheads, hothers, htold₁, -, hfacing₁⟩ :=
    resolveDeclarations_recounts hset hbelow
      (fun d hd => hsub _ (List.mem_append_left _ (List.mem_map_of_mem hd))) (type_mem_bodySite hget)
      hxs (by omega) (hprogress.aside htree (.noted a s (.scopeEntered node.span.start)))
      (fun s₁ zs heffect hzs => leadsOutward_of_facing htree hget (hall ▸ hspans) hentered heffect
        (List.Subset.trans hzs (List.subset_cons_of_subset _ (List.subset_append_left _ _))))
      hinner hrun₁
  have hpassed₂ := hbelow.visitNodes htree Visit.statement nofun
    (fun x hx => hsub _ (List.mem_append_right _ (List.mem_map_of_mem hx))) hys (by omega) hfacing₁
    hrun₂
  obtain ⟨statements, hstatements, htold₂⟩ := hpassed₂.recount
  have hrepeated : a.repeated (seeds.map Declaration.variable ++ node.declarations) = [] := by
    have hscope := hdistinct
    have hhas := htree.has_of_scope htop
    rw [hsite] at hscope hhas
    exact (repeated_eq_nil_iff (hhas _ List.mem_cons_self)).2 (hscope _ List.mem_cons_self)
  refine ⟨_, account_body hget hrepeated htypes hheads hothers hstatements, ?_⟩
  have htypesAmong : ∀ d, .type d ∈ seeds.map Declaration.variable ++ node.declarations →
      .typeDecl d ∈ xs ++ ys := by
    intro d hd
    have hbody : .type d ∈ (a.bodySite seeds scopes id).scopes.headD [] := by
      rw [hsite]
      exact hd
    exact List.mem_append_left _ (hxs.mem_of_root
      (List.mem_map_of_mem (f := Declaration.visit) ((type_mem_bodySite hget d).1 hbody)))
  rw [hsite] at htold₁ htold₂
  rw [hall, ← List.append_assoc]
  have hscope := ((htold₁.mono (List.subset_append_left _ ys)).trans
    (htold₂.mono (List.subset_append_right xs _))).leave htypesAmong
  simpa using ((Told.noted s _).trans (hscope.mono (List.subset_cons_self _ _))).trans (.noted s₂ _)

/-- **A body is told.** -/
theorem resolveBody_recounts (hset : Setting a routines nodes)
    (hbelow : Recounts a routines nodes below n) {seeds : List VariableId} {id : BodyId}
    {all : List Visit} (htop : a.Below a.top (a.bodySite seeds scopes id))
    (hspans : Spans a [.body id] all) (hlayers : 2 * all.length ≤ n + 1)
    (h : Facing a routines nodes scopes all s)
    (hrun : Runs (resolveBody below seeds id) (a.scopeOf scopes) s () s') :
    Recount a scopes [a.bodySite seeds scopes id] all s s' := by
  by_cases hdistinct : a.DistinctScopes (a.bodySite seeds scopes id).scopes
  · exact resolveBody_entered hset hbelow htop hspans hlayers h hdistinct hrun
  · refine resolveBody_abandoned hset.tree htop hspans h (fun node hget hnone => hdistinct ?_) hrun
    have hhas := hset.tree.has_of_scope htop
    rw [bodySite_of_get? hget] at hhas ⊢
    exact List.forall_mem_cons.2
      ⟨(repeated_eq_nil_iff (hhas _ List.mem_cons_self)).1 hnone, h.distinct⟩

end

end ProcLang
