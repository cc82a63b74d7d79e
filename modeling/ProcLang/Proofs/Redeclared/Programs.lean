import ProcLang.Proofs.Account.Causes
import ProcLang.Proofs.Again.Programs
import ProcLang.Proofs.Isolation.Programs
import ProcLang.Proofs.Redeclared.Names

/-!
# ProcLang.Proofs.Redeclared.Programs

**Repeated names are reported exactly.** The scopes whose names are checked, and the record types, are
those that no scope with a repeated name encloses; each of them has a report for each declaration whose
name it declared before, and no other scope counts (`RedeclarationsReported`). A scope that declares a
name twice is left alone: nothing else is said of what is inside of it, and no node in it changes
(`LeftAlone`).
-/

namespace ProcLang

open Arena WalkM

variable {a : Arena} {nodes : List Visit}

/-- The reports of repeated names are those of the scopes and records in `checked`, one after the
other. -/
structure Arena.RedeclarationsReported (a : Arena) (checked : List Site)
    (diagnostics : List Diagnostic) : Prop where
  /-- The names of no scope are checked twice. -/
  nodup : checked.Nodup
  /-- The names are checked of the program, of the bodies, each with what its owner declares for it, and
  of the records; unless a scope around them declares a name twice. -/
  mem_iff : ∀ site, site ∈ checked ↔
    a.Below a.top site ∧ a.DistinctScopes site.enclosing ∧ (a.checkedAt site).isSome
  /-- There is a report for each declaration whose name the same scope declared before. -/
  reports : diagnostics.filter (fun report => report.cause.isRedeclaration) =
    checked.flatMap fun site => (a.checkedAt site).elim [] fun declared =>
      redeclarations (a.headings declared)

/-- A body that declares a name twice is left alone. -/
structure Arena.LeftAlone (a b : Arena) (remarks : List Remark) (x : BodyId)
    (declared : List Declaration) : Prop where
  /-- The body and what is inside of it stay as they are. -/
  kept : ∀ {family : Family} (id : NodeId family), Visit.of id = .body x ∨ a.InBody x (Visit.of id) →
    b.get? id = a.get? id
  /-- Nothing is said of what is inside, but that it repeats a name. -/
  silent : ∀ r ∈ remarks, a.InBody x r.visit → r ∈ a.repeated declared

/-! ### Which names are checked -/

/-- The sites of a tour whose names are checked. -/
theorem Arena.IsTree.redeclarationsReported (htree : a.IsTree nodes) {tour : List Site}
    (htour : a.Tour [a.top] tour) {remarks : List Remark} {diagnostics : List Diagnostic}
    (hreports : List.Forall₂ a.Reports remarks diagnostics)
    (hrepeated : remarks.filter (fun r => r.cause.isRedeclaration) =
      tour.flatMap fun site => (a.checkedAt site).elim [] a.repeated) :
    a.RedeclarationsReported (tour.filter fun site => (a.checkedAt site).isSome) diagnostics where
  nodup := (htree.tour_nodup htour).filter _
  mem_iff site := by
    rw [List.mem_filter, htour.mem_iff]
    simp only [List.mem_singleton, exists_eq_left, htree.comesTo_iff, and_assoc]
  reports := by
    have hskip : ∀ sites : List Site,
        (sites.filter fun site => (a.checkedAt site).isSome).flatMap (fun site =>
          (a.checkedAt site).elim [] fun declared => redeclarations (a.headings declared)) =
        sites.flatMap fun site =>
          (a.checkedAt site).elim [] fun declared => redeclarations (a.headings declared) := by
      intro sites
      induction sites with
      | nil => rfl
      | cons site rest ih =>
          cases hchecked : a.checkedAt site <;> simp [hchecked, ih]
    rw [hskip]
    have hfiltered := List.rel_filter (p := fun r : Remark => r.cause.isRedeclaration)
      (q := fun d : Diagnostic => d.cause.isRedeclaration) (fun r d h => by cases h; rfl) hreports
    rw [hrepeated] at hfiltered
    refine reports_unique hfiltered ?_
    clear hrepeated hfiltered htour
    induction tour with
    | nil => exact .nil
    | cons site rest ih =>
        rw [List.flatMap_cons, List.flatMap_cons]
        refine List.rel_append ?_ ih
        cases a.checkedAt site with
        | none => exact .nil
        | some declared => exact reports_redeclarations declared

/-! ### A program that declares a name twice -/

/-- **A program that declares a name twice is left as it was read**, and nothing else is reported. -/
theorem Arena.IsTree.run_of_repeated (htree : a.IsTree nodes) {outcome : PassOutcome}
    (hrun : nameResolution.run a = .ok outcome)
    (hrepeated : ¬ (a.program.declarations.map a.nameOf).Nodup) :
    outcome.arena = a ∧ outcome.diagnostics = redeclarations (a.headings a.program.declarations) := by
  have hhas := htree.has_of_scope (.here _) _ List.mem_cons_self
  have hsome : a.repeated a.program.declarations ≠ [] := fun hnone =>
    hrepeated ((repeated_eq_nil_iff hhas).1 hnone)
  obtain ⟨remarks, haccount, hreports⟩ := htree.exists_account hrun
  obtain ⟨s, hwalk, rfl⟩ := run_ofVisitor.1 hrun
  obtain ⟨r, hvisit⟩ := walkProgram_eq_ok.1 hwalk
  obtain ⟨⟨⟩, s', hprogram, hlast⟩ := runs_bind.1 (runs_arena_bind.1 hvisit)
  obtain ⟨-, rfl⟩ := runs_pure.1 hlast
  obtain ⟨r, s₁, hdeclare, hmore⟩ := runs_bind.1 (runs_note_bind.1 (runs_arena_bind.1 hprogram))
  obtain ⟨harena, -, hnone⟩ := declareScope_told a.top.scopes nodes hdeclare (.refl a a) hhas
  obtain rfl := hnone hsome
  obtain ⟨-, rfl⟩ := runs_pure.1 hmore
  refine ⟨harena, ?_⟩
  obtain rfl := haccount.repeated_inv rfl hsome
  exact reports_unique hreports (reports_redeclarations a.program.declarations)

/-! ### What is inside of a body -/

section

variable (htree : a.IsTree nodes)

include htree

/-- What is right below a node is in a body if the node is in it, or is the body. -/
theorem Arena.IsTree.inBody_child_iff {x : BodyId} (hx : .body x ∈ nodes) {v w : Visit}
    (hv : v = .program ∨ v ∈ nodes) (hchild : w ∈ a.children v) :
    a.InBody x w ↔ v = .body x ∨ a.InBody x v := by
  constructor
  · rintro ⟨u, hu, hreaches⟩
    rcases Relation.ReflTransGen.cases_tail hreaches with rfl | ⟨p, hp, hlast⟩
    · exact Or.inl (htree.parent_eq hv (Or.inr hx) hchild hu)
    · have hmem := htree.spans.mem_of_reaches (htree.spans.child_mem hx hu) hp
      obtain rfl := htree.parent_eq hv (Or.inr hmem) hchild hlast
      exact Or.inr ⟨u, hu, hp⟩
  · rintro (rfl | hin)
    · exact ⟨w, hchild, .refl⟩
    · exact hin.child hchild

/-- **The scope of a body encloses all sites inside.** -/
theorem Arena.IsTree.suffix_of_inBody {scopes : List (List Declaration)} {x : BodyId}
    (hbody : a.Below a.top ⟨scopes, .body x⟩) {site : Site} (hsite : a.Below a.top site)
    (hin : a.InBody x site.visit) : scopes <:+ site.enclosing := by
  have hx : Visit.body x ∈ nodes := (htree.site_mem hbody).resolve_left nofun
  revert hin
  refine hsite.induct_tail (P := fun site => a.InBody x site.visit → scopes <:+ site.enclosing)
    (fun hin => ?_) fun outer child houter hchild ih hin => ?_
  · obtain ⟨u, hu, hreaches⟩ := hin
    have hmem := htree.spans.mem_of_reaches (htree.spans.child_mem hx hu) hreaches
    exact absurd hmem htree.spans.program_not_mem
  · have hplace := htree.site_mem houter
    rw [htree.enclosing_child houter hchild]
    rcases (htree.inBody_child_iff hx hplace (htree.inside_subset hplace hchild)).1 hin with heq | hin
    · obtain ⟨outerScopes, v⟩ := outer
      obtain rfl : v = .body x := heq
      exact htree.scopes_unique hbody houter ▸ List.suffix_refl _
    · exact (ih hin).trans outer.enclosing_suffix

/-- **What is said is said of a site** that name resolution comes to: of its node, of what is right below
it, or of what its scope declares. -/
inductive Arena.SaidOf (a : Arena) (site : Site) (r : Remark) : Prop
  | node (hopened : site.opened = none)
      (hvisit : r.visit = site.visit ∨ r.visit ∈ a.children site.visit) : SaidOf a site r
  | scope {declared : List Declaration} {d : Declaration} (hopened : site.opened = some declared)
      (hd : d ∈ declared) (hvisit : r.visit = d.visit)
      (hrepeated : a.repeated declared ≠ [] → r ∈ a.repeated declared) : SaidOf a site r

omit htree in
theorem Arena.Account.exists_saidOf {sites : List Site} {remarks : List Remark}
    (h : a.Account sites remarks) : ∀ r ∈ remarks,
      ∃ site, (∃ root ∈ sites, a.ComesTo root site) ∧ a.SaidOf site r := by
  induction h with
  | nil => nofun
  | @node site beside inner more hopened _ _ ihInside ihBeside =>
      intro r hr
      simp only [List.mem_append] at hr
      rcases hr with ((hr | hr) | hr) | hr
      · exact ⟨site, ⟨site, List.mem_cons_self, .refl⟩, .node hopened (visit_of_mem_ahead hr)⟩
      · obtain ⟨inner, ⟨child, hchild, hcomes⟩, hsaid⟩ := ihInside r hr
        refine ⟨inner, ⟨site, List.mem_cons_self, .head ⟨fun declared heq => ?_, hchild⟩ hcomes⟩, hsaid⟩
        nomatch hopened.symm.trans heq
      · exact ⟨site, ⟨site, List.mem_cons_self, .refl⟩, .node hopened (visit_of_mem_behind hr)⟩
      · obtain ⟨inner, ⟨root, hroot, hcomes⟩, hsaid⟩ := ihBeside r hr
        exact ⟨inner, ⟨root, List.mem_cons_of_mem _ hroot, hcomes⟩, hsaid⟩
  | @scope site beside declared heads types others more hopened hdistinct _ hheads _ _ ihTypes ihOthers
      ihBeside =>
      intro r hr
      have hinto : a.GoesInto site := fun declared' heq =>
        Option.some.inj (hopened.symm.trans heq) ▸ hdistinct
      have hinside : ∀ {p : Site → Bool}, (∃ inner, (∃ child ∈ (a.inside site).filter p,
          a.ComesTo child inner) ∧ a.SaidOf inner r) →
          ∃ inner, (∃ root ∈ site :: beside, a.ComesTo root inner) ∧ a.SaidOf inner r := by
        rintro p ⟨inner, ⟨child, hchild, hcomes⟩, hsaid⟩
        exact ⟨inner, ⟨site, List.mem_cons_self,
          .head ⟨hinto, List.mem_of_mem_filter hchild⟩ hcomes⟩, hsaid⟩
      simp only [List.mem_append] at hr
      rcases hr with ((hr | hr) | hr) | hr
      · exact hinside (ihTypes r hr)
      · obtain ⟨d, hd, rfl⟩ := List.mem_map.1 hr
        exact ⟨site, ⟨site, List.mem_cons_self, .refl⟩,
          .scope hopened (mem_filterMap_type?.1 (hheads.subset hd)) rfl (absurd hdistinct)⟩
      · exact hinside (ihOthers r hr)
      · obtain ⟨inner, ⟨root, hroot, hcomes⟩, hsaid⟩ := ihBeside r hr
        exact ⟨inner, ⟨root, List.mem_cons_of_mem _ hroot, hcomes⟩, hsaid⟩
  | @«repeated» site beside declared more hopened hrepeated _ ihBeside =>
      intro r hr
      rcases List.mem_append.1 hr with hr | hr
      · obtain ⟨d, hd, hvisit⟩ := mem_repeated hr
        exact ⟨site, ⟨site, List.mem_cons_self, .refl⟩, .scope hopened hd hvisit fun _ => hr⟩
      · obtain ⟨inner, ⟨root, hroot, hcomes⟩, hsaid⟩ := ihBeside r hr
        exact ⟨inner, ⟨root, List.mem_cons_of_mem _ hroot, hcomes⟩, hsaid⟩

/-- What a scope declares in a body is declared by the body, or by something that is in the body. -/
theorem Arena.IsTree.inBody_of_opened {x : BodyId} (hx : .body x ∈ nodes) {site : Site}
    (hsite : a.Below a.top site) {declared : List Declaration} (hopened : site.opened = some declared)
    {d : Declaration} (hd : d ∈ declared) (hin : a.InBody x d.visit) :
    site.visit = .body x ∨ a.InBody x site.visit := by
  rcases htree.opened_cases hsite hopened with rfl | ⟨outer, seeds, id, houter, hchild, hseeds, rfl⟩
  · obtain rfl := Option.some.inj hopened
    exact (htree.inBody_child_iff hx (Or.inl rfl) (List.mem_map_of_mem hd)).1 hin
  · obtain rfl := Option.some.inj hopened
    have hplace := htree.site_mem houter
    have hbody := htree.inside_subset hplace hchild
    rcases List.mem_append.1 hd with hd | hd
    · obtain ⟨y, hy, rfl⟩ := List.mem_map.1 hd
      exact Or.inr ((htree.inBody_child_iff hx hplace hbody).2
        ((htree.inBody_child_iff hx hplace (hseeds y hy)).1 hin))
    · refine (htree.inBody_child_iff hx (htree.site_mem hsite) ?_).1 hin
      cases hget : a.get? id with
      | none => simp [hget] at hd
      | some node =>
          rw [bodySite, Visit.body_eq id, children_of_get? hget]
          exact List.mem_append_left _ (List.mem_map_of_mem (by simpa [hget] using hd))

/-- **A body that declares a name twice is left alone.** -/
theorem Arena.IsTree.leftAlone {outcome : PassOutcome} (hsettles : a.Settles nodes outcome)
    {remarks : List Remark} (haccount : a.Account [a.top] remarks) {scopes : List (List Declaration)}
    {x : BodyId} (hbody : a.Below a.top ⟨scopes, .body x⟩)
    (hrepeated : ¬ ((scopes.headD []).map a.nameOf).Nodup) :
    a.LeftAlone outcome.arena remarks x (scopes.headD []) := by
  have hx : Visit.body x ∈ nodes := (htree.site_mem hbody).resolve_left nofun
  have hscope : scopes.headD [] ∈ scopes := by
    cases scopes with
    | nil => simp at hrepeated
    | cons scope outer => exact List.mem_cons_self
  have hdistinct : ∀ {inner : List (List Declaration)}, scopes <:+ inner → ¬ a.DistinctScopes inner :=
    fun hsuffix h => hrepeated (h _ (hsuffix.subset hscope))
  constructor
  · intro family id hin
    have hmem : Visit.of id ∈ nodes := by
      rcases hin with heq | ⟨w, hw, hreaches⟩
      · exact heq ▸ hx
      · exact htree.spans.mem_of_reaches (htree.spans.child_mem hx hw) hreaches
    obtain ⟨node, hget⟩ := (htree.spans.has_of_mem hmem).exists_get?
    rw [hget]
    refine hsettles.unchanged hget fun inner hbelow => hdistinct ?_
    rcases hin with heq | hin
    · rw [heq] at hbelow
      exact htree.scopes_unique hbody hbelow ▸ List.suffix_refl _
    · exact (htree.suffix_of_inBody hbody hbelow hin).trans (Site.enclosing_suffix _)
  · intro r hr hin
    obtain ⟨site, ⟨root, hroot, hcomes⟩, hsaid⟩ := haccount.exists_saidOf r hr
    obtain rfl := List.mem_singleton.1 hroot
    obtain ⟨hbelow, henclosing⟩ := htree.comesTo_iff.1 hcomes
    -- name resolution comes to no site inside
    have houtside : ¬ a.InBody x site.visit := fun hsite =>
      hdistinct (htree.suffix_of_inBody hbody hbelow hsite) henclosing
    have hopens : site.visit = .body x → site.opened = some (scopes.headD []) := by
      obtain ⟨scopes', v⟩ := site
      rintro rfl
      exact htree.scopes_unique hbody hbelow ▸ rfl
    cases hsaid with
    | node hopened hvisit =>
        rcases hvisit with hvisit | hvisit
        · exact absurd (hvisit ▸ hin) houtside
        · rcases (htree.inBody_child_iff hx (htree.site_mem hbelow) hvisit).1 hin with heq | hsite
          · nomatch hopened.symm.trans (hopens heq)
          · exact absurd hsite houtside
    | @scope declared d hopened hd hvisit hsome =>
        rcases htree.inBody_of_opened hx hbelow hopened hd (hvisit ▸ hin) with heq | hsite
        · obtain rfl := Option.some.inj (hopened.symm.trans (hopens heq))
          refine hsome fun hnone => hrepeated ?_
          exact (repeated_eq_nil_iff (htree.has_of_scope hbody _ hscope)).1 hnone
        · exact absurd hsite houtside

end

/-- What name resolution does about repeated names; `remarks` is all that it says of the program. -/
structure Arena.Redeclared (a : Arena) (outcome : PassOutcome) (checked : List Site)
    (remarks : List Remark) : Prop where
  reported : a.RedeclarationsReported checked outcome.diagnostics
  /-- A program that declares a name twice is left as it was read, and nothing else is reported. -/
  program : ¬ (a.program.declarations.map a.nameOf).Nodup →
    outcome.arena = a ∧ outcome.diagnostics = redeclarations (a.headings a.program.declarations)
  account : a.Account [a.top] remarks
  reports : List.Forall₂ a.Reports remarks outcome.diagnostics
  /-- A body that declares a name twice is left alone. -/
  body : ∀ scopes x, a.Below a.top ⟨scopes, .body x⟩ → ¬ ((scopes.headD []).map a.nameOf).Nodup →
    a.LeftAlone outcome.arena remarks x (scopes.headD [])

/-- **Repeated names are reported exactly, and what repeats them is left alone.** -/
theorem nameResolution_redeclared (source : String) (hparse : (parse source).errors = []) :
    ∃ outcome checked remarks, nameResolution.run (parse source).arena = .ok outcome ∧
      (parse source).arena.Redeclared outcome checked remarks := by
  obtain ⟨nodes, htree⟩ := Parser.parse_isTree source hparse
  obtain ⟨outcome, hrun, hsettles⟩ := htree.exists_settles
  obtain ⟨remarks, haccount, hreports⟩ := htree.exists_account hrun
  obtain ⟨tour, htour, hrepeated⟩ := haccount.exists_redeclared
  exact ⟨outcome, _, remarks, hrun, htree.redeclarationsReported htour hreports hrepeated,
    htree.run_of_repeated hrun, haccount, hreports, fun scopes x hbody hrepeated =>
      htree.leftAlone hsettles haccount hbody hrepeated⟩

/-- A routine whose body declares its parameter once more, next to a record with a repeated field. -/
theorem nameResolution_redeclared_parameter :
    let source := "routine f(a : integer) is\nvar b is c\nvar a is b\nend\n" ++
      "type t is record\nvar f : integer\nvar f : t\nend\n"
    (parse source).errors = [] ∧ ∃ outcome checked remarks,
      nameResolution.run (parse source).arena = .ok outcome ∧
      (parse source).arena.Redeclared outcome checked remarks := by
  intro source
  have hparse : (parse source).errors = [] := by decide +kernel
  exact ⟨hparse, nameResolution_redeclared source hparse⟩

end ProcLang
