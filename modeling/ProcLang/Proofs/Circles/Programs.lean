import ProcLang.Proofs.Account.Causes
import ProcLang.Proofs.Circles.Graph
import ProcLang.Proofs.Circles.Search

/-!
# ProcLang.Proofs.Circles.Programs

**Each circle of types is reported once.** In every scope that is resolved, name resolution reports the
circles of the graph of its type declarations: one report for each circle, at the declaration of it that
comes first in the scope, and none for declarations that merely lead into one (`nameResolution_circles`).
-/

namespace ProcLang

open Arena

variable {a : Arena} {nodes : List Visit} {tour : List Site} {headed : List (List TypeDeclId)}

/-- A site opens a scope whose declarations are resolved: neither it nor a scope around it declares a
name twice. -/
structure Arena.Opens (a : Arena) (site : Site) (declared : List Declaration) : Prop where
  below : a.Below a.top site
  opened : site.opened = some declared
  distinct : a.DistinctScopes site.scopes

/-- The reports of circles of types are those of the declarations in `heads`. -/
structure Arena.CirclesReported (a : Arena) (heads : List TypeDeclId) (diagnostics : List Diagnostic) :
    Prop where
  /-- No declaration is reported twice. -/
  nodup : heads.Nodup
  /-- Those are reported that are the first ones of their circles in a scope. -/
  mem_iff : ∀ d, d ∈ heads ↔ ∃ site declared, a.Opens site declared ∧ a.HeadsCircle declared d
  /-- A circle lies in one scope as a whole, and one declaration of it is reported. -/
  once : ∀ site declared, a.Opens site declared → ∀ d, .type d ∈ declared →
    Relation.TransGen a.PointsTo d d →
      (∀ e, Relation.TransGen a.PointsTo d e → .type e ∈ declared) ∧
        ∃! head, head ∈ heads ∧ Relation.TransGen a.PointsTo d head
  /-- A report has the name of the declaration and stands where it begins. -/
  reports : List.Forall₂ (fun d report => ∃ node, a.get? d = some node ∧
    report = ⟨.cyclicType node.name, node.span.start⟩) heads
    (diagnostics.filter fun report => report.cause.isCyclic)

/-! ### Scopes -/

section

variable (htree : a.IsTree nodes)

include htree

/-- What a scope declares stands right below the site that opens it. -/
theorem Arena.IsTree.mem_inside_of_opened {site : Site} (hbelow : a.Below a.top site)
    {declared : List Declaration} (hopened : site.opened = some declared) {d : TypeDeclId}
    (hd : .type d ∈ declared) : ⟨site.scopes, .typeDecl d⟩ ∈ a.inside site := by
  rcases htree.opened_cases hbelow hopened with rfl | ⟨outer, seeds, id, -, -, -, rfl⟩
  · obtain rfl := Option.some.inj hopened
    exact List.mem_map_of_mem (List.mem_map_of_mem (f := Declaration.visit) hd)
  · obtain rfl := Option.some.inj hopened
    rcases List.mem_append.1 hd with hd | hd
    · obtain ⟨x, -, heq⟩ := List.mem_map.1 hd
      nomatch heq
    · obtain ⟨node, hget, hmem⟩ : ∃ node, a.get? id = some node ∧ .type d ∈ node.declarations := by
        cases hget : a.get? id with
        | none => simp [hget] at hd
        | some node => exact ⟨node, rfl, by simpa [hget] using hd⟩
      rw [bodySite, Visit.body_eq id, inside_of_get? hget]
      exact List.mem_map_of_mem (List.mem_append_left _
        (List.mem_map_of_mem (f := Declaration.visit) hmem))

/-- Two sites do not declare the same type. -/
theorem Arena.IsTree.opened_unique {site other : Site} (hbelow : a.Below a.top site)
    (hbelow' : a.Below a.top other) {declared declared' : List Declaration}
    (hopened : site.opened = some declared) (hopened' : other.opened = some declared') {d : TypeDeclId}
    (hd : .type d ∈ declared) (hd' : .type d ∈ declared') : site = other := by
  have hmem := htree.mem_inside_of_opened hbelow hopened hd
  have hmem' := htree.mem_inside_of_opened hbelow' hopened' hd'
  have hplace := htree.site_mem hbelow
  have hplace' := htree.site_mem hbelow'
  have hchild : Visit.typeDecl d ∈ a.children site.visit := htree.inside_subset hplace hmem
  have hchild' : Visit.typeDecl d ∈ a.children other.visit := htree.inside_subset hplace' hmem'
  have hvisit : site.visit = other.visit := htree.parent_eq hplace hplace' hchild hchild'
  have hscopes : site.scopes = other.scopes :=
    htree.scopes_unique (hbelow.tail hmem) (hbelow'.tail hmem')
  obtain ⟨scopes, v⟩ := site
  obtain ⟨scopes', v'⟩ := other
  obtain rfl : v = v' := hvisit
  obtain rfl : scopes = scopes' := hscopes
  rfl

/-- A scope is resolved if the tour comes to it and it declares no name twice. -/
theorem Arena.IsTree.opens_iff {site : Site} {declared : List Declaration} :
    a.Opens site declared ↔
      a.ComesTo a.top site ∧ site.opened = some declared ∧ a.repeated declared = [] := by
  constructor
  · rintro ⟨hbelow, hopened, hdistinct⟩
    obtain ⟨henclosing, hinto⟩ := (htree.goesInto_iff hbelow).1 hdistinct
    exact ⟨htree.comesTo_iff.2 ⟨hbelow, henclosing⟩, hopened, hinto declared hopened⟩
  · rintro ⟨hcomes, hopened, hrepeated⟩
    obtain ⟨hbelow, henclosing⟩ := htree.comesTo_iff.1 hcomes
    refine ⟨hbelow, hopened, (htree.goesInto_iff hbelow).2 ⟨henclosing, fun declared' heq => ?_⟩⟩
    exact Option.some.inj (hopened.symm.trans heq) ▸ hrepeated

/-! ### What is reported of a scope -/

/-- **The circles of a site** are headed by the declarations that are reported. -/
theorem Arena.HeadsAt.mem_iff {site : Site} {heads : List TypeDeclId} (h : a.HeadsAt site heads)
    (hcomes : a.ComesTo a.top site) {d : TypeDeclId} :
    d ∈ heads ↔ ∃ declared, a.Opens site declared ∧ a.HeadsCircle declared d := by
  have hbelow := (htree.comesTo_iff.1 hcomes).1
  cases h with
  | @scope declared _ hopened hdistinct hheads =>
      have hopens : a.Opens site declared := htree.opens_iff.2 ⟨hcomes, hopened, hdistinct⟩
      obtain ⟨rfl, -⟩ := Site.scopes_of_opened hopened
      refine (hheads.mem_iff_headsCircle htree hbelow).trans ⟨fun h => ⟨_, hopens, h⟩, ?_⟩
      rintro ⟨declared', hopens', h⟩
      obtain ⟨rfl, -⟩ := Site.scopes_of_opened hopens'.opened
      exact h
  | other hnot =>
      refine ⟨nofun, ?_⟩
      rintro ⟨declared, hopens, -⟩
      exact absurd (htree.opens_iff.1 hopens).2.2 (hnot declared hopens.opened)

omit htree in
theorem Arena.HeadsAt.nodup {site : Site} {heads : List TypeDeclId} (h : a.HeadsAt site heads) :
    heads.Nodup := by
  cases h with
  | scope _ _ hheads => exact hheads.nodup
  | other => exact .nil

omit htree in
theorem Arena.HeadsAt.declared {site : Site} {heads : List TypeDeclId} (h : a.HeadsAt site heads)
    {d : TypeDeclId} (hd : d ∈ heads) : ∃ declared, site.opened = some declared ∧ .type d ∈ declared := by
  cases h with
  | scope hopened _ hheads => exact ⟨_, hopened, mem_filterMap_type?.1 (hheads.subset hd)⟩
  | other => nomatch hd

/-- What is reported of the sites of a tour. -/
theorem mem_flatten_headed (hheads : List.Forall₂ a.HeadsAt tour headed)
    (hcomes : ∀ site ∈ tour, a.ComesTo a.top site) {d : TypeDeclId} :
    d ∈ headed.flatten ↔ ∃ site ∈ tour, ∃ declared, a.Opens site declared ∧ a.HeadsCircle declared d := by
  induction hheads with
  | nil => simp
  | cons hfirst _ ih =>
      obtain ⟨hsite, hrest⟩ := List.forall_mem_cons.1 hcomes
      rw [List.flatten_cons, List.mem_append, hfirst.mem_iff htree hsite, ih hrest,
        List.exists_mem_cons_iff]

omit htree in
theorem exists_headsAt (hheads : List.Forall₂ a.HeadsAt tour headed) {d : TypeDeclId}
    (hd : d ∈ headed.flatten) : ∃ site ∈ tour, ∃ declared, site.opened = some declared ∧
      .type d ∈ declared := by
  induction hheads with
  | nil => nomatch hd
  | cons hfirst _ ih =>
      rw [List.flatten_cons, List.mem_append] at hd
      rcases hd with hd | hd
      · exact ⟨_, List.mem_cons_self, hfirst.declared hd⟩
      · obtain ⟨site, hsite, hdeclared⟩ := ih hd
        exact ⟨site, List.mem_cons_of_mem _ hsite, hdeclared⟩

omit htree in
theorem exists_heads_of_mem (hheads : List.Forall₂ a.HeadsAt tour headed) {site : Site}
    (hsite : site ∈ tour) : ∃ heads, a.HeadsAt site heads ∧ heads ⊆ headed.flatten := by
  induction hheads with
  | nil => nomatch hsite
  | cons hfirst _ ih =>
      rw [List.flatten_cons]
      rcases List.mem_cons.1 hsite with rfl | hsite
      · exact ⟨_, hfirst, List.subset_append_left _ _⟩
      · obtain ⟨heads, hat, hsub⟩ := ih hsite
        exact ⟨heads, hat, List.Subset.trans hsub (List.subset_append_right _ _)⟩

/-- **A circle of a scope has one member that is reported.** -/
theorem Arena.HeadsAt.existsUnique {site : Site} {declared : List Declaration} {heads : List TypeDeclId}
    (h : a.HeadsAt site heads) (hopens : a.Opens site declared) {d : TypeDeclId}
    (hd : .type d ∈ declared) (hcircle : Relation.TransGen a.PointsTo d d) :
    ∃! head, head ∈ heads ∧ Relation.TransGen a.PointsTo d head := by
  cases h with
  | other hnot => exact absurd (htree.opens_iff.1 hopens).2.2 (hnot declared hopens.opened)
  | @scope declared' _ hopened _ hheads =>
      obtain rfl := Option.some.inj (hopened.symm.trans hopens.opened)
      obtain ⟨rfl, -⟩ := Site.scopes_of_opened hopened
      -- between the declarations of the scope, the two relations are the same
      have hsame : ∀ {e f}, .type e ∈ site.scopes.headD [] → .type f ∈ site.scopes.headD [] →
          (Relation.TransGen a.PointsTo e f ↔ Relation.TransGen (a.LeadsInside site.scopes) e f) :=
        fun he hf => htree.transGen_pointsTo_iff (hopens.below.declared (List.suffix_refl _) he)
          (hopens.below.declared (List.suffix_refl _) hf)
      have hdeclared : ∀ {e}, e ∈ heads → .type e ∈ site.scopes.headD [] := fun he =>
        mem_filterMap_type?.1 (hheads.subset he)
      obtain ⟨head, hhead, hreach⟩ := hheads.exists_head (fun _ _ _ => LeadsInside.unique)
        (mem_filterMap_type?.2 hd) ((hsame hd hd).1 hcircle)
      have hhead := hhead.resolve_left List.not_mem_nil
      have hreach := (hsame hd (hdeclared hhead)).2 hreach
      refine ⟨head, ⟨hhead, hreach⟩, fun other hother => ?_⟩
      obtain ⟨hother, hreach'⟩ := hother
      have hback := transGen_back hcircle hreach.to_reflTransGen fun _ _ _ => htree.pointsTo_unique
      have hback' := transGen_back hcircle hreach'.to_reflTransGen fun _ _ _ => htree.pointsTo_unique
      exact hheads.head_unique hother hhead
        ((hsame (hdeclared hother) (hdeclared hhead)).1 (hback'.trans hreach))
        ((hsame (hdeclared hhead) (hdeclared hother)).1 (hback.trans hreach'))

/-- No declaration is reported of two sites of a tour. -/
theorem nodup_flatten_headed (hheads : List.Forall₂ a.HeadsAt tour headed)
    (hbelow : ∀ site ∈ tour, a.Below a.top site) (hnodup : tour.Nodup) : headed.flatten.Nodup := by
  induction hheads with
  | nil => exact .nil
  | @cons site heads rest others hfirst hrest ih =>
      obtain ⟨hfresh, hnodup⟩ := List.nodup_cons.1 hnodup
      obtain ⟨hsite, hbeside⟩ := List.forall_mem_cons.1 hbelow
      refine List.nodup_append.2 ⟨hfirst.nodup, ih hbeside hnodup, fun d hd e he heq => ?_⟩
      subst heq
      obtain ⟨declared, hopened, hdeclared⟩ := hfirst.declared hd
      obtain ⟨other, hother, declared', hopened', hdeclared'⟩ := exists_headsAt hrest he
      exact hfresh (htree.opened_unique hsite (hbeside other hother) hopened hopened' hdeclared
        hdeclared' ▸ hother)

/-- **The circles in an account** are reported once each. -/
theorem circlesReported (hheads : List.Forall₂ a.HeadsAt tour headed) (htour : a.Tour [a.top] tour)
    {remarks : List Remark} {diagnostics : List Diagnostic}
    (hreports : List.Forall₂ a.Reports remarks diagnostics)
    (hcyclic : remarks.filter (fun r => r.cause.isCyclic) = headed.flatten.map a.cyclic) :
    a.CirclesReported headed.flatten diagnostics := by
  have hcomes : ∀ {site}, site ∈ tour ↔ a.ComesTo a.top site := by
    intro site
    rw [htour.mem_iff]
    simp
  have hmem : ∀ d, d ∈ headed.flatten ↔
      ∃ site declared, a.Opens site declared ∧ a.HeadsCircle declared d := by
    intro d
    rw [mem_flatten_headed htree hheads fun site hsite => hcomes.1 hsite]
    refine ⟨fun ⟨site, _, h⟩ => ⟨site, h⟩, fun ⟨site, declared, hopens, h⟩ => ?_⟩
    exact ⟨site, hcomes.2 (htree.opens_iff.1 hopens).1, declared, hopens, h⟩
  have hlies : ∀ {site declared}, a.Opens site declared → ∀ {d}, .type d ∈ declared →
      Relation.TransGen a.PointsTo d d → ∀ e, Relation.TransGen a.PointsTo d e → .type e ∈ declared := by
    intro site declared hopens d hd hcircle e he
    obtain ⟨rfl, -⟩ := Site.scopes_of_opened hopens.opened
    have hback := transGen_back hcircle he.to_reflTransGen fun _ _ _ => htree.pointsTo_unique
    exact htree.declared_of_circle (hopens.below.declared (List.suffix_refl _) hd) he hback
  refine ⟨?_, hmem, fun site declared hopens d hd hcircle => ⟨hlies hopens hd hcircle, ?_⟩, ?_⟩
  · exact nodup_flatten_headed htree hheads (fun site hsite => (hcomes.1 hsite).below)
      (htree.tour_nodup htour)
  · obtain ⟨heads, hat, hsub⟩ := exists_heads_of_mem hheads (hcomes.2 (htree.opens_iff.1 hopens).1)
    obtain ⟨head, ⟨hhead, hreach⟩, hunique⟩ := hat.existsUnique htree hopens hd hcircle
    refine ⟨head, ⟨hsub hhead, hreach⟩, fun other ⟨hother, hreach'⟩ => hunique other ⟨?_, hreach'⟩⟩
    -- what is reported of this circle is reported of this scope
    obtain ⟨site', declared', hopens', hheads'⟩ := (hmem other).1 hother
    obtain rfl := htree.opened_unique hopens'.below hopens.below hopens'.opened hopens.opened
      hheads'.declared (hlies hopens hd hcircle other hreach')
    exact (hat.mem_iff htree (htree.opens_iff.1 hopens).1).2 ⟨declared', hopens', hheads'⟩
  · have hreports := List.rel_filter (p := fun r : Remark => r.cause.isCyclic)
      (q := fun d : Diagnostic => d.cause.isCyclic) (fun r d h => by cases h; rfl) hreports
    rw [hcyclic, List.forall₂_map_left_iff] at hreports
    refine hreports.imp fun d report h => ?_
    obtain ⟨node, hget, rfl⟩ := @Reports.exists_node a .typeDecl d _ _ h
    exact ⟨node, hget, by rw [hget]; rfl⟩

end

/-- **Each circle of types is reported once.** -/
theorem nameResolution_circles (source : String) (hparse : (parse source).errors = []) :
    ∃ outcome heads, nameResolution.run (parse source).arena = .ok outcome ∧
      (parse source).arena.CirclesReported heads outcome.diagnostics ∧
      ∀ b, Evolves (parse source).arena (parse source).arena b → ∀ d : TypeDeclId,
        (parse source).arena.Has (.typeDecl d) →
        ∃ found, b.circle d = .ok found ∧ b.SearchesFrom d [d] d found := by
  obtain ⟨nodes, htree⟩ := Parser.parse_isTree source hparse
  obtain ⟨outcome, hrun, -⟩ := htree.exists_settles
  obtain ⟨remarks, haccount, hreports⟩ := htree.exists_account hrun
  obtain ⟨tour, headed, htour, hheads, hcyclic⟩ := haccount.exists_heads
  exact ⟨outcome, headed.flatten, hrun, circlesReported htree hheads htour hreports hcyclic,
    fun b hevolves d hhas => exists_search htree hevolves hhas⟩

/-- Two declarations that name each other, and a third one that leads to them through an array. -/
theorem nameResolution_circles_tail :
    let source := "type c is array [2] b\ntype a is b\ntype b is a\n"
    (parse source).errors = [] ∧ ∃ outcome heads,
      nameResolution.run (parse source).arena = .ok outcome ∧
      (parse source).arena.CirclesReported heads outcome.diagnostics ∧
      ∀ b, Evolves (parse source).arena (parse source).arena b → ∀ d : TypeDeclId,
        (parse source).arena.Has (.typeDecl d) →
        ∃ found, b.circle d = .ok found ∧ b.SearchesFrom d [d] d found := by
  intro source
  have hparse : (parse source).errors = [] := by decide +kernel
  exact ⟨hparse, nameResolution_circles source hparse⟩

end ProcLang
