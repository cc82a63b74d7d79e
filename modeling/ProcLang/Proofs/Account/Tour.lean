import ProcLang.Proofs.Again.Sites
import ProcLang.Proofs.Reordered.Silence

/-!
# ProcLang.Proofs.Account.Tour

**The sites that name resolution comes to.** A scope that declares a name twice is reported, and nothing
inside of it is looked at. So name resolution comes to a site if the scopes around it have distinct names
(`IsTree.comesTo_iff`). `Tour a sites tour` lists the sites that it comes to, in the order in which what is
said of scopes is said; none of them is listed twice (`Tour.nodup`).
-/

namespace ProcLang

open Arena

variable {a : Arena} {nodes : List Visit}

/-! ### From a site to the next -/

/-- The scopes around a site; the scope that it opens itself is none of them. -/
def Site.enclosing (site : Site) : List (List Declaration) :=
  match site.visit with
  | .program | .body _ => site.scopes.tail
  | _ => site.scopes

/-- Name resolution goes on inside of a site, unless it declares a name twice. -/
def Arena.GoesInto (a : Arena) (site : Site) : Prop :=
  ∀ declared, site.opened = some declared → a.repeated declared = []

/-- Name resolution goes on from a site to one right below it. -/
def Arena.StepsTo (a : Arena) (site child : Site) : Prop := a.GoesInto site ∧ child ∈ a.inside site

/-- Name resolution comes from a site to another one. -/
abbrev Arena.ComesTo (a : Arena) : Site → Site → Prop := Relation.ReflTransGen a.StepsTo

/-- What a site opens is its innermost scope. -/
theorem Site.scopes_of_opened {site : Site} {declared : List Declaration}
    (h : site.opened = some declared) : declared = site.scopes.headD [] ∧
      site.enclosing = site.scopes.tail := by
  obtain ⟨scopes, v⟩ := site
  cases v with
  | program | body => exact ⟨(Option.some.inj h).symm, rfl⟩
  | declaration | routine | «variable» | typeDecl | type | statement | expression => nomatch h

theorem Site.enclosing_of_not_opened {site : Site} (h : site.opened = none) :
    site.enclosing = site.scopes := by
  obtain ⟨scopes, v⟩ := site
  cases v with
  | program | body => nomatch h
  | declaration | routine | «variable» | typeDecl | type | statement | expression => rfl

theorem Arena.ComesTo.below {site inner : Site} (h : a.ComesTo site inner) : a.Below site inner := by
  induction h with
  | refl => exact .here _
  | tail _ hstep ih => exact ih.tail hstep.2

/-- The program and the bodies declare what is around the nodes in them. -/
theorem Site.enclosing_suffix (site : Site) : site.enclosing <:+ site.scopes := by
  cases hopened : site.opened with
  | none => exact Site.enclosing_of_not_opened hopened ▸ List.suffix_refl _
  | some declared => exact (Site.scopes_of_opened hopened).2 ▸ List.tail_suffix _

/-- A body has what its owner declares for it and what it declares itself in its scope. -/
theorem exists_bodySite {outer child : Site} (hchild : child ∈ a.inside outer) {id : BodyId}
    (hvisit : child.visit = .body id) : ∃ seeds, child = a.bodySite seeds outer.scopes id ∧
      ∀ x ∈ seeds, .variable x ∈ a.children outer.visit := by
  obtain ⟨scopes, v⟩ := outer
  -- whatever else is inside is no body
  have hother : ∀ {vs : List Visit}, child ∈ vs.map (Site.mk scopes) → .body id ∉ vs → False := by
    intro vs hmem hnot
    obtain ⟨w, hw, rfl⟩ := List.mem_map.1 hmem
    exact hnot (hvisit ▸ hw)
  cases v with
  | program =>
      refine (hother hchild fun hmem => ?_).elim
      obtain ⟨d, -, hd⟩ := List.mem_map.1 hmem
      cases d <;> nomatch hd
  | declaration d => nomatch hchild
  | routine r =>
      obtain ⟨node, hget, hchild⟩ := exists_of_mem_inside r hchild
      rcases List.mem_append.1 hchild with hchild | hchild
      · exact (hother hchild (by simp)).elim
      · obtain rfl := List.mem_singleton.1 hchild
        cases hvisit
        refine ⟨node.parameters, rfl, fun x hx => ?_⟩
        rw [Visit.routine_eq r, children_of_get? hget, Node.children]
        simp [hx]
  | statement s =>
      obtain ⟨node, hget, hchild⟩ := exists_of_mem_inside s hchild
      rcases List.mem_append.1 hchild with hchild | hchild
      · exact (hother hchild (by simp)).elim
      · obtain ⟨body, hbody, rfl⟩ := List.mem_map.1 hchild
        cases hvisit
        refine ⟨node.kind.counter?.toList, rfl, fun x hx => ?_⟩
        rw [Visit.statement_eq s, children_of_get? hget, Node.children]
        simpa using hx
  | «variable» x =>
      obtain ⟨node, -, hchild⟩ := exists_of_mem_inside x hchild
      exact (hother hchild (by simp [Node.children])).elim
  | typeDecl d =>
      obtain ⟨node, -, hchild⟩ := exists_of_mem_inside d hchild
      exact (hother hchild (by simp [Node.children])).elim
  | type t =>
      obtain ⟨node, -, hchild⟩ := exists_of_mem_inside t hchild
      refine (hother hchild ?_).elim
      rw [Node.children]
      split <;> simp
  | body b =>
      obtain ⟨node, -, hchild⟩ := exists_of_mem_inside b hchild
      refine (hother hchild fun hmem => ?_).elim
      rcases List.mem_append.1 hmem with hmem | hmem
      · obtain ⟨d, -, hd⟩ := List.mem_map.1 hmem
        cases d <;> nomatch hd
      · simp at hmem
  | expression e =>
      obtain ⟨node, -, hchild⟩ := exists_of_mem_inside e hchild
      exact (hother hchild (by simp)).elim

section

variable (htree : a.IsTree nodes)

include htree

/-- What is right below a site lies in the scopes of the site. -/
theorem Arena.IsTree.enclosing_child {site child : Site} (hsite : a.Below a.top site)
    (hchild : child ∈ a.inside site) : child.enclosing = site.scopes := by
  have hmem := htree.mem_of_place (htree.site_mem hsite)
    (htree.inside_subset (htree.site_mem hsite) hchild)
  rw [← around_of_mem_inside hchild]
  obtain ⟨scopes, v⟩ := child
  cases v with
  | program => exact absurd hmem htree.spans.program_not_mem
  | body | declaration | routine | «variable» | typeDecl | type | statement | expression => rfl

/-- A scope is that of the program, or of a body with what its owner declares for it. -/
theorem Arena.IsTree.opened_cases {site : Site} (hsite : a.Below a.top site)
    {declared : List Declaration} (hopened : site.opened = some declared) :
    site = a.top ∨ ∃ outer seeds id, a.Below a.top outer ∧ site ∈ a.inside outer ∧
      (∀ x ∈ seeds, .variable x ∈ a.children outer.visit) ∧ site = a.bodySite seeds outer.scopes id := by
  refine hsite.exists_outer.imp_right fun ⟨outer, houter, hchild⟩ => ?_
  have hplace := htree.site_mem houter
  have hmem := htree.mem_of_place hplace (htree.inside_subset hplace hchild)
  cases hvisit : site.visit with
  | program => exact absurd (hvisit ▸ hmem) htree.spans.program_not_mem
  | body id =>
      obtain ⟨seeds, heq, hseeds⟩ := exists_bodySite hchild hvisit
      exact ⟨outer, seeds, id, houter, hchild, hseeds, heq⟩
  | declaration | routine | «variable» | typeDecl | type | statement | expression =>
      simp [Site.opened, hvisit] at hopened

/-- A site whose scopes have distinct names is gone into. -/
theorem Arena.IsTree.goesInto_iff {site : Site} (hsite : a.Below a.top site) :
    a.DistinctScopes site.scopes ↔ a.DistinctScopes site.enclosing ∧ a.GoesInto site := by
  have hhas := htree.has_of_scope hsite
  constructor
  · refine fun h => ⟨fun scope hscope => h scope (site.enclosing_suffix.subset hscope),
      fun declared hopened => ?_⟩
    obtain ⟨rfl, -⟩ := Site.scopes_of_opened hopened
    exact htree.not_repeated hsite h
  · rintro ⟨hdistinct, hinto⟩
    cases hopened : site.opened with
    | none => exact Site.enclosing_of_not_opened hopened ▸ hdistinct
    | some declared =>
        obtain ⟨hdeclared, houter⟩ := Site.scopes_of_opened hopened
        rw [houter] at hdistinct
        cases hscopes : site.scopes with
        | nil => exact fun scope hscope => nomatch hscope
        | cons scope outer =>
            rw [hscopes] at hdeclared hdistinct hhas
            refine List.forall_mem_cons.2 ⟨?_, hdistinct⟩
            have hsilent := hinto declared hopened
            rw [hdeclared] at hsilent
            exact (repeated_eq_nil_iff (hhas scope List.mem_cons_self)).1 hsilent

/-- **Name resolution comes to a site** if the scopes around it have distinct names. -/
theorem Arena.IsTree.comesTo_iff {site : Site} :
    a.ComesTo a.top site ↔ a.Below a.top site ∧ a.DistinctScopes site.enclosing := by
  constructor
  · intro h
    induction h with
    | refl => exact ⟨.here _, fun scope hscope => nomatch hscope⟩
    | @tail outer child _ hstep ih =>
        obtain ⟨hbelow, hdistinct⟩ := ih
        rw [htree.enclosing_child hbelow hstep.2]
        exact ⟨hbelow.tail hstep.2, (htree.goesInto_iff hbelow).2 ⟨hdistinct, hstep.1⟩⟩
  · rintro ⟨hbelow, hdistinct⟩
    revert hdistinct
    refine hbelow.induct_tail (P := fun site => a.DistinctScopes site.enclosing → a.ComesTo a.top site)
      (fun _ => .refl) fun outer child houter hchild ih hdistinct => ?_
    rw [htree.enclosing_child houter hchild] at hdistinct
    obtain ⟨hdistinct, hinto⟩ := (htree.goesInto_iff houter).1 hdistinct
    exact (ih hdistinct).tail ⟨hinto, hchild⟩

end

/-! ### The tour -/

/-- The sites that name resolution comes to, at and below some sites. A scope has its turn behind the
types that it declares, where the circles among them are reported. -/
inductive Arena.Tour (a : Arena) : List Site → List Site → Prop
  | nil : Tour a [] []
  /-- Something else than a scope. -/
  | node {site : Site} {beside inner more : List Site} (hopened : site.opened = none)
      (hinside : Tour a (a.inside site) inner) (hbeside : Tour a beside more) :
      Tour a (site :: beside) (site :: (inner ++ more))
  /-- A scope that declares no name twice. -/
  | scope {site : Site} {beside types others more : List Site} {declared : List Declaration}
      (hopened : site.opened = some declared) (hdistinct : a.repeated declared = [])
      (htypes : Tour a ((a.inside site).filter Site.declaresType) types)
      (hothers : Tour a ((a.inside site).filter fun child => !child.declaresType) others)
      (hbeside : Tour a beside more) : Tour a (site :: beside) (types ++ site :: (others ++ more))
  /-- A scope that declares a name twice. -/
  | repeated {site : Site} {beside more : List Site} {declared : List Declaration}
      (hopened : site.opened = some declared) (hrepeated : a.repeated declared ≠ [])
      (hbeside : Tour a beside more) : Tour a (site :: beside) (site :: more)

theorem exists_comesTo_cons {site inner : Site} {beside : List Site} :
    (∃ root ∈ site :: beside, a.ComesTo root inner) ↔
      inner = site ∨ (a.GoesInto site ∧ ∃ child ∈ a.inside site, a.ComesTo child inner) ∨
        ∃ root ∈ beside, a.ComesTo root inner := by
  have hfirst : a.ComesTo site inner ↔
      inner = site ∨ (a.GoesInto site ∧ ∃ child ∈ a.inside site, a.ComesTo child inner) := by
    refine Relation.ReflTransGen.cases_head_iff.trans (or_congr eq_comm ⟨?_, ?_⟩)
    · rintro ⟨child, ⟨hinto, hchild⟩, hcomes⟩
      exact ⟨hinto, child, hchild, hcomes⟩
    · rintro ⟨hinto, child, hchild, hcomes⟩
      exact ⟨child, ⟨hinto, hchild⟩, hcomes⟩
  rw [List.exists_mem_cons_iff, hfirst, or_assoc]

namespace Arena.Tour

variable {sites others tour more : List Site}

/-- **The tour lists the sites that are passed.** -/
theorem mem_iff (h : a.Tour sites tour) {site : Site} :
    site ∈ tour ↔ ∃ root ∈ sites, a.ComesTo root site := by
  induction h with
  | nil => simp
  | node hopened _ _ ihInside ihBeside =>
      rw [exists_comesTo_cons, List.mem_cons, List.mem_append, ihInside, ihBeside]
      have hinto : a.GoesInto _ := fun declared heq => nomatch hopened.symm.trans heq
      simp only [hinto, true_and]
  | @scope root beside types others more declared hopened hdistinct _ _ _ ihTypes ihOthers ihBeside =>
      rw [exists_comesTo_cons]
      have hinto : a.GoesInto root := fun declared' heq =>
        Option.some.inj (hopened.symm.trans heq) ▸ hdistinct
      have hinside : (∃ child ∈ a.inside root, a.ComesTo child site) ↔ site ∈ types ∨ site ∈ others := by
        rw [ihTypes, ihOthers]
        constructor
        · rintro ⟨child, hchild, hcomes⟩
          exact (mem_filter_declaresType hchild).imp (fun hmem => ⟨child, hmem, hcomes⟩)
            fun hmem => ⟨child, hmem, hcomes⟩
        · rintro (⟨child, hchild, hcomes⟩ | ⟨child, hchild, hcomes⟩)
          · exact ⟨child, List.mem_of_mem_filter hchild, hcomes⟩
          · exact ⟨child, List.mem_of_mem_filter hchild, hcomes⟩
      simp only [List.mem_append, List.mem_cons, hinto, true_and, hinside, ihBeside]
      rw [or_left_comm, or_assoc]
  | @«repeated» root beside more declared hopened hrepeated _ ihBeside =>
      rw [exists_comesTo_cons, List.mem_cons, ihBeside]
      have hnot : ¬ a.GoesInto root := fun hinto => hrepeated (hinto declared hopened)
      simp only [hnot, false_and, false_or]

/-- What the tour comes to lies below its sites. -/
theorem mem_of_spans (h : a.Tour sites tour) {all : List Visit}
    (hspans : Spans a (sites.map Site.visit) all) {site : Site} (hsite : site ∈ tour) :
    site.visit ∈ all := by
  obtain ⟨root, hroot, hcomes⟩ := h.mem_iff.1 hsite
  exact hcomes.below.mem hspans (hspans.mem_of_root (List.mem_map_of_mem hroot))

end Arena.Tour

/-- Some of the roots of a forest have some of its nodes below them. -/
theorem Spans.sublist {vs ws all : List Visit} (h : Spans a vs all) (hsub : ws.Sublist vs) :
    ∃ below, Spans a ws below ∧ below.Sublist all := by
  induction h generalizing ws with
  | nil =>
      obtain rfl := List.sublist_nil.1 hsub
      exact ⟨[], .nil, .refl _⟩
  | @cons v beside below rest has inner outer _ ihr =>
      cases hsub with
      | cons _ hsub =>
          obtain ⟨kept, hspans, hkept⟩ := ihr hsub
          exact ⟨kept, hspans, (hkept.trans (List.sublist_append_right below rest)).cons v⟩
      | cons_cons _ hsub =>
          obtain ⟨kept, hspans, hkept⟩ := ihr hsub
          exact ⟨v :: (below ++ kept), .cons has inner hspans, (hkept.append_left below).cons_cons v⟩

/-- The sites right below a site of a forest stand for some of its nodes. -/
theorem Spans.inside {site : Site} {below : List Visit} (h : Spans a (a.children site.visit) below)
    (hhas : a.Has site.visit) :
    ∃ kept, Spans a ((a.inside site).map Site.visit) kept ∧ kept.Sublist below := by
  obtain ⟨scopes, v⟩ := site
  obtain ⟨family, id, rfl⟩ := hhas.exists_of
  obtain ⟨node, hget⟩ := hhas.exists_get?
  refine h.sublist ?_
  rw [inside_of_get? hget, children_of_get? hget]
  exact insideNode_sublist scopes family node

/-- The types that a scope declares and all else in it are parts of what is inside. -/
theorem Arena.Tour.nodup_inside {site : Site} {types others : List Site} {inner : List Visit}
    (hinner : Spans a ((a.inside site).map Site.visit) inner) (hnodup : inner.Nodup)
    (htypes : a.Tour ((a.inside site).filter Site.declaresType) types)
    (hothers : a.Tour ((a.inside site).filter fun child => !child.declaresType) others)
    (ihTypes : ∀ {all}, Spans a (((a.inside site).filter Site.declaresType).map Site.visit) all →
      all.Nodup → types.Nodup)
    (ihOthers : ∀ {all},
      Spans a (((a.inside site).filter fun child => !child.declaresType).map Site.visit) all →
      all.Nodup → others.Nodup) :
    (types ++ others).Nodup ∧ ∀ s ∈ types ++ others, s.visit ∈ inner := by
  have hparts := (List.filter_append_perm Site.declaresType (a.inside site)).symm.map Site.visit
  obtain ⟨kept, hkept, hperm⟩ := hinner.perm hparts
  rw [List.map_append] at hkept
  obtain ⟨us, ws, rfl, hus, hws⟩ := hkept.append_inv
  obtain ⟨husNodup, hwsNodup, hapart⟩ := List.nodup_append.1 (hperm.nodup hnodup)
  have htypesMem : ∀ s ∈ types, s.visit ∈ us := fun s hs => htypes.mem_of_spans hus hs
  have hothersMem : ∀ s ∈ others, s.visit ∈ ws := fun s hs => hothers.mem_of_spans hws hs
  refine ⟨List.nodup_append.2 ⟨ihTypes hus husNodup, ihOthers hws hwsNodup, fun s hs t ht heq =>
    hapart _ (htypesMem s hs) _ (hothersMem t ht) (congrArg _ heq)⟩, fun s hs => hperm.mem_iff.2 ?_⟩
  rcases List.mem_append.1 hs with hs | hs
  · exact List.mem_append_left _ (htypesMem s hs)
  · exact List.mem_append_right _ (hothersMem s hs)

/-- **No site is listed twice.** -/
theorem Arena.Tour.nodup {sites tour : List Site} (h : a.Tour sites tour) {all : List Visit}
    (hspans : Spans a (sites.map Site.visit) all) (hnodup : all.Nodup) : tour.Nodup := by
  induction h generalizing all with
  | nil => exact .nil
  | @node site beside inner more hopened hinside hbeside ihInside ihBeside =>
      obtain ⟨xs, ys, rfl, hfirst, hrest⟩ := hspans.cons_inv
      obtain ⟨hhas, below, hbelow, rfl⟩ := hfirst.singleton_inv
      obtain ⟨kept, hkept, hsub⟩ := hbelow.inside hhas
      obtain ⟨hxs, hys, hdisjoint⟩ := List.nodup_append.1 hnodup
      obtain ⟨hfresh, hbelowNodup⟩ := List.nodup_cons.1 hxs
      have hinner : ∀ s ∈ inner, s.visit ∈ below := fun s hs =>
        hsub.subset (hinside.mem_of_spans hkept hs)
      have hmore : ∀ s ∈ more, s.visit ∈ ys := fun s hs => hbeside.mem_of_spans hrest hs
      refine List.nodup_cons.2 ⟨fun hmem => ?_, List.nodup_append.2
        ⟨ihInside hkept (hbelowNodup.sublist hsub), ihBeside hrest hys, fun s hs t ht heq => ?_⟩⟩
      · rcases List.mem_append.1 hmem with hmem | hmem
        · exact hfresh (hinner _ hmem)
        · exact hdisjoint _ List.mem_cons_self _ (hmore _ hmem) rfl
      · exact hdisjoint _ (List.mem_cons_of_mem _ (hinner s hs)) _ (hmore t ht) (congrArg _ heq)
  | @scope site beside types others more declared hopened _ htypes hothers hbeside ihTypes ihOthers
      ihBeside =>
      obtain ⟨xs, ys, rfl, hfirst, hrest⟩ := hspans.cons_inv
      obtain ⟨hhas, below, hbelow, rfl⟩ := hfirst.singleton_inv
      obtain ⟨kept, hkept, hsub⟩ := hbelow.inside hhas
      obtain ⟨hxs, hys, hdisjoint⟩ := List.nodup_append.1 hnodup
      obtain ⟨hfresh, hbelowNodup⟩ := List.nodup_cons.1 hxs
      obtain ⟨hparts, hinner⟩ := nodup_inside hkept (hbelowNodup.sublist hsub) htypes hothers
        ihTypes ihOthers
      have hmore : ∀ s ∈ more, s.visit ∈ ys := fun s hs => hbeside.mem_of_spans hrest hs
      have hperm : (types ++ site :: (others ++ more)).Perm (site :: (types ++ others ++ more)) := by
        rw [List.append_assoc]
        exact List.perm_middle
      refine hperm.nodup_iff.2 (List.nodup_cons.2 ⟨fun hmem => ?_, List.nodup_append.2
        ⟨hparts, ihBeside hrest hys, fun s hs t ht heq => ?_⟩⟩)
      · rcases List.mem_append.1 hmem with hmem | hmem
        · exact hfresh (hsub.subset (hinner _ hmem))
        · exact hdisjoint _ List.mem_cons_self _ (hmore _ hmem) rfl
      · exact hdisjoint _ (List.mem_cons_of_mem _ (hsub.subset (hinner s hs))) _ (hmore t ht)
          (congrArg _ heq)
  | @«repeated» site beside more declared _ _ hbeside ihBeside =>
      obtain ⟨xs, ys, rfl, hfirst, hrest⟩ := hspans.cons_inv
      obtain ⟨-, hys, hdisjoint⟩ := List.nodup_append.1 hnodup
      refine List.nodup_cons.2 ⟨fun hmem => ?_, ihBeside hrest hys⟩
      exact hdisjoint _ (hfirst.mem_of_root List.mem_cons_self) _ (hbeside.mem_of_spans hrest hmem) rfl

/-- **The tour of a program** lists no site twice. -/
theorem Arena.IsTree.tour_nodup (htree : a.IsTree nodes) {tour : List Site}
    (h : a.Tour [a.top] tour) : tour.Nodup := by
  have hspans : Spans a ((a.inside a.top).map Site.visit) nodes := by
    have hvisits : (a.inside a.top).map Site.visit = a.children .program := by
      simp [inside, top, children, Function.comp_def]
    exact hvisits ▸ htree.spans
  cases h with
  | node hopened => cases hopened
  | «repeated» _ _ hbeside =>
      cases hbeside
      exact List.nodup_singleton _
  | scope _ _ htypes hothers hbeside =>
      cases hbeside
      rw [List.append_nil]
      obtain ⟨hparts, hinner⟩ := Tour.nodup_inside hspans htree.nodup htypes hothers htypes.nodup
        hothers.nodup
      refine List.perm_middle.nodup_iff.2 (List.nodup_cons.2 ⟨fun hmem => ?_, hparts⟩)
      exact htree.spans.program_not_mem (hinner _ hmem)

end ProcLang
