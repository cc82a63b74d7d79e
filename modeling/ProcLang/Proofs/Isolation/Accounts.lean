import ProcLang.Proofs.Isolation.Reports

/-!
# ProcLang.Proofs.Isolation.Accounts

**What is said outside of a body does not depend on what is in it.** If the trees of two arenas are the
same outside of a body, the accounts of sites at the same places agree on all that is outside
(`Twins.agree`). What is said at and below a site is about the nodes that belong to it
(`Account.owned`), so all that the two bodies add is about their own contents.
-/

namespace ProcLang

open Arena

/-! ### What an account is about -/

/-- The node of a site and what its scope declares are all of one kind. -/
structure Site.Owned (site : Site) (P : Visit → Prop) : Prop where
  visit : P site.visit
  opened : ∀ declared, site.opened = some declared → ∀ d ∈ declared, P d.visit

section

variable {a : Arena} {P : Visit → Prop} {site : Site} {sites : List Site} {remarks : List Remark}

/-- Nodes other than bodies have no scope of their own. -/
theorem Site.Owned.of_node {scopes : List (List Declaration)} {v : Visit} (hv : P v)
    (hprogram : v ≠ .program) (hbody : ∀ id, v ≠ .body id) : Site.Owned ⟨scopes, v⟩ P where
  visit := hv
  opened declared heq := by
    cases v with
    | program => exact absurd rfl hprogram
    | body id => exact absurd rfl (hbody id)
    | declaration | routine | «variable» | typeDecl | type | statement | expression => nomatch heq

theorem Declaration.visit_ne_body (d : Declaration) (id : BodyId) : d.visit ≠ .body id := by
  cases d <;> nofun

/-- What is said of a node in front of what is inside is about the node, or about what is right below
it. -/
theorem visit_of_mem_ahead {r : Remark} (hr : r ∈ a.ahead site) :
    r.visit = site.visit ∨ r.visit ∈ a.children site.visit := by
  obtain ⟨scopes, v⟩ := site
  cases v with
  | program | declaration => cases hr
  | routine id | «variable» id | typeDecl id | body id | statement id =>
      cases hget : a.get? id <;> simp [ahead, ofNode, hget, aheadNode] at hr
  | type id =>
      cases hget : a.get? id with
      | none => simp [ahead, ofNode, hget] at hr
      | some node =>
          simp only [ahead, ofNode, hget, Option.elim_some, aheadNode] at hr
          split at hr
          · split at hr
            · cases hr
            · exact Or.inl (congrArg Remark.visit (List.mem_singleton.1 hr))
          · rename_i fields hkind
            obtain ⟨d, hd, hvisit⟩ := mem_repeated hr
            obtain ⟨x, hx, rfl⟩ := List.mem_map.1 hd
            refine Or.inr (hvisit ▸ ?_)
            rw [Visit.type_eq id, children_of_get? hget, Node.children, hkind]
            exact List.mem_map_of_mem hx
          · cases hr
  | expression id =>
      cases hget : a.get? id with
      | none => simp [ahead, ofNode, hget] at hr
      | some node =>
          simp only [ahead, ofNode, hget, Option.elim_some, aheadNode] at hr
          split at hr
          · split at hr
            · exact Or.inl (congrArg Remark.visit (List.mem_singleton.1 hr))
            · cases hr
          · cases hr

/-- What is said of a node behind what is inside is about the node, or about what is right below it. -/
theorem visit_of_mem_behind {r : Remark} (hr : r ∈ a.behind site) :
    r.visit = site.visit ∨ r.visit ∈ a.children site.visit := by
  obtain ⟨scopes, v⟩ := site
  cases v with
  | program | declaration => cases hr
  | routine id | «variable» id | typeDecl id | type id | body id =>
      cases hget : a.get? id <;> simp [behind, ofNode, hget, behindNode] at hr
  | statement id =>
      cases hget : a.get? id with
      | none => simp [behind, ofNode, hget] at hr
      | some node =>
          simp only [behind, ofNode, hget, Option.elim_some, behindNode] at hr
          split at hr
          · split at hr
            · exact Or.inl (congrArg Remark.visit (List.mem_singleton.1 hr))
            · cases hr
          · cases hr
  | expression id =>
      cases hget : a.get? id with
      | none => simp [behind, ofNode, hget] at hr
      | some node =>
          simp only [behind, ofNode, hget, Option.elim_some, behindNode] at hr
          split at hr
          · split at hr
            · cases hr
            · exact Or.inl (congrArg Remark.visit (List.mem_singleton.1 hr))
          · rename_i left field hkind
            split at hr
            · cases hr
            · rw [List.mem_singleton.1 hr]
              refine Or.inr ?_
              rw [Visit.expression_eq id, children_of_get? hget, Node.children, hkind]
              exact List.mem_cons_of_mem _ List.mem_cons_self
          · cases hr

section

variable (hhas : ∀ v, P v → a.Has v) (hclosed : ∀ v, P v → ∀ w ∈ a.children v, P w)

include hhas

/-- The children of a node in its own scopes. -/
theorem owned_of_map {scopes : List (List Declaration)} {vs : List Visit} (hvs : ∀ v ∈ vs, P v)
    (hbody : ∀ id, .body id ∉ vs) {child : Site} (hchild : child ∈ vs.map (Site.mk scopes)) :
    child.Owned P := by
  obtain ⟨v, hv, rfl⟩ := List.mem_map.1 hchild
  refine .of_node (hvs v hv) (fun heq => ?_) fun id heq => hbody id (heq ▸ hv)
  exact a.not_has_program (heq ▸ hhas v (hvs v hv))

include hclosed

/-- A body, with what its owner declares for it. -/
theorem owned_bodySite {scopes : List (List Declaration)} {seeds : List VariableId} {id : BodyId}
    (hid : P (.body id)) (hseeds : ∀ x ∈ seeds, P (.variable x)) :
    (a.bodySite seeds scopes id).Owned P := by
  obtain ⟨node, hget⟩ := exists_of_has id (hhas _ hid)
  rw [bodySite_of_get? hget]
  refine ⟨hid, fun declared heq d hd => ?_⟩
  obtain rfl := Option.some.inj heq
  rcases List.mem_append.1 hd with hd | hd
  · obtain ⟨x, hx, rfl⟩ := List.mem_map.1 hd
    exact hseeds x hx
  · refine hclosed _ hid _ ?_
    rw [Visit.body_eq id, children_of_get? hget]
    exact List.mem_append_left _ (List.mem_map_of_mem hd)

theorem Site.Owned.inside (h : site.Owned P) {child : Site} (hchild : child ∈ a.inside site) :
    child.Owned P := by
  obtain ⟨scopes, v⟩ := site
  obtain ⟨family, id, rfl⟩ := (hhas _ h.visit).exists_of
  obtain ⟨node, hget⟩ := (hhas _ h.visit).exists_get?
  have hchildren := hclosed _ h.visit
  rw [inside_of_get? hget] at hchild
  rw [children_of_get? hget] at hchildren
  cases family with
  | routine =>
      simp only [Node.children, List.mem_append, List.mem_map] at hchildren
      rcases List.mem_append.1 hchild with hchild | hchild
      · refine owned_of_map hhas (fun w hw => hchildren w (Or.inl ?_)) (fun id hid => ?_) hchild
        · simpa using hw
        · simp at hid
      · rw [List.mem_singleton.1 hchild]
        exact owned_bodySite hhas hclosed (hchildren _ (Or.inr List.mem_cons_self)) fun p hp =>
          hchildren _ (Or.inl (Or.inl ⟨p, hp, rfl⟩))
  | statement =>
      simp only [Node.children, List.mem_append, List.mem_map] at hchildren
      rcases List.mem_append.1 hchild with hchild | hchild
      · refine owned_of_map hhas (fun w hw => hchildren w (Or.inl (Or.inl ?_))) (fun id hid => ?_) hchild
        · simpa using hw
        · simp at hid
      · obtain ⟨body, hbody, rfl⟩ := List.mem_map.1 hchild
        exact owned_bodySite hhas hclosed (hchildren _ (Or.inr ⟨body, hbody, rfl⟩)) fun p hp =>
          hchildren _ (Or.inl (Or.inr ⟨p, hp, rfl⟩))
  | expression =>
      refine owned_of_map hhas (fun w hw => ?_) (by simp) hchild
      obtain ⟨e, he, rfl⟩ := List.mem_map.1 hw
      exact hchildren _ (Node.slots_subset .expression node he)
  | body =>
      refine owned_of_map hhas hchildren (fun id hid => ?_) hchild
      simp only [Node.children, List.mem_append, List.mem_map, reduceCtorEq, and_false, exists_false,
        or_false] at hid
      obtain ⟨d, -, hd⟩ := hid
      exact d.visit_ne_body id hd
  | «variable» => exact owned_of_map hhas hchildren (by simp [Node.children]) hchild
  | typeDecl => exact owned_of_map hhas hchildren (by simp [Node.children]) hchild
  | type =>
      refine owned_of_map hhas hchildren (fun id => ?_) hchild
      rw [Node.children]
      split <;> simp

omit hhas in
theorem owned_ahead (h : site.Owned P) {r : Remark} (hr : r ∈ a.ahead site) : P r.visit := by
  rcases visit_of_mem_ahead hr with hvisit | hvisit
  · exact hvisit ▸ h.visit
  · exact hclosed _ h.visit _ hvisit

omit hhas in
theorem owned_behind (h : site.Owned P) {r : Remark} (hr : r ∈ a.behind site) : P r.visit := by
  rcases visit_of_mem_behind hr with hvisit | hvisit
  · exact hvisit ▸ h.visit
  · exact hclosed _ h.visit _ hvisit

/-- **An account is about what belongs to its sites.** -/
theorem Arena.Account.owned (h : a.Account sites remarks) (hsites : ∀ site ∈ sites, site.Owned P) :
    ∀ r ∈ remarks, P r.visit := by
  induction h with
  | nil => nofun
  | @node site beside inner more hopened _ _ ihinside ihbeside =>
      have hsite := hsites site List.mem_cons_self
      have hinner := ihinside fun child hchild => hsite.inside hhas hclosed hchild
      have hmore := ihbeside fun other hother => hsites other (List.mem_cons_of_mem _ hother)
      intro r hr
      simp only [List.mem_append] at hr
      rcases hr with ((hr | hr) | hr) | hr
      · exact owned_ahead hclosed hsite hr
      · exact hinner r hr
      · exact owned_behind hclosed hsite hr
      · exact hmore r hr
  | @scope site beside declared heads types others more hopened _ _ hheads _ _ ihtypes ihothers
      ihbeside =>
      have hsite := hsites site List.mem_cons_self
      have hchildren : ∀ p, ∀ child ∈ (a.inside site).filter p, child.Owned P := fun p child hchild =>
        hsite.inside hhas hclosed (List.mem_of_mem_filter hchild)
      have hmore := ihbeside fun other hother => hsites other (List.mem_cons_of_mem _ hother)
      intro r hr
      simp only [List.mem_append] at hr
      rcases hr with ((hr | hr) | hr) | hr
      · exact ihtypes (hchildren _) r hr
      · obtain ⟨d, hd, rfl⟩ := List.mem_map.1 hr
        exact hsite.opened declared hopened _ (mem_filterMap_type?.1 (hheads.subset hd))
      · exact ihothers (hchildren _) r hr
      · exact hmore r hr
  | @«repeated» site beside declared more hopened _ _ ihbeside =>
      have hsite := hsites site List.mem_cons_self
      have hmore := ihbeside fun other hother => hsites other (List.mem_cons_of_mem _ hother)
      intro r hr
      rcases List.mem_append.1 hr with hr | hr
      · obtain ⟨d, hd, hvisit⟩ := mem_repeated hr
        exact hvisit ▸ hsite.opened declared hopened d hd
      · exact hmore r hr

end

/-! ### Accounts taken apart -/

namespace Arena.Account

variable {beside : List Site} {declared : List Declaration}

theorem cons_inv (h : a.Account (site :: beside) remarks) : ∃ first more,
    remarks = first ++ more ∧ a.Account [site] first ∧ a.Account beside more := by
  cases h with
  | node hopened hinside hbeside => exact ⟨_, _, rfl, .single hopened hinside, hbeside⟩
  | scope hopened hdistinct htypes hheads hothers hbeside =>
      have hfirst := Account.scope hopened hdistinct htypes hheads hothers .nil
      rw [List.append_nil] at hfirst
      exact ⟨_, _, rfl, hfirst, hbeside⟩
  | «repeated» hopened hrepeated hbeside =>
      have hfirst := Account.repeated hopened hrepeated .nil
      rw [List.append_nil] at hfirst
      exact ⟨_, _, rfl, hfirst, hbeside⟩

theorem node_inv (h : a.Account [site] remarks) (hopened : site.opened = none) : ∃ inner,
    a.Account (a.inside site) inner ∧ remarks = a.ahead site ++ inner ++ a.behind site := by
  cases h with
  | node _ hinside hbeside =>
      cases hbeside
      exact ⟨_, hinside, List.append_nil _⟩
  | scope hopened' | «repeated» hopened' =>
      rw [hopened] at hopened'
      nomatch hopened'

theorem scope_inv (h : a.Account [site] remarks) (hopened : site.opened = some declared)
    (hdistinct : a.repeated declared = []) : ∃ types heads others,
      a.Account ((a.inside site).filter Site.declaresType) types ∧
      CircleHeads (a.LeadsInside site.scopes) [] (declared.filterMap Declaration.type?) heads ∧
      a.Account ((a.inside site).filter fun child => !child.declaresType) others ∧
      remarks = types ++ heads.map a.cyclic ++ others := by
  cases h with
  | node hopened' =>
      rw [hopened] at hopened'
      nomatch hopened'
  | scope hopened' _ htypes hheads hothers hbeside =>
      obtain rfl := Option.some.inj (hopened.symm.trans hopened')
      cases hbeside
      exact ⟨_, _, _, htypes, hheads, hothers, List.append_nil _⟩
  | «repeated» hopened' hrepeated =>
      obtain rfl := Option.some.inj (hopened.symm.trans hopened')
      exact absurd hdistinct hrepeated

theorem repeated_inv (h : a.Account [site] remarks) (hopened : site.opened = some declared)
    (hrepeated : a.repeated declared ≠ []) : remarks = a.repeated declared := by
  cases h with
  | node hopened' =>
      rw [hopened] at hopened'
      nomatch hopened'
  | scope hopened' hdistinct =>
      obtain rfl := Option.some.inj (hopened.symm.trans hopened')
      exact absurd hdistinct hrepeated
  | «repeated» hopened' _ hbeside =>
      obtain rfl := Option.some.inj (hopened.symm.trans hopened')
      cases hbeside
      exact List.append_nil _

/-- **What is said of a body** is what its owner repeats in front of it, and then something of its
contents. -/
theorem body {nodes : List Visit} (htree : a.IsTree nodes) {scopes : List (List Declaration)}
    {seeds : List VariableId} {x : BodyId} (hx : .body x ∈ nodes)
    (h : a.Account [a.bodySite seeds scopes x] remarks) : ∃ inner,
      remarks = a.repeated (seeds.map Declaration.variable) ++ inner ∧
        ∀ r ∈ inner, a.InBody x r.visit := by
  obtain ⟨node, hget⟩ := exists_of_has x (htree.spans.has_of_mem hx)
  have hchildren : a.children (.body x) = Node.children .body node := children_of_get? hget
  have hinside : a.inside (a.bodySite seeds scopes x) =
      (Node.children .body node).map (Site.mk (a.bodySite seeds scopes x).scopes) := inside_of_get? hget
  have hopened : (a.bodySite seeds scopes x).opened =
      some (seeds.map Declaration.variable ++ node.declarations) := by
    rw [bodySite_of_get? hget]
    rfl
  have hdeclared : ∀ d ∈ node.declarations, a.InBody x d.visit := by
    refine fun d hd => ⟨d.visit, ?_, .refl⟩
    rw [hchildren]
    exact List.mem_append_left _ (List.mem_map_of_mem hd)
  obtain ⟨rest, happend, hrest⟩ :=
    exists_repeated_append (a := a) (seeds.map Declaration.variable) node.declarations
  have hrest' : ∀ r ∈ rest, a.InBody x r.visit := by
    intro r hr
    obtain ⟨d, hd, hvisit⟩ := hrest r hr
    exact hvisit ▸ hdeclared d hd
  by_cases hdistinct : a.repeated (seeds.map Declaration.variable ++ node.declarations) = []
  · obtain ⟨types, heads, others, htypes, hheads, hothers, rfl⟩ := h.scope_inv hopened hdistinct
    rw [happend] at hdistinct
    rw [(List.append_eq_nil_iff.1 hdistinct).1]
    refine ⟨types ++ heads.map a.cyclic ++ others, (List.nil_append _).symm, ?_⟩
    have hhas : ∀ v, a.InBody x v → a.Has v := by
      rintro v ⟨w, hw, hreaches⟩
      exact htree.spans.has_of_mem
        (htree.spans.mem_of_reaches (htree.spans.child_mem hx hw) hreaches)
    have howned : ∀ p, ∀ child ∈ (a.inside (a.bodySite seeds scopes x)).filter p,
        child.Owned (a.InBody x) := by
      intro p child hchild
      have hmem := List.mem_of_mem_filter hchild
      rw [hinside] at hmem
      refine owned_of_map hhas (fun v hv => ⟨v, hchildren ▸ hv, .refl⟩) (fun id hid => ?_) hmem
      simp only [Node.children, List.mem_append, List.mem_map, reduceCtorEq, and_false, exists_false,
        or_false] at hid
      obtain ⟨d, -, hd⟩ := hid
      exact d.visit_ne_body id hd
    intro r hr
    simp only [List.mem_append] at hr
    rcases hr with (hr | hr) | hr
    · exact htypes.owned hhas (fun v hv w hw => hv.child hw) (howned _) r hr
    · obtain ⟨d, hd, rfl⟩ := List.mem_map.1 hr
      have hd := mem_filterMap_type?.1 (hheads.subset hd)
      rcases List.mem_append.1 hd with hd | hd
      · obtain ⟨seed, -, heq⟩ := List.mem_map.1 hd
        cases heq
      · exact hdeclared _ hd
    · exact hothers.owned hhas (fun v hv w hw => hv.child hw) (howned _) r hr
  · rw [h.repeated_inv hopened hdistinct, happend]
    exact ⟨rest, rfl, hrest'⟩

end Arena.Account

end

/-! ### Two accounts -/

namespace Twins

variable {a b : Arena} {x y : BodyId} {nodes nodes' : List Visit} (h : Twins a b x y nodes nodes')

include h

/-- Sites at the same place outside open scopes at the same place, or none. -/
theorem opened {scopes scopes' : List (List Declaration)} (hscopes : SameScopes a b x y scopes scopes')
    {v w : Visit} (hplace : SamePlace a b x y v w) (hv : v ≠ .body x) :
    Option.Rel (SameDeclarations a b x y) (Site.opened ⟨scopes, v⟩) (Site.opened ⟨scopes', w⟩) := by
  rcases hplace.mem h.left with rfl | hmem
  · obtain rfl := h.same.program_eq hplace
    exact .some (headD hscopes)
  · obtain ⟨family, id, rfl⟩ := (h.left.spans.has_of_mem hmem).exists_of
    obtain ⟨id', node, node', rfl, -⟩ := h.exists_node id hplace hv
    cases family with
    | body => exact .some (headD hscopes)
    | routine | «variable» | typeDecl | type | statement | expression => exact .none

/-- Of two sites at the same place, both are those of type declarations or none is. -/
theorem declaresType {site site' : Site} (hsite : SameSite a b x y site site') :
    site.declaresType = site'.declaresType := by
  cases hsite with
  | @outside scopes scopes' v w hscopes hplace hv =>
      rcases hplace.mem h.left with rfl | hmem
      · rw [h.same.program_eq hplace]
        rfl
      · obtain ⟨family, id, rfl⟩ := (h.left.spans.has_of_mem hmem).exists_of
        obtain ⟨id', node, node', rfl, -⟩ := h.exists_node id hplace hv
        cases family <;> rfl
  | hole => rfl

/-- The types among declarations at the same places. -/
theorem declaredTypes {scope scope' : List Declaration} (hscope : SameDeclarations a b x y scope scope') :
    List.Forall₂ (fun d d' => SamePlace a b x y (.typeDecl d) (.typeDecl d'))
      (scope.filterMap Declaration.type?) (scope'.filterMap Declaration.type?) := by
  refine List.rel_filterMap (fun d d' hplace => ?_) hscope
  cases h.sameSort hplace with
  | type hplace => exact .some hplace
  | routine | «variable» => exact .none

/-- A declaration at the same place is said to be on a circle with the same words. -/
theorem cyclic {d d' : TypeDeclId} (hplace : SamePlace a b x y (.typeDecl d) (.typeDecl d')) :
    SameRemark a b x y (a.cyclic d) (b.cyclic d') := by
  obtain ⟨id', node, node', hw, hget, hget', hform⟩ := h.exists_node d hplace nofun
  cases hw
  rw [cyclic_of_get? hget, cyclic_of_get? hget', Form.typeDecl.inj hform]
  exact ⟨hplace, rfl⟩

/-- **What is said of the two bodies** is the same as far as their owners repeat a name. -/
theorem agree_body {scopes scopes' : List (List Declaration)} {seeds seeds' : List VariableId}
    (hseeds : List.Forall₂ (fun p p' => SamePlace a b x y (.variable p) (.variable p')) seeds seeds')
    {remarks remarks' : List Remark} (hfirst : a.Account [a.bodySite seeds scopes x] remarks)
    (hsecond : b.Account [b.bodySite seeds' scopes' y] remarks') : Agree a b x y remarks remarks' := by
  have hx := (h.same.place.mem h.left).resolve_left nofun
  have hy := (h.same.place.symm.mem h.right).resolve_left nofun
  obtain ⟨inner, rfl, hinner⟩ := hfirst.body h.left hx
  obtain ⟨inner', rfl, hinner'⟩ := hsecond.body h.right hy
  exact (Agree.of_same (h.repeated (forall₂_map_iff.2 hseeds))).append (.of_inBody hinner hinner')

/-- **Accounts of sites at the same places** agree on all that is outside of the bodies. -/
theorem agree {sites sites' : List Site} (hsites : List.Forall₂ (SameSite a b x y) sites sites')
    {remarks remarks' : List Remark} (hfirst : a.Account sites remarks)
    (hsecond : b.Account sites' remarks') : Agree a b x y remarks remarks' := by
  induction hfirst generalizing sites' remarks' with
  | nil =>
      cases hsites
      cases hsecond
      exact .nil
  | @node site beside inner more hopened hinside _ ihinside ihbeside =>
      cases hsites with
      | @cons _ site' _ beside' hsite hbeside' =>
          obtain ⟨first', more', rfl, hfirst', hmore'⟩ := hsecond.cons_inv
          refine Agree.append ?_ (ihbeside hbeside' hmore')
          cases hsite with
          | hole => nomatch hopened
          | @outside scopes scopes' v w hscopes hplace hv =>
              have hrel := h.opened hscopes hplace hv
              rw [hopened] at hrel
              obtain ⟨inner', hinner', rfl⟩ := hfirst'.node_inv (eq_none_of_rel hrel)
              exact ((Agree.of_same (h.ahead hscopes hplace hv)).append
                (ihinside (h.inside hscopes hplace hv) hinner')).append
                  (.of_same (h.behind hscopes hplace hv))
  | @scope site beside declared heads types others more hopened hdistinct htypes hheads hothers _
      ihtypes ihothers ihbeside =>
      cases hsites with
      | @cons _ site' _ beside' hsite hbeside' =>
          obtain ⟨first', more', rfl, hfirst', hmore'⟩ := hsecond.cons_inv
          refine Agree.append ?_ (ihbeside hbeside' hmore')
          cases hsite with
          | hole _ hseeds =>
              have hfirst := Account.scope hopened hdistinct htypes hheads hothers .nil
              rw [List.append_nil] at hfirst
              exact h.agree_body hseeds hfirst hfirst'
          | @outside scopes scopes' v w hscopes hplace hv =>
              have hrel := h.opened hscopes hplace hv
              rw [hopened] at hrel
              obtain ⟨declared', hopened', hdeclared⟩ := exists_of_rel_some hrel
              obtain ⟨types', heads', others', htypes', hheads', hothers', rfl⟩ :=
                hfirst'.scope_inv hopened' ((h.repeated_eq_nil hdeclared).1 hdistinct)
              have hinside := h.inside hscopes hplace hv
              have hcircles := h.circleHeads hscopes .nil (h.declaredTypes hdeclared) hheads hheads'
              refine ((ihtypes ?_ htypes').append (.of_same ?_)).append (ihothers ?_ hothers')
              · refine List.rel_filter (fun child child' hchild => ?_) hinside
                dsimp only
                rw [h.declaresType hchild]
              · exact forall₂_map_iff.2 (hcircles.imp fun _ _ hplace => h.cyclic hplace)
              · refine List.rel_filter (fun child child' hchild => ?_) hinside
                dsimp only
                rw [h.declaresType hchild]
  | @«repeated» site beside declared more hopened hrepeated _ ihbeside =>
      cases hsites with
      | @cons _ site' _ beside' hsite hbeside' =>
          obtain ⟨first', more', rfl, hfirst', hmore'⟩ := hsecond.cons_inv
          refine Agree.append ?_ (ihbeside hbeside' hmore')
          cases hsite with
          | hole _ hseeds =>
              have hfirst := Account.repeated hopened hrepeated .nil
              rw [List.append_nil] at hfirst
              exact h.agree_body hseeds hfirst hfirst'
          | @outside scopes scopes' v w hscopes hplace hv =>
              have hrel := h.opened hscopes hplace hv
              rw [hopened] at hrel
              obtain ⟨declared', hopened', hdeclared⟩ := exists_of_rel_some hrel
              rw [hfirst'.repeated_inv hopened' fun hnone =>
                hrepeated ((h.repeated_eq_nil hdeclared).2 hnone)]
              exact .of_same (h.repeated hdeclared)

end Twins

end ProcLang
