import ProcLang.Proofs.Isolation.Reports

/-!
# ProcLang.Proofs.Isolation.Around

**A node has one site**, or none (`IsTree.scopes_unique`): its parent is the only node that owns it, and
below the site of the parent each node stands once. So in two trees that are the same outside of a body,
nodes at the same place outside have sites in scopes at the same places, or both have none
(`Twins.around`).
-/

namespace ProcLang

open Arena

variable {a b : Arena} {nodes nodes' : List Visit}

/-! ### Below one site -/

/-- What is right below a site is there once, in the order of the children. -/
theorem insideNode_sublist (scopes : List (List Declaration)) (family : Family) (node : Node family) :
    ((a.insideNode scopes family node).map Site.visit).Sublist (Node.children family node) := by
  have hmap : ∀ vs : List Visit, (vs.map (Site.mk scopes)).map Site.visit = vs := fun vs => by
    rw [List.map_map]
    exact List.map_id vs
  have hbodies : ∀ (seeds : List VariableId) (ids : List BodyId),
      (ids.map (a.bodySite seeds scopes)).map Site.visit = ids.map Visit.body := fun seeds ids => by
    rw [List.map_map]
    rfl
  cases family with
  | routine =>
      rw [insideNode, List.map_append, hmap]
      exact List.Sublist.refl _
  | statement =>
      rw [insideNode, List.map_append, hmap, hbodies]
      exact (List.sublist_append_left _ _).append (List.Sublist.refl _)
  | expression =>
      rw [insideNode, hmap, Node.children]
      refine List.Sublist.map _ ?_
      by_cases hmember : node.kind.NotMember
      · rw [slots_of_notMember hmember]
      · obtain ⟨left, f, hkind⟩ := exists_member hmember
        rw [Node.slots, hkind]
        exact List.sublist_append_left [left] [f]
  | «variable» | typeDecl | type | body => exact (hmap _).symm ▸ List.Sublist.refl _

/-- A site that is not the root is right below another one. -/
theorem Arena.Below.exists_outer {root site : Site} (h : a.Below root site) :
    site = root ∨ ∃ outer, a.Below root outer ∧ site ∈ a.inside outer := by
  induction h with
  | here => exact Or.inl rfl
  | @inside site child inner hchild h ih =>
      rcases ih with rfl | ⟨outer, houter, hmem⟩
      · exact Or.inr ⟨site, .here site, hchild⟩
      · exact Or.inr ⟨outer, .inside hchild houter, hmem⟩

section

variable (htree : a.IsTree nodes)

include htree

/-- The node of a site is the program or belongs to the tree. -/
theorem Arena.IsTree.site_mem {site : Site} (h : a.Below a.top site) :
    site.visit = .program ∨ site.visit ∈ nodes := by
  cases h with
  | here => exact Or.inl rfl
  | inside hchild h =>
      obtain ⟨v, hv, rfl⟩ := List.mem_map.1 hchild
      exact Or.inr (h.mem htree.spans (htree.spans.mem_of_root hv))

/-- What is right below a site belongs to its node. -/
theorem Arena.IsTree.inside_subset {site child : Site} (h : site.visit = .program ∨ site.visit ∈ nodes)
    (hchild : child ∈ a.inside site) : child.visit ∈ a.children site.visit := by
  obtain ⟨scopes, v⟩ := site
  rcases h with hprogram | hmem
  · cases hprogram
    obtain ⟨v, hv, rfl⟩ := List.mem_map.1 hchild
    exact hv
  · exact Arena.inside_subset (htree.spans.has_of_mem hmem) hchild

/-- The sites right below a site have different nodes. -/
theorem Arena.IsTree.inside_nodup {site : Site} (h : site.visit = .program ∨ site.visit ∈ nodes) :
    ((a.inside site).map Site.visit).Nodup := by
  obtain ⟨scopes, v⟩ := site
  have hnodup := htree.place_nodup h
  rcases h with hprogram | hmem
  · cases hprogram
    rw [inside, List.map_map]
    exact (List.map_id (a.program.declarations.map Declaration.visit)).symm ▸ hnodup
  · have hhas := htree.spans.has_of_mem hmem
    obtain ⟨family, id, rfl⟩ := hhas.exists_of
    obtain ⟨node, hget⟩ := hhas.exists_get?
    rw [inside_of_get? hget]
    dsimp only at hnodup
    rw [children_of_get? hget] at hnodup
    exact hnodup.sublist (insideNode_sublist scopes family node)

/-- The site of a node is right below a site of its parent. -/
theorem Arena.IsTree.exists_outer {v : Visit} (hv : v = .program ∨ v ∈ nodes) {site : Site}
    (hchild : site.visit ∈ a.children v) (h : a.Below a.top site) :
    ∃ outer, a.Below a.top outer ∧ outer.visit = v ∧ site ∈ a.inside outer := by
  rcases h.exists_outer with rfl | ⟨outer, houter, hmem⟩
  · exact absurd (htree.mem_of_place hv hchild) htree.spans.program_not_mem
  · have hplace := htree.site_mem houter
    exact ⟨outer, houter, htree.parent_eq hplace hv (htree.inside_subset hplace hmem) hchild, hmem⟩

/-- **The scopes around a node** are those of its one site. -/
theorem Arena.IsTree.scopes_unique {v : Visit} {scopes scopes' : List (List Declaration)}
    (h : a.Below a.top ⟨scopes, v⟩) (h' : a.Below a.top ⟨scopes', v⟩) : scopes = scopes' := by
  have hreached : ∀ w, a.Reaches .program w → w = .program ∨ w ∈ nodes := by
    intro w hw
    induction hw with
    | refl => exact Or.inl rfl
    | tail _ hchild ih => exact Or.inr (htree.mem_of_place ih hchild)
  have hreaches : a.Reaches .program v := by
    rcases htree.site_mem h with hprogram | hmem
    · cases hprogram
      exact .refl
    · obtain ⟨root, hroot, hbelow⟩ := htree.spans.exists_reaches hmem
      exact .head hroot hbelow
  induction hreaches generalizing scopes scopes' with
  | refl =>
      have htop : ∀ {scopes}, a.Below a.top ⟨scopes, .program⟩ → scopes = a.top.scopes := by
        intro scopes hbelow
        rcases hbelow.exists_outer with heq | ⟨outer, houter, hmem⟩
        · exact congrArg Site.scopes heq
        · have hplace := htree.site_mem houter
          exact absurd (htree.mem_of_place hplace (htree.inside_subset hplace hmem))
            htree.spans.program_not_mem
      exact (htop h).trans (htop h').symm
  | @tail u v hreaches hchild ih =>
      have hu := hreached u hreaches
      obtain ⟨⟨outer, _⟩, houter, rfl, hmem⟩ := htree.exists_outer hu hchild h
      obtain ⟨⟨outer', _⟩, houter', rfl, hmem'⟩ := htree.exists_outer hu hchild h'
      obtain rfl := ih houter houter'
      exact congrArg Site.scopes
        (List.inj_on_of_nodup_map (htree.inside_nodup hu) hmem hmem' rfl)

/-- Below a node without a site no node has one. -/
theorem Arena.IsTree.hidden_child {v w : Visit} (hv : v = .program ∨ v ∈ nodes) (hhidden : a.Hidden v)
    (hchild : w ∈ a.children v) : a.Hidden w := by
  rintro site hbelow rfl
  obtain ⟨outer, houter, hvisit, -⟩ := htree.exists_outer hv hchild hbelow
  exact hhidden outer houter hvisit

end

/-! ### Around nodes at the same place -/

/-- Two nodes have sites in scopes at the same places, or both have none. -/
inductive Arena.Around (a b : Arena) (x y : BodyId) (v w : Visit) : Prop
  | site {scopes scopes' : List (List Declaration)} (h : a.Below a.top ⟨scopes, v⟩)
      (h' : b.Below b.top ⟨scopes', w⟩) (hscopes : SameScopes a b x y scopes scopes') :
      Around a b x y v w
  | hidden (h : a.Hidden v) (h' : b.Hidden w) : Around a b x y v w

/-- **Around nodes at the same place** there are the same scopes. -/
theorem Twins.around {x y : BodyId} (h : Twins a b x y nodes nodes') {v w : Visit}
    (hplace : SamePlace a b x y v w) (hv : v ≠ .body x) : Around a b x y v w := by
  induction hplace with
  | program => exact .site (.here a.top) (.here b.top) h.sameScopes_top
  | @child v w v' w' houter hne hne' hchild ih =>
      have hplace : SamePlace a b x y v' w' := .child houter hne hne' hchild
      obtain ⟨hmem, hmem'⟩ := List.of_mem_zip hchild
      have hleft := houter.mem h.left
      have hright := houter.symm.mem h.right
      cases ih hne with
      | hidden hhidden hhidden' =>
          exact .hidden (h.left.hidden_child hleft hhidden hmem)
            (h.right.hidden_child hright hhidden' hmem')
      | @site scopes scopes' hbelow hbelow' hscopes =>
          have hinside := h.inside hscopes houter hne
          by_cases hsite : ∃ child ∈ a.inside ⟨scopes, v⟩, child.visit = v'
          · obtain ⟨child, hinner, rfl⟩ := hsite
            obtain ⟨child', hinner', hsame⟩ := exists_right_of_forall₂ hinside hinner
            cases hsame with
            | hole => exact absurd rfl hv
            | outside hscopes₂ hplace₂ _ =>
                obtain rfl := hplace₂.unique h.left hplace
                exact .site (hbelow.tail hinner) (hbelow'.tail hinner') hscopes₂
          · refine .hidden (fun site hinner hvisit => hsite ?_) (fun site hinner hvisit => hsite ?_)
            · obtain ⟨⟨outer, u⟩, houter₂, rfl, hchild₂⟩ :=
                h.left.exists_outer hleft (hvisit ▸ hmem) hinner
              obtain rfl := h.left.scopes_unique houter₂ hbelow
              exact ⟨site, hchild₂, hvisit⟩
            · obtain ⟨⟨outer, u⟩, houter₂, rfl, hchild₂⟩ :=
                h.right.exists_outer hright (hvisit ▸ hmem') hinner
              obtain rfl := h.right.scopes_unique houter₂ hbelow'
              obtain ⟨child, hinner', hsame⟩ := exists_of_forall₂ hinside hchild₂
              subst hvisit
              cases hsame with
              | hole => exact absurd ((h.hole hplace).2 rfl) hv
              | outside _ hplace₂ _ =>
                  exact ⟨_, hinner', hplace₂.symm.unique h.right hplace.symm⟩

end ProcLang
