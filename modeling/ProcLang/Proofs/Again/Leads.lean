import ProcLang.Proofs.Account.Programs
import ProcLang.Proofs.Isolation.Resolved

/-!
# ProcLang.Proofs.Again.Leads

**The circles of a resolved tree.** In the tree that name resolution leaves, all types are linked, also
those in front of a scope. Still no chain of types that leaves a scope comes back into it: a type leads
to a declaration of a scope around it, and what that scope declares stands in no scope further in
(`Settles.leadsOutward`). So a search for circles in the resolved tree finds those of the text
(`Settles.circleHeads`).
-/

namespace ProcLang

open Arena

variable {a : Arena} {nodes : List Visit} {outcome : PassOutcome}

/-! ### Where a declaration stands -/

/-- What holds at a site holds at all sites below it, if it holds right below each site where it
holds. -/
theorem Arena.Below.induct_tail {P : Site → Prop} {root site : Site} (h : a.Below root site)
    (hroot : P root)
    (hstep : ∀ outer child, a.Below root outer → child ∈ a.inside outer → P outer → P child) :
    P site := by
  induction h with
  | here => exact hroot
  | inside hchild _ ih =>
      exact ih (hstep _ _ (.here _) hchild hroot) fun outer child houter =>
        hstep outer child (.inside hchild houter)

/-- A type that a scope around a site declares stands in this scope itself. -/
theorem Arena.Below.declared {site : Site} (h : a.Below a.top site) {scopes : List (List Declaration)}
    (hscopes : scopes <:+ site.scopes) {d : TypeDeclId} (hd : .type d ∈ scopes.headD []) :
    a.Below a.top ⟨scopes, .typeDecl d⟩ := by
  refine h.induct_tail (P := fun site => scopes <:+ site.scopes → a.Below a.top ⟨scopes, .typeDecl d⟩)
    (fun hscopes => ?_) (fun outer child houter hchild ih hscopes => ?_) hscopes
  · rcases List.suffix_cons_iff.1 hscopes with rfl | hnil
    · exact .inside (List.mem_map_of_mem (List.mem_map_of_mem (f := Declaration.visit) hd)) (.here _)
    · rw [List.suffix_nil.1 hnil] at hd
      nomatch hd
  · rcases scopes_of_mem_inside hchild with hsame | ⟨seeds, id, rfl⟩
    · exact ih (hsame ▸ hscopes)
    · rcases List.suffix_cons_iff.1 hscopes with rfl | hscopes
      · -- it is one of the declarations of a body
        cases hget : a.get? id with
        | none => simp [hget] at hd
        | some node =>
            have hdeclared : .type d ∈ node.declarations := by simpa [hget] using hd
            refine (houter.tail hchild).tail ?_
            rw [bodySite_of_get? hget, Visit.body_eq id, inside_of_get? hget]
            simp only [Option.elim_some]
            exact List.mem_map_of_mem (List.mem_append_left _
              (List.mem_map_of_mem (f := Declaration.visit) hdeclared))
      · exact ih hscopes

/-- A scope among others is the innermost of what lies behind those in front of it. -/
theorem exists_suffix_of_mem {α : Type} {scope : List α} {scopes : List (List α)} (h : scope ∈ scopes) :
    ∃ outer, outer <:+ scopes ∧ outer.headD [] = scope := by
  obtain ⟨front, rest, rfl⟩ := List.append_of_mem h
  exact ⟨scope :: rest, List.suffix_append _ _, rfl⟩

section

variable (htree : a.IsTree nodes)

include htree

/-- A node that opens no scope stands in the scopes of its parent. -/
theorem Arena.IsTree.below_parent {v w : Visit} (hv : v = .program ∨ v ∈ nodes)
    (hchild : w ∈ a.children v) (hbody : ∀ id, w ≠ .body id) {scopes : List (List Declaration)}
    (h : a.Below a.top ⟨scopes, w⟩) : a.Below a.top ⟨scopes, v⟩ := by
  obtain ⟨⟨outer, u⟩, houter, rfl, hinner⟩ := htree.exists_outer hv hchild h
  rcases scopes_of_mem_inside hinner with hsame | ⟨seeds, id, heq⟩
  · obtain rfl : scopes = outer := hsame
    exact houter
  · exact absurd (congrArg Site.visit heq) (hbody id)

/-! ### Where a type leads -/

variable (h : a.Settles nodes outcome)

include h

/-- **A type that is linked to a declaration** was resolved. -/
theorem Arena.Settles.exists_site_of_namedWithin {layers : Nat} {id : TypeId} {t : TypeDeclId}
    (hnamed : outcome.arena.namedWithin layers id = .ok (some t)) (hmem : .type id ∈ nodes) :
    ∃ scopes, a.Below a.top ⟨scopes, .type id⟩ ∧ a.DistinctScopes scopes := by
  induction layers generalizing id with
  | zero => cases hnamed
  | succ layers ih =>
      obtain ⟨node, hget⟩ := exists_of_has id (htree.spans.has_of_mem hmem)
      obtain ⟨node', hget', hchanges⟩ := h.evolves.changed .type id node hget
      simp only [namedWithin, get_eq_ok.2 hget', bind, Except.bind] at hnamed
      cases hkind' : node'.kind with
      | named name target =>
          rw [hkind'] at hnamed
          obtain rfl : target = some t := Except.ok.inj hnamed
          by_contra hnone
          -- a type that was passed over has no link
          have hkept := h.unchanged hget fun scopes hbelow hdistinct =>
            hnone ⟨scopes, hbelow, hdistinct⟩
          obtain rfl := Option.some.inj (hkept.symm.trans hget')
          cases htree.named_unlinked hget hkind'
      | array length element =>
          rw [hkind'] at hnamed
          obtain ⟨old, hkind⟩ := hchanges.exists_array hkind'
          have hchild : Visit.type element ∈ a.children (.type id) := by
            rw [Visit.type_eq id, children_of_get? hget, Node.children, hkind]
            exact List.mem_append_right _ List.mem_cons_self
          obtain ⟨scopes, hbelow, hdistinct⟩ := ih hnamed (htree.spans.child_mem hmem hchild)
          exact ⟨scopes, htree.below_parent (Or.inr hmem) hchild (by simp) hbelow, hdistinct⟩
      | integer | real | boolean | record =>
          rw [hkind'] at hnamed
          cases hnamed

omit htree in
/-- Where the scopes around a site have distinct names, the names in these scopes are resolved. -/
theorem Arena.Settles.resolved_within {site : Site} (hbelow : a.Below a.top site)
    (hdistinct : a.DistinctScopes site.scopes) :
    ∀ inner, a.Below site inner → inner.scopes = site.scopes →
      NamesResolved a outcome.arena outcome.diagnostics inner := fun inner hinner hscopes =>
  (h.settled inner (hbelow.trans hinner)).resolved (hscopes ▸ hdistinct)

/-- **A declaration leads** where the scopes around it say. -/
theorem Arena.Settles.exists_names_of_leadsNow {d e : TypeDeclId} (hleads : outcome.arena.LeadsNow d e)
    (hmem : .typeDecl d ∈ nodes) : ∃ scopes node, a.Below a.top ⟨scopes, .typeDecl d⟩ ∧
      a.get? d = some node ∧ a.Names scopes node.type e := by
  obtain ⟨node, hget⟩ := exists_of_has d (htree.spans.has_of_mem hmem)
  obtain ⟨node', hget', hchanges⟩ := h.evolves.changed .typeDecl d node hget
  obtain rfl := hchanges.typeDecl_eq
  have hchild : Visit.type node'.type ∈ a.children (.typeDecl d) := by
    rw [Visit.typeDecl_eq d, children_of_get? hget]
    exact List.mem_cons_self
  have hnamed := hleads
  rw [LeadsNow, leadsTo, get_eq_ok.2 hget'] at hnamed
  obtain ⟨scopes, hbelow, hdistinct⟩ :=
    h.exists_site_of_namedWithin htree hnamed (htree.spans.child_mem hmem hchild)
  have hsite := htree.below_parent (Or.inr hmem) hchild (by simp) hbelow
  exact ⟨scopes, node', hsite, hget, (leadsNow_iff htree h.evolves hget
    (h.resolved_within hsite hdistinct)).1 hleads⟩

/-- A declaration that leads somewhere belongs to the tree. -/
theorem Arena.Settles.mem_of_leadsNow {d e : TypeDeclId} (hleads : outcome.arena.LeadsNow d e) :
    .typeDecl d ∈ nodes := by
  rw [LeadsNow, leadsTo] at hleads
  cases hread : outcome.arena.get d with
  | error fault => simp [hread, bind, Except.bind] at hleads
  | ok declaration =>
      obtain ⟨old, hold, hchanges⟩ :=
        (h.evolves.origin (get_eq_ok.1 hread)).resolve_right fun hadded => hadded
      exact htree.mem_of_child hold (w := .type old.type) List.mem_cons_self

/-- **No chain of types comes back into a scope.** Inside are the nodes whose scopes end in those of the
site. -/
theorem Arena.Settles.leadsOutward {site : Site} (hbelow : a.Below a.top site) :
    LeadsOutward a outcome.arena site.scopes fun v =>
      ∃ scopes, a.Below a.top ⟨scopes, v⟩ ∧ site.scopes <:+ scopes where
  inner d hd := ⟨site.scopes, hbelow.declared (List.suffix_refl _) hd, List.suffix_refl _⟩
  outer scope hscope d hd := by
    rintro ⟨scopes, hsite, hsuffix⟩
    obtain ⟨outer, houter, rfl⟩ := exists_suffix_of_mem hscope
    have hdeclared := hbelow.declared (houter.trans (List.tail_suffix _)) hd
    obtain rfl := htree.scopes_unique hsite hdeclared
    -- the scopes it stands in would end in themselves and one more
    have hle := (hsuffix.trans houter).length_le
    have hpos : 0 < site.scopes.length := by
      refine List.length_pos_iff.2 fun hnil => ?_
      simp [hnil] at hscope
    rw [List.length_tail] at hle
    omega
  outward d e hout hleads := by
    rintro ⟨scopes, hsite, hsuffix⟩
    obtain ⟨around, node, hdeclared, -, hnames⟩ :=
      h.exists_names_of_leadsNow htree hleads (h.mem_of_leadsNow htree hleads)
    obtain ⟨scope, hscope, hd⟩ := hnames.exists_scope
    obtain ⟨outer, houter, rfl⟩ := exists_suffix_of_mem hscope
    -- `e` stands in one of the scopes around `d`, so `d` stands no further out
    obtain rfl := htree.scopes_unique hsite (hdeclared.declared houter hd)
    exact hout ⟨around, hdeclared, hsuffix.trans houter⟩

/-- **The circles of a scope** are found once more in the resolved tree. -/
theorem Arena.Settles.circleHeads {site : Site} (hbelow : a.Below a.top site)
    (hdistinct : a.DistinctScopes site.scopes) {ids heads : List TypeDeclId}
    (hids : ∀ d ∈ ids, .type d ∈ site.scopes.headD [])
    (hfound : outcome.arena.cyclicAmong ids = .ok heads) :
    CircleHeads (a.LeadsInside site.scopes) [] ids heads := by
  have hdeclared : ∀ d, .type d ∈ site.scopes.headD [] → a.Below a.top ⟨site.scopes, .typeDecl d⟩ :=
    fun d hd => hbelow.declared (List.suffix_refl _) hd
  have hhas : ∀ d, .type d ∈ site.scopes.headD [] → a.Has (.typeDecl d) := fun d hd =>
    htree.spans.has_of_mem ((htree.site_mem (hdeclared d hd)).resolve_left nofun)
  refine (circleHeads_of_cyclicAmong htree h.evolves hfound fun d hd => hhas d (hids d hd)).congr
    fun d hd e he => ?_
  rw [List.nil_append] at he
  exact transGen_leadsInside htree h.evolves (h.leadsOutward htree hbelow) hhas
    (fun d hd => h.resolved_within (hdeclared d hd) hdistinct) (hids d hd) (hids e he)

end

end ProcLang
