import ProcLang.Proofs.Resolved.Tree

/-!
# ProcLang.Proofs.Resolved.Types

**Every type of a resolved tree stands for a type that is no name** (`Resolves.exists_resolved`).
A name leads to a declaration of a scope around it, so a chain of names only ever leads outward; and
within one scope it cannot lead in a circle, since that would have been reported. So no declaration
is met twice on a chain, and there are more hops than declarations.
-/

namespace ProcLang

open Arena

variable {a b : Arena} {nodes : List Visit}

/-! ### The scopes around a site -/

/-- Some scopes are those of a program or of a body, and the types that the innermost of them
declares have sites in them. -/
structure Arena.Opened (a : Arena) (scopes : List (List Declaration)) : Prop where
  opener : ∃ v, a.Below a.top ⟨scopes, v⟩ ∧ (v = .program ∨ ∃ id, v = .body id)
  declared : ∀ t, .type t ∈ scopes.headD [] → a.Below a.top ⟨scopes, .typeDecl t⟩

theorem opened_bodySite {seeds : List VariableId} {scopes : List (List Declaration)} {id : BodyId}
    (hbelow : a.Below a.top (a.bodySite seeds scopes id)) :
    a.Opened (a.bodySite seeds scopes id).scopes where
  opener := ⟨.body id, hbelow, Or.inr ⟨id, rfl⟩⟩
  declared t ht := by
    refine hbelow.tail ?_
    rcases List.mem_append.1 ht with ht | ht
    · obtain ⟨x, -, heq⟩ := List.mem_map.1 ht
      nomatch heq
    · cases hget : a.get? id with
      | none =>
          rw [hget] at ht
          nomatch ht
      | some node =>
          rw [hget] at ht
          have hmem : Visit.typeDecl t ∈ Node.children .body node :=
            List.mem_append_left _ (List.mem_map_of_mem (f := Declaration.visit) ht)
          rw [bodySite, Visit.body_eq id, inside_of_get? hget]
          exact List.mem_map_of_mem hmem

/-- **All scopes around a site were opened.** -/
theorem opened_of_below {site : Site} (hbelow : a.Below a.top site) :
    ∀ scopes, scopes ≠ [] → scopes <:+ site.scopes → a.Opened scopes := by
  have htop : ∀ scopes, scopes ≠ [] → scopes <:+ a.top.scopes → a.Opened scopes := by
    intro scopes hne hsuffix
    rcases List.suffix_cons_iff.1 hsuffix with rfl | hsuffix
    · refine ⟨⟨.program, .here _, Or.inl rfl⟩, fun t ht => .inside ?_ (.here _)⟩
      exact List.mem_map_of_mem (List.mem_map_of_mem (f := Declaration.visit) ht)
    · exact absurd (List.suffix_nil.1 hsuffix) hne
  have hsteps : ∀ root site, a.Below root site → a.Below a.top root →
      (∀ scopes, scopes ≠ [] → scopes <:+ root.scopes → a.Opened scopes) →
      ∀ scopes, scopes ≠ [] → scopes <:+ site.scopes → a.Opened scopes := by
    intro root site h
    induction h with
    | here => exact fun _ h => h
    | @inside root child site hchild _ ih =>
        intro hroot hopened
        have hbelow := hroot.tail hchild
        refine ih hbelow fun scopes hne hsuffix => ?_
        rcases scopes_of_mem_inside hchild with hsame | ⟨seeds, id, rfl⟩
        · exact hopened scopes hne (hsame ▸ hsuffix)
        · rcases List.suffix_cons_iff.1 hsuffix with rfl | hsuffix
          · exact opened_bodySite hbelow
          · exact hopened scopes hne hsuffix
  exact hsteps a.top site hbelow (.here _) htop

theorem circleFree_of_opened (h : a.Resolves b) {scopes : List (List Declaration)}
    (hopened : a.Opened scopes) : a.CircleFree scopes := by
  obtain ⟨v, hbelow, hv⟩ := hopened.opener
  have hchecked := h.checked _ hbelow
  rcases hv with rfl | ⟨id, rfl⟩
  · exact hchecked
  · exact hchecked

/-! ### Chains of names -/

/-- A type is linked to a declaration, by its own name or by that of the elements of an array. -/
inductive Arena.LinkedTo (b : Arena) : TypeId → TypeDeclId → Prop
  | named {id : TypeId} {node : TypeNode} {name : String} {e : TypeDeclId}
      (hget : b.get? id = some node) (hkind : node.kind = .named name (some e)) : LinkedTo b id e
  | element {id : TypeId} {node : TypeNode} {length : Option ExpressionId} {element : TypeId}
      {e : TypeDeclId} (hget : b.get? id = some node) (hkind : node.kind = .array length element)
      (h : LinkedTo b element e) : LinkedTo b id e

/-- A type declaration leads to the declaration that its type is linked to. -/
def Arena.Leads (b : Arena) (d e : TypeDeclId) : Prop :=
  ∃ node, b.get? d = some node ∧ b.LinkedTo node.type e

/-- A type is linked to a declaration of a scope around it, the one that the scopes say. -/
theorem exists_scopes_of_linkedTo (h : a.Resolves b) {scopes : List (List Declaration)}
    {id : TypeId} {e : TypeDeclId} (hbelow : a.Below a.top ⟨scopes, .type id⟩)
    (hlinked : b.LinkedTo id e) :
    a.Names scopes id e ∧ ∃ outer, outer <:+ scopes ∧ .type e ∈ outer.headD [] ∧
      a.Below a.top ⟨outer, .typeDecl e⟩ := by
  induction hlinked with
  | @named id node name e hget hkind =>
      obtain ⟨old, hold, hchanges⟩ := (h.evolves.origin hget).resolve_right fun hadded => hadded
      obtain ⟨target, hkind'⟩ := hchanges.exists_named hkind
      obtain ⟨linked, hfound, hlink⟩ := (h.names _ hbelow).type id old name target rfl hold hkind'
      obtain rfl := Option.some.inj (hfound.symm.trans hget)
      cases hlink with
      | undeclared hname hlink hreport => nomatch hreport
      | linked hname hlink hsilent =>
          rw [hlink] at hkind
          cases hkind
          obtain ⟨scope, hscope, entry, hentry, -, hselect⟩ := innermost_mem hname
          have htypeEntry : entry = .type e := by
            cases entry with
            | type id =>
                cases hselect
                rfl
            | routine | «variable» => nomatch hselect
          obtain ⟨before, after, hsplit⟩ := List.append_of_mem hscope
          have hsuffix : scope :: after <:+ scopes := ⟨before, hsplit.symm⟩
          have hhead : .type e ∈ (scope :: after).headD [] := htypeEntry ▸ hentry
          have hopened := opened_of_below hbelow (scope :: after) (List.cons_ne_nil _ _) hsuffix
          exact ⟨.named hold hkind' hname, scope :: after, hsuffix, hhead, hopened.declared e hhead⟩
  | @element id node length element e hget hkind _ ih =>
      obtain ⟨old, hold, hchanges⟩ := (h.evolves.origin hget).resolve_right fun hadded => hadded
      obtain ⟨length', hkind'⟩ := hchanges.exists_array hkind
      have hsite : a.Below a.top ⟨scopes, .type element⟩ := by
        refine hbelow.tail ?_
        rw [Visit.type_eq id, inside_of_get? hold]
        refine List.mem_map.2 ⟨.type element, ?_, rfl⟩
        rw [Node.children, hkind']
        exact List.mem_append_right _ List.mem_cons_self
      obtain ⟨hnames, houter⟩ := ih hsite
      exact ⟨.element hold hkind' hnames, houter⟩

/-- A type declaration leads to a declaration of a scope around it. -/
theorem exists_scopes_of_leads (h : a.Resolves b) {scopes : List (List Declaration)}
    {d e : TypeDeclId} (hbelow : a.Below a.top ⟨scopes, .typeDecl d⟩) (hleads : b.Leads d e) :
    ∃ outer, outer <:+ scopes ∧ .type e ∈ outer.headD [] ∧ a.Below a.top ⟨outer, .typeDecl e⟩ ∧
      (outer = scopes → a.LeadsInside scopes d e) := by
  obtain ⟨node, hnode, hlinked⟩ := hleads
  have hold : a.get? d = some node := by
    obtain ⟨old, hold, hchanges⟩ := (h.evolves.origin hnode).resolve_right id
    rw [hold, hchanges.typeDecl_eq]
  have hsite : a.Below a.top ⟨scopes, .type node.type⟩ := by
    refine hbelow.tail ?_
    rw [Visit.typeDecl_eq d, inside_of_get? hold]
    exact List.mem_cons_self
  obtain ⟨hnames, outer, hsuffix, hhead, hdeclared⟩ := exists_scopes_of_linkedTo h hsite hlinked
  exact ⟨outer, hsuffix, hhead, hdeclared, fun heq => ⟨heq ▸ hhead, node, hold, hnames⟩⟩

/-- **No type declaration leads back to itself.** The induction is on the number of scopes around the
declaration: a circle stays in one scope, or leads to a circle further out. -/
theorem not_leads_self (h : a.Resolves b) (htree : a.IsTree nodes) {d : TypeDeclId} :
    ¬ Relation.TransGen b.Leads d d := by
  have hpath : ∀ scopes d e, a.Below a.top ⟨scopes, .typeDecl d⟩ →
      Relation.TransGen b.Leads d e → ∃ outer, outer <:+ scopes ∧ .type e ∈ outer.headD [] ∧
        a.Below a.top ⟨outer, .typeDecl e⟩ ∧
        (outer = scopes → Relation.TransGen (a.LeadsInside scopes) d e) := by
    intro scopes d e hbelow hchain
    induction hchain with
    | single hlead =>
        obtain ⟨outer, hsuffix, hmem, hsite, hleads⟩ :=
          exists_scopes_of_leads h hbelow hlead
        exact ⟨outer, hsuffix, hmem, hsite, fun heq => .single (hleads heq)⟩
    | tail _ hlead ih =>
        obtain ⟨middle, hmiddle, -, hsite, hchain⟩ := ih
        obtain ⟨outer, hsuffix, hmem, hlast, hleads⟩ := exists_scopes_of_leads h hsite hlead
        refine ⟨outer, hsuffix.trans hmiddle, hmem, hlast, fun heq => ?_⟩
        have hsame : middle = scopes :=
          hmiddle.eq_of_length_le (heq ▸ hsuffix.length_le)
        subst hsame
        exact (hchain rfl).tail (hleads heq)
  have hcircle : ∀ n scopes d, scopes.length = n → a.Below a.top ⟨scopes, .typeDecl d⟩ →
      .type d ∈ scopes.headD [] → ¬ Relation.TransGen b.Leads d d := by
    intro n
    induction n using Nat.strongRecOn with
    | ind n ih =>
        intro scopes d hlength hbelow hhead hchain
        obtain ⟨outer, hsuffix, hmem, hsite, hleads⟩ := hpath scopes d d hbelow hchain
        by_cases heq : outer = scopes
        · have hopened := opened_of_below hbelow scopes (by rintro rfl; nomatch hhead)
            (List.suffix_refl _)
          exact circleFree_of_opened h hopened d hhead (hleads heq)
        · have hlt : outer.length < n := hlength ▸
            Nat.lt_of_le_of_ne hsuffix.length_le fun hsame => heq (hsuffix.eq_of_length hsame)
          exact ih outer.length hlt outer d rfl hsite hmem hchain
  intro hchain
  obtain ⟨e, ⟨node, hnode, -⟩, -⟩ := Relation.TransGen.head'_iff.1 hchain
  obtain ⟨old, hold, -⟩ := (h.evolves.origin hnode).resolve_right id
  obtain ⟨scopes, hbelow⟩ : ∃ scopes, a.Below a.top ⟨scopes, .typeDecl d⟩ := by
    refine (exists_site htree h ?_).resolve_right nofun
    exact htree.mem_of_child hold List.mem_cons_self
  obtain ⟨outer, -, hmem, hsite, -⟩ := hpath scopes d d hbelow hchain
  exact hcircle outer.length outer d rfl hsite hmem hchain

/-! ### Following names where no id leads nowhere -/

/-- A type that is no name. -/
def TypeKind.Proper (kind : TypeKind) : Prop := ∀ name target, kind ≠ .named name target

namespace Arena

variable {t u r : TypeId} {hops : Nat}

/-- What a type stands for is there, and it is no name. -/
theorem exists_of_resolveWithin (h : a.resolveWithin hops t = .ok (some r)) :
    ∃ node, a.get? r = some node ∧ node.kind.Proper := by
  induction hops generalizing t with
  | zero => cases h
  | succ hops ih =>
      rw [resolveWithin] at h
      cases hget : a.get? t with
      | none => simp [get, hget, bind, Except.bind] at h
      | some node =>
          simp only [get_eq_ok.2 hget, bind, Except.bind] at h
          split at h
          · cases h
          · rename_i name d hkind
            cases hd : a.get d with
            | error fault =>
                rw [hd] at h
                cases h
            | ok declaration =>
                rw [hd] at h
                exact ih h
          · rename_i hnone hsome
            cases h
            refine ⟨node, hget, fun name target hkind => ?_⟩
            cases target with
            | none => exact hnone name hkind
            | some d => exact hsome name d hkind

/-- **Following names has no fault** where no id leads nowhere. -/
theorem Closed.exists_resolveWithin (h : a.Closed) (hops : Nat) (hhas : a.Has (.type t)) :
    ∃ found, a.resolveWithin hops t = .ok found := by
  induction hops generalizing t with
  | zero => exact ⟨none, rfl⟩
  | succ hops ih =>
      obtain ⟨node, hget⟩ := exists_of_has t hhas
      rw [resolveWithin]
      simp only [get_eq_ok.2 hget, bind, Except.bind]
      split
      · exact ⟨none, rfl⟩
      · rename_i name d hkind
        obtain ⟨declaration, hd⟩ := h.target hget hkind
        rw [get_eq_ok.2 hd]
        exact ih (h.declaredBy hd)
      · exact ⟨some t, rfl⟩

theorem Closed.exists_resolveType (h : a.Closed) (hhas : a.Has (.type t)) :
    ∃ found, a.resolveType t = .ok found :=
  h.exists_resolveWithin _ hhas

/-- **Comparing types has no fault** where no id leads nowhere. -/
theorem Closed.exists_sameWithin (h : a.Closed) (layers : Nat) (hleft : a.Has (.type t))
    (hright : a.Has (.type u)) : ∃ same, a.sameWithin layers t u = .ok same := by
  induction layers generalizing t u with
  | zero => exact ⟨false, rfl⟩
  | succ layers ih =>
      obtain ⟨found, hl⟩ := h.exists_resolveType hleft
      obtain ⟨found', hr⟩ := h.exists_resolveType hright
      rw [sameWithin, hl, hr]
      cases found with
      | none => exact ⟨false, rfl⟩
      | some l =>
          cases found' with
          | none => exact ⟨false, rfl⟩
          | some r =>
              obtain ⟨node, hget, -⟩ := exists_of_resolveWithin hl
              obtain ⟨node', hget', -⟩ := exists_of_resolveWithin hr
              simp only [get_eq_ok.2 hget, get_eq_ok.2 hget', bind, Except.bind]
              split
              · exact ⟨true, rfl⟩
              · split
                · exact ⟨true, rfl⟩
                · exact ⟨true, rfl⟩
                · exact ⟨true, rfl⟩
                · rename_i x _ y hx hy
                  exact ih (h.element hget hx) (h.element hget' hy)
                · exact ⟨false, rfl⟩

theorem Closed.exists_sameType (h : a.Closed) (hleft : a.Has (.type t)) (hright : a.Has (.type u)) :
    ∃ same, a.sameType t u = .ok same :=
  h.exists_sameWithin _ hleft hright

end Arena

/-! ### Resolving types -/

section

variable (h : a.Resolves b) (htree : a.IsTree nodes)

include h htree

/-- Enough hops lead to a type that is no name. The declarations on the way are all different. -/
theorem exists_resolveWithin {hops : Nat} {path : List TypeDeclId} {id : TypeId}
    (hhas : b.Has (.type id)) (hnodup : path.Nodup) (hpath : ∀ p ∈ path, b.Has (.typeDecl p))
    (hhops : b.count .typeDecl < hops + path.length)
    (hleads : ∀ p ∈ path, ∀ node name t, b.get? id = some node →
      node.kind = .named name (some t) → Relation.TransGen b.Leads p t) :
    ∃ r node, b.resolveWithin hops id = .ok (some r) ∧ b.get? r = some node ∧ node.kind.Proper := by
  have hclosed := h.closed htree
  induction hops generalizing path id with
  | zero =>
      have hle := b.length_le_count hnodup hpath
      omega
  | succ hops ih =>
      obtain ⟨node, hget⟩ := exists_of_has id hhas
      cases hkind : node.kind with
      | named name target =>
          obtain ⟨-, t, -, -, rfl⟩ := h.named_linked htree hget hkind
          obtain ⟨declaration, hdeclaration⟩ := hclosed.target hget hkind
          have hfresh : t ∉ path := fun hmem =>
            not_leads_self h htree (hleads t hmem node name t hget hkind)
          have hlonger : (t :: path).Nodup := List.nodup_cons.2 ⟨hfresh, hnodup⟩
          obtain ⟨r, found, hfound, hr, hproper⟩ := ih (hclosed.declaredBy hdeclaration) hlonger
            (List.forall_mem_cons.2 ⟨has_of_get? hdeclaration, hpath⟩)
            (by rw [List.length_cons]; omega) (by
              intro p hp next other t' hnext hother
              have hstep : b.Leads t t' := ⟨declaration, hdeclaration, .named hnext hother⟩
              rcases List.mem_cons.1 hp with rfl | hp
              · exact .single hstep
              · exact (hleads p hp node name t hget hkind).tail hstep)
          refine ⟨r, found, ?_, hr, hproper⟩
          simp [resolveWithin, get_eq_ok.2 hget, get_eq_ok.2 hdeclaration, hkind, bind, Except.bind,
            hfound]
      | integer | real | boolean | array | record =>
          refine ⟨id, node, ?_, hget, by rw [hkind]; rintro _ _ ⟨⟩⟩
          simp [resolveWithin, get_eq_ok.2 hget, hkind, bind, Except.bind, pure, Except.pure]

/-- **Every type stands for one that is no name.** -/
theorem Arena.Resolves.exists_resolved {id : TypeId} (hhas : b.Has (.type id)) :
    ∃ r node, b.resolveType id = .ok (some r) ∧ b.get? r = some node ∧ node.kind.Proper :=
  exists_resolveWithin h htree hhas List.nodup_nil nofun (Nat.lt_succ_self _) nofun

end

end ProcLang
