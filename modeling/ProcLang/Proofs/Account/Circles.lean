import ProcLang.Proofs.Account.Remarks
import ProcLang.Proofs.Resolved.Tree

/-!
# ProcLang.Proofs.Account.Circles

**Each circle of type declarations is found once.** Following declarations in an arena, each leads to
one other at most. So what is reached from a declaration that leads back to itself is its circle
(`TransGen.back`), the search for a circle gives all of it (`mem_of_circle`), and the search among some
declarations gives the first member of each circle (`circleHeads_of_cyclicAmong`).

While a scope is resolved, what leads out of it never leads back into it. So in the scope the arena
has the same circles as the text (`transGen_leadsInside`).
-/

namespace ProcLang

open Arena WalkM

variable {a b : Arena} {nodes : List Visit}

/-! ### Heads of circles -/

namespace CircleHeads

variable {α : Type} {leads leads' : α → α → Prop} {seen xs heads : List α}

/-- Only what is reached from the members of the list counts. -/
theorem congr (h : CircleHeads leads seen xs heads)
    (hsame : ∀ x ∈ xs, ∀ y ∈ seen ++ xs, Relation.TransGen leads x y ↔ Relation.TransGen leads' x y) :
    CircleHeads leads' seen xs heads := by
  induction h with
  | nil => exact .nil
  | @head seen rest heads x hcircle hnew _ ih =>
      have hfirst := hsame x List.mem_cons_self
      refine .head ((hfirst x (List.mem_append_right _ List.mem_cons_self)).1 hcircle)
        (fun y hy hxy => hnew y hy ((hfirst y (List.mem_append_left _ hy)).2 hxy)) (ih ?_)
      intro z hz y hy
      refine hsame z (List.mem_cons_of_mem _ hz) y ?_
      simpa [or_left_comm] using hy
  | @pass seen rest heads x hpass _ ih =>
      have hfirst := hsame x List.mem_cons_self
      refine .pass (fun hcircle => ?_) (ih ?_)
      · obtain ⟨y, hy, hxy⟩ :=
          hpass ((hfirst x (List.mem_append_right _ List.mem_cons_self)).2 hcircle)
        exact ⟨y, hy, (hfirst y (List.mem_append_left _ hy)).1 hxy⟩
      · intro z hz y hy
        refine hsame z (List.mem_cons_of_mem _ hz) y ?_
        simpa [or_left_comm] using hy

theorem subset (h : CircleHeads leads seen xs heads) : heads ⊆ xs := by
  induction h with
  | nil => exact List.Subset.refl _
  | head _ _ _ ih => exact List.cons_subset_cons _ ih
  | pass _ _ ih => exact List.subset_cons_of_subset _ ih

end CircleHeads

/-- Where each member leads to one other at most, what is reached from a member of a circle leads back
to it. -/
theorem transGen_back {α : Type} {leads : α → α → Prop}
    {x y : α} (hcircle : Relation.TransGen leads x x) (h : Relation.ReflTransGen leads x y)
    (hunique : ∀ x y z, leads x y → leads x z → y = z) : Relation.TransGen leads y x := by
  induction h with
  | refl => exact hcircle
  | tail _ hstep ih =>
      obtain ⟨z, hz, hback⟩ := Relation.TransGen.head'_iff.1 ih
      obtain rfl := hunique _ _ _ hstep hz
      exact hcircle.trans_right hback

/-! ### The search -/

namespace Arena

/-- A type declaration leads to another one as the arena is now. -/
def LeadsNow (b : Arena) (d e : TypeDeclId) : Prop := b.leadsTo d = .ok (some e)

theorem LeadsNow.unique {d e f : TypeDeclId} (h : b.LeadsNow d e) (h' : b.LeadsNow d f) : e = f :=
  Option.some.inj (Except.ok.inj (h.symm.trans h'))

/-- What is reached from a member of a circle leads back to it. -/
theorem LeadsNow.back {d e : TypeDeclId} (hcircle : Relation.TransGen b.LeadsNow d d)
    (h : Relation.ReflTransGen b.LeadsNow d e) : Relation.TransGen b.LeadsNow e d :=
  transGen_back hcircle h fun _ _ _ => LeadsNow.unique

/-- The search has passed `path` on its way from the first declaration to the current one. -/
theorem mem_of_circleWithin {start current : TypeDeclId} {path members : List TypeDeclId}
    {hops : Nat} (h : b.circleWithin start hops path current = .ok (some members))
    (hcurrent : current ∈ path) (hreached : ∀ d ∈ path, Relation.ReflTransGen b.LeadsNow start d)
    (hclosed : ∀ d ∈ path, d ≠ current → ∃ e ∈ path, b.LeadsNow d e) (hstart : start ∈ path) :
    Relation.TransGen b.LeadsNow start start ∧
      ∀ e, e ∈ members ↔ Relation.ReflTransGen b.LeadsNow start e := by
  induction hops generalizing path current with
  | zero => cases h
  | succ hops ih =>
      rw [circleWithin] at h
      cases hleads : b.leadsTo current with
      | error fault => simp [hleads, bind, Except.bind] at h
      | ok found =>
          simp only [hleads, bind, Except.bind] at h
          cases found with
          | none => cases h
          | some next =>
              have hstep : b.LeadsNow current next := hleads
              dsimp only at h
              split at h
              · rename_i hback
                obtain rfl : path = members := Option.some.inj (Except.ok.inj h)
                subst hback
                refine ⟨.tail' (hreached current hcurrent) hstep, fun e => ⟨hreached e, fun he => ?_⟩⟩
                -- the path is closed, now that its last member leads to the first one
                induction he with
                | refl => exact hstart
                | @tail d e _ hde hd =>
                    by_cases hlast : d = current
                    · subst hlast
                      exact hstep.unique hde ▸ hstart
                    · obtain ⟨f, hf, hdf⟩ := hclosed d hd hlast
                      exact hdf.unique hde ▸ hf
              · split at h
                · cases h
                · refine ih h (List.mem_append_right _ List.mem_cons_self) (fun d hd => ?_)
                    (fun d hd hne => ?_) (List.mem_append_left _ hstart)
                  · rcases List.mem_append.1 hd with hd | hd
                    · exact hreached d hd
                    · rw [List.mem_singleton.1 hd]
                      exact (hreached current hcurrent).tail hstep
                  · have hd : d ∈ path := (List.mem_append.1 hd).resolve_right fun hd =>
                      hne (List.mem_singleton.1 hd)
                    by_cases hlast : d = current
                    · subst hlast
                      exact ⟨next, List.mem_append_right _ List.mem_cons_self, hstep⟩
                    · obtain ⟨e, he, hde⟩ := hclosed d hd hlast
                      exact ⟨e, List.mem_append_left _ he, hde⟩

/-- **A circle that is found is the whole one.** -/
theorem mem_of_circle {d : TypeDeclId} {members : List TypeDeclId}
    (h : b.circle d = .ok (some members)) : Relation.TransGen b.LeadsNow d d ∧
      ∀ e, e ∈ members ↔ Relation.ReflTransGen b.LeadsNow d e := by
  refine mem_of_circleWithin h List.mem_cons_self (fun e he => ?_) (fun e he hne => ?_)
    List.mem_cons_self
  · rw [List.mem_singleton.1 he]
  · exact absurd (List.mem_singleton.1 he) hne

end Arena

section

variable (htree : a.IsTree nodes) (hevolves : Evolves a a b)

include htree hevolves

/-- A declaration on no circle is not taken for one that is. -/
theorem not_transGen_of_circle {d : TypeDeclId} (h : b.circle d = .ok none)
    (hhas : a.Has (.typeDecl d)) : ¬ Relation.TransGen b.LeadsNow d d := by
  refine not_leadsTo_of_circleWithin htree hevolves h (List.nodup_singleton _) (fun e he => ?_)
    List.mem_cons_self (Nat.lt_succ_of_lt (Nat.lt_succ_self _)) nofun
  rw [List.mem_singleton.1 he]
  exact hhas

/-- **The first member of each circle.** The declarations in `passed` are the members of all circles
that go through declarations in `seen`. -/
theorem circleHeads_of_cyclicFrom {passed seen ids heads : List TypeDeclId}
    (h : b.cyclicFrom passed ids = .ok heads) (hhas : ∀ d ∈ ids, a.Has (.typeDecl d))
    (hpassed : ∀ e, e ∈ passed ↔ ∃ d ∈ seen, Relation.TransGen b.LeadsNow d d ∧
      Relation.ReflTransGen b.LeadsNow d e) : CircleHeads b.LeadsNow seen ids heads := by
  induction ids generalizing passed seen heads with
  | nil =>
      obtain rfl : [] = heads := Except.ok.inj h
      exact .nil
  | cons d rest ih =>
      have hrest := fun e he => hhas e (List.mem_cons_of_mem _ he)
      rw [cyclicFrom] at h
      by_cases hmem : d ∈ passed
      · rw [if_pos hmem] at h
        obtain ⟨y, hy, hcircle, hreach⟩ := (hpassed d).1 hmem
        refine .pass (fun _ => ⟨y, hy, LeadsNow.back hcircle hreach⟩) (ih h hrest fun e => ?_)
        refine (hpassed e).trans ⟨.imp fun z => And.imp_left (List.mem_cons_of_mem d), ?_⟩
        rintro ⟨z, hz, hzz, hze⟩
        rcases List.mem_cons.1 hz with rfl | hz
        · exact ⟨y, hy, hcircle, hreach.trans hze⟩
        · exact ⟨z, hz, hzz, hze⟩
      · rw [if_neg hmem] at h
        cases hfound : b.circle d with
        | error fault => simp [hfound, bind, Except.bind] at h
        | ok found =>
            simp only [hfound, bind, Except.bind] at h
            cases found with
            | none =>
                have hno := not_transGen_of_circle htree hevolves hfound (hhas d List.mem_cons_self)
                refine .pass (fun hcircle => absurd hcircle hno) (ih h hrest fun e => ?_)
                refine (hpassed e).trans ⟨.imp fun z => And.imp_left (List.mem_cons_of_mem d), ?_⟩
                rintro ⟨z, hz, hzz, hze⟩
                rcases List.mem_cons.1 hz with rfl | hz
                · exact absurd hzz hno
                · exact ⟨z, hz, hzz, hze⟩
            | some members =>
                obtain ⟨hcircle, hmembers⟩ := mem_of_circle hfound
                dsimp only at h
                split at h
                · cases h
                · rename_i others hothers
                  obtain rfl : d :: others = heads := Except.ok.inj h
                  refine .head hcircle (fun y hy hdy => hmem ?_) (ih hothers hrest fun e => ?_)
                  · -- the circle would have been passed at its earlier member
                    have hyd := LeadsNow.back hcircle hdy.to_reflTransGen
                    exact (hpassed d).2 ⟨y, hy, hyd.trans hdy, hyd.to_reflTransGen⟩
                  · rw [List.mem_append, hmembers, hpassed]
                    constructor
                    · rintro (he | ⟨z, hz, hze⟩)
                      · exact ⟨d, List.mem_cons_self, hcircle, he⟩
                      · exact ⟨z, List.mem_cons_of_mem _ hz, hze⟩
                    · rintro ⟨z, hz, hzz, hze⟩
                      rcases List.mem_cons.1 hz with rfl | hz
                      · exact Or.inl hze
                      · exact Or.inr ⟨z, hz, hzz, hze⟩

/-- **The first member of each circle** among some declarations. -/
theorem circleHeads_of_cyclicAmong {ids heads : List TypeDeclId}
    (h : b.cyclicAmong ids = .ok heads) (hhas : ∀ d ∈ ids, a.Has (.typeDecl d)) :
    CircleHeads b.LeadsNow [] ids heads := by
  refine circleHeads_of_cyclicFrom htree hevolves h hhas fun e => ?_
  simp

/-! ### The arena and the text -/

omit hevolves in
/-- The named types in a tree that was just read have no links. -/
theorem Arena.IsTree.named_unlinked {id : TypeId} {node : TypeNode} (hget : a.get? id = some node)
    {name : String} {target : Option TypeDeclId} (hkind : node.kind = .named name target) :
    target = none := by
  rcases htree.covers .type id node hget with hshared | ⟨-, hraw⟩
  · exact absurd hshared (htree.fresh _ (htree.mem_of_named hget hkind))
  · exact hraw name target hkind

/-- Where the names of a type are resolved, it leads nowhere else than the scopes say. -/
theorem names_of_namedWithin {ds : List Diagnostic} {scopes : List (List Declaration)} {id : TypeId}
    {t : TypeDeclId} {layers : Nat} (h : b.namedWithin layers id = .ok (some t))
    (hhas : a.Has (.type id))
    (hsettled : ∀ inner, a.Below ⟨scopes, .type id⟩ inner → inner.scopes = scopes →
      NamesResolved a b ds inner) : a.Names scopes id t := by
  induction layers generalizing id with
  | zero => cases h
  | succ layers ih =>
      obtain ⟨node, hget⟩ := exists_of_has id hhas
      obtain ⟨node', hget', hchanges⟩ := hevolves.changed .type id node hget
      simp only [namedWithin, get_eq_ok.2 hget', bind, Except.bind] at h
      cases hkind' : node'.kind with
      | named name target =>
          rw [hkind'] at h
          obtain rfl : target = some t := Except.ok.inj h
          obtain ⟨old, hkind⟩ := hchanges.exists_named hkind'
          obtain ⟨linked, hlinked, hlink⟩ :=
            (hsettled _ (.here _) rfl).type id node name old rfl hget hkind
          obtain rfl := Option.some.inj (hlinked.symm.trans hget')
          cases hlink with
          | linked hname hlink _ =>
              rw [hlink] at hkind'
              cases hkind'
              exact .named hget hkind hname
          | undeclared hname hlink _ =>
              rw [hlink] at hkind'
              cases htree.named_unlinked hget hkind'
      | array length element =>
          rw [hkind'] at h
          obtain ⟨old, hkind⟩ := hchanges.exists_array hkind'
          have hmem : Visit.type element ∈ Node.children .type node := by
            rw [Node.children, hkind]
            exact List.mem_append_right _ List.mem_cons_self
          have hchild : (⟨scopes, .type element⟩ : Site) ∈ a.inside ⟨scopes, .type id⟩ := by
            rw [Visit.type_eq id, inside_of_get? hget]
            exact List.mem_map_of_mem hmem
          refine .element hget hkind (ih h ?_ fun inner hinner => hsettled inner (.inside hchild hinner))
          exact htree.spans.has_of_mem (htree.spans.child_mem (htree.mem_of_child hget hmem)
            (children_of_get? hget ▸ hmem))
      | integer | real | boolean | record =>
          rw [hkind'] at h
          cases h

/-- Where the names of a type declaration are resolved, it leads where the scopes say. -/
theorem leadsNow_iff {ds : List Diagnostic} {scopes : List (List Declaration)} {d e : TypeDeclId}
    {node : TypeDecl} (hget : a.get? d = some node)
    (hsettled : ∀ inner, a.Below ⟨scopes, .typeDecl d⟩ inner → inner.scopes = scopes →
      NamesResolved a b ds inner) : b.LeadsNow d e ↔ a.Names scopes node.type e := by
  refine ⟨fun h => ?_, fun h => leadsTo_of_names htree hevolves hget h hsettled⟩
  obtain ⟨node', hget', hchanges⟩ := hevolves.changed .typeDecl d node hget
  obtain rfl := hchanges.typeDecl_eq
  have hchild : (⟨scopes, .type node'.type⟩ : Site) ∈ a.inside ⟨scopes, .typeDecl d⟩ := by
    rw [Visit.typeDecl_eq d, inside_of_get? hget]
    exact List.mem_cons_self
  rw [LeadsNow, leadsTo, get_eq_ok.2 hget'] at h
  exact names_of_namedWithin htree hevolves h (htree.has_declared hget)
    fun inner hinner => hsettled inner (.inside hchild hinner)

end

/-- What a type names is declared around it. -/
theorem Arena.Names.exists_scope {scopes : List (List Declaration)} {t : TypeId} {e : TypeDeclId}
    (h : a.Names scopes t e) : ∃ scope ∈ scopes, .type e ∈ scope := by
  induction h with
  | named _ _ hname =>
      obtain ⟨scope, hscope, d, hd, -, hselect⟩ := innermost_mem hname
      cases d with
      | type id =>
          cases hselect
          exact ⟨scope, hscope, hd⟩
      | routine | «variable» => nomatch hselect
  | element _ _ _ ih => exact ih

/-- What is around a scope leads to nothing inside of it. The part of the tree with the scope is `N`. -/
structure LeadsOutward (a b : Arena) (scopes : List (List Declaration)) (N : Visit → Prop) : Prop where
  inner : ∀ d, .type d ∈ scopes.headD [] → N (.typeDecl d)
  outer : ∀ scope ∈ scopes.tail, ∀ d, .type d ∈ scope → ¬ N (.typeDecl d)
  outward : ∀ d e, ¬ N (.typeDecl d) → b.LeadsNow d e → ¬ N (.typeDecl e)

/-- **The circles of a scope are those of the text.** -/
theorem transGen_leadsInside {ds : List Diagnostic} {scopes : List (List Declaration)}
    {N : Visit → Prop} (htree : a.IsTree nodes) (hevolves : Evolves a a b)
    (houtward : LeadsOutward a b scopes N)
    (hhas : ∀ d, .type d ∈ scopes.headD [] → a.Has (.typeDecl d))
    (hsettled : ∀ d, .type d ∈ scopes.headD [] → ∀ inner, a.Below ⟨scopes, .typeDecl d⟩ inner →
      inner.scopes = scopes → NamesResolved a b ds inner) {d e : TypeDeclId}
    (hd : .type d ∈ scopes.headD []) (he : .type e ∈ scopes.headD []) :
    Relation.TransGen b.LeadsNow d e ↔ Relation.TransGen (a.LeadsInside scopes) d e := by
  -- a step from a declaration of the scope, seen from both sides
  have hinside : ∀ {d e}, .type d ∈ scopes.headD [] → a.LeadsInside scopes d e → b.LeadsNow d e := by
    intro d e hd hleads
    obtain ⟨-, node, hget, hnames⟩ := hleads
    exact (leadsNow_iff htree hevolves hget (hsettled d hd)).2 hnames
  have hstep : ∀ {d e}, .type d ∈ scopes.headD [] → b.LeadsNow d e →
      .type e ∈ scopes.headD [] ∧ a.LeadsInside scopes d e ∨ ¬ N (.typeDecl e) := by
    intro d e hd hleads
    obtain ⟨node, hget⟩ := exists_of_has d (hhas d hd)
    have hnames := (leadsNow_iff htree hevolves hget (hsettled d hd)).1 hleads
    obtain ⟨scope, hscope, hmem⟩ := hnames.exists_scope
    cases scopes with
    | nil => nomatch hscope
    | cons innermost rest =>
        rcases List.mem_cons.1 hscope with rfl | hscope
        · exact Or.inl ⟨hmem, hmem, node, hget, hnames⟩
        · exact Or.inr (houtward.outer scope hscope e hmem)
  constructor
  · intro hpath
    have hstays : .type e ∈ scopes.headD [] ∧ Relation.TransGen (a.LeadsInside scopes) d e ∨
        ¬ N (.typeDecl e) := by
      clear he
      induction hpath with
      | single he => exact (hstep hd he).imp_left fun ⟨hmem, hleads⟩ => ⟨hmem, .single hleads⟩
      | @tail e f _ hf ih =>
          rcases ih with ⟨hmem, hpath⟩ | hout
          · exact (hstep hmem hf).imp_left fun ⟨hmem, hleads⟩ => ⟨hmem, hpath.tail hleads⟩
          · exact Or.inr (houtward.outward e f hout hf)
    exact (hstays.resolve_right fun hout => hout (houtward.inner e he)).2
  · intro hpath
    clear he
    induction hpath with
    | single he => exact .single (hinside hd he)
    | tail hpath hf ih =>
        obtain ⟨f, -, hlast⟩ := Relation.TransGen.tail'_iff.1 hpath
        exact ih.tail (hinside hlast.1 hf)

end ProcLang
