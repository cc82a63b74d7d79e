import ProcLang.Proofs.Names.Scope
import ProcLang.Proofs.Tree.Height

/-!
# ProcLang.Proofs.Names.Cycles

**Looking for circles of type declarations has no fault.** While names are resolved, every type
declaration leads to types and declarations that are there (`TypeLinksValid`), and the element type
of an array was made before the array. So following type declarations never reads a missing node,
and goes through fewer layers of arrays than there are types.

The search finds every circle: if it finds none, then no type declaration of the scope leads back to
itself (`circleFree_of_cyclicAmong`).
-/

namespace ProcLang

open Arena WalkM

variable {a b : Arena} {nodes : List Visit}

/-- An array type leads to a type that was made before it, and a name that is linked leads to a
declaration of `a`. -/
structure TypeLinkValid (a : Arena) (id : TypeId) (node : TypeNode) : Prop where
  array : ∀ length element, node.kind = .array length element → element.index < id.index
  named : ∀ name t, node.kind = .named name (some t) → a.Has (.typeDecl t)

theorem TypeLinkValid.change {id : TypeId} {node changed : TypeNode}
    (h : TypeLinkValid a id node) (hchange : Node.Change a .type node changed) :
    TypeLinkValid a id changed := by
  cases hchange with
  | length node hold hfresh =>
      refine ⟨fun length element hkind => ?_, fun name t hkind => (nomatch hkind)⟩
      cases hkind
      exact h.array _ _ hold
  | target node hold ht =>
      refine ⟨fun length element hkind => (nomatch hkind), fun name t hkind => ?_⟩
      cases hkind
      exact ht

/-- Of a type only the link of a name and the length of an array change. -/
theorem Node.Changes.type_cases {node node' : TypeNode} (h : Node.Changes a .type node node') :
    node'.kind = node.kind ∨
      (∃ name target target', node.kind = .named name target ∧ node'.kind = .named name target') ∨
      ∃ length length' element,
        node.kind = .array length element ∧ node'.kind = .array length' element := by
  induction h with
  | refl => exact Or.inl rfl
  | tail _ hchange ih =>
      cases hchange with
      | @length node _ _ element hold hfresh =>
          refine Or.inr (Or.inr ?_)
          rcases ih with hsame | ⟨name, target, target', -, hkind⟩ | ⟨l, l', other, hkind, hkind'⟩
          · exact ⟨_, _, element, hsame.symm.trans hold, rfl⟩
          · nomatch hold.symm.trans hkind
          · cases hold.symm.trans hkind'
            exact ⟨l, _, element, hkind, rfl⟩
      | @target node name _ t hold ht =>
          refine Or.inr (Or.inl ?_)
          rcases ih with hsame | ⟨other, target, target', hkind, hkind'⟩ | ⟨l, l', other, -, hkind⟩
          · exact ⟨name, _, _, hsame.symm.trans hold, rfl⟩
          · cases hold.symm.trans hkind'
            exact ⟨name, target, _, hkind, rfl⟩
          · nomatch hold.symm.trans hkind

/-- A type that is neither a name nor an array stays what it is. -/
theorem Node.Changes.eq_of_primitive {node node' : TypeNode} (h : Node.Changes a .type node node')
    (hkind : (∀ name target, node.kind ≠ .named name target) ∧
      ∀ length element, node.kind ≠ .array length element) : node' = node := by
  induction h with
  | refl => rfl
  | tail _ hchange ih =>
      subst ih
      cases hchange with
      | length node hold hfresh => exact absurd hold (hkind.2 _ _)
      | target node hold ht => exact absurd hold (hkind.1 _ _)

/-- An array stays an array of the same elements. -/
theorem Node.Changes.array {node node' : TypeNode} (h : Node.Changes a .type node node')
    {length : Option ExpressionId} {element : TypeId} (hkind : node.kind = .array length element) :
    ∃ length', node'.kind = .array length' element := by
  rcases h.type_cases with hsame | ⟨name, target, target', hold, -⟩ | ⟨l, l', other, hold, hnew⟩
  · exact ⟨length, hsame.trans hkind⟩
  · nomatch hold.symm.trans hkind
  · cases hold.symm.trans hkind
    exact ⟨l', hnew⟩

theorem Arena.IsTree.typeLinkValid (htree : a.IsTree nodes) {id : TypeId} {node : TypeNode}
    (hget : a.get? id = some node) : TypeLinkValid a id node where
  array length element hkind := htree.ordered id node length element hget hkind
  named name t hkind := by
    rcases htree.covers .type id node hget with hshared | ⟨-, hraw⟩
    · -- none of the shared types is a name
      obtain ⟨shared, hempty⟩ := exists_of_has id hshared
      obtain rfl : shared = node :=
        Option.some.inj ((htree.shared .type id shared hempty).symm.trans hget)
      have hmem := List.mem_of_getElem? (by simpa [get?, table, empty] using hempty)
      simp only [List.mem_cons, List.not_mem_nil, or_false] at hmem
      rcases hmem with rfl | rfl | rfl <;> cases hkind
    · cases hraw name (some t) hkind

theorem typeLinkValid_of_evolves (htree : a.IsTree nodes) (hevolves : Evolves a a b) {id : TypeId}
    {node : TypeNode} (hget : b.get? id = some node) : TypeLinkValid a id node := by
  rcases hevolves.added .type id node hget with hhas | hadded
  · obtain ⟨old, hold⟩ := exists_of_has id hhas
    obtain ⟨changed, hchanged, hchanges⟩ := hevolves.changed .type id old hold
    obtain rfl : changed = node := Option.some.inj (hchanged.symm.trans hget)
    clear hget hchanged
    induction hchanges with
    | refl => exact htree.typeLinkValid hold
    | tail _ hchange ih => exact ih.change hchange
  · exact hadded.elim

/-- A type declaration leads to a type that is there. -/
theorem Arena.IsTree.has_declared (htree : a.IsTree nodes) {id : TypeDeclId} {node : TypeDecl}
    (hget : a.get? id = some node) : a.Has (.type node.type) := by
  rcases htree.covers .typeDecl id node hget with hshared | ⟨hmem, -⟩
  · exact absurd (has_of.1 hshared) (Nat.not_lt_zero _)
  · refine htree.spans.has_of_mem (htree.spans.child_mem hmem ?_)
    rw [children_of_get? hget]
    exact List.mem_cons_self

section

variable (htree : a.IsTree nodes) (hevolves : Evolves a a b)

include htree hevolves

theorem exists_namedWithin {layers : Nat} {id : TypeId} (hhas : b.Has (.type id))
    (hlayers : id.index < layers) : ∃ found, b.namedWithin layers id = .ok found ∧
      ∀ t, found = some t → a.Has (.typeDecl t) := by
  induction layers generalizing id with
  | zero => exact absurd hlayers (Nat.not_lt_zero _)
  | succ layers ih =>
      obtain ⟨node, hget⟩ := exists_of_has id hhas
      have hvalid := typeLinkValid_of_evolves htree hevolves hget
      have hread : b.get id = .ok node := get_eq_ok.2 hget
      cases hkind : node.kind with
      | named name target =>
          refine ⟨target, by simp [namedWithin, hread, hkind, bind, Except.bind, pure, Except.pure], ?_⟩
          intro t ht
          exact hvalid.named name t (ht ▸ hkind)
      | array length element =>
          have hlt := hvalid.array length element hkind
          have helement : b.Has (.type element) :=
            has_of.2 (Nat.lt_trans hlt (index_lt_of_get? hget))
          obtain ⟨found, hfound, hdeclared⟩ := ih helement (by omega)
          exact ⟨found, by simp [namedWithin, hread, hkind, bind, Except.bind, hfound], hdeclared⟩
      | integer | real | boolean | record =>
          exact ⟨none, by simp [namedWithin, hread, hkind, bind, Except.bind, pure, Except.pure],
            nofun⟩

theorem exists_leadsTo {id : TypeDeclId} (hhas : a.Has (.typeDecl id)) :
    ∃ found, b.leadsTo id = .ok found ∧ ∀ t, found = some t → a.Has (.typeDecl t) := by
  obtain ⟨node, hget⟩ := exists_of_has id hhas
  obtain ⟨node', hget', hchanges⟩ := hevolves.changed .typeDecl id node hget
  obtain rfl := hchanges.typeDecl_eq
  have htype : b.Has (.type node'.type) := hevolves.has (htree.has_declared hget)
  obtain ⟨found, hfound, hdeclared⟩ := exists_namedWithin htree hevolves htype
    (Nat.lt_succ_of_lt (has_of.1 (show b.Has (Visit.of node'.type) from htype)))
  have hread : b.get id = .ok node' := get_eq_ok.2 hget'
  exact ⟨found, by simp [leadsTo, hread, bind, Except.bind, hfound], hdeclared⟩

theorem exists_circleWithin (start : TypeDeclId) (hops : Nat) (path : List TypeDeclId)
    {current : TypeDeclId} (hhas : a.Has (.typeDecl current)) :
    ∃ found, b.circleWithin start hops path current = .ok found := by
  induction hops generalizing path current with
  | zero => exact ⟨none, rfl⟩
  | succ hops ih =>
      obtain ⟨found, hfound, hdeclared⟩ := exists_leadsTo htree hevolves hhas
      rw [circleWithin]
      simp only [hfound, bind, Except.bind]
      cases found with
      | none => exact ⟨none, rfl⟩
      | some next =>
          dsimp only
          split
          · exact ⟨_, rfl⟩
          · split
            · exact ⟨_, rfl⟩
            · exact ih _ (hdeclared next rfl)

theorem exists_cyclicFrom (seen : List TypeDeclId) {ids : List TypeDeclId} (hhas : ∀ id ∈ ids, a.Has (.typeDecl id)) :
    ∃ found, b.cyclicFrom seen ids = .ok found ∧ found ⊆ ids := by
  induction ids generalizing seen with
  | nil => exact ⟨[], rfl, List.nil_subset _⟩
  | cons id rest ih =>
      have hrest := fun seen =>
        ih seen fun other hother => hhas other (List.mem_cons_of_mem _ hother)
      rw [cyclicFrom]
      split
      · obtain ⟨found, hfound, hsub⟩ := hrest seen
        exact ⟨found, hfound, List.Subset.trans hsub (List.subset_cons_self _ _)⟩
      · obtain ⟨circle, hcircle⟩ := exists_circleWithin htree hevolves id (b.count .typeDecl + 1)
          [id] (hhas id List.mem_cons_self)
        rw [← Arena.circle] at hcircle
        simp only [hcircle, bind, Except.bind]
        cases circle with
        | none =>
            obtain ⟨found, hfound, hsub⟩ := hrest seen
            exact ⟨found, hfound, List.Subset.trans hsub (List.subset_cons_self _ _)⟩
        | some members =>
            obtain ⟨found, hfound, hsub⟩ := hrest (members ++ seen)
            exact ⟨id :: found, by simp [hfound, pure, Except.pure], List.cons_subset_cons _ hsub⟩

/-! ### The search is complete -/

/-- **A search that finds no circle has seen all that its last declaration leads to.** Each of the
declarations `between` leads to another one of them, but for the last. -/
theorem not_leadsTo_of_circleWithin {start current : TypeDeclId} {between : List TypeDeclId}
    {hops : Nat} (hnone : b.circleWithin start hops (start :: between) current = .ok none)
    (hnodup : (start :: between).Nodup) (hhas : ∀ d ∈ start :: between, a.Has (.typeDecl d))
    (hlast : current ∈ start :: between) (hhops : b.count .typeDecl < hops + (start :: between).length)
    (hclosed : ∀ d ∈ between, d ≠ current → ∃ e ∈ between, b.leadsTo d = .ok (some e)) :
    ¬ Relation.TransGen (fun d e => b.leadsTo d = .ok (some e)) current start := by
  induction hops generalizing between current with
  | zero =>
      have hle := b.length_le_count hnodup fun d hd => hevolves.has (hhas d hd)
      omega
  | succ hops ih =>
      intro hback
      obtain ⟨found, hfound, hdeclared⟩ := exists_leadsTo htree hevolves (hhas current hlast)
      rw [circleWithin] at hnone
      simp only [hfound, bind, Except.bind] at hnone
      have hfirst : ∀ {e}, b.leadsTo current = .ok (some e) → found = some e := fun h =>
        Except.ok.inj (hfound.symm.trans h)
      cases found with
      | none =>
          obtain ⟨e, he, -⟩ := Relation.TransGen.head'_iff.1 hback
          nomatch hfirst he
      | some next =>
          dsimp only at hnone
          split at hnone
          · nomatch hnone
          · rename_i hstart
            split at hnone
            · -- what has been passed is closed, and the start is not part of it
              rename_i hmem
              have hnext : next ∈ between := (List.mem_cons.1 hmem).resolve_left hstart
              have hinside : ∀ e, Relation.TransGen (fun d e => b.leadsTo d = .ok (some e)) current e →
                  e ∈ between := by
                intro e he
                induction he with
                | single he =>
                    cases hfirst he
                    exact hnext
                | @tail d e _ he hd =>
                    by_cases hcurrent : d = current
                    · subst hcurrent
                      cases hfirst he
                      exact hnext
                    · obtain ⟨e', he', hlead⟩ := hclosed d hd hcurrent
                      cases Except.ok.inj (hlead.symm.trans he)
                      exact he'
              exact (List.nodup_cons.1 hnodup).1 (hinside start hback)
            · rename_i hfresh
              have hpath : start :: between ++ [next] = start :: (between ++ [next]) := rfl
              rw [hpath] at hnone
              refine ih hnone ?_ ?_ ?_ ?_ ?_ ?_
              · rw [← hpath]
                exact List.nodup_append.2 ⟨hnodup, List.nodup_singleton next, fun x hx y hy heq =>
                  hfresh (List.mem_singleton.1 hy ▸ heq ▸ hx)⟩
              · rw [← hpath]
                intro d hd
                rcases List.mem_append.1 hd with hd | hd
                · exact hhas d hd
                · rw [List.mem_singleton.1 hd]
                  exact hdeclared next rfl
              · exact List.mem_cons_of_mem _ (List.mem_append_right _ List.mem_cons_self)
              · rw [← hpath, List.length_append, List.length_singleton]
                omega
              · intro d hd hne
                have hd : d ∈ between := (List.mem_append.1 hd).resolve_right fun hd =>
                  hne (List.mem_singleton.1 hd)
                by_cases hcurrent : d = current
                · subst hcurrent
                  exact ⟨next, List.mem_append_right _ List.mem_cons_self, hfound⟩
                · obtain ⟨e, he, hlead⟩ := hclosed d hd hcurrent
                  exact ⟨e, List.mem_append_left _ he, hlead⟩
              · obtain ⟨e, he, hrest⟩ := Relation.TransGen.head'_iff.1 hback
                cases hfirst he
                rcases Relation.reflTransGen_iff_eq_or_transGen.1 hrest with heq | hrest
                · exact absurd heq.symm hstart
                · exact hrest

/-- If no circle is reported, then none goes through any of the given declarations. -/
theorem not_leadsTo_of_cyclicAmong {ids : List TypeDeclId} (hnone : b.cyclicAmong ids = .ok [])
    (hhas : ∀ id ∈ ids, a.Has (.typeDecl id)) : ∀ id ∈ ids,
      ¬ Relation.TransGen (fun d e => b.leadsTo d = .ok (some e)) id id := by
  rw [cyclicAmong] at hnone
  induction ids with
  | nil => nofun
  | cons id rest ih =>
      obtain ⟨circle, hcircle⟩ := exists_circleWithin htree hevolves id (b.count .typeDecl + 1)
        [id] (hhas id List.mem_cons_self)
      rw [cyclicFrom, if_neg List.not_mem_nil, Arena.circle] at hnone
      simp only [hcircle, bind, Except.bind] at hnone
      cases circle with
      | some members =>
          dsimp only at hnone
          split at hnone <;> nomatch hnone
      | none =>
          intro other hother
          rcases List.mem_cons.1 hother with rfl | hother
          · refine not_leadsTo_of_circleWithin htree hevolves hcircle (List.nodup_singleton _) ?_
              List.mem_cons_self (Nat.lt_succ_of_lt (Nat.lt_succ_self _)) nofun
            intro d hd
            rw [List.mem_singleton.1 hd]
            exact hhas _ List.mem_cons_self
          · exact ih hnone (fun d hd => hhas d (List.mem_cons_of_mem _ hd)) other hother

/-- Where the names of a type are resolved, it leads where the scopes say. -/
theorem namedWithin_of_names {ds : List Diagnostic} {scopes : List (List Declaration)} {id : TypeId}
    {t : TypeDeclId} (h : a.Names scopes id t)
    (hsettled : ∀ inner, a.Below ⟨scopes, .type id⟩ inner → inner.scopes = scopes →
      NamesResolved a b ds inner) {layers : Nat}
    (hlayers : id.index < layers) : b.namedWithin layers id = .ok (some t) := by
  induction h generalizing layers with
  | @named id node name target t hget hkind hname =>
      obtain ⟨layers, rfl⟩ := Nat.exists_eq_succ_of_ne_zero (Nat.ne_of_gt (Nat.zero_lt_of_lt hlayers))
      obtain ⟨linked, hlinked, hlink⟩ :=
        (hsettled _ (.here _) rfl).type id node name target rfl hget hkind
      cases hlink with
      | linked hname' hlink _ =>
          cases hname.symm.trans hname'
          simp [namedWithin, get_eq_ok.2 hlinked, hlink, bind, Except.bind, pure, Except.pure]
      | undeclared hname' => nomatch hname.symm.trans hname'
  | @element id node length element t hget hkind _ ih =>
      obtain ⟨layers, rfl⟩ := Nat.exists_eq_succ_of_ne_zero (Nat.ne_of_gt (Nat.zero_lt_of_lt hlayers))
      obtain ⟨node', hget', hchanges⟩ := hevolves.changed .type id node hget
      obtain ⟨length', hkind'⟩ := hchanges.array hkind
      have horder := htree.ordered id node length element hget hkind
      have hchild : (⟨scopes, .type element⟩ : Site) ∈ a.inside ⟨scopes, .type id⟩ := by
        rw [Visit.type_eq id, inside_of_get? hget]
        refine List.mem_map.2 ⟨.type element, ?_, rfl⟩
        rw [Node.children, hkind]
        exact List.mem_append_right _ List.mem_cons_self
      simp only [namedWithin, get_eq_ok.2 hget', hkind', bind, Except.bind]
      exact ih (fun inner hinner => hsettled inner (.inside hchild hinner)) (by omega)

/-- Where the names of a type declaration are resolved, it leads where the scopes say. -/
theorem leadsTo_of_names {ds : List Diagnostic} {scopes : List (List Declaration)} {d e : TypeDeclId}
    {node : TypeDecl} (hget : a.get? d = some node) (h : a.Names scopes node.type e)
    (hsettled : ∀ inner, a.Below ⟨scopes, .typeDecl d⟩ inner → inner.scopes = scopes →
      NamesResolved a b ds inner) : b.leadsTo d = .ok (some e) := by
  obtain ⟨node', hget', hchanges⟩ := hevolves.changed .typeDecl d node hget
  obtain rfl := hchanges.typeDecl_eq
  have hchild : (⟨scopes, .type node'.type⟩ : Site) ∈ a.inside ⟨scopes, .typeDecl d⟩ := by
    rw [Visit.typeDecl_eq d, inside_of_get? hget]
    exact List.mem_cons_self
  have htype : b.Has (Visit.of node'.type) := hevolves.has (htree.has_declared hget)
  rw [leadsTo, get_eq_ok.2 hget']
  exact namedWithin_of_names htree hevolves h
    (fun inner hinner => hsettled inner (.inside hchild hinner)) (Nat.lt_succ_of_lt (has_of.1 htype))

omit htree hevolves in
theorem mem_filterMap_type? {declarations : List Declaration} {d : TypeDeclId} :
    d ∈ declarations.filterMap Declaration.type? ↔ .type d ∈ declarations := by
  rw [List.mem_filterMap]
  constructor
  · rintro ⟨other, hother, heq⟩
    cases other with
    | type e =>
        cases heq
        exact hother
    | routine | «variable» => nomatch heq
  · exact fun hd => ⟨.type d, hd, rfl⟩

/-- **If no circle is reported, then the declarations of a scope are free of circles.** -/
theorem circleFree_of_cyclicAmong {ds : List Diagnostic} {scopes : List (List Declaration)}
    {declarations : List Declaration} (hhead : ∀ d, .type d ∈ scopes.headD [] → .type d ∈ declarations)
    (hhas : ∀ d, .type d ∈ declarations → a.Has (.typeDecl d))
    (hsettled : ∀ d, .type d ∈ declarations → ∀ inner, a.Below ⟨scopes, .typeDecl d⟩ inner →
      inner.scopes = scopes → NamesResolved a b ds inner)
    (hnone : b.cyclicAmong (declarations.filterMap Declaration.type?) = .ok []) :
    a.CircleFree scopes := by
  have hstep : ∀ d e, .type d ∈ declarations → a.LeadsInside scopes d e →
      b.leadsTo d = .ok (some e) := fun d e hd ⟨_, _, hget, hnames⟩ =>
    leadsTo_of_names htree hevolves hget hnames (hsettled d hd)
  intro d hd hcircle
  refine not_leadsTo_of_cyclicAmong htree hevolves hnone
    (fun id hid => hhas id (mem_filterMap_type?.1 hid)) d (mem_filterMap_type?.2 (hhead d hd)) ?_
  have hpath : ∀ e, Relation.TransGen (a.LeadsInside scopes) d e → .type e ∈ declarations ∧
      Relation.TransGen (fun d e => b.leadsTo d = .ok (some e)) d e := by
    intro e he
    induction he with
    | single he => exact ⟨hhead _ he.1, .single (hstep _ _ (hhead d hd) he)⟩
    | tail _ he ih => exact ⟨hhead _ he.1, ih.2.tail (hstep _ _ ih.1 he)⟩
  exact (hpath d hcircle).2

/-- **No fault.** Circles are looked for and reported, and nothing else happens. -/
theorem exists_runs_checkCycles (c : Scope) {s : WalkState Routines} (hs : s.arena = b)
    (declarations : List TypeDeclId) (hhas : ∀ id ∈ declarations, a.Has (.typeDecl id)) :
    ∃ s', Runs (checkCycles declarations) c s () s' ∧ Remarks a s s' ∧
      (s'.diagnostics = #[] → s.arena.cyclicAmong declarations = .ok []) := by
  subst hs
  obtain ⟨found, hfound, hsub⟩ := exists_cyclicFrom htree hevolves [] hhas
  suffices hreports : ∃ s', Runs (found.forM fun id => do
      let declaration ← node id
      report (.cyclicType declaration.name) declaration.span.start : NamesM Unit) c s () s' ∧
      Remarks a s s' ∧ (s'.diagnostics = #[] → found = []) by
    obtain ⟨s', hrun, hremarks, hnone⟩ := hreports
    exact ⟨s', runs_inspect_bind.2 ⟨found, hfound, hrun⟩, hremarks, fun h => hnone h ▸ hfound⟩
  clear hfound
  induction found generalizing s with
  | nil => exact ⟨s, runs_forM_nil.2 rfl, .refl a s, fun _ => rfl⟩
  | cons id rest ih =>
      have hid := hevolves.has (hhas id (hsub List.mem_cons_self))
      obtain ⟨node, hget⟩ := exists_of_has id hid
      have hreport : Remarks a s (s.reported (.cyclicType node.name) node.span.start) :=
        .reported a s rfl node.span.start
      obtain ⟨s', hrun, hremarks, -⟩ := ih (s := s.reported (.cyclicType node.name) node.span.start)
        hevolves (List.Subset.trans (List.subset_cons_self id rest) hsub)
      exact ⟨s', runs_forM_cons.2 ⟨_, runs_node_bind.2 ⟨node, hget, runs_report.2 rfl⟩, hrun⟩,
        hreport.trans hremarks,
        fun h => absurd (hremarks.effect.silent h) (Effect.reported_ne s _ _)⟩

end

end ProcLang
