import ProcLang.Proofs.Again.Sites

/-!
# ProcLang.Proofs.Again.Scopes

**Scopes that are visited again.** A scope that declares a name twice is left alone again, with the same
reports. In any other scope the types are visited, the circles among them are those that were found
before, and then the other declarations are visited (`exists_retold_declarations`); after them come the
statements of a body (`retelling_resolveBody`).
-/

namespace ProcLang

open Arena WalkM

variable {a b : Arena} {nodes : List Visit} {outcome : PassOutcome}
  {below : Visit → NamesM (Option ExpressionId)} {scopes : List (List Declaration)} {v : Visit}
  {site : Site} {s : WalkState Routines}

section

variable (htree : a.IsTree nodes)

include htree

/-- Nodes of one sort, right below a site, have their turns. -/
theorem retelling_visitEach {α : Type} {f : α → Visit} {xs : List α} (hbelow : a.Below a.top site)
    (hdistinct : a.DistinctScopes site.scopes)
    (hinside : ∀ x ∈ xs, (⟨site.scopes, f x⟩ : Site) ∈ a.inside site)
    (hexpression : ∀ x e, f x ≠ .expression e) (hbody : ∀ x id, f x ≠ .body id)
    (hready : ReadyAgain a b below v) (hcontains : ∀ x ∈ xs, b.Contains v (f x)) (hs : a.Rests b s) :
    Retelling a b (visitEach below f xs) (a.scopeOf site.scopes)
      (xs.map fun x => ⟨site.scopes, f x⟩) s := by
  have hrevisited : ∀ x ∈ xs, a.Revisited b ⟨site.scopes, f x⟩ (f x) := fun x hx =>
    revisited_of_mem_inside htree hbelow hdistinct (hinside x hx) (hexpression x) fun id heq =>
      absurd heq (hbody x id)
  have hall : List.Forall₂ (a.Revisited b) (xs.map fun x => ⟨site.scopes, f x⟩) (xs.map f) :=
    forall₂_map_iff.2 (List.forall₂_same.2 hrevisited)
  refine .of_turns hall (turns_visitEach (fun x hx => ?_) hs)
  refine hready.nodes _ (hcontains x hx) _ ⟨_, hrevisited x hx, ?_⟩
  rw [around_of_mem_inside (hinside x hx)]

/-- Entries in a list of declarations have their turns. -/
theorem retelling_entries {declarations : List Declaration} (hbelow : a.Below a.top site)
    (hdistinct : a.DistinctScopes site.scopes)
    (hinside : ∀ d ∈ declarations, (⟨site.scopes, d.visit⟩ : Site) ∈ a.inside site)
    (hready : ReadyAgain a b below v) (hcontains : ∀ d ∈ declarations, b.Contains v d.visit)
    (hs : a.Rests b s) :
    Retelling a b (visitEach below .declaration declarations) (a.scopeOf site.scopes)
      (declarations.map fun d => ⟨site.scopes, d.visit⟩) s := by
  have hrevisited : ∀ d ∈ declarations, a.Revisited b ⟨site.scopes, d.visit⟩ d.visit := fun d hd =>
    revisited_of_mem_inside htree hbelow hdistinct (hinside d hd) (by cases d <;> nofun) fun id heq =>
      absurd heq (d.visit_ne_body id)
  have hall : List.Forall₂ (a.Revisited b) (declarations.map fun d => ⟨site.scopes, d.visit⟩)
      (declarations.map Declaration.visit) := forall₂_map_iff.2 (List.forall₂_same.2 hrevisited)
  refine .of_turns hall (turns_forM (fun d hd s hs => ?_) hs)
  obtain ⟨s', hrun, hs', hP⟩ := hready.declarations d (hcontains d hd) (a.scopeOf site.scopes)
    ⟨_, hrevisited d hd, by rw [around_of_mem_inside (hinside d hd)]⟩ s hs
  exact ⟨s', runs_discard.2 ⟨none, hrun⟩, hs', .single hP⟩

variable (h : a.Settles nodes outcome)

include h

/-- **Circles are looked for again**, and those that were found before are reported. -/
theorem exists_retold_cycles {ids : List TypeDeclId} (hbelow : a.Below a.top site)
    (hdistinct : a.DistinctScopes site.scopes) (hids : ∀ d ∈ ids, .type d ∈ site.scopes.headD [])
    (c : Scope) (hs : a.Rests outcome.arena s) :
    ∃ s' heads, Runs (checkCycles ids) c s () s' ∧ a.Rests outcome.arena s' ∧
      CircleHeads (a.LeadsInside site.scopes) [] ids heads ∧
      Told a [] [] (heads.map a.cyclic) s s' := by
  have hhas : ∀ d ∈ ids, a.Has (.typeDecl d) := fun d hd => htree.spans.has_of_mem
    ((htree.site_mem (hbelow.declared (List.suffix_refl _) (hids d hd))).resolve_left nofun)
  have hevolves : Evolves a a s.arena := hs.arena.symm ▸ h.evolves
  obtain ⟨s', hrun, hremarks, -⟩ := exists_runs_checkCycles htree hevolves c rfl ids hhas
  obtain ⟨found, hfound, hsub⟩ := exists_cyclicFrom htree hevolves [] hhas
  obtain ⟨heads, hheads, htold⟩ := checkCycles_told [] [] hevolves hhas (fun heads hheads => by
    obtain rfl : found = heads := Except.ok.inj (hfound.symm.trans hheads)
    exact hsub) hrun
  -- the tree is the resolved one, where every chain of types is linked
  rw [hs.arena] at hheads
  exact ⟨s', heads, hrun, hs.remarks hremarks, h.circleHeads htree hbelow hdistinct hids hheads, htold⟩

/-- **The declarations of a scope are visited again**: the types, then the circles among them are
reported, and then the others are visited. -/
theorem exists_retold_declarations {declarations : List Declaration} (hbelow : a.Below a.top site)
    (hdistinct : a.DistinctScopes site.scopes)
    (hinside : ∀ d ∈ declarations, (⟨site.scopes, d.visit⟩ : Site) ∈ a.inside site)
    (hdeclared : ∀ d, .type d ∈ declarations → .type d ∈ site.scopes.headD [])
    (hready : ReadyAgain a outcome.arena below v)
    (hcontains : ∀ d ∈ declarations, outcome.arena.Contains v d.visit)
    (hs : a.Rests outcome.arena s) :
    ∃ s' types heads others,
      Runs (resolveDeclarations below declarations) (a.scopeOf site.scopes) s () s' ∧
      a.Rests outcome.arena s' ∧
      a.Account ((declarations.filterMap Declaration.type?).map fun d => ⟨site.scopes, .typeDecl d⟩)
        types ∧
      CircleHeads (a.LeadsInside site.scopes) [] (declarations.filterMap Declaration.type?) heads ∧
      a.Account ((declarations.filter fun d => d.type?.isNone).map fun d => ⟨site.scopes, d.visit⟩)
        others ∧
      Told a [] [] (types ++ heads.map a.cyclic ++ others) s s' := by
  have htype : ∀ d ∈ declarations.filterMap Declaration.type?, .type d ∈ declarations := fun d hd =>
    mem_filterMap_type?.1 hd
  obtain ⟨s₁, hrun₁, hs₁, types, htypes, htold₁⟩ := retelling_visitEach htree (f := Visit.typeDecl)
    hbelow hdistinct (fun d hd => hinside _ (htype d hd)) nofun nofun hready
    (fun d hd => hcontains _ (htype d hd)) hs
  obtain ⟨s₂, heads, hrun₂, hs₂, hheads, htold₂⟩ := exists_retold_cycles htree h hbelow hdistinct
    (fun d hd => hdeclared d (htype d hd)) (a.scopeOf site.scopes) hs₁
  obtain ⟨s₃, hrun₃, hs₃, others, hothers, htold₃⟩ := retelling_entries htree hbelow hdistinct
    (fun d hd => hinside d (List.mem_filter.1 hd).1) hready
    (fun d hd => hcontains d (List.mem_filter.1 hd).1) hs₂
  exact ⟨s₃, types, heads, others, runs_bind.2 ⟨(), s₁, hrun₁, runs_bind.2 ⟨(), s₂, hrun₂, hrun₃⟩⟩,
    hs₃, htypes, hheads, hothers, (htold₁.trans htold₂).trans htold₃⟩

/-! ### Bodies -/

/-- A body that declares a name twice is left alone again. -/
theorem retelling_abandoned {seeds : List VariableId} {id : BodyId} {node : Body}
    (hbelow : a.Below a.top (a.bodySite seeds scopes id)) (hget : a.get? id = some node)
    (hrepeated : ¬ ((seeds.map Declaration.variable ++ node.declarations).map a.nameOf).Nodup)
    (hread : outcome.arena.get? id = some node) (hs : a.Rests outcome.arena s) :
    Retelling a outcome.arena (resolveBody below seeds id) (a.scopeOf scopes)
      [a.bodySite seeds scopes id] s := by
  have hsite := bodySite_of_get? hget seeds scopes
  have hhas := htree.has_of_scope hbelow
  rw [hsite] at hhas ⊢
  have hevolves : Evolves a a s.arena := hs.arena.symm ▸ h.evolves
  obtain ⟨s₁, hdeclare, hremarks, -⟩ := exists_runs_declareScope_repeated scopes
    (s := s.noted (.scopeEntered node.span.start)) hevolves hrepeated (hhas _ List.mem_cons_self)
  -- no routines are declared in it
  rw [routinesOf_eq_nil (routine_not_mem_bodySite htree hget seeds) (firstsAfter_subset [] _),
    List.append_nil] at hdeclare
  obtain ⟨-, htold, -⟩ := declareScope_told [] [] hdeclare hevolves (hhas _ List.mem_cons_self)
  refine ⟨s₁.noted (.scopeLeft node.span.start), ?_, ((hs.noted _).remarks hremarks).noted _, _,
    .repeated rfl (fun hnone => ?_) .nil, ?_⟩
  · -- nothing is walked behind the declarations
    refine runs_node_bind.2 ⟨node, hs.arena.symm ▸ hread, runs_note_bind.2 ?_⟩
    exact runs_bind.2 ⟨none, s₁, hdeclare, runs_note.2 rfl⟩
  · exact hrepeated ((repeated_eq_nil_iff (hhas _ List.mem_cons_self)).1 hnone)
  · have hentered : Told a [] [] [] s (s.noted (.scopeEntered node.span.start)) := .noted s _
    have hall := (hentered.trans htold).trans (.noted s₁ (.scopeLeft node.span.start))
    rwa [List.nil_append] at hall

/-- **A body is visited again** in the scope that it opens. -/
theorem retelling_resolveBody {seeds : List VariableId} {id : BodyId}
    (hbelow : a.Below a.top (a.bodySite seeds scopes id)) (hdistinct : a.DistinctScopes scopes)
    (hready : ReadyAgain a outcome.arena below v) (hreaches : outcome.arena.Reaches v (.body id))
    (hs : a.Rests outcome.arena s) :
    Retelling a outcome.arena (resolveBody below seeds id) (a.scopeOf scopes)
      [a.bodySite seeds scopes id] s := by
  have hmem : Visit.body id ∈ nodes := (htree.site_mem hbelow).resolve_left nofun
  obtain ⟨node, hget⟩ := exists_of_has id (htree.spans.has_of_mem hmem)
  obtain ⟨node', hget', hchanges⟩ := h.evolves.changed .body id node hget
  obtain rfl := hchanges.body_eq
  have hsite := bodySite_of_get? hget seeds scopes
  by_cases hnodup : ((seeds.map Declaration.variable ++ node'.declarations).map a.nameOf).Nodup
  swap
  · exact retelling_abandoned htree h hbelow hget hnodup hget' hs
  have hhas := htree.has_of_scope hbelow
  have hinner : a.DistinctScopes (a.bodySite seeds scopes id).scopes := by
    rw [hsite]
    exact List.forall_mem_cons.2 ⟨hnodup, hdistinct⟩
  -- what stands in the body stands right below its site, in the scope that it opens
  have hinside : a.inside (a.bodySite seeds scopes id) =
      (Node.children .body node').map (Site.mk (a.bodySite seeds scopes id).scopes) := by
    rw [hsite, Visit.body_eq id, inside_of_get? hget]
    rfl
  have hdeclaration : ∀ d ∈ node'.declarations, d.visit ∈ Node.children .body node' := fun d hd =>
    List.mem_append_left _ (List.mem_map_of_mem hd)
  have hstatement : ∀ id' ∈ node'.statements, Visit.statement id' ∈ Node.children .body node' :=
    fun id' hid' => List.mem_append_right _ (List.mem_map_of_mem hid')
  have hcontains : ∀ w ∈ Node.children .body node', outcome.arena.Contains v w := fun w hw =>
    Relation.TransGen.tail' hreaches (by
      rw [Visit.body_eq id, children_of_get? hget']
      exact hw)
  obtain ⟨s₁, types, heads, others, hrun₁, hs₁, htypes, hheads, hothers, htold⟩ :=
    exists_retold_declarations htree h hbelow hinner
      (fun d hd => by rw [hinside]; exact List.mem_map_of_mem (hdeclaration d hd))
      (fun d hd => (type_mem_bodySite hget d).2 hd) hready
      (fun d hd => hcontains _ (hdeclaration d hd)) (hs.noted (.scopeEntered node'.span.start))
  obtain ⟨s₂, hrun₂, hs₂, statements, hstatements, htold'⟩ := retelling_visitEach htree
    (f := Visit.statement) hbelow hinner
    (fun id' hid' => by rw [hinside]; exact List.mem_map_of_mem (hstatement id' hid')) nofun nofun
    hready (fun id' hid' => hcontains _ (hstatement id' hid')) hs₁
  refine ⟨s₂.noted (.scopeLeft node'.span.start), ?_, hs₂.noted _, _,
    account_body hget ?_ htypes hheads hothers hstatements, ?_⟩
  · refine (runs_resolveBody htree (congrArg Site.scopes hsite) hget (hs.arena.symm ▸ hget')
      (hs.arena.symm ▸ h.evolves) (show a.Below a.top (a.bodySite seeds scopes id) from hbelow)
      hinner).2 ?_
    exact ⟨s₁, s₂, hrun₁, hrun₂, rfl⟩
  · rw [hsite] at hhas
    exact (repeated_eq_nil_iff (hhas _ List.mem_cons_self)).2 hnodup
  · have hentered : Told a [] [] [] s (s.noted (.scopeEntered node'.span.start)) := .noted s _
    have hall := (hentered.trans (htold.trans htold')).trans (.noted s₂ (.scopeLeft node'.span.start))
    rwa [List.nil_append, List.append_nil, List.append_assoc] at hall

end

end ProcLang
