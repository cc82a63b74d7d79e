import ProcLang.Proofs.Names.Sites

/-!
# ProcLang.Proofs.Names.Progress

**Resolving a node part by part.** While the names at and below a site are resolved, some of the
nodes below have been visited and the others are still as they were parsed. `Progress` says which,
what is settled already, and what stands in the slots that were visited. A part that was visited
moves on (`Progress.part`), and so does a change of the node itself (`Progress.self`); at the end
everything below the site is resolved (`Progress.finish`).
-/

namespace ProcLang

open Arena

variable {a : Arena} {routines : Routines} {nodes : List Visit}

/-- No name is declared twice in any of the scopes. -/
def Arena.DistinctScopes (a : Arena) (scopes : List (List Declaration)) : Prop :=
  ∀ scope ∈ scopes, (scope.map a.nameOf).Nodup

/-! ### One node -/

section

variable {b : Arena} {ds : List Diagnostic} {scopes : List (List Declaration)}

/-- An identifier has no slots, and it is neither a call nor a type. -/
theorem NamesResolved.of_identifier {id : ExpressionId} {node linked : Expression} {name : String}
    {target x : Option VariableId} (hget : a.get? id = some node)
    (hkind : node.kind = .identifier name target) (hlinked : b.get? id = some linked)
    (hlink : linked.kind = .identifier name x) : NamesResolved a b ds ⟨scopes, .expression id⟩ where
  slots := by
    have hbefore : a.slots (.expression id) = [] := by
      rw [Visit.expression_eq id, slots_of_get? hget, Node.slots, hkind]
      rfl
    have hafter : b.slots (.expression id) = [] := by
      rw [Visit.expression_eq id, slots_of_get? hlinked, Node.slots, hlink]
      rfl
    rw [hbefore, hafter]
    exact .nil
  call other found name' target' arguments hvisit hfound hkind' := by
    cases hvisit
    obtain rfl : node = found := Option.some.inj (hget.symm.trans hfound)
    cases hkind.symm.trans hkind'
  type _ _ _ _ heq := by cases heq

/-- A call is resolved when its slots are and it is linked itself. -/
theorem NamesResolved.of_call {id : ExpressionId} {node linked : Expression} {name : String}
    {target : Option RoutineId} {arguments : List ExpressionId} (hget : a.get? id = some node)
    (hkind : node.kind = .call name target arguments) (hlinked : b.get? id = some linked)
    (hslots : List.Forall₂ (StandsFor a b ds scopes) (Node.slots .expression node)
      (Node.slots .expression linked))
    (hlink : CallLinked a ds node linked name) : NamesResolved a b ds ⟨scopes, .expression id⟩ where
  slots := by
    rw [Visit.expression_eq id, slots_of_get? hget, slots_of_get? hlinked]
    exact hslots
  call other found name' target' arguments' hvisit hfound hkind' := by
    cases hvisit
    obtain rfl : node = found := Option.some.inj (hget.symm.trans hfound)
    obtain ⟨rfl, -, -⟩ : name = name' ∧ target = target' ∧ arguments = arguments' := by
      simpa using hkind.symm.trans hkind'
    exact ⟨linked, hlinked, hlink⟩
  type := nofun

/-- A named type is resolved when it is linked. -/
theorem NamesResolved.of_named {id : TypeId} {node linked : TypeNode} {name : String}
    {target : Option TypeDeclId} (hget : a.get? id = some node)
    (hkind : node.kind = .named name target) (hlinked : b.get? id = some linked)
    (hempty : Node.slots .type linked = []) (hlink : TypeLinked a ds scopes node linked name) :
    NamesResolved a b ds ⟨scopes, .type id⟩ where
  slots := by
    have hslots : Node.slots .type node = [] := by
      rw [Node.slots, hkind]
    rw [Visit.type_eq id, slots_of_get? hget, slots_of_get? hlinked, hslots, hempty]
    exact .nil
  call := nofun
  type other found name' target' hvisit hfound hkind' := by
    cases hvisit
    obtain rfl : node = found := Option.some.inj (hget.symm.trans hfound)
    obtain ⟨rfl, -⟩ : name = name' ∧ target = target' := by
      simpa using hkind.symm.trans hkind'
    exact ⟨linked, hlinked, hlink⟩

end

/-- What becomes of a site: its names are resolved, or one of the scopes around it declares a name
twice and its node stays what it was. -/
structure Site.Settled (a b : Arena) (ds : List Diagnostic) (site : Site) : Prop where
  resolved : a.DistinctScopes site.scopes → NamesResolved a b ds site
  kept : ¬ a.DistinctScopes site.scopes → ∀ (family : Family) (id : NodeId family),
    site.visit = Visit.of id → b.get? id = a.get? id

theorem NamesResolved.settled {b : Arena} {ds : List Diagnostic} {site : Site}
    (h : NamesResolved a b ds site) (hdistinct : a.DistinctScopes site.scopes) :
    site.Settled a b ds :=
  ⟨fun _ => h, fun hnot => absurd hdistinct hnot⟩

/-! ### What is settled stays settled -/

/-- The slots of nodes outside of an effect are what they were. -/
theorem Effect.slots_eq {ys : List Visit} {s s' : WalkState Routines} (h : Effect a ys s s')
    {v : Visit} (hhas : s.arena.Has v) (hmem : v ∉ ys) : s'.arena.slots v = s.arena.slots v := by
  obtain ⟨family, id, rfl⟩ := hhas.exists_of
  obtain ⟨node, hget⟩ := hhas.exists_get?
  rw [slots_of_get? hget, slots_of_get? (h.frame family id node hget hmem)]

theorem NamesResolved.persist (htree : a.IsTree nodes) {ys : List Visit}
    {s s' : WalkState Routines} {site : Site} (heffect : Effect a ys s s')
    (hevolves : Evolves a a s.arena) (hys : ys ⊆ nodes) (hsite : site.visit ∈ nodes)
    (hmem : site.visit ∉ ys) (hslots : ∀ e ∈ a.slots site.visit, .expression e ∉ ys)
    (h : NamesResolved a s.arena s.diagnostics.toList site) :
    NamesResolved a s'.arena s'.diagnostics.toList site where
  slots := by
    have hhas := htree.spans.has_of_mem hsite
    rw [heffect.slots_eq (hevolves.has hhas) hmem]
    have hpersist : ∀ e ∈ a.slots site.visit, ∀ e',
        StandsFor a s.arena s.diagnostics.toList site.scopes e e' →
        StandsFor a s'.arena s'.diagnostics.toList site.scopes e e' := fun e he e' hstands =>
      hstands.persist htree heffect hys (htree.spans.child_mem hsite (slots_subset he hhas))
        (hslots e he)
    have hall := h.slots
    clear hslots
    generalize a.slots site.visit = es, s.arena.slots site.visit = es' at hall hpersist
    induction hall with
    | nil => exact .nil
    | cons hstands _ ih =>
        exact .cons (hpersist _ List.mem_cons_self _ hstands)
          (ih fun e he => hpersist e (List.mem_cons_of_mem _ he))
  call id node name target arguments hvisit hnode hkind := by
    obtain ⟨linked, hlinked, hlink⟩ := h.call id node name target arguments hvisit hnode hkind
    rw [hvisit] at hsite hmem
    refine ⟨linked, heffect.frame .expression id linked hlinked hmem, hlink.persist ?_⟩
    exact heffect.undeclaredAt_eq htree hys hsite hmem (start?_of_call hnode hkind)
  type id node name target hvisit hnode hkind := by
    obtain ⟨linked, hlinked, hlink⟩ := h.type id node name target hvisit hnode hkind
    rw [hvisit] at hsite hmem
    refine ⟨linked, heffect.frame .type id linked hlinked hmem, hlink.persist ?_⟩
    exact heffect.undeclaredAt_eq htree hys hsite hmem (start?_of_named hnode hkind)

theorem Site.Settled.persist (htree : a.IsTree nodes) {ys : List Visit}
    {s s' : WalkState Routines} {site : Site} (heffect : Effect a ys s s')
    (hevolves : Evolves a a s.arena) (hys : ys ⊆ nodes) (hsite : site.visit ∈ nodes)
    (hmem : site.visit ∉ ys) (hslots : ∀ e ∈ a.slots site.visit, .expression e ∉ ys)
    (h : site.Settled a s.arena s.diagnostics.toList) :
    site.Settled a s'.arena s'.diagnostics.toList where
  resolved hdistinct :=
    (h.resolved hdistinct).persist htree heffect hevolves hys hsite hmem hslots
  kept hrepeated family id hid := by
    have hhas := hevolves.has (htree.spans.has_of_mem hsite)
    rw [hid] at hhas hmem
    rw [heffect.get?_eq hhas hmem, h.kept hrepeated family id hid]

/-! ### Added calls -/

/-- Every call that was added between two states is about to be stored, or stands in a slot of one
of the nodes `all`. -/
def Stores (given : List ExpressionId) (all : List Visit) (s s' : WalkState Routines) : Prop :=
  ∀ c : ExpressionId, s.arena.count .expression ≤ c.index → s'.arena.Has (.expression c) →
    c ∈ given ∨ ∃ v ∈ all, c ∈ s'.arena.slots v

namespace Stores

variable {given given' : List ExpressionId} {xs ys : List Visit} {s₀ s s' : WalkState Routines}

/-- Where none was added, there is nothing to store. -/
theorem of_count (h : s'.arena.count .expression = s.arena.count .expression) :
    Stores given xs s s' := fun _ hle hhas =>
  absurd (h ▸ has_of.1 hhas) (Nat.not_lt.2 hle)

theorem mono (h : Stores given xs s s') (hgiven : given ⊆ given') (hsub : xs ⊆ ys) :
    Stores given' ys s s' := fun c hle hhas =>
  (h c hle hhas).imp (fun hc => hgiven hc) fun ⟨v, hv, hslot⟩ => ⟨v, hsub hv, hslot⟩

/-- What was stored stays where it is when something else changes. -/
theorem exists_slot (h : Stores given xs s₀ s) (heffect : Effect a ys s s')
    (hdisjoint : xs.Disjoint ys) (hhas : ∀ v ∈ xs, s.arena.Has v) {c : ExpressionId}
    (hle : s₀.arena.count .expression ≤ c.index) (hc : s.arena.Has (.expression c)) :
    c ∈ given ∨ ∃ v ∈ xs, c ∈ s'.arena.slots v := by
  refine (h c hle hc).imp_right fun ⟨v, hv, hslot⟩ => ⟨v, hv, ?_⟩
  rwa [heffect.slots_eq (hhas v hv) (hdisjoint hv)]

/-- Calls that are added later are stored elsewhere. -/
theorem append (h : Stores given xs s₀ s) (heffect : Effect a ys s s') (hdisjoint : xs.Disjoint ys)
    (hhas : ∀ v ∈ xs, s.arena.Has v) (hnext : Stores given' ys s s') :
    Stores (given ++ given') (xs ++ ys) s₀ s' := by
  intro c hle hnow
  by_cases hc : s.arena.Has (.expression c)
  · refine (h.exists_slot heffect hdisjoint hhas hle hc).imp ?_ ?_
    · exact fun hgiven => List.mem_append_left _ hgiven
    · exact fun ⟨v, hv, hslot⟩ => ⟨v, List.mem_append_left _ hv, hslot⟩
  · refine (hnext c (Nat.not_lt.1 fun hlt => hc (has_of.2 hlt)) hnow).imp ?_ ?_
    · exact fun hgiven => List.mem_append_right _ hgiven
    · exact fun ⟨v, hv, hslot⟩ => ⟨v, List.mem_append_right _ hv, hslot⟩

/-- A change that adds nothing keeps what was stored elsewhere. -/
theorem keep (h : Stores given xs s₀ s) (heffect : Effect a ys s s') (hdisjoint : xs.Disjoint ys)
    (hhas : ∀ v ∈ xs, s.arena.Has v)
    (hcount : s'.arena.count .expression = s.arena.count .expression) :
    Stores given xs s₀ s' := fun _ hle hnow =>
  h.exists_slot heffect hdisjoint hhas hle (has_of.2 (hcount ▸ has_of.1 hnow))

end Stores

/-! ### Remarks -/

/-- Between two states there were only reports, and none of them about an undeclared name. -/
structure Remarks (a : Arena) (s s' : WalkState Routines) : Prop where
  effect : Effect a [] s s'
  arena : s'.arena = s.arena

namespace Remarks

variable {s s₁ s' : WalkState Routines}

theorem refl (a : Arena) (s : WalkState Routines) : Remarks a s s := ⟨.refl a s, rfl⟩

theorem trans (h₁ : Remarks a s s₁) (h₂ : Remarks a s₁ s') : Remarks a s s' :=
  ⟨h₁.effect.trans h₂.effect, h₂.arena.trans h₁.arena⟩

theorem noted (a : Arena) (s : WalkState Routines) (event : Event) :
    Remarks a s (s.noted event) :=
  ⟨.noted a s event, rfl⟩

theorem reported (a : Arena) (s : WalkState Routines) {cause : Cause}
    (h : cause.isUndeclared = false) (place : Position) : Remarks a s (s.reported cause place) :=
  ⟨.reported a s h place, rfl⟩

end Remarks

/-! ### Progress -/

/-- A state in which the nodes `todo` are as they were parsed, and nothing was reported of them. -/
structure Ready (a : Arena) (routines : Routines) (todo : List Visit) (s : WalkState Routines) :
    Prop where
  evolves : Evolves a a s.arena
  untouched : ∀ (family : Family) (id : NodeId family), Visit.of id ∈ todo →
    s.arena.get? id = a.get? id
  silent : ∀ p ∈ a.starts todo, undeclaredAt s.diagnostics.toList p = []
  own : s.own = routines

theorem Ready.mono {xs ys : List Visit} {s : WalkState Routines} (h : Ready a routines ys s)
    (hsub : xs ⊆ ys) : Ready a routines xs s where
  evolves := h.evolves
  untouched family id hid := h.untouched family id (hsub hid)
  silent p hp := by
    obtain ⟨v, hv, hstart⟩ := mem_starts.1 hp
    exact h.silent p (mem_starts.2 ⟨v, hsub hv, hstart⟩)
  own := h.own

theorem Ready.after (htree : a.IsTree nodes) {todo ys : List Visit} {s s' : WalkState Routines}
    (h : Ready a routines todo s) (heffect : Effect a ys s s') (htodo : todo ⊆ nodes)
    (hys : ys ⊆ nodes) (hdisjoint : todo.Disjoint ys) : Ready a routines todo s' where
  evolves := h.evolves.trans heffect.evolves
  untouched family id hid := by
    have hhas : s.arena.Has (Visit.of id) :=
      h.evolves.has (htree.spans.has_of_mem (htodo hid))
    rw [heffect.get?_eq hhas (hdisjoint hid), h.untouched family id hid]
  silent p hp := by
    obtain ⟨v, hv, hstart⟩ := mem_starts.1 hp
    rw [heffect.undeclaredAt_eq htree hys (htodo hv) (hdisjoint hv) hstart, h.silent p hp]
  own := heffect.own.trans h.own

/-- Between two states the names at and below a site were resolved, and the expression `given` is
what is to stand in its slot. -/
structure Visited (a : Arena) (site : Site) (all : List Visit) (given : Option ExpressionId)
    (s s' : WalkState Routines) : Prop where
  effect : Effect a all s s'
  settled : ∀ inner, a.Below site inner → inner.Settled a s'.arena s'.diagnostics.toList
  checked : s'.diagnostics = #[] → ∀ inner, a.Below site inner →
    a.DistinctScopes inner.scopes ∧ a.Checked inner
  stored : Stores given.toList all s s'

/-- The names of a site are being resolved: of the nodes below it `visited` have been visited and
`todo` have not; everything below `roots` is resolved; and for each pair in `stood`, the second
expression stands where the first one stood. -/
structure Progress (a : Arena) (routines : Routines) (nodes : List Visit) (site : Site)
    (visited todo : List Visit) (roots : List Site) (stood : List (ExpressionId × ExpressionId))
    (s₀ s : WalkState Routines) : Prop where
  effect : Effect a (site.visit :: visited) s₀ s
  ready : Ready a routines todo s
  nodup : (site.visit :: (visited ++ todo)).Nodup
  subset : visited ++ todo ⊆ nodes
  closed : ∀ root ∈ roots, ∀ inner, a.Below root inner →
    inner.visit ∈ visited ∧ ∀ e ∈ a.slots inner.visit, .expression e ∈ visited
  settled : ∀ root ∈ roots, ∀ inner, a.Below root inner →
    inner.Settled a s.arena s.diagnostics.toList
  checked : s.diagnostics = #[] → ∀ root ∈ roots, ∀ inner, a.Below root inner →
    a.DistinctScopes inner.scopes ∧ a.Checked inner
  known : ∀ p ∈ stood, .expression p.1 ∈ visited
  stands : ∀ p ∈ stood, StandsFor a s.arena s.diagnostics.toList site.scopes p.1 p.2
  top : a.Below a.top site
  distinct : a.DistinctScopes site.scopes
  stored : Stores (stood.map (·.2)) visited s₀ s

namespace Progress

variable {site : Site} {visited todo xs : List Visit} {roots : List Site}
  {stood : List (ExpressionId × ExpressionId)} {s₀ s s' : WalkState Routines}

/-- At the beginning nothing below the site has been visited. -/
theorem start {all : List Visit} (hready : Ready a routines (site.visit :: all) s)
    (hnodup : (site.visit :: all).Nodup) (hsub : all ⊆ nodes)
    (htop : a.Below a.top site) (hdistinct : a.DistinctScopes site.scopes) :
    Progress a routines nodes site [] all [] [] s s where
  effect := (Effect.refl a s).mono (List.nil_subset _)
  ready := hready.mono (List.subset_cons_self _ _)
  nodup := hnodup
  subset := hsub
  closed := nofun
  settled := nofun
  checked _ := nofun
  known := nofun
  stands := nofun
  top := htop
  distinct := hdistinct
  stored := .of_count rfl

/-- What was settled stays settled when something else changes. -/
theorem kept (htree : a.IsTree nodes) {ys : List Visit}
    (h : Progress a routines nodes site visited todo roots stood s₀ s)
    (hevolves : Evolves a a s.arena) (heffect : Effect a ys s s') (hys : ys ⊆ nodes)
    (hdisjoint : visited.Disjoint ys) :
    (∀ root ∈ roots, ∀ inner, a.Below root inner →
      inner.Settled a s'.arena s'.diagnostics.toList) ∧
    ∀ p ∈ stood, StandsFor a s'.arena s'.diagnostics.toList site.scopes p.1 p.2 := by
  have hvisited : visited ⊆ nodes := fun v hv => h.subset (List.mem_append_left _ hv)
  constructor
  · intro root hroot inner hbelow
    obtain ⟨hmem, hslots⟩ := h.closed root hroot inner hbelow
    exact (h.settled root hroot inner hbelow).persist htree heffect hevolves hys (hvisited hmem)
      (hdisjoint hmem) fun e he => hdisjoint (hslots e he)
  · intro p hp
    have hmem := h.known p hp
    exact (h.stands p hp).persist htree heffect hys (hvisited hmem) (hdisjoint hmem)

/-- What was visited is there. -/
theorem has_visited (htree : a.IsTree nodes)
    (h : Progress a routines nodes site visited todo roots stood s₀ s) :
    ∀ v ∈ visited, s.arena.Has v := fun _ hv =>
  h.ready.evolves.has (htree.spans.has_of_mem (h.subset (List.mem_append_left _ hv)))

/-- A change of the node itself. -/
theorem self (htree : a.IsTree nodes)
    (h : Progress a routines nodes site visited todo roots stood s₀ s) (hsite : site.visit ∈ nodes)
    (heffect : Effect a [site.visit] s s')
    (hcount : s'.arena.count .expression = s.arena.count .expression) :
    Progress a routines nodes site visited todo roots stood s₀ s' := by
  have hnot := (List.nodup_cons.1 h.nodup).1
  have hys : [site.visit] ⊆ nodes := List.cons_subset.2 ⟨hsite, List.nil_subset _⟩
  have hvisited : visited.Disjoint [site.visit] := fun v hv hmem =>
    hnot (List.mem_append_left _ (List.mem_singleton.1 hmem ▸ hv))
  have htodo : todo.Disjoint [site.visit] := fun v hv hmem =>
    hnot (List.mem_append_right _ (List.mem_singleton.1 hmem ▸ hv))
  obtain ⟨hsettled, hstands⟩ := h.kept htree h.ready.evolves heffect hys hvisited
  exact
    { h with
      effect := h.effect.trans
        (heffect.mono (List.cons_subset.2 ⟨List.mem_cons_self, List.nil_subset _⟩))
      ready := h.ready.after htree heffect (fun v hv => h.subset (List.mem_append_right _ hv)) hys
        htodo
      settled := hsettled
      checked := fun hsilent => h.checked (heffect.silent hsilent)
      stands := hstands
      stored := h.stored.keep heffect hvisited (h.has_visited htree) hcount }

/-- Something that leaves all nodes as they are. -/
theorem aside (htree : a.IsTree nodes)
    (h : Progress a routines nodes site visited todo roots stood s₀ s)
    (hremarks : Remarks a s s') :
    Progress a routines nodes site visited todo roots stood s₀ s' := by
  have heffect := hremarks.effect
  obtain ⟨hsettled, hstands⟩ := h.kept htree h.ready.evolves heffect (List.nil_subset _)
    (List.disjoint_nil_right _)
  exact
    { h with
      effect := h.effect.trans (heffect.mono (List.nil_subset _))
      ready := h.ready.after htree heffect (fun v hv => h.subset (List.mem_append_right _ hv))
        (List.nil_subset _) (List.disjoint_nil_right _)
      settled := hsettled
      checked := fun hsilent => h.checked (heffect.silent hsilent)
      stands := hstands
      stored := h.stored.keep heffect (List.disjoint_nil_right _) (h.has_visited htree)
        (by rw [hremarks.arena]) }

/-- A part below the site is visited, and it is known what stands in the slots in `next`. -/
theorem visit (htree : a.IsTree nodes) {child : Site} {given : Option ExpressionId}
    (next : List (ExpressionId × ExpressionId))
    (h : Progress a routines nodes site visited (xs ++ todo) roots stood s₀ s)
    (hspans : Spans a [child.visit] xs) (hvisited : Visited a child xs given s s')
    (hknown : ∀ p ∈ next, .expression p.1 ∈ xs)
    (hnext : ∀ p ∈ next, StandsFor a s'.arena s'.diagnostics.toList site.scopes p.1 p.2)
    (hgiven : given.toList ⊆ next.map (·.2)) :
    Progress a routines nodes site (visited ++ xs) todo (roots ++ [child]) (stood ++ next) s₀ s' := by
  have hsub := h.subset
  rw [← List.append_assoc] at hsub
  have hnodup := h.nodup
  rw [← List.append_assoc] at hnodup
  have hxs : xs ⊆ nodes := fun v hv => hsub (List.mem_append_left _ (List.mem_append_right _ hv))
  have hdisjoint : visited.Disjoint xs := by
    have happend := (List.nodup_append.1 (List.nodup_cons.1 hnodup).2).1
    exact List.disjoint_of_nodup_append happend
  have htodo : todo.Disjoint xs := fun v hv hmem =>
    List.disjoint_of_nodup_append (List.nodup_cons.1 hnodup).2 (List.mem_append_right _ hmem) hv
  obtain ⟨hsettled, hstands⟩ := h.kept htree h.ready.evolves hvisited.effect hxs hdisjoint
  refine ⟨?_, ?_, hnodup, hsub, ?_, ?_, ?_, ?_, ?_, h.top, h.distinct, ?_⟩
  · refine (h.effect.mono ?_).trans (hvisited.effect.mono ?_)
    · exact List.cons_subset_cons _ (List.subset_append_left _ _)
    · exact List.Subset.trans (List.subset_append_right _ _) (List.subset_cons_self _ _)
  · exact (h.ready.mono (List.subset_append_right _ _)).after htree hvisited.effect
      (fun v hv => hsub (List.mem_append_right _ hv)) hxs htodo
  · intro root hroot inner hbelow
    rcases List.mem_append.1 hroot with hroot | hroot
    · obtain ⟨hmem, hslots⟩ := h.closed root hroot inner hbelow
      exact ⟨List.mem_append_left _ hmem, fun e he => List.mem_append_left _ (hslots e he)⟩
    · rw [List.mem_singleton.1 hroot] at hbelow
      have hmem := hbelow.mem hspans (hspans.mem_of_root List.mem_cons_self)
      refine ⟨List.mem_append_right _ hmem, fun e he => List.mem_append_right _ ?_⟩
      exact hspans.child_mem hmem (slots_subset he (hspans.has_of_mem hmem))
  · intro root hroot inner hbelow
    rcases List.mem_append.1 hroot with hroot | hroot
    · exact hsettled root hroot inner hbelow
    · rw [List.mem_singleton.1 hroot] at hbelow
      exact hvisited.settled inner hbelow
  · intro hsilent root hroot inner hbelow
    rcases List.mem_append.1 hroot with hroot | hroot
    · exact h.checked (hvisited.effect.silent hsilent) root hroot inner hbelow
    · rw [List.mem_singleton.1 hroot] at hbelow
      exact hvisited.checked hsilent inner hbelow
  · intro p hp
    rcases List.mem_append.1 hp with hp | hp
    · exact List.mem_append_left _ (h.known p hp)
    · exact List.mem_append_right _ (hknown p hp)
  · intro p hp
    rcases List.mem_append.1 hp with hp | hp
    · exact hstands p hp
    · exact hnext p hp
  · rw [List.map_append]
    exact h.stored.append hvisited.effect hdisjoint (h.has_visited htree)
      (hvisited.stored.mono hgiven (List.Subset.refl _))

/-- A part below the site that stands in no slot is visited. -/
theorem part (htree : a.IsTree nodes) {child : Site}
    (h : Progress a routines nodes site visited (xs ++ todo) roots stood s₀ s)
    (hspans : Spans a [child.visit] xs) (hvisited : Visited a child xs none s s') :
    Progress a routines nodes site (visited ++ xs) todo (roots ++ [child]) stood s₀ s' := by
  have hprogress := h.visit htree [] hspans hvisited nofun nofun (List.Subset.refl _)
  rwa [List.append_nil] at hprogress

/-- The expression in a slot is visited. -/
theorem slot (htree : a.IsTree nodes) {e : ExpressionId} {given : Option ExpressionId}
    (h : Progress a routines nodes site visited (xs ++ todo) roots stood s₀ s)
    (hspans : Spans a [.expression e] xs)
    (hvisited : Visited a ⟨site.scopes, .expression e⟩ xs given s s')
    (hstands : StandsFor a s'.arena s'.diagnostics.toList site.scopes e (given.getD e)) :
    Progress a routines nodes site (visited ++ xs) todo (roots ++ [⟨site.scopes, .expression e⟩])
      (stood ++ [(e, given.getD e)]) s₀ s' := by
  refine h.visit htree [(e, given.getD e)] hspans hvisited (fun p hp => ?_) (fun p hp => ?_) ?_
  · rw [List.mem_singleton.1 hp]
    exact hspans.mem_of_root List.mem_cons_self
  · rw [List.mem_singleton.1 hp]
    exact hstands
  · cases given with
    | none => exact List.nil_subset _
    | some c => exact List.Subset.refl _

/-- A part of the tree that has no names to look up is left out. -/
theorem skip (h : Progress a routines nodes site visited (xs ++ todo) roots stood s₀ s) :
    Progress a routines nodes site visited todo roots stood s₀ s :=
  { h with
    ready := h.ready.mono (List.subset_append_right _ _)
    nodup := h.nodup.sublist
      (((List.Sublist.refl visited).append (List.sublist_append_right xs todo)).cons_cons _)
    subset := fun v hv => h.subset <| by
      rcases List.mem_append.1 hv with hv | hv
      · exact List.mem_append_left _ hv
      · exact List.mem_append_right _ (List.mem_append_right _ hv) }

/-- The order in which nodes are visited does not matter, and part of what is known can be
forgotten. -/
theorem perm {visited' todo' : List Visit} {roots' : List Site}
    (h : Progress a routines nodes site visited todo roots stood s₀ s)
    (hvisited : visited.Perm visited') (htodo : todo.Perm todo') (hroots : roots' ⊆ roots) :
    Progress a routines nodes site visited' todo' roots' stood s₀ s where
  effect := h.effect.mono (List.cons_subset_cons _ hvisited.subset)
  ready := h.ready.mono htodo.symm.subset
  nodup := ((hvisited.append htodo).cons _).nodup h.nodup
  subset := List.Subset.trans (hvisited.append htodo).symm.subset h.subset
  closed root hroot inner hbelow := by
    obtain ⟨hmem, hslots⟩ := h.closed root (hroots hroot) inner hbelow
    exact ⟨hvisited.subset hmem, fun e he => hvisited.subset (hslots e he)⟩
  settled root hroot := h.settled root (hroots hroot)
  checked hsilent root hroot := h.checked hsilent root (hroots hroot)
  known p hp := hvisited.subset (h.known p hp)
  stands := h.stands
  top := h.top
  distinct := h.distinct
  stored := h.stored.mono (List.Subset.refl _) hvisited.subset

/-- At the end everything at and below the site is resolved. -/
theorem finish {all : List Visit}
    (h : Progress a routines nodes site visited todo roots stood s₀ s)
    (hvisited : site.visit :: visited ⊆ all) (hinside : ∀ child ∈ a.inside site, child ∈ roots)
    (hstored : ∀ c ∈ stood.map (·.2), c ∈ s.arena.slots site.visit)
    (hself : NamesResolved a s.arena s.diagnostics.toList site)
    (hchecked : s.diagnostics = #[] → a.Checked site) : Visited a site all none s₀ s where
  effect := h.effect.mono hvisited
  settled inner hbelow := by
    cases hbelow with
    | here => exact hself.settled h.distinct
    | inside hchild hbelow => exact h.settled _ (hinside _ hchild) inner hbelow
  checked hsilent inner hbelow := by
    cases hbelow with
    | here => exact ⟨h.distinct, hchecked hsilent⟩
    | inside hchild hbelow => exact h.checked hsilent _ (hinside _ hchild) inner hbelow
  stored c hle hhas := by
    refine Or.inr ?_
    rcases h.stored c hle hhas with hc | ⟨v, hv, hslot⟩
    · exact ⟨site.visit, hvisited List.mem_cons_self, hstored c hc⟩
    · exact ⟨v, hvisited (List.mem_cons_of_mem _ hv), hslot⟩

end Progress

end ProcLang
