import ProcLang.Proofs.Again.Leads
import ProcLang.Proofs.Walk.Total

/-!
# ProcLang.Proofs.Again.Sites

**Names are resolved a second time.** The walk over the tree `b` that name resolution left of `a` comes
to the nodes that stand where those of `a` stood, in the same scopes (`Arena.Revisited`). At each of them
it is to change nothing (`Arena.Rests`) and to tell the account of `a` once more (`Retells`). What is
told of nodes one after the other is the account of all of them (`Recount.of_inTurn`).

Here is what does not depend on the sort of a node: what stands right below it is visited again
(`Revisited.children`), and where nothing is said of a node its children tell it all
(`visitsIn_silent`).
-/

namespace ProcLang

open Arena WalkM

variable {a b : Arena} {nodes : List Visit} {outcome : PassOutcome} {site : Site} {v w : Visit}

/-! ### Scopes around a visit -/

/-- The scopes in which a site is visited. That of a body is opened by the visit. -/
def Site.around (site : Site) : List (List Declaration) :=
  match site.visit with
  | .body _ => site.scopes.tail
  | _ => site.scopes

/-- What is right below a site is visited in the scopes of the site. -/
theorem around_of_mem_inside {child : Site} (hchild : child ∈ a.inside site) :
    child.around = site.scopes := by
  obtain ⟨scopes, v⟩ := site
  have hsame : ∀ {vs : List Visit}, (∀ id, .body id ∉ vs) → child ∈ vs.map (Site.mk scopes) →
      child.around = scopes := by
    intro vs hvs hmem
    obtain ⟨w, hw, rfl⟩ := List.mem_map.1 hmem
    cases w with
    | body id => exact absurd hw (hvs id)
    | _ => rfl
  cases v with
  | program =>
      refine hsame (fun id hid => ?_) hchild
      obtain ⟨d, -, heq⟩ := List.mem_map.1 hid
      exact d.visit_ne_body id heq
  | declaration d => nomatch hchild
  | routine id =>
      obtain ⟨node, -, hchild⟩ := exists_of_mem_inside id hchild
      rcases List.mem_append.1 hchild with hchild | hchild
      · exact hsame (by simp) hchild
      · rw [List.mem_singleton.1 hchild]
        rfl
  | statement id =>
      obtain ⟨node, -, hchild⟩ := exists_of_mem_inside id hchild
      rcases List.mem_append.1 hchild with hchild | hchild
      · exact hsame (by simp) hchild
      · obtain ⟨body, -, rfl⟩ := List.mem_map.1 hchild
        rfl
  | «variable» id =>
      obtain ⟨node, -, hchild⟩ := exists_of_mem_inside id hchild
      exact hsame (by simp [Node.children]) hchild
  | typeDecl id =>
      obtain ⟨node, -, hchild⟩ := exists_of_mem_inside id hchild
      exact hsame (by simp [Node.children]) hchild
  | type id =>
      obtain ⟨node, -, hchild⟩ := exists_of_mem_inside id hchild
      refine hsame (fun body hbody => ?_) hchild
      rw [Node.children] at hbody
      split at hbody <;> simp at hbody
  | body id =>
      obtain ⟨node, -, hchild⟩ := exists_of_mem_inside id hchild
      refine hsame (fun body hbody => ?_) hchild
      rcases List.mem_append.1 hbody with hbody | hbody
      · obtain ⟨d, -, heq⟩ := List.mem_map.1 hbody
        exact d.visit_ne_body body heq
      · simp at hbody
  | expression id =>
      obtain ⟨node, -, hchild⟩ := exists_of_mem_inside id hchild
      exact hsame (by simp) hchild

/-! ### Nodes that are visited again -/

/-- Where the node of a site of `a` stood, `w` stands in the tree `b`, and name resolution comes to it:
the scopes in which the site is visited have distinct names, and a body declares nothing for its owner. -/
structure Arena.Revisited (a b : Arena) (site : Site) (w : Visit) : Prop where
  below : a.Below a.top site
  distinct : a.DistinctScopes site.around
  becomes : a.Becomes b site.visit w
  replaces : a.Replaces b site.visit w
  plain : ∀ id, site.visit = .body id → site = a.bodySite [] site.around id

/-- The context in which name resolution comes to a node. -/
def Arena.Revisits (a b : Arena) (c : Scope) (w : Visit) : Prop :=
  ∃ site, a.Revisited b site w ∧ c = a.scopeOf site.around

/-- A state in which the tree `b` rests, and the routines of the program are known. -/
structure Arena.Rests (a b : Arena) (s : WalkState Routines) : Prop where
  arena : s.arena = b
  own : s.own = routinesOf (a.entries a.program.declarations)

/-- Between two states the account of what stood in the place of a node was told. -/
def Retells (a b : Arena) (w : Visit) (s s' : WalkState Routines) : Prop :=
  ∀ site, a.Revisited b site w → Recount a [] [site] [] s s'

/-- A node can be visited again in some scopes. -/
abbrev VisitsAgain (a b : Arena) (scopes : List (List Declaration))
    (visitor : Visit → NamesM (Option ExpressionId)) (w : Visit) : Prop :=
  VisitsIn (a.scopeOf scopes) (a.Rests b) (Retells a b) visitor w

/-- All that is below a node can be visited again. -/
abbrev ReadyAgain (a b : Arena) (below : Visit → NamesM (Option ExpressionId)) (v : Visit) : Prop :=
  ReadyWhere (a.Revisits b) b (a.Rests b) (Retells a b) below v

theorem Arena.Rests.noted {s : WalkState Routines} (h : a.Rests b s) (event : Event) :
    a.Rests b (s.noted event) :=
  ⟨h.arena, h.own⟩

theorem Arena.Rests.reported {s : WalkState Routines} (h : a.Rests b s) (cause : Cause)
    (place : Position) : a.Rests b (s.reported cause place) :=
  ⟨h.arena, h.own⟩

theorem Arena.Rests.remarks {s s' : WalkState Routines} (h : a.Rests b s) (hremarks : Remarks a s s') :
    a.Rests b s' :=
  ⟨hremarks.arena.trans h.arena, hremarks.effect.own.trans h.own⟩

/-- A part of a walk goes on from one resting state to another, and tells the account of some sites. -/
def Retelling (a b : Arena) (m : NamesM Unit) (c : Scope) (sites : List Site)
    (s : WalkState Routines) : Prop :=
  ∃ s', Runs m c s () s' ∧ a.Rests b s' ∧ Recount a [] sites [] s s'

/-- What is told of nodes one after the other is the account of all of them. -/
theorem Recount.of_inTurn {sites : List Site} {ws : List Visit} {s s' : WalkState Routines}
    (hsites : List.Forall₂ (a.Revisited b) sites ws) (h : InTurn (Retells a b) ws s s') :
    Recount a [] sites [] s s' := by
  induction hsites generalizing s with
  | nil =>
      cases h
      exact .quiet (.refl _)
  | cons hfirst _ ih =>
      cases h with
      | cons first others => exact (first _ hfirst).trans (ih others)

theorem Retelling.of_turns {m : NamesM Unit} {c : Scope} {sites : List Site} {ws : List Visit}
    {s : WalkState Routines} (hsites : List.Forall₂ (a.Revisited b) sites ws)
    (h : Turns (a.Rests b) (Retells a b) m c ws s) : Retelling a b m c sites s := by
  obtain ⟨s', hrun, hs', hturns⟩ := h
  exact ⟨s', hrun, hs', .of_inTurn hsites hturns⟩

section

variable (htree : a.IsTree nodes)

include htree

/-- A node of the resolved tree stands where one site was. -/
theorem Arena.Revisited.unique {site' : Site} (h : a.Revisited b site w) (h' : a.Revisited b site' w) :
    site = site' := by
  obtain ⟨scopes, v⟩ := site
  obtain ⟨scopes', v'⟩ := site'
  obtain rfl : v = v' := h.replaces.injective htree h'.replaces
  rw [htree.scopes_unique h.below h'.below]

/-- It is enough to tell the account of this site. -/
theorem Retells.of_recount {s s' : WalkState Routines} (hsite : a.Revisited b site w)
    (h : Recount a [] [site] [] s s') : Retells a b w s s' := fun _ hother =>
  hsite.unique htree hother ▸ h

omit htree in
theorem Arena.Revisited.mem (htree : a.IsTree nodes) (h : a.Revisited b site w)
    (hvisit : site.visit ≠ .program) : site.visit ∈ nodes :=
  (htree.site_mem h.below).resolve_left hvisit

/-- What stands right below a site, and is no expression, is visited again. -/
theorem revisited_of_mem_inside {child : Site} (hbelow : a.Below a.top site)
    (hdistinct : a.DistinctScopes site.scopes) (hchild : child ∈ a.inside site)
    (hexpression : ∀ e, child.visit ≠ .expression e)
    (hplain : ∀ id, child.visit = .body id → child = a.bodySite [] site.scopes id) :
    a.Revisited b child child.visit where
  below := hbelow.tail hchild
  distinct := around_of_mem_inside hchild ▸ hdistinct
  becomes := .kept fun e _ _ heq => absurd heq (hexpression e)
  replaces := by
    refine .same (htree.spans.has_of_mem ?_)
    refine (htree.site_mem (hbelow.tail hchild)).resolve_left fun hprogram => ?_
    have hmem := htree.mem_of_place (htree.site_mem hbelow)
      (htree.inside_subset (htree.site_mem hbelow) hchild)
    rw [hprogram] at hmem
    exact htree.spans.program_not_mem hmem
  plain id hbody := by
    rw [around_of_mem_inside hchild]
    exact hplain id hbody

variable (h : a.Settles nodes outcome)

include h

/-- What stands in the slots of a node is visited again. -/
theorem revisited_slots {scopes : List (List Declaration)} (hbelow : a.Below a.top ⟨scopes, v⟩)
    (hdistinct : a.DistinctScopes scopes) (hchild : ∀ e ∈ a.slots v,
      (⟨scopes, .expression e⟩ : Site) ∈ a.inside ⟨scopes, v⟩) :
    List.Forall₂ (a.Revisited outcome.arena)
      ((a.slots v).map fun e => ⟨scopes, .expression e⟩)
      ((outcome.arena.slots v).map Visit.expression) := by
  refine forall₂_map_iff.2 ?_
  have hslots := ((h.settled _ hbelow).resolved hdistinct).slots
  refine ((List.forall₂_and_left _ _).2 ⟨hchild, hslots⟩).imp fun e e' ⟨hmem, hstands⟩ => ?_
  have hinner := hbelow.tail hmem
  exact ⟨hinner, hdistinct, hstands.becomes htree hinner hdistinct, hstands.replaces, nofun⟩

/-- **What stands right below a node** is visited again, if all of it has a site. -/
theorem revisited_children (hbelow : a.Below a.top site) (hdistinct : a.DistinctScopes site.scopes)
    (hmem : site.visit ∈ nodes) (hall : (a.inside site).map Site.visit = a.children site.visit)
    (hplain : ∀ child ∈ a.inside site, ∀ id, child.visit = .body id →
      child = a.bodySite [] site.scopes id) :
    List.Forall₂ (a.Revisited outcome.arena) (a.inside site)
      (outcome.arena.children site.visit) := by
  have hbecomes := h.becomes htree (Or.inr hmem)
  have hreplaces := (h.reshapes htree).children _ (htree.spans.has_of_mem hmem)
  rw [← hall, List.forall₂_map_left_iff] at hbecomes hreplaces
  refine List.forall₂_iff_get.2 ⟨hbecomes.length_eq, fun i hi hi' => ?_⟩
  have hchild := List.get_mem (a.inside site) ⟨i, hi⟩
  exact ⟨hbelow.tail hchild, around_of_mem_inside hchild ▸ hdistinct, hbecomes.get hi hi',
    hreplaces.get hi hi', fun id hbody => around_of_mem_inside hchild ▸ hplain _ hchild id hbody⟩

/-- What stands right below a node is visited again, if it lies in the scopes of the node. -/
theorem revisited_same {scopes : List (List Declaration)} {family : Family} {id : NodeId family}
    {node : Node family} (hget : a.get? id = some node) (hbelow : a.Below a.top ⟨scopes, Visit.of id⟩)
    (hdistinct : a.DistinctScopes scopes)
    (hinside : a.insideNode scopes family node = (Node.children family node).map (Site.mk scopes))
    (hbody : ∀ body, .body body ∉ Node.children family node) :
    List.Forall₂ (a.Revisited outcome.arena) (a.inside ⟨scopes, Visit.of id⟩)
      (outcome.arena.children (Visit.of id)) := by
  have hmem : Visit.of id ∈ nodes := (htree.site_mem hbelow).resolve_left (by cases family <;> nofun)
  refine revisited_children htree h hbelow hdistinct hmem ?_ ?_
  · rw [inside_of_get? hget, hinside, List.map_map, children_of_get? hget]
    exact List.map_id _
  · intro child hchild body heq
    rw [inside_of_get? hget, hinside] at hchild
    obtain ⟨w, hw, rfl⟩ := List.mem_map.1 hchild
    exact absurd (heq ▸ hw) (hbody body)

end

/-! ### Where nothing is said -/

section

variable {below : Visit → NamesM (Option ExpressionId)}

/-- Sites in the same scopes are visited in the same context. -/
theorem visitsIn_of_revisited {sites : List Site} {ws : List Visit} {scopes : List (List Declaration)}
    (hready : ReadyAgain a b below v)
    (hsites : List.Forall₂ (a.Revisited b) sites ws) (haround : ∀ site ∈ sites, site.around = scopes)
    (hcontains : ∀ w ∈ ws, b.Contains v w) :
    ∀ w ∈ ws, VisitsAgain a b scopes below w := by
  intro w hw
  obtain ⟨site, hsite, hrevisited⟩ := exists_of_forall₂ hsites hw
  exact hready.nodes w (hcontains w hw) _ ⟨site, hrevisited, by rw [haround site hsite]⟩

/-- All children of a node can be visited in the scopes of its site. -/
theorem readyIn_of_revisited (hready : ReadyAgain a b below v)
    (hchildren : List.Forall₂ (a.Revisited b) (a.inside site) (b.children v)) :
    ReadyIn (a.scopeOf site.scopes) b (a.Rests b) (Retells a b) below v := by
  refine hready.readyIn fun w hw => ?_
  obtain ⟨child, hchild, hrevisited⟩ := exists_of_forall₂ hchildren hw
  exact ⟨child, hrevisited, by rw [around_of_mem_inside hchild]⟩

variable (htree : a.IsTree nodes) (h : a.Settles nodes outcome) {scopes : List (List Declaration)}
  {family : Family} {id : NodeId family} {node : Node family} (hget : a.get? id = some node)
  (hready : ReadyAgain a outcome.arena below (Visit.of id))
  (hchildren : List.Forall₂ (a.Revisited outcome.arena) (a.inside ⟨scopes, Visit.of id⟩)
    (outcome.arena.children (Visit.of id)))

include h hget hready hchildren

/-- The children of a node tell all that is inside of it. -/
theorem retelling_walk {s : WalkState Routines} (hs : a.Rests outcome.arena s) :
    Retelling a outcome.arena (walk below (Visit.of id)) (a.scopeOf scopes)
      (a.insideNode scopes family node) s := by
  have htelling := Retelling.of_turns hchildren ((readyIn_of_revisited hready hchildren).exists_walk
    (Or.inr (h.evolves.has (has_of_get? hget))) hs)
  rwa [inside_of_get? hget] at htelling

include htree

/-- **Where nothing is said of a node**, its children tell it all. -/
theorem visitsIn_silent (hsite : a.Revisited outcome.arena ⟨scopes, Visit.of id⟩ (Visit.of id))
    (hopened : (⟨scopes, Visit.of id⟩ : Site).opened = none)
    (hahead : a.aheadNode ⟨scopes, Visit.of id⟩ family node = [])
    (hbehind : a.behindNode ⟨scopes, Visit.of id⟩ family node = []) :
    VisitsAgain a outcome.arena scopes (walkThrough below) (Visit.of id) := by
  intro s hs
  obtain ⟨s', hwalk, hs', hrecount⟩ := retelling_walk h hget hready hchildren hs
  exact ⟨s', runs_bind.2 ⟨(), s', hwalk, runs_pure.2 ⟨rfl, rfl⟩⟩, hs', .of_recount htree hsite
    (.of_node hget hopened (.silent hahead s) hrecount (.silent hbehind s'))⟩

end

end ProcLang
