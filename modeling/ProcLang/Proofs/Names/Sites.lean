import ProcLang.Proofs.Names.Change

/-!
# ProcLang.Proofs.Names.Sites

**The sites of a tree.** The sites right below a site are sites of children of its node
(`inside_subset`), in the same scopes or in one more (`scopes_of_mem_inside`). What is declared
around a site of a tree is there (`IsTree.has_of_scope`), and a name behind a point has no site
(`IsTree.hidden_of_isField`).
-/

namespace ProcLang

open Arena

variable {a : Arena} {nodes : List Visit}

/-! ### Slots and sites of a node -/

theorem slots_of_get? {family : Family} {id : NodeId family} {node : Node family}
    (h : a.get? id = some node) : a.slots (Visit.of id) = Node.slots family node :=
  ofNode_of_get? h _

theorem Node.slots_subset (family : Family) (node : Node family) {e : ExpressionId}
    (h : e ∈ Node.slots family node) : .expression e ∈ Node.children family node := by
  cases family with
  | «variable» => exact List.mem_append_right _ (List.mem_map_of_mem h)
  | type =>
      rw [Node.slots] at h
      rw [Node.children]
      split at h
      · rename_i hkind
        rw [hkind]
        exact List.mem_append_left _ (List.mem_map_of_mem h)
      · cases h
  | statement => exact List.mem_append_left _ (List.mem_append_left _ (List.mem_map_of_mem h))
  | expression =>
      rw [Node.slots] at h
      refine List.mem_map_of_mem ?_
      split at h
      · rename_i hkind
        rw [hkind, List.mem_singleton.1 h]
        exact List.mem_cons_self
      · exact h
  | routine | typeDecl | body => cases h

/-- A node that is no expression owns expressions in slots only. -/
theorem Node.slot_of_child {family : Family} (hfamily : family ≠ .expression) {node : Node family}
    {e : ExpressionId} (he : .expression e ∈ Node.children family node) :
    e ∈ Node.slots family node := by
  have hother : ∀ {α : Type} {xs : List α} {f : α → Visit}, (∀ x, f x ≠ .expression e) →
      .expression e ∉ xs.map f := by
    intro α xs f hf hmem
    obtain ⟨x, -, heq⟩ := List.mem_map.1 hmem
    exact hf x heq
  have howned : ∀ {es : List ExpressionId}, .expression e ∈ es.map Visit.expression → e ∈ es := by
    intro es hmem
    obtain ⟨e', he', heq⟩ := List.mem_map.1 hmem
    cases heq
    exact he'
  cases family with
  | routine =>
      rw [Node.children, List.mem_append, List.mem_append] at he
      rcases he with (he | he) | he
      · exact absurd he (hother (by rintro x ⟨⟩))
      · exact absurd he (hother (by rintro x ⟨⟩))
      · cases List.mem_singleton.1 he
  | «variable» =>
      rcases List.mem_append.1 he with he | he
      · exact absurd he (hother (by rintro x ⟨⟩))
      · exact howned he
  | typeDecl => cases List.mem_singleton.1 he
  | type =>
      rw [Node.children] at he
      split at he
      · rename_i hkind
        rcases List.mem_append.1 he with he | he
        · rw [Node.slots, hkind]
          exact howned he
        · cases List.mem_singleton.1 he
      · exact absurd he (hother (by rintro x ⟨⟩))
      · cases he
      · cases he
      · cases he
      · cases he
  | body =>
      rcases List.mem_append.1 he with he | he
      · exact absurd he (hother fun d => by cases d <;> rintro ⟨⟩)
      · exact absurd he (hother (by rintro x ⟨⟩))
  | statement =>
      rw [Node.children, List.mem_append, List.mem_append] at he
      rcases he with (he | he) | he
      · exact howned he
      · exact absurd he (hother (by rintro x ⟨⟩))
      · exact absurd he (hother (by rintro x ⟨⟩))
  | expression => exact absurd rfl hfamily

/-- In a parsed tree, what is behind a point stands in no slot. -/
theorem Arena.IsTree.separate (htree : a.IsTree nodes) : a.Separate := by
  intro f hfield family id node hget hslot
  obtain ⟨e, member, left, hmember, hkind⟩ := hfield
  have hmem := (htree.raw hmember).1
  have hchildren : a.children (.expression e) = [.expression left, .expression f] := by
    rw [Visit.expression_eq e, children_of_get? hmember, Node.children, hkind]
    rfl
  have hchild : .expression f ∈ a.children (.expression e) := by
    rw [hchildren]
    exact List.mem_cons_of_mem _ List.mem_cons_self
  have hslot' := Node.slots_subset family node hslot
  have hmem' := htree.mem_of_child hget hslot'
  have hchild' : .expression f ∈ a.children (Visit.of id) := by
    rw [children_of_get? hget]
    exact hslot'
  have hsame := htree.spans.parent_unique htree.nodup hmem hmem' hchild hchild'
  cases family with
  | expression =>
      obtain rfl : e = id := Visit.of_injective hsame
      obtain rfl : node = member := Option.some.inj (hget.symm.trans hmember)
      rw [Node.slots, hkind] at hslot
      have hnodup := htree.spans.children_nodup htree.nodup hmem
      rw [hchildren, List.mem_singleton.1 hslot] at hnodup
      exact (List.nodup_cons.1 hnodup).1 List.mem_cons_self
  | routine | «variable» | typeDecl | type | body | statement => cases hsame

/-- The expressions in the slots of a node are below it. -/
theorem Arena.slots_subset {v : Visit} {e : ExpressionId} (h : e ∈ a.slots v) (hhas : a.Has v) :
    .expression e ∈ a.children v := by
  obtain ⟨family, id, rfl⟩ := hhas.exists_of
  obtain ⟨node, hget⟩ := hhas.exists_get?
  rw [slots_of_get? hget] at h
  rw [children_of_get? hget]
  exact Node.slots_subset family node h

theorem inside_of_get? {scopes : List (List Declaration)} {family : Family} {id : NodeId family}
    {node : Node family} (h : a.get? id = some node) :
    a.inside ⟨scopes, Visit.of id⟩ = a.insideNode scopes family node := by
  rw [← ofNode_of_get? h (a.insideNode scopes)]
  cases family <;> rfl

theorem Arena.insideNode_subset {scopes : List (List Declaration)} {family : Family}
    {node : Node family} {child : Site} (h : child ∈ a.insideNode scopes family node) :
    child.visit ∈ Node.children family node := by
  cases family with
  | routine =>
      rcases List.mem_append.1 h with h | h
      · obtain ⟨v, hv, rfl⟩ := List.mem_map.1 h
        exact List.mem_append_left _ hv
      · rw [List.mem_singleton.1 h]
        exact List.mem_append_right _ List.mem_cons_self
  | statement =>
      rcases List.mem_append.1 h with h | h
      · obtain ⟨v, hv, rfl⟩ := List.mem_map.1 h
        exact List.mem_append_left _ (List.mem_append_left _ hv)
      · obtain ⟨id, hid, rfl⟩ := List.mem_map.1 h
        exact List.mem_append_right _ (List.mem_map_of_mem hid)
  | expression =>
      obtain ⟨v, hv, rfl⟩ := List.mem_map.1 h
      obtain ⟨e, he, rfl⟩ := List.mem_map.1 hv
      exact Node.slots_subset .expression node he
  | «variable» | typeDecl | type | body =>
      obtain ⟨v, hv, rfl⟩ := List.mem_map.1 h
      exact hv

/-- The expressions right below a site are in slots. -/
theorem Arena.slot_of_insideNode {scopes : List (List Declaration)} {family : Family}
    {node : Node family} {child : Site} (h : child ∈ a.insideNode scopes family node)
    {e : ExpressionId} (he : child.visit = .expression e) : e ∈ Node.slots family node := by
  by_cases hfamily : family = .expression
  · subst hfamily
    obtain ⟨v, hv, rfl⟩ := List.mem_map.1 h
    obtain ⟨e', he', rfl⟩ := List.mem_map.1 hv
    cases he
    exact he'
  · exact Node.slot_of_child hfamily (he ▸ insideNode_subset h)

/-- The sites right below a site are sites of children. -/
theorem Arena.inside_subset {site child : Site} (hhas : a.Has site.visit)
    (h : child ∈ a.inside site) : child.visit ∈ a.children site.visit := by
  obtain ⟨scopes, v⟩ := site
  obtain ⟨family, id, rfl⟩ := hhas.exists_of
  obtain ⟨node, hget⟩ := hhas.exists_get?
  rw [inside_of_get? hget] at h
  rw [children_of_get? hget]
  exact insideNode_subset h

theorem exists_of_mem_inside {scopes : List (List Declaration)} {family : Family}
    (id : NodeId family) {child : Site} (h : child ∈ a.inside ⟨scopes, Visit.of id⟩) :
    ∃ node, a.get? id = some node ∧ child ∈ a.insideNode scopes family node := by
  cases hget : a.get? id with
  | some node =>
      rw [inside_of_get? hget] at h
      exact ⟨node, rfl, h⟩
  | none => cases family <;> simp [inside, ofNode, Visit.of, hget] at h

/-- A site lies in the scopes around the one above it, or opens another one. -/
theorem scopes_of_mem_inside {site child : Site} (hchild : child ∈ a.inside site) :
    child.scopes = site.scopes ∨
      ∃ seeds id, child = a.bodySite seeds site.scopes id := by
  obtain ⟨scopes, v⟩ := site
  have hsame : ∀ {vs : List Visit}, child ∈ vs.map (Site.mk scopes) → child.scopes = scopes := by
    intro vs hmem
    obtain ⟨w, -, rfl⟩ := List.mem_map.1 hmem
    rfl
  cases v with
  | program => exact Or.inl (hsame hchild)
  | declaration d => nomatch hchild
  | routine id =>
      obtain ⟨node, -, hchild⟩ := exists_of_mem_inside id hchild
      rcases List.mem_append.1 hchild with hchild | hchild
      · exact Or.inl (hsame hchild)
      · exact Or.inr ⟨_, _, List.mem_singleton.1 hchild⟩
  | statement id =>
      obtain ⟨node, -, hchild⟩ := exists_of_mem_inside id hchild
      rcases List.mem_append.1 hchild with hchild | hchild
      · exact Or.inl (hsame hchild)
      · obtain ⟨body, -, rfl⟩ := List.mem_map.1 hchild
        exact Or.inr ⟨_, _, rfl⟩
  | «variable» id =>
      obtain ⟨node, -, hchild⟩ := exists_of_mem_inside id hchild
      exact Or.inl (hsame hchild)
  | typeDecl id =>
      obtain ⟨node, -, hchild⟩ := exists_of_mem_inside id hchild
      exact Or.inl (hsame hchild)
  | type id =>
      obtain ⟨node, -, hchild⟩ := exists_of_mem_inside id hchild
      exact Or.inl (hsame hchild)
  | body id =>
      obtain ⟨node, -, hchild⟩ := exists_of_mem_inside id hchild
      exact Or.inl (hsame hchild)
  | expression id =>
      obtain ⟨node, -, hchild⟩ := exists_of_mem_inside id hchild
      exact Or.inl (hsame hchild)

/-! ### Sites below a site -/

theorem Arena.Below.trans {site inner last : Site} (h₁ : a.Below site inner) (h₂ : a.Below inner last) :
    a.Below site last := by
  induction h₁ with
  | here => exact h₂
  | inside hchild _ ih => exact .inside hchild (ih h₂)

theorem Arena.Below.tail {site inner child : Site} (h : a.Below site inner)
    (hchild : child ∈ a.inside inner) : a.Below site child :=
  h.trans (.inside hchild (.here child))

/-- The scopes around a site are around whatever is below it. -/
theorem Arena.Below.scopes_subset {root site : Site} (h : a.Below root site) :
    root.scopes ⊆ site.scopes := by
  induction h with
  | here => exact List.Subset.refl _
  | inside hchild _ ih =>
      rcases scopes_of_mem_inside hchild with hsame | ⟨seeds, id, rfl⟩
      · exact hsame ▸ ih
      · exact List.Subset.trans (List.subset_cons_self _ _) ih

/-- What is below a site belongs to the tree of its node. -/
theorem Arena.Below.mem {root site : Site} {vs all : List Visit} (h : a.Below root site)
    (hspans : Spans a vs all) (hroot : root.visit ∈ all) : site.visit ∈ all := by
  induction h with
  | here => exact hroot
  | inside hchild _ ih =>
      exact ih (hspans.child_mem hroot (inside_subset (hspans.has_of_mem hroot) hchild))

/-! ### The sites of a tree -/

/-- The scope that a body opens declares nodes of the tree. -/
theorem Arena.IsTree.mem_of_bodySite (htree : a.IsTree nodes) {seeds : List VariableId} {body : BodyId}
    (hseeds : ∀ x ∈ seeds, Visit.variable x ∈ nodes) (hmem : Visit.body body ∈ nodes)
    (scopes : List (List Declaration)) :
    ∀ scope ∈ (a.bodySite seeds scopes body).scopes,
      scope ∈ scopes ∨ ∀ d ∈ scope, d.visit ∈ nodes := by
  intro scope hscope
  rcases List.mem_cons.1 hscope with rfl | hscope
  · refine Or.inr fun d hd => ?_
    rcases List.mem_append.1 hd with hd | hd
    · obtain ⟨x, hx, rfl⟩ := List.mem_map.1 hd
      exact hseeds x hx
    · obtain ⟨inner, hinner, hchild⟩ := htree.spans.exists_node body hmem
      rw [hinner] at hd
      exact hchild _ (List.mem_append_left _ (List.mem_map_of_mem hd))
  · exact Or.inl hscope

/-- The scopes around an inner site are those around the outer one, but for one that was opened
in between. -/
theorem Arena.IsTree.scopes_of_inside (htree : a.IsTree nodes) {site child : Site}
    (hsite : site.visit ∈ nodes) (hchild : child ∈ a.inside site) :
    ∀ scope ∈ child.scopes, scope ∈ site.scopes ∨ ∀ d ∈ scope, d.visit ∈ nodes := by
  obtain ⟨scopes, v⟩ := site
  obtain ⟨family, id, rfl⟩ := (htree.spans.has_of_mem hsite).exists_of
  obtain ⟨node, hget, hbelow⟩ := htree.spans.exists_node id hsite
  rw [inside_of_get? hget] at hchild
  have hsame : ∀ vs : List Visit, child ∈ vs.map (Site.mk scopes) →
      ∀ scope ∈ child.scopes, scope ∈ scopes ∨ ∀ d ∈ scope, d.visit ∈ nodes := by
    intro vs hmem scope hscope
    obtain ⟨v, -, rfl⟩ := List.mem_map.1 hmem
    exact Or.inl hscope
  cases family with
  | routine =>
      rcases List.mem_append.1 hchild with hchild | hchild
      · exact hsame _ hchild
      · rw [List.mem_singleton.1 hchild]
        refine htree.mem_of_bodySite (fun x hx => ?_)
          (hbelow _ (List.mem_append_right _ List.mem_cons_self)) scopes
        exact hbelow _ (List.mem_append_left _ (List.mem_append_left _ (List.mem_map_of_mem hx)))
  | statement =>
      rcases List.mem_append.1 hchild with hchild | hchild
      · exact hsame _ hchild
      · obtain ⟨body, hmem, rfl⟩ := List.mem_map.1 hchild
        refine htree.mem_of_bodySite (fun x hx => ?_)
          (hbelow _ (List.mem_append_right _ (List.mem_map_of_mem hmem))) scopes
        exact hbelow _ (List.mem_append_left _ (List.mem_append_right _ (List.mem_map_of_mem hx)))
  | expression | «variable» | typeDecl | type | body => exact hsame _ hchild

/-- Whatever is declared around a site of a tree belongs to the tree. -/
theorem Arena.IsTree.mem_of_below (htree : a.IsTree nodes) {root site : Site}
    (hroot : ∀ scope ∈ root.scopes, ∀ d ∈ scope, d.visit ∈ nodes) (hmem : root.visit ∈ nodes)
    (h : a.Below root site) : ∀ scope ∈ site.scopes, ∀ d ∈ scope, d.visit ∈ nodes := by
  induction h with
  | here => exact hroot
  | inside hchild _ ih =>
      refine ih (fun scope hscope => ?_)
        (htree.spans.child_mem hmem (inside_subset (htree.spans.has_of_mem hmem) hchild))
      rcases htree.scopes_of_inside hmem hchild scope hscope with hscope | hscope
      · exact hroot scope hscope
      · exact hscope

/-- No name behind a point has a site. -/
theorem Arena.IsTree.hidden_of_isField (htree : a.IsTree nodes) {f : ExpressionId} (hf : a.IsField f) :
    a.Hidden (.expression f) := by
  intro site h hsite
  refine absurd hf ?_
  have hinner : ∀ {root site : Site}, a.Below root site → root.visit ∈ nodes →
      (∀ f, root.visit = .expression f → ¬ a.IsField f) →
      ∀ f, site.visit = .expression f → ¬ a.IsField f := by
    intro root site h
    induction h with
    | here => exact fun _ h => h
    | @inside root child site hchild _ ih =>
        intro hroot _
        have hhas := htree.spans.has_of_mem hroot
        refine ih (htree.spans.child_mem hroot (inside_subset hhas hchild)) fun f hf hfield => ?_
        obtain ⟨scopes, v⟩ := root
        obtain ⟨family, id, rfl⟩ := hhas.exists_of
        obtain ⟨node, hget⟩ := hhas.exists_get?
        rw [inside_of_get? hget] at hchild
        exact htree.separate f hfield family id node hget (slot_of_insideNode hchild hf)
  cases h with
  | here => nomatch hsite
  | inside hchild h =>
      obtain ⟨v, hv, rfl⟩ := List.mem_map.1 hchild
      refine hinner h (htree.spans.mem_of_root hv) (fun f hf => ?_) f hsite
      obtain ⟨d, -, rfl⟩ := List.mem_map.1 hv
      cases d <;> nomatch hf

/-- Whatever is declared around a site of a tree is there. -/
theorem Arena.IsTree.has_of_scope (htree : a.IsTree nodes) {site : Site} (h : a.Below a.top site) :
    ∀ scope ∈ site.scopes, ∀ d ∈ scope, a.Has d.visit := by
  have hdeclared : ∀ scope ∈ a.top.scopes, ∀ d ∈ scope, d.visit ∈ nodes := by
    intro scope hscope d hd
    rw [top, List.mem_singleton] at hscope
    subst hscope
    exact htree.spans.mem_of_root (List.mem_map_of_mem hd)
  intro scope hscope d hd
  refine htree.spans.has_of_mem ?_
  cases h with
  | here => exact hdeclared scope hscope d hd
  | @inside _ child _ hchild h =>
      have hroot : child.scopes = a.top.scopes ∧ child.visit ∈ a.children .program := by
        obtain ⟨v, hv, rfl⟩ := List.mem_map.1 hchild
        exact ⟨rfl, hv⟩
      exact htree.mem_of_below (hroot.1 ▸ hdeclared) (htree.spans.mem_of_root hroot.2) h scope
        hscope d hd

theorem innermost_mem {α : Type} {select : Declaration → Option α} {name : String} {x : α}
    {scopes : List (List Declaration)}
    (h : a.innermost select name scopes = some x) :
    ∃ scope ∈ scopes, ∃ d ∈ scope, a.nameOf d = some name ∧ select d = some x := by
  obtain ⟨scope, hscope, h⟩ := List.exists_of_findSome?_eq_some h
  obtain ⟨d, hd, h⟩ := List.exists_of_findSome?_eq_some h
  split at h
  · rename_i hname
    exact ⟨scope, hscope, d, hd, hname, h⟩
  · nomatch h

/-- What a name stands for is there. -/
theorem Arena.IsTree.has_of_innermost (htree : a.IsTree nodes) {site : Site} {α : Type}
    {select : Declaration → Option α} {visit : α → Visit}
    (hselect : ∀ d x, select d = some x → d.visit = visit x) {name : String} {x : α}
    (h : a.Below a.top site) (hname : a.innermost select name site.scopes = some x) :
    a.Has (visit x) := by
  obtain ⟨scope, hscope, d, hd, -, hd'⟩ := innermost_mem hname
  rw [← hselect d x hd']
  exact htree.has_of_scope h scope hscope d hd

end ProcLang
