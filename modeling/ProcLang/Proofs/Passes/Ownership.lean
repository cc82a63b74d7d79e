import ProcLang.Proofs.Passes.Completion
import ProcLang.Proofs.Resolved.Forest
import ProcLang.Proofs.Tree.Ownership

/-!
# ProcLang.Proofs.Passes.Ownership

**The arena is an ownership tree, after parsing and after every pass** (`parse_owned`). The parser
adds a node over nodes that nothing owns yet, and after an error it only forgets about nodes. Name
resolution puts a call in the place of a bare name and leaves everything else where it is, so a bare
name that was replaced is the only expression that nothing owns any more. The passes behind it move
no node at all, whatever was reported of the names.
-/

namespace ProcLang

open Arena

variable {a b : Arena} {nodes all lost : List Visit} {v : Visit}

/-! ### Parsed trees -/

/-- A node as the parser makes it refers to shared types only. -/
theorem Node.Raw.links {family : Family} {node : Node family} (h : Node.Raw family node) {v : Visit}
    (hv : v ∈ Node.links family node) : empty.Has v := by
  cases family with
  | type =>
      rw [Node.links] at hv
      split at hv
      · rename_i name t hkind
        cases h name (some t) hkind
      · cases hv
  | expression =>
      rw [Node.Raw] at h
      cases hkind : node.kind with
      | integer | real | boolean =>
          rw [hkind] at h
          dsimp only at h
          rw [h] at hv
          obtain rfl := List.mem_singleton.1 hv
          exact ⟨.type, _, rfl, by decide⟩
      | identifier | call | unary | binary =>
          rw [hkind] at h
          dsimp only at h
          rw [h] at hv
          cases hv
  | routine | «variable» | typeDecl | body | statement => cases hv

namespace Arena

/-- The shared types are the types 0, 1 and 2. -/
theorem empty_has_iff : empty.Has v ↔ v ∈ [Visit.type integer, .type real, .type boolean] := by
  constructor
  · intro hhas
    obtain ⟨family, id, rfl⟩ := hhas.exists_of
    have hlt := has_of.1 hhas
    cases family with
    | type =>
        obtain ⟨index⟩ := id
        match index, hlt with
        | 0, _ => simp [Visit.of, integer]
        | 1, _ => simp [Visit.of, real]
        | 2, _ => simp [Visit.of, boolean]
    | _ => exact absurd hlt (Nat.not_lt_zero _)
  · intro hmem
    simp only [List.mem_cons, List.not_mem_nil, or_false] at hmem
    rcases hmem with rfl | rfl | rfl
    · exact ⟨.type, 0, rfl, by decide⟩
    · exact ⟨.type, 1, rfl, by decide⟩
    · exact ⟨.type, 2, rfl, by decide⟩

namespace HoldsForest

variable {roots : List Visit}

theorem closed (h : a.HoldsForest roots all) : a.Closed := by
  intro family id node hget v hv
  rcases List.mem_append.1 hv with hchild | hlink
  · refine h.spans.has_of_mem (h.spans.child_mem (h.mem_of_child hget hchild) ?_)
    rwa [children_of_get? hget]
  · refine Has.extend ?_ h.shared
    rcases h.covers family id node hget with hshared | ⟨-, hraw⟩
    · -- a shared type is no name, so it refers to nothing
      obtain ⟨node', hempty⟩ := hshared.exists_get?
      obtain rfl : node' = node :=
        Option.some.inj ((h.shared family id node' hempty).symm.trans hget)
      cases family with
      | type =>
          have hmem := Array.mem_of_getElem? hempty
          simp only [table, empty, List.mem_toArray, List.mem_cons, List.not_mem_nil,
            or_false] at hmem
          rcases hmem with rfl | rfl | rfl <;> cases hlink
      | _ => exact absurd (has_of.1 hshared) (Nat.not_lt_zero _)
    · exact hraw.links hlink

/-- Whatever was lost after errors, the parsed nodes own one another as in a forest. -/
theorem owned (h : a.HoldsForest (a.children .program ++ lost) all) : a.Owned := by
  refine .of_spans h.spans h.nodup (fun v hhas hmem => ?_) h.closed
  obtain ⟨family, id, rfl⟩ := hhas.exists_of
  obtain ⟨node, hget⟩ := hhas.exists_get?
  rw [children_of_get? hget]
  by_contra hchildren
  obtain ⟨w, hw⟩ := List.exists_mem_of_ne_nil _ hchildren
  exact hmem (h.mem_of_child hget hw)

end HoldsForest

theorem IsTree.owned (htree : a.IsTree nodes) : a.Owned := by
  have hforest : a.HoldsForest (a.children .program ++ []) nodes := by
    rw [List.append_nil]
    exact htree
  exact hforest.owned

/-- A node of a tree is below the program, unless it is a shared type. -/
theorem IsTree.reaches_iff (htree : a.IsTree nodes) (hhas : a.Has v) :
    a.Reaches .program v ↔ v ∉ [Visit.type integer, .type real, .type boolean] := by
  rw [← empty_has_iff]
  constructor
  · intro hreaches
    rcases Relation.ReflTransGen.cases_head hreaches with rfl | ⟨w, hw, hrest⟩
    · exact absurd hhas a.not_has_program
    · exact htree.fresh v (htree.spans.mem_of_reaches (htree.spans.mem_of_root hw) hrest)
  · intro hshared
    obtain ⟨family, id, rfl⟩ := hhas.exists_of
    obtain ⟨node, hget⟩ := hhas.exists_get?
    obtain ⟨hmem, -⟩ := (htree.covers family id node hget).resolve_left hshared
    obtain ⟨root, hroot, hreaches⟩ := htree.spans.exists_reaches hmem
    exact .head hroot hreaches

/-! ### Resolved trees -/

/-- In a slot in which the name `e` stood in the tree `a`, a call of that name stands in `b`. -/
def ReplacedByCall (a b : Arena) (e : ExpressionId) : Prop :=
  ∃ (v : Visit) (i : Nat) (node : Expression) (name : String) (target : Option VariableId)
    (call : ExpressionId) (r : RoutineId),
    (a.children v)[i]? = some (.expression e) ∧ a.get? e = some node ∧
    node.kind = .identifier name target ∧ (b.children v)[i]? = some (.expression call) ∧
    b.get? call = some (.plain (.call name (some r) []) node.span)

namespace Reshapes

section

variable (h : a.Reshapes b)

include h

/-- What owns something in the new tree was there before. -/
theorem has_of_child {v w : Visit} (hhas : b.Has v) (hchild : w ∈ b.children v) : a.Has v := by
  obtain ⟨family, id, rfl⟩ := hhas.exists_of
  obtain ⟨node, hget⟩ := hhas.exists_get?
  refine (h.evolves.added family id node hget).resolve_right fun hadded => ?_
  rw [children_of_get? hget] at hchild
  cases family with
  | expression =>
      obtain ⟨name, r, span, -, rfl⟩ := hadded
      nomatch hchild
  | _ => exact hadded.elim

/-- What is owned in the new tree stands where something stood before. -/
theorem exists_old {v w : Visit} {i : Nat} (hhas : a.Has v) (hchild : (b.children v)[i]? = some w) :
    ∃ u, (a.children v)[i]? = some u ∧ a.Replaces b u w := by
  have hall := h.children v hhas
  obtain ⟨hlt, hw⟩ := List.getElem?_eq_some_iff.1 hchild
  have hlt' : i < (a.children v).length := hall.length_eq ▸ hlt
  refine ⟨_, List.getElem?_eq_getElem hlt', ?_⟩
  rw [← hw]
  exact hall.get hlt' hlt

theorem exists_new {v u : Visit} {i : Nat} (hhas : a.Has v) (hchild : (a.children v)[i]? = some u) :
    ∃ w, (b.children v)[i]? = some w ∧ a.Replaces b u w := by
  have hall := h.children v hhas
  obtain ⟨hlt, hu⟩ := List.getElem?_eq_some_iff.1 hchild
  have hlt' : i < (b.children v).length := hall.length_eq ▸ hlt
  refine ⟨_, List.getElem?_eq_getElem hlt', ?_⟩
  rw [← hu]
  exact hall.get hlt hlt'

variable (htree : a.IsTree nodes)

include htree

theorem closed : b.Closed := by
  intro family id node hget v hv
  rcases List.mem_append.1 hv with hchild | hlink
  · rw [← children_of_get? hget] at hchild
    obtain ⟨i, hi⟩ := List.getElem?_of_mem hchild
    obtain ⟨u, -, hreplaces⟩ := h.exists_old (h.has_of_child (has_of_get? hget) hchild) hi
    exact h.has hreplaces
  · exact h.evolves.has_link htree hget hlink

variable (hall : List.Forall₂ (a.Replaces b) nodes all)

include hall

/-- A node that owns something is where it was. -/
theorem mem_of_child {v w : Visit} (hhas : b.Has v) (hchild : w ∈ b.children v) : v ∈ all := by
  have hold := h.has_of_child hhas hchild
  obtain ⟨i, hi⟩ := List.getElem?_of_mem hchild
  obtain ⟨u, hu, -⟩ := h.exists_old hold hi
  have hchild' := List.mem_of_getElem? hu
  obtain ⟨family, id, rfl⟩ := hold.exists_of
  obtain ⟨node, hget⟩ := hold.exists_get?
  rw [children_of_get? hget] at hchild'
  obtain ⟨x, hx, hreplaces⟩ := exists_of_forall₂ hall.flip (htree.mem_of_child hget hchild')
  rcases hreplaces.eq_or_leaf with heq | hleaf
  · exact heq ▸ hx
  · rw [children_of_get? hget] at hleaf
    rw [hleaf] at hchild'
    nomatch hchild'

/-- A call that was added is below the program, and so is every expression that was not replaced. -/
theorem mem_or_replaced {e : ExpressionId}
    (hstored : a.count .expression ≤ e.index → ∃ v ∈ nodes, e ∈ b.slots v)
    (hspans : Spans b (b.children .program) all) :
    .expression e ∈ all ∨ a.ReplacedByCall b e := by
  have hkept : ∀ {v : Visit}, v ∈ nodes → .expression e ∈ b.children v → .expression e ∈ all := by
    intro v hv hchild
    have hnew := h.evolves.has (htree.spans.has_of_mem hv)
    exact hspans.child_mem (h.mem_of_child htree hall hnew hchild) hchild
  by_cases hold : a.Has (Visit.of e)
  · obtain ⟨found, hget⟩ := hold.exists_get?
    obtain ⟨root, hroot, hreaches⟩ := htree.spans.exists_reaches (htree.raw hget).1
    obtain ⟨v, hv, hchild⟩ : ∃ v ∈ nodes, .expression e ∈ a.children v := by
      rcases Relation.ReflTransGen.cases_tail hreaches with heq | ⟨v, hv, hchild⟩
      · -- a declaration of the program is no expression
        subst heq
        obtain ⟨d, -, heq⟩ := List.mem_map.1 hroot
        cases d <;> nomatch heq
      · exact ⟨v, htree.spans.mem_of_reaches (htree.spans.mem_of_root hroot) hv, hchild⟩
    obtain ⟨i, hi⟩ := List.getElem?_of_mem hchild
    obtain ⟨w, hw, hreplaces⟩ := h.exists_new (htree.spans.has_of_mem hv) hi
    cases hreplaces with
    | same => exact Or.inl (hkept hv (List.mem_of_getElem? hw))
    | @called _ call node name target r hnode hkind hfresh hcall =>
        exact Or.inr ⟨v, i, node, name, target, call, r, hi, hnode, hkind, hw, hcall⟩
  · obtain ⟨v, hv, hslot⟩ := hstored (Nat.not_lt.1 fun hlt => hold (has_of.2 hlt))
    exact Or.inl (hkept hv (slots_subset hslot (h.evolves.has (htree.spans.has_of_mem hv))))

end

section

variable (h : a.Reshapes b) (htree : a.IsTree nodes)

include h htree

/-- **Resolved trees.** Whatever was reported, the resolved nodes own one another as in a forest. -/
theorem owned : b.Owned := by
  obtain ⟨all, hspans, hall⟩ := h.exists_replaced htree
  have hspans' : Spans b (b.children .program ++ []) all := by rwa [List.append_nil]
  refine .of_spans hspans' (nodup_of_replaced htree htree.nodup hall) (fun v hhas hmem => ?_)
    (h.closed htree)
  by_contra hchildren
  obtain ⟨w, hw⟩ := List.exists_mem_of_ne_nil _ hchildren
  exact hmem (h.mem_of_child htree hall hhas hw)

/-- A name that was replaced stands nowhere else. -/
theorem not_reaches_of_replaced {e : ExpressionId} (hreplaced : a.ReplacedByCall b e) :
    ¬ b.Reaches .program (.expression e) := by
  intro hreaches
  obtain ⟨v, i, node, name, target, call, r, hi, hnode, hkind, hnew, hcall⟩ := hreplaced
  obtain ⟨parent, hparent, hchild⟩ : ∃ parent, b.Reaches .program parent ∧
      .expression e ∈ b.children parent := by
    rcases Relation.ReflTransGen.cases_tail hreaches with heq | ⟨parent, hparent, hchild⟩
    · nomatch heq
    · exact ⟨parent, hparent, hchild⟩
  have howner : ∀ {c : Arena} {v : Visit}, .expression e ∈ c.children v → v.IsOwner ∧ v ≠ .program := by
    intro c v hmem
    cases v with
    | declaration d => cases d <;> nomatch List.mem_singleton.1 hmem
    | program =>
        obtain ⟨d, -, heq⟩ := List.mem_map.1 hmem
        cases d <;> nomatch heq
    | _ => exact ⟨trivial, nofun⟩
  obtain ⟨hparentOwner, hprogram⟩ := howner hchild
  have hold := h.has_of_child ((eq_program_or_has_of_child hparentOwner hchild).resolve_left hprogram)
    hchild
  obtain ⟨j, hj⟩ := List.getElem?_of_mem hchild
  obtain ⟨u, hu, hsame⟩ := h.exists_old hold hj
  have hue : u = .expression e := by
    cases hsame with
    | same => rfl
    | called _ _ hfresh =>
        exact absurd (has_of.1 (has_of_get? hnode)) (Nat.not_lt.2 hfresh)
  subst hue
  -- both are the slot of the name in the parsed tree, which has one slot only
  obtain ⟨rfl, rfl⟩ := htree.owned.single parent v (.expression e) j i hparentOwner
    (howner (List.mem_of_getElem? hi)).1 hu hi
  obtain rfl : e = call := by simpa using hj.symm.trans hnew
  obtain ⟨node', hget', hchanges⟩ := h.evolves.changed .expression e node hnode
  obtain rfl := Option.some.inj (hget'.symm.trans hcall)
  obtain ⟨old, arguments, hkind'⟩ := hchanges.exists_call rfl
  nomatch hkind.symm.trans hkind'

/-- **What nothing owns any more** are the names that were replaced by calls. -/
theorem not_reaches_iff (hstored : ∀ c : ExpressionId, a.count .expression ≤ c.index →
      b.Has (.expression c) → ∃ v ∈ nodes, c ∈ b.slots v)
    {e : ExpressionId} (hhas : b.Has (.expression e)) :
    ¬ b.Reaches .program (.expression e) ↔ a.ReplacedByCall b e := by
  constructor
  · intro hnot
    obtain ⟨all, hspans, hall⟩ := h.exists_replaced htree
    refine (h.mem_or_replaced htree hall (fun hle => hstored e hle hhas) hspans).resolve_left
      fun hmem => hnot ?_
    obtain ⟨root, hroot, hreaches⟩ := hspans.exists_reaches hmem
    exact .head hroot hreaches
  · exact h.not_reaches_of_replaced htree

end

end Reshapes

/-! ### All passes -/

/-- Name resolution leaves a coherent tree, whatever it reported. -/
theorem Reshapes.coherent (h : a.Reshapes b) (htree : a.IsTree nodes) : b.Coherent :=
  h.evolves.coherent htree (h.closed htree)

/-- More types on the expressions do not move a node. -/
theorem Extends.owned (h : b.Extends a) (howned : b.Owned) : a.Owned :=
  howned.congr (fun _ => h.refined.has_iff) h.refined.children_eq h.coherent.closed

theorem RefinedBy.reaches_iff (h : a.RefinedBy b) {v w : Visit} : b.Reaches v w ↔ a.Reaches v w := by
  simp only [Reaches, h.children_eq]

end Arena

/-- **The arena is an ownership tree, after parsing and after every pass.** It is one whatever the errors
of the text, and it stays one whatever name resolution reports. -/
theorem parse_owned (source : String) :
    (parse source).arena.Owned ∧ (parse source).arena.Descends ∧ ((parse source).errors = [] →
      (∀ v, (parse source).arena.Has v → ((parse source).arena.Reaches .program v ↔
        v ∉ [Visit.type integer, .type real, .type boolean])) ∧
      ∃ names, nameResolution.run (parse source).arena = .ok names ∧ names.arena.Owned ∧
        (∀ e, names.arena.Has (.expression e) →
          (¬ names.arena.Reaches .program (.expression e) ↔
            (parse source).arena.ReplacedByCall names.arena e)) ∧
        ∀ passes ⊆ laterPasses, ∃ b, names.arena.after passes = .ok b ∧ b.Owned ∧
          ∀ e, b.Has (.expression e) →
            (¬ b.Reaches .program (.expression e) ↔
              (parse source).arena.ReplacedByCall names.arena e)) := by
  obtain ⟨lost, all, hforest, -, -⟩ := Parser.parse_holdsForest source
  refine ⟨hforest.owned, hforest.descends, fun hparse => ?_⟩
  obtain ⟨nodes, htree⟩ := Parser.parse_isTree source hparse
  obtain ⟨names, hrun, hsettles⟩ := htree.exists_settles
  have hreshapes := hsettles.reshapes htree
  have hunreached : ∀ e, names.arena.Has (.expression e) →
      (¬ names.arena.Reaches .program (.expression e) ↔
        (parse source).arena.ReplacedByCall names.arena e) :=
    fun e hhas => hreshapes.not_reaches_iff htree hsettles.stored hhas
  refine ⟨fun v hhas => htree.reaches_iff hhas, names, hrun, hreshapes.owned htree, hunreached,
    fun passes hpasses => ?_⟩
  obtain ⟨forest, hb⟩ := hreshapes.exists_forest htree
  obtain ⟨b, hafter, hextends⟩ := exists_after_of_coherent hb hpasses (hreshapes.coherent htree)
  refine ⟨b, hafter, hextends.owned (hreshapes.owned htree), fun e hhas => ?_⟩
  rw [hextends.refined.reaches_iff]
  exact hunreached e (hextends.refined.has_iff.1 hhas)

/-- A bare name of a routine is replaced by a call, and another name is not declared. The passes behind
name resolution leave the tree in its shape all the same. -/
theorem parse_owned_call :
    let source := "routine f() : integer is\nreturn 1\nend\nvar x is f + y\n"
    let a := (parse source).arena
    ∃ names b, nameResolution.run a = .ok names ∧
      names.diagnostics = [⟨.undeclaredName "y", ⟨4, 14⟩⟩] ∧
      names.arena.after laterPasses = .ok b ∧ a.Owned ∧ names.arena.Owned ∧ b.Owned ∧
      ∀ e, b.Has (.expression e) →
        (¬ b.Reaches .program (.expression e) ↔ a.ReplacedByCall names.arena e) := by
  intro source a
  obtain ⟨hparse, hcheck⟩ : (parse source).errors = [] ∧
      (nameResolution.run a).map PassOutcome.diagnostics =
        .ok [⟨.undeclaredName "y", ⟨4, 14⟩⟩] := by
    decide +kernel
  obtain ⟨howned, -, hparsed⟩ := parse_owned source
  obtain ⟨-, names, hrun, hnames, -, hlater⟩ := hparsed hparse
  rw [hrun] at hcheck
  obtain ⟨b, hafter, hb, hunreached⟩ := hlater laterPasses (List.Subset.refl _)
  exact ⟨names, b, hrun, Except.ok.inj hcheck, hafter, howned, hnames, hb, hunreached⟩

end ProcLang
