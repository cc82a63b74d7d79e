import ProcLang.Proofs.Isolation.Links

/-!
# ProcLang.Proofs.Isolation.Resolved

**The same links are set outside of a body.** Where the links of a node lead is said by the scopes around
it and by the routines of the program (`links_identifier`, `links_call`, `links_named`). So at the same
places outside of a body the links lead to the same places, and what name resolution leaves of two trees
is the same outside of the body if the trees were (`Resolved.sameLinked`).
-/

namespace ProcLang

open Arena

variable {a b : Arena} {nodes nodes' : List Visit}

/-! ### Single nodes -/

/-- The type of something else than a name stays. -/
theorem Node.Changes.type_kept {node node' : Expression} (h : Node.Changes a .expression node node')
    (hkind : ∀ name target, node.kind ≠ .identifier name target) : node'.type = node.type := by
  induction h with
  | refl => rfl
  | tail hbefore hchange ih =>
      cases hchange with
      | operand | routine => exact ih
      | link middle hold =>
          obtain ⟨old, heq⟩ := Node.Changes.exists_identifier hbefore hold
          exact absurd heq (hkind _ old)

/-- A name is linked once, or not at all. -/
theorem Node.Changes.identifier_cases {node node' : Expression}
    (h : Node.Changes a .expression node node') {name : String}
    (hkind : node.kind = .identifier name none) : node' = node ∨ ∃ x declared,
      a.get? x = some declared ∧ node'.kind = .identifier name (some x) ∧
        node'.type = (declared.declaredType <|> node.type) := by
  induction h with
  | refl => exact Or.inl rfl
  | tail _ hchange ih =>
      rcases ih with rfl | ⟨x, declared, hx, hlinked, htype⟩
      · cases hchange with
        | operand middle hopen =>
            rw [Node.slots, hkind] at hopen
            exact absurd hopen (Nat.not_lt_zero _)
        | link middle hold hx =>
            obtain ⟨rfl, -⟩ := ExpressionKind.identifier.inj (hkind.symm.trans hold)
            exact Or.inr ⟨_, _, hx, rfl, rfl⟩
        | routine middle hold => cases hkind.symm.trans hold
      · cases hchange with
        | operand middle hopen =>
            rw [Node.slots, hlinked] at hopen
            exact absurd hopen (Nat.not_lt_zero _)
        | link middle hold => cases hlinked.symm.trans hold
        | routine middle hold => cases hlinked.symm.trans hold

/-- The links of an expression that is neither a name nor a call. -/
theorem links_of_other {node : Expression} (hname : ∀ name target, node.kind ≠ .identifier name target)
    (hcall : ∀ name target arguments, node.kind ≠ .call name target arguments) :
    Node.links .expression node = node.type.toList.map Visit.type := by
  rw [Node.links]
  cases hkind : node.kind with
  | identifier name target => exact absurd hkind (hname name target)
  | call name target arguments => exact absurd hkind (hcall name target arguments)
  | unary | binary | integer | real | boolean => exact List.append_nil _

/-- A type that is no name has no link. -/
theorem links_of_unnamed {node : TypeNode} (hname : ∀ name target, node.kind ≠ .named name target) :
    Node.links .type node = [] := by
  rw [Node.links]
  cases hkind : node.kind with
  | named name target => exact absurd hkind (hname name target)
  | integer | real | boolean | array | record => rfl

/-- An expression that was just read has no links but that to its type. -/
theorem Node.Raw.links_eq {node : Expression} (h : Node.Raw .expression node) :
    Node.links .expression node = node.type.toList.map Visit.type := by
  rw [Node.Raw] at h
  cases hkind : node.kind with
  | identifier name target =>
      simp only [hkind] at h
      rw [h]
      rfl
  | call name target arguments =>
      simp only [hkind] at h
      rw [h]
      rfl
  | unary | binary | integer | real | boolean =>
      exact links_of_other (by simp [hkind]) (by simp [hkind])

/-- The type of a literal, one of the shared types. Nothing else has a type from the beginning. -/
def Form.literalType : Form → Option TypeId
  | .integer _ => some Arena.integer
  | .real _ => some Arena.real
  | .boolean _ => some Arena.boolean
  | _ => none

theorem Form.has_of_literalType {f : Form} {t : TypeId} (h : f.literalType = some t) :
    empty.Has (.type t) := by
  have hshared : ∀ t : TypeId, t.index < 3 → empty.Has (.type t) := fun t ht => ⟨.type, t.index, rfl, ht⟩
  cases f with
  | integer | real | boolean =>
      cases h
      exact hshared _ (by decide)
  | _ => nomatch h

theorem Node.Raw.type_eq {node : Expression} (h : Node.Raw .expression node) :
    node.type = node.kind.form.literalType := by
  rw [Node.Raw] at h
  cases hkind : node.kind <;>
    · simp only [hkind] at h
      rw [h]
      rfl

/-! ### Links in one tree -/

section

variable (htree : a.IsTree nodes) {outcome : PassOutcome} (h : a.Settles nodes outcome)
  {scopes : List (List Declaration)}

include htree h

/-- What stands in the slot of an expression, as the scopes around it say. -/
theorem Arena.Settles.exists_standsFor {e : ExpressionId} (hbelow : a.Below a.top ⟨scopes, .expression e⟩)
    (hdistinct : a.DistinctScopes scopes) :
    ∃ e', StandsFor a outcome.arena outcome.diagnostics scopes e e' := by
  obtain ⟨outer, houter, hinner⟩ : ∃ outer, a.Below a.top outer ∧
      ⟨scopes, .expression e⟩ ∈ a.inside outer :=
    hbelow.exists_outer.resolve_left nofun
  rcases htree.site_mem houter with hprogram | hmem
  · obtain ⟨outer, v⟩ := outer
    cases hprogram
    obtain ⟨v, hv, heq⟩ := List.mem_map.1 hinner
    obtain ⟨d, -, rfl⟩ := List.mem_map.1 hv
    cases d <;> nomatch heq
  · obtain ⟨outer, v⟩ := outer
    have hhas := htree.spans.has_of_mem hmem
    obtain ⟨family, id, rfl⟩ := hhas.exists_of
    obtain ⟨node, hget⟩ := hhas.exists_get?
    have hscopes : scopes = outer := by
      rcases scopes_of_mem_inside hinner with hsame | ⟨seeds, body, heq⟩
      · exact hsame
      · nomatch congrArg Site.visit heq
    subst hscopes
    have hslots := ((h.settled _ houter).resolved hdistinct).slots
    rw [inside_of_get? hget] at hinner
    have hslot := slot_of_insideNode hinner rfl
    rw [← slots_of_get? hget] at hslot
    obtain ⟨e', -, hstands⟩ := exists_right_of_forall₂ hslots hslot
    exact ⟨e', hstands⟩

/-- **The links of a name** that stays lead to the variable that it stands for, and to its type. -/
theorem Arena.Settles.links_identifier {e : ExpressionId} {node : Expression} {name : String}
    {target : Option VariableId} (hbelow : a.Below a.top ⟨scopes, .expression e⟩)
    (hdistinct : a.DistinctScopes scopes) (hget : a.get? e = some node)
    (hkind : node.kind = .identifier name target) (hkept : ∀ name r, ¬ a.CallAt e name r) :
    (a.innermost Declaration.variable? name scopes = none ∧
      outcome.arena.links (.expression e) = []) ∨
    ∃ x declared, a.innermost Declaration.variable? name scopes = some x ∧
      a.get? x = some declared ∧ outcome.arena.links (.expression e) =
        declared.declaredType.toList.map Visit.type ++ [.variable x] := by
  have hraw := (htree.raw hget).2
  have htype := hraw.type_eq
  rw [hkind] at htype
  obtain ⟨e', hstands⟩ := h.exists_standsFor htree hbelow hdistinct
  cases hstands with
  | @linked found linked name' target' x hnode hkind' hname hlinked hlink =>
      obtain rfl := Option.some.inj (hget.symm.trans hnode)
      obtain ⟨rfl, -⟩ := ExpressionKind.identifier.inj (hkind.symm.trans hkind')
      refine Or.inr ?_
      obtain ⟨after, hafter, hchanges⟩ := h.evolves.changed .expression e node hget
      obtain rfl := Option.some.inj (hlinked.symm.trans hafter)
      rcases hchanges.identifier_cases (htree.unlinked hget hkind) with
        rfl | ⟨x', declared, hx, hlink', htype'⟩
      · nomatch (htree.unlinked hget hkind).symm.trans hlink
      · obtain ⟨-, heq⟩ := ExpressionKind.identifier.inj (hlink.symm.trans hlink')
        obtain rfl := Option.some.inj heq
        refine ⟨x, declared, hname, hx, ?_⟩
        rw [Visit.expression_eq e, links_of_get? hlinked, Node.links, htype', htype, hlink]
        cases declared.declaredType <;> rfl
  | called hnode hkind' hvariable hname =>
      exact absurd (.intro hbelow hdistinct hnode hkind' hvariable hname) (hkept _ _)
  | undeclared hnode hkind' hvariable hroutine hafter =>
      obtain rfl := Option.some.inj (hget.symm.trans hnode)
      obtain ⟨rfl, -⟩ := ExpressionKind.identifier.inj (hkind.symm.trans hkind')
      refine Or.inl ⟨hvariable, ?_⟩
      rw [Visit.expression_eq e, links_of_get? hafter, hraw.links_eq, htype]
      rfl
  | other hnode hother =>
      obtain rfl := Option.some.inj (hget.symm.trans hnode)
      exact absurd hkind (hother _ _)

/-- **The link of a call** leads to the routine of its name. -/
theorem Arena.Settles.links_call {e : ExpressionId} {node : Expression} {name : String}
    {target : Option RoutineId} {arguments : List ExpressionId}
    (hcalls : ∀ e name r, outcome.arena.Calls e name r → a.routineNamed name = some r)
    (hbelow : a.Below a.top ⟨scopes, .expression e⟩) (hdistinct : a.DistinctScopes scopes)
    (hget : a.get? e = some node) (hkind : node.kind = .call name target arguments) :
    outcome.arena.links (.expression e) = (a.routineNamed name).toList.map Visit.routine := by
  have htype := (htree.raw hget).2.type_eq
  rw [hkind] at htype
  obtain ⟨after, hafter, hchanges⟩ := h.evolves.changed .expression e node hget
  have htype' := hchanges.type_kept (by simp [hkind])
  rw [htype] at htype'
  obtain ⟨linked, hlinked, hcall⟩ := ((h.settled _ hbelow).resolved hdistinct).call e node name target
    arguments rfl hget hkind
  obtain rfl := Option.some.inj (hlinked.symm.trans hafter)
  rw [Visit.expression_eq e, links_of_get? hlinked, Node.links, htype']
  cases hcall with
  | linked hname hlink =>
      rw [hname, hlink]
      rfl
  | @undeclared target' arguments' hname hlink =>
      rw [hname, hlink]
      cases target' with
      | none => rfl
      | some r =>
          have hroutine := hcalls e name r ⟨linked, arguments', hlinked, hlink⟩
          rw [hname] at hroutine
          cases hroutine

omit h in
/-- **The link of a named type** leads to the declaration that the name stands for. -/
theorem Arena.Settles.links_named (h : a.Settles nodes outcome) {t : TypeId} {node : TypeNode}
    {name : String} {target : Option TypeDeclId} (hbelow : a.Below a.top ⟨scopes, .type t⟩)
    (hdistinct : a.DistinctScopes scopes) (hget : a.get? t = some node)
    (hkind : node.kind = .named name target) : outcome.arena.links (.type t) =
      (a.innermost Declaration.type? name scopes).toList.map Visit.typeDecl := by
  obtain ⟨linked, hlinked, htype⟩ := ((h.settled _ hbelow).resolved hdistinct).type t node name target
    rfl hget hkind
  rw [Visit.type_eq t, links_of_get? hlinked, Node.links]
  cases htype with
  | linked hname hlink =>
      rw [hname, hlink]
      rfl
  | undeclared hname hlink =>
      rw [hname, hlink, hkind]
      rw [htree.named_unlinked hget hkind]
      rfl

omit htree in
/-- The links of an expression that is neither a name nor a call. -/
theorem Arena.Settles.links_other {e : ExpressionId} {node : Expression} (hget : a.get? e = some node)
    (hname : ∀ name target, node.kind ≠ .identifier name target)
    (hcall : ∀ name target arguments, node.kind ≠ .call name target arguments) :
    outcome.arena.links (.expression e) = node.type.toList.map Visit.type := by
  obtain ⟨after, hafter, hchanges⟩ := h.evolves.changed .expression e node hget
  rw [Visit.expression_eq e, links_of_get? hafter, ← hchanges.type_kept hname]
  refine links_of_other (fun name target hkind => ?_) fun name target arguments hkind => ?_
  · obtain ⟨old, hold⟩ := hchanges.exists_identifier hkind
    exact hname name old hold
  · obtain ⟨old, before, hold⟩ := hchanges.exists_call hkind
    exact hcall name old before hold

omit htree in
/-- A type that is no name has no link. -/
theorem Arena.Settles.links_unnamed {t : TypeId} {node : TypeNode} (hget : a.get? t = some node)
    (hname : ∀ name target, node.kind ≠ .named name target) :
    outcome.arena.links (.type t) = [] := by
  obtain ⟨after, hafter, hchanges⟩ := h.evolves.changed .type t node hget
  rw [Visit.type_eq t, links_of_get? hafter]
  refine links_of_unnamed fun name target hkind => ?_
  obtain ⟨old, hold⟩ := hchanges.exists_named hkind
  exact hname name old hold

end

/-! ### Links at the same place -/

/-- Nodes at the same place outside are both passed over, or have sites in scopes with distinct names. -/
theorem Twins.passed_or_open {x y : BodyId} (h : Twins a b x y nodes nodes') {v w : Visit}
    (hplace : SamePlace a b x y v w) (hv : v ≠ .body x) :
    ((∀ scopes, a.Below a.top ⟨scopes, v⟩ → ¬ a.DistinctScopes scopes) ∧
      ∀ scopes, b.Below b.top ⟨scopes, w⟩ → ¬ b.DistinctScopes scopes) ∨
    ∃ scopes scopes', a.Below a.top ⟨scopes, v⟩ ∧ b.Below b.top ⟨scopes', w⟩ ∧
      a.DistinctScopes scopes ∧ b.DistinctScopes scopes' ∧ SameScopes a b x y scopes scopes' := by
  cases h.around hplace hv with
  | hidden hhidden hhidden' =>
      exact Or.inl ⟨fun _ hbelow => absurd rfl (hhidden _ hbelow),
        fun _ hbelow => absurd rfl (hhidden' _ hbelow)⟩
  | @site scopes scopes' hbelow hbelow' hscopes =>
      have hiff := h.distinctScopes hscopes
      by_cases hdistinct : a.DistinctScopes scopes
      · exact Or.inr ⟨scopes, scopes', hbelow, hbelow', hdistinct, hiff.1 hdistinct, hscopes⟩
      · refine Or.inl ⟨fun other hother => ?_, fun other hother => ?_⟩
        · exact h.left.scopes_unique hother hbelow ▸ hdistinct
        · exact h.right.scopes_unique hother hbelow' ▸ fun hnot => hdistinct (hiff.2 hnot)

namespace Resolved

variable {x y : BodyId} {outcome outcome' : PassOutcome}
  (h : Resolved a b x y nodes nodes' outcome outcome')

include h

/-- Links to declarations at the same place. -/
theorem sameLinks_of_rel {family : Family} {q q' : Option (NodeId family)}
    (hfamily : family ≠ .expression)
    (hrel : Option.Rel (fun id id' => SamePlace a b x y (Visit.of id) (Visit.of id')) q q') :
    List.Forall₂ (SameLink outcome.arena outcome'.arena x y) (q.toList.map Visit.of)
      (q'.toList.map Visit.of) := by
  cases hrel with
  | none => exact .nil
  | some hplace =>
      refine .cons (.place (h.place_kept hplace fun e heq => hfamily ?_)) .nil
      exact Visit.family_eq_of_eq (heq.trans (Visit.expression_eq e))

omit h in
/-- The types of expressions that were just read are the same. -/
theorem sameLinks_of_raw {node node' : Expression} (hraw : Node.Raw .expression node)
    (hraw' : Node.Raw .expression node') (hform : node.kind.form = node'.kind.form) :
    List.Forall₂ (SameLink outcome.arena outcome'.arena x y) (node.type.toList.map Visit.type)
      (node'.type.toList.map Visit.type) := by
  rw [hraw.type_eq, hraw'.type_eq, ← hform]
  cases htype : node.kind.form.literalType with
  | none => exact .nil
  | some t => exact .cons (.shared (Form.has_of_literalType htype)) .nil

/-- **The links of types** at the same place. -/
theorem links_type {t t' : TypeId} (hplace : SamePlace a b x y (.type t) (.type t')) :
    List.Forall₂ (SameLink outcome.arena outcome'.arena x y) (outcome.arena.links (.type t))
      (outcome'.arena.links (.type t')) := by
  obtain ⟨id', node, node', hw, hget, hget', hform⟩ :=
    h.twins.exists_node t hplace (by simp [Visit.of])
  cases hw
  rw [Node.form, Node.form] at hform
  cases hkind : node.kind with
  | named name target =>
      rw [hkind] at hform
      obtain ⟨target', hkind'⟩ := TypeKind.exists_named hform.symm
      rcases h.twins.passed_or_open hplace (by simp) with ⟨hpassed, hpassed'⟩ |
        ⟨scopes, scopes', hbelow, hbelow', hdistinct, hdistinct', hscopes⟩
      · have hnow := h.left.unchanged hget hpassed
        have hnow' := h.right.unchanged hget' hpassed'
        rw [Visit.type_eq t, Visit.type_eq t',
          links_of_get? hnow, links_of_get? hnow', Node.links, Node.links, hkind, hkind',
          h.twins.left.named_unlinked hget hkind, h.twins.right.named_unlinked hget' hkind']
        exact .nil
      · rw [h.left.links_named h.twins.left hbelow hdistinct hget hkind,
          h.right.links_named h.twins.right hbelow' hdistinct' hget' hkind']
        exact h.sameLinks_of_rel (by simp) (h.twins.innermost_type name hscopes)
  | integer | real | boolean | array | record =>
      rw [hkind] at hform
      rw [h.left.links_unnamed hget (by simp [hkind]), h.right.links_unnamed hget' ?_]
      · exact .nil
      · intro name target hkind'
        rw [hkind'] at hform
        cases hform

/-- The types that variables at the same place are declared with. -/
theorem links_declared {id id' : VariableId} {declared declared' : Variable}
    (hget : a.get? id = some declared) (hget' : b.get? id' = some declared')
    (hplace : SamePlace a b x y (.variable id) (.variable id')) :
    List.Forall₂ (SameLink outcome.arena outcome'.arena x y)
      (declared.declaredType.toList.map Visit.type) (declared'.declaredType.toList.map Visit.type) := by
  have hchildren := h.twins.children hplace (by simp)
  have hform := h.twins.same.form _ _ hplace (by simp)
  rw [Visit.variable_eq id, Visit.variable_eq id']
    at hchildren hform
  rw [form_of_get? hget, form_of_get? hget', List.singleton_inj] at hform
  rw [children_of_get? hget, children_of_get? hget', Node.children, Node.children] at hchildren
  obtain ⟨-, htyped, -⟩ := Form.variable.inj hform
  obtain ⟨htypes, -⟩ := forall₂_append_inv hchildren (by simp [length_toList htyped])
  refine forall₂_map_iff.2 ((forall₂_map_iff.1 htypes).imp fun t t' hplace => ?_)
  exact .place (h.place_kept hplace (by simp))

/-- **The links of names** that stay at the same place. -/
theorem links_names {scopes scopes' : List (List Declaration)} {e e' : ExpressionId}
    {node node' : Expression} {name : String} {target target' : Option VariableId}
    (hscopes : SameScopes a b x y scopes scopes') (hbelow : a.Below a.top ⟨scopes, .expression e⟩)
    (hbelow' : b.Below b.top ⟨scopes', .expression e'⟩) (hdistinct : a.DistinctScopes scopes)
    (hdistinct' : b.DistinctScopes scopes') (hget : a.get? e = some node) (hget' : b.get? e' = some node')
    (hkind : node.kind = .identifier name target) (hkind' : node'.kind = .identifier name target')
    (hkept : ∀ name r, ¬ a.CallAt e name r) (hkept' : ∀ name r, ¬ b.CallAt e' name r) :
    List.Forall₂ (SameLink outcome.arena outcome'.arena x y) (outcome.arena.links (.expression e))
      (outcome'.arena.links (.expression e')) := by
  have hrel := h.twins.innermost_variable name hscopes
  rcases h.left.links_identifier h.twins.left hbelow hdistinct hget hkind hkept with
    ⟨hnone, hlinks⟩ | ⟨id, declared, hsome, hdeclared, hlinks⟩
  · rw [hnone] at hrel
    rcases h.right.links_identifier h.twins.right hbelow' hdistinct' hget' hkind' hkept' with
      ⟨-, hlinks'⟩ | ⟨id', declared', hsome', -, -⟩
    · rw [hlinks, hlinks']
      exact .nil
    · rw [hsome'] at hrel
      cases hrel
  · rw [hsome] at hrel
    obtain ⟨id', hsome', hplace⟩ := exists_of_rel_some hrel
    rcases h.right.links_identifier h.twins.right hbelow' hdistinct' hget' hkind' hkept' with
      ⟨hnone', -⟩ | ⟨id₂, declared', hsome₂, hdeclared', hlinks'⟩
    · cases hsome'.symm.trans hnone'
    · obtain rfl := Option.some.inj (hsome'.symm.trans hsome₂)
      rw [hlinks, hlinks']
      exact List.rel_append (h.links_declared hdeclared hdeclared' hplace)
        (.cons (.place (h.place_kept hplace (by simp))) .nil)

/-- **The links of expressions** that stay at the same place. -/
theorem links_expression {e e' : ExpressionId}
    (hplace : SamePlace a b x y (.expression e) (.expression e'))
    (hkept : ∀ name r, ¬ a.CallAt e name r) (hkept' : ∀ name r, ¬ b.CallAt e' name r) :
    List.Forall₂ (SameLink outcome.arena outcome'.arena x y) (outcome.arena.links (.expression e))
      (outcome'.arena.links (.expression e')) := by
  obtain ⟨id', node, node', hw, hget, hget', hform⟩ :=
    h.twins.exists_node e hplace (by simp [Visit.of])
  cases hw
  have hraw := (h.twins.left.raw hget).2
  have hraw' := (h.twins.right.raw hget').2
  rw [Node.form, Node.form] at hform
  rcases h.twins.passed_or_open hplace (by simp) with ⟨hpassed, hpassed'⟩ |
    ⟨scopes, scopes', hbelow, hbelow', hdistinct, hdistinct', hscopes⟩
  · have hnow := h.left.unchanged hget hpassed
    have hnow' := h.right.unchanged hget' hpassed'
    rw [Visit.expression_eq e, Visit.expression_eq e',
      links_of_get? hnow, links_of_get? hnow', hraw.links_eq, hraw'.links_eq]
    exact sameLinks_of_raw hraw hraw' hform
  · cases hkind : node.kind with
    | identifier name target =>
        rw [hkind] at hform
        obtain ⟨target', hkind'⟩ := ExpressionKind.exists_identifier hform.symm
        exact h.links_names hscopes hbelow hbelow' hdistinct hdistinct' hget hget' hkind hkind' hkept
          hkept'
    | call name target arguments =>
        rw [hkind] at hform
        obtain ⟨target', arguments', hkind'⟩ := ExpressionKind.exists_call hform.symm
        rw [h.left.links_call h.twins.left h.calls hbelow hdistinct hget hkind,
          h.right.links_call h.twins.right h.calls' hbelow' hdistinct' hget' hkind']
        exact h.sameLinks_of_rel (by simp) (h.twins.routineNamed name)
    | unary | binary | integer | real | boolean =>
        rw [h.left.links_other hget (by simp [hkind]) (by simp [hkind]),
          h.right.links_other hget' ?_ ?_]
        · exact sameLinks_of_raw hraw hraw' hform
        · intro name target hkind'
          rw [hkind, hkind'] at hform
          cases hform
        · intro name target arguments hkind'
          rw [hkind, hkind'] at hform
          cases hform

/-- **The same links** are left. -/
theorem links {v₁ w₁ : Visit} (hplace : SamePlace outcome.arena outcome'.arena x y v₁ w₁)
    (hv : v₁ ≠ .body x) :
    List.Forall₂ (SameLink outcome.arena outcome'.arena x y) (outcome.arena.links v₁)
      (outcome'.arena.links w₁) := by
  obtain ⟨v, w, hplace, hstand⟩ := h.exists_stood hplace
  cases hstand with
  | @called e e' call call' name r r' span span' hat hat' hroutine hcall hcall' =>
      rw [Visit.expression_eq call,
        Visit.expression_eq call', links_of_get? hcall, links_of_get? hcall']
      exact .cons (.place (h.place_kept hroutine nofun)) .nil
  | kept hkept =>
      rcases hplace.mem h.twins.left with rfl | hmem
      · obtain rfl := h.twins.same.program_eq hplace
        exact .nil
      · obtain ⟨family, id, rfl⟩ := (h.twins.left.spans.has_of_mem hmem).exists_of
        obtain ⟨id', node, node', rfl, hget, hget', -⟩ := h.twins.exists_node id hplace hv
        obtain ⟨after, hafter, -⟩ := h.left.evolves.changed family id node hget
        obtain ⟨after', hafter', -⟩ := h.right.evolves.changed family id' node' hget'
        cases family with
        | type => exact h.links_type hplace
        | expression =>
            refine h.links_expression hplace (fun name r => hkept id name r rfl) fun name r hat => ?_
            obtain ⟨e, r', heq, -, hat'⟩ := h.twins.symm.callAt hat hplace.symm
            cases heq
            exact hkept id name r' rfl hat'
        | routine | «variable» | typeDecl | body | statement =>
            rw [links_of_get? hafter, links_of_get? hafter']
            exact .nil

/-- **What name resolution leaves is the same** outside of the body. -/
theorem sameLinked : SameLinked outcome.arena outcome'.arena x y where
  place := h.place_kept h.twins.same.place nofun
  form _ _ hplace hv := h.form_eq hplace hv
  links _ _ hplace hv := h.links hplace hv

end Resolved

end ProcLang
