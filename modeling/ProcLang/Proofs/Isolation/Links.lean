import ProcLang.Proofs.Isolation.Accounts
import ProcLang.Proofs.Isolation.Around

/-!
# ProcLang.Proofs.Isolation.Links

**Name resolution does the same outside of a body.** A bare name becomes a call at exactly one sort of
place (`Arena.CallAt`), which the scopes around it tell. So in two trees that are the same outside of a
body, what is left at the same places was left of nodes at the same places (`Resolved.exists_stood`),
and it has the same form (`Resolved.form_eq`).
-/

namespace ProcLang

open Arena

variable {a b : Arena} {nodes nodes' : List Visit}

/-! ### What becomes a call -/

/-- An identifier that stands for a routine: no variable of the scopes around it has its name, and none
of these scopes is passed over. -/
inductive Arena.CallAt (a : Arena) : ExpressionId → String → RoutineId → Prop
  | intro {scopes : List (List Declaration)} {e : ExpressionId} {node : Expression} {name : String}
      {target : Option VariableId} {r : RoutineId} (hbelow : a.Below a.top ⟨scopes, .expression e⟩)
      (hdistinct : a.DistinctScopes scopes) (hget : a.get? e = some node)
      (hkind : node.kind = .identifier name target)
      (hvariable : a.innermost Declaration.variable? name scopes = none)
      (hroutine : a.routineNamed name = some r) : CallAt a e name r

/-- What stands in the tree `b` that name resolution leaves where a node of `a` stood. -/
inductive Arena.Becomes (a b : Arena) : Visit → Visit → Prop
  | kept {v : Visit} (h : ∀ e name r, v = .expression e → ¬ a.CallAt e name r) : Becomes a b v v
  | called {e call : ExpressionId} {name : String} {r : RoutineId} {span : Span}
      (h : a.CallAt e name r) (hcall : b.get? call = some (.plain (.call name (some r) []) span)) :
      Becomes a b (.expression e) (.expression call)

/-! ### Forms stay -/

/-- A link, or another expression in a slot, leaves the form of a node as it is. -/
theorem Node.Change.form_eq {family : Family} {node node' : Node family}
    (h : Node.Change a family node node') : Node.form family node' = Node.form family node := by
  cases h with
  | initializer node hold => simp [Node.form, hold]
  | length node hold => simp [Node.form, TypeKind.form, hold]
  | target node hold => simp [Node.form, TypeKind.form, hold]
  | expression node index =>
      rw [Node.form, Node.form]
      cases node.kind with
      | returning value => cases value <;> rcases index with _ | index <;> rfl
      | assignment | whileLoop | forLoop | branch | call => rcases index with _ | _ | index <;> rfl
  | @operand node index e =>
      rw [Node.form, Node.form]
      cases node.kind with
      | call name target arguments =>
          rcases index with _ | _ | index <;>
            simp [ExpressionKind.setOperand, ExpressionKind.form, List.length_set]
      | unary | binary | integer | real | boolean | identifier =>
          rcases index with _ | _ | index <;> rfl
  | link node hold => simp [Node.form, ExpressionKind.form, hold]
  | routine node hold => simp [Node.form, ExpressionKind.form, hold]

theorem Node.Changes.form_eq {family : Family} {node node' : Node family}
    (h : Node.Changes a family node node') : Node.form family node' = Node.form family node := by
  induction h with
  | refl => rfl
  | tail _ hchange ih => exact hchange.form_eq.trans ih

/-- A node that was there has the form that it had. -/
theorem Arena.Evolves.form_eq (h : Evolves a a b) (htree : a.IsTree nodes) {v : Visit}
    (hv : v = .program ∨ v ∈ nodes) : b.form v = a.form v := by
  rcases hv with rfl | hmem
  · rw [form, form, h.program]
  · have hhas := htree.spans.has_of_mem hmem
    obtain ⟨family, id, rfl⟩ := hhas.exists_of
    obtain ⟨node, hget⟩ := hhas.exists_get?
    obtain ⟨node', hget', hchanges⟩ := h.changed family id node hget
    rw [form_of_get? hget, form_of_get? hget', hchanges.form_eq]

/-! ### What stands where -/

section

variable (htree : a.IsTree nodes)

include htree

/-- Of the names in one slot at most one thing is true. -/
theorem StandsFor.becomes {ds : List Diagnostic} {scopes : List (List Declaration)}
    {e e' : ExpressionId} (hbelow : a.Below a.top ⟨scopes, .expression e⟩)
    (hdistinct : a.DistinctScopes scopes) (h : StandsFor a b ds scopes e e') :
    a.Becomes b (.expression e) (.expression e') := by
  cases h with
  | called hnode hkind hvariable hname hfresh hcall =>
      exact .called (.intro hbelow hdistinct hnode hkind hvariable hname) hcall
  | linked hnode hkind hname =>
      refine .kept fun e' name' r heq hat => ?_
      cases heq
      obtain ⟨hbelow₂, -, hget₂, hkind₂, hvariable, -⟩ := hat
      obtain rfl := htree.scopes_unique hbelow₂ hbelow
      obtain rfl := Option.some.inj (hnode.symm.trans hget₂)
      obtain ⟨rfl, -⟩ := ExpressionKind.identifier.inj (hkind.symm.trans hkind₂)
      rw [hname] at hvariable
      nomatch hvariable
  | undeclared hnode hkind hvariable hroutine =>
      refine .kept fun e' name' r heq hat => ?_
      cases heq
      obtain ⟨-, -, hget₂, hkind₂, -, hroutine₂⟩ := hat
      obtain rfl := Option.some.inj (hnode.symm.trans hget₂)
      obtain ⟨rfl, -⟩ := ExpressionKind.identifier.inj (hkind.symm.trans hkind₂)
      rw [hroutine] at hroutine₂
      nomatch hroutine₂
  | other hnode hkind =>
      refine .kept fun e' name' r heq hat => ?_
      cases heq
      obtain ⟨-, -, hget₂, hkind₂, -, -⟩ := hat
      obtain rfl := Option.some.inj (hnode.symm.trans hget₂)
      exact hkind _ _ hkind₂

omit htree in
/-- A node that is passed over stays as it is. -/
theorem Arena.Settles.unchanged {outcome : PassOutcome} (h : a.Settles nodes outcome) {family : Family}
    {id : NodeId family} {node : Node family} (hget : a.get? id = some node)
    (hpassed : ∀ scopes, a.Below a.top ⟨scopes, Visit.of id⟩ → ¬ a.DistinctScopes scopes) :
    outcome.arena.get? id = some node := by
  by_cases hhidden : a.Hidden (Visit.of id)
  · exact h.hidden family id node hhidden hget
  · obtain ⟨scopes, hbelow⟩ := exists_site_of_not_hidden hhidden
    rw [(h.settled _ hbelow).kept (hpassed scopes hbelow) family id rfl, hget]

/-- **What is below a node** stays, or becomes a call. -/
theorem Arena.Settles.becomes {outcome : PassOutcome} (h : a.Settles nodes outcome) {v : Visit}
    (hv : v = .program ∨ v ∈ nodes) :
    List.Forall₂ (a.Becomes outcome.arena) (a.children v) (outcome.arena.children v) := by
  rcases hv with rfl | hmem
  · rw [Arena.children, Arena.children, h.evolves.program]
    refine List.forall₂_same.2 fun w hw => .kept fun e name r heq => ?_
    obtain ⟨d, -, rfl⟩ := List.mem_map.1 hw
    cases d <;> cases heq
  · have hhas := htree.spans.has_of_mem hmem
    obtain ⟨family, id, rfl⟩ := hhas.exists_of
    obtain ⟨node, hget⟩ := hhas.exists_get?
    by_cases hopen : ∃ scopes, a.Below a.top ⟨scopes, Visit.of id⟩ ∧ a.DistinctScopes scopes
    · obtain ⟨scopes, hbelow, hdistinct⟩ := hopen
      obtain ⟨node', hget', hchanges⟩ := h.evolves.changed family id node hget
      have hslots := ((h.settled _ hbelow).resolved hdistinct).slots
      rw [slots_of_get? hget, slots_of_get? hget'] at hslots
      rw [children_of_get? hget, children_of_get? hget']
      refine hchanges.children_forall₂ hget (fun w hw hfield => .kept fun e name r heq hat => ?_) ?_
      · obtain ⟨hbelow₂, -⟩ := hat
        exact htree.hidden_of_isField (hfield e heq) _ hbelow₂ rfl
      · have hbelow₂ : ∀ e ∈ Node.slots family node, a.Below a.top ⟨scopes, .expression e⟩ :=
          fun e he => hbelow.tail (inside_of_get? hget ▸ mem_insideNode_of_slot he)
        have hboth := (List.forall₂_and_left _ _).2 ⟨hbelow₂, hslots⟩
        exact hboth.imp fun e e' hstands => hstands.2.becomes htree hstands.1 hdistinct
    · have hpassed : ∀ scopes, a.Below a.top ⟨scopes, Visit.of id⟩ → ¬ a.DistinctScopes scopes :=
        fun scopes hbelow hdistinct => hopen ⟨scopes, hbelow, hdistinct⟩
      rw [children_of_get? hget, children_of_get? (h.unchanged hget hpassed)]
      refine List.forall₂_same.2 fun w hw => .kept fun e name r heq hat => ?_
      subst heq
      obtain ⟨hbelow₂, hdistinct₂, -⟩ := hat
      rw [← children_of_get? hget] at hw
      obtain ⟨⟨outer, u⟩, houter, rfl, hinner⟩ := htree.exists_outer (Or.inr hmem) hw hbelow₂
      refine hpassed outer houter fun scope hscope => hdistinct₂ scope ?_
      exact (Below.inside hinner (.here _)).scopes_subset hscope

end

/-! ### Two runs -/

/-- Two trees that are the same outside of a body, and what name resolution leaves of them. -/
structure Resolved (a b : Arena) (x y : BodyId) (nodes nodes' : List Visit)
    (outcome outcome' : PassOutcome) : Prop where
  twins : Twins a b x y nodes nodes'
  left : a.Settles nodes outcome
  right : b.Settles nodes' outcome'
  calls : ∀ e name r, outcome.arena.Calls e name r → a.routineNamed name = some r
  calls' : ∀ e name r, outcome'.arena.Calls e name r → b.routineNamed name = some r

/-- What stands at a place in two trees, and what is left there of each. -/
inductive Arena.StandAt (a b A B : Arena) (x y : BodyId) : Visit → Visit → Visit → Visit → Prop
  | kept {v w : Visit} (h : ∀ e name r, v = .expression e → ¬ a.CallAt e name r) :
      StandAt a b A B x y v w v w
  | called {e e' call call' : ExpressionId} {name : String} {r r' : RoutineId} {span span' : Span}
      (h : a.CallAt e name r) (h' : b.CallAt e' name r')
      (hroutine : SamePlace a b x y (.routine r) (.routine r'))
      (hcall : A.get? call = some (.plain (.call name (some r) []) span))
      (hcall' : B.get? call' = some (.plain (.call name (some r') []) span')) :
      StandAt a b A B x y (.expression e) (.expression e') (.expression call) (.expression call')

/-- Pairs that are taken from related lists are related. -/
theorem exists_mem_zip {α β γ δ : Type} {R : α → γ → Prop} {S : β → δ → Prop} {xs : List α}
    {ys : List β} {xs' : List γ} {ys' : List δ} (hxs : List.Forall₂ R xs xs')
    (hys : List.Forall₂ S ys ys') {p' : γ} {q' : δ} (h : (p', q') ∈ xs'.zip ys') :
    ∃ p q, (p, q) ∈ xs.zip ys ∧ R p p' ∧ S q q' := by
  induction hxs generalizing ys ys' with
  | nil => nomatch h
  | @cons x x' xs xs' hfirst _ ih =>
      cases hys with
      | nil => nomatch h
      | @cons y y' ys ys' hsecond hrest =>
          rw [List.zip_cons_cons] at h
          rcases List.mem_cons.1 h with heq | h
          · cases heq
            exact ⟨x, y, List.mem_cons_self, hfirst, hsecond⟩
          · obtain ⟨p, q, hmem, hp, hq⟩ := ih hrest h
            exact ⟨p, q, List.mem_cons_of_mem _ hmem, hp, hq⟩

theorem Arena.CallAt.leaf {e : ExpressionId} {name : String} {r : RoutineId} (h : a.CallAt e name r) :
    a.children (.expression e) = [] := by
  obtain ⟨-, -, hget, hkind, -, -⟩ := h
  rw [Visit.expression_eq e, children_of_get? hget, Node.children, hkind]
  rfl

theorem Arena.CallAt.unique {e : ExpressionId} {name name' : String} {r r' : RoutineId}
    (h : a.CallAt e name r) (h' : a.CallAt e name' r') : name = name' ∧ r = r' := by
  obtain ⟨-, -, hget, hkind, -, hname⟩ := h
  obtain ⟨-, -, hget', hkind', -, hname'⟩ := h'
  obtain rfl := Option.some.inj (hget.symm.trans hget')
  obtain ⟨rfl, -⟩ := ExpressionKind.identifier.inj (hkind.symm.trans hkind')
  exact ⟨rfl, Option.some.inj (hname.symm.trans hname')⟩

/-- **The same names** become calls, of routines at the same place. -/
theorem Twins.callAt {x y : BodyId} (h : Twins a b x y nodes nodes') {e : ExpressionId} {name : String}
    {r : RoutineId} (hat : a.CallAt e name r) {w : Visit} (hplace : SamePlace a b x y (.expression e) w) :
    ∃ e' r', w = .expression e' ∧ SamePlace a b x y (.routine r) (.routine r') ∧
      b.CallAt e' name r' := by
  obtain ⟨hbelow, hdistinct, hget, hkind, hvariable, hroutine⟩ := hat
  obtain ⟨e', found, node', rfl, hfound, hget', hform⟩ := h.exists_node e hplace nofun
  obtain rfl := Option.some.inj (hfound.symm.trans hget)
  cases h.around hplace nofun with
  | hidden hhidden => exact absurd rfl (hhidden _ hbelow)
  | site hbelow₂ hbelow' hscopes =>
      obtain rfl := h.left.scopes_unique hbelow₂ hbelow
      have hrel := h.innermost_variable name hscopes
      rw [hvariable] at hrel
      have hrel' := h.routineNamed name
      rw [hroutine] at hrel'
      obtain ⟨r', hroutine', hplace'⟩ := exists_of_rel_some hrel'
      rw [Node.form, Node.form, hkind] at hform
      obtain ⟨target', hkind'⟩ := ExpressionKind.exists_identifier hform.symm
      exact ⟨e', r', rfl, hplace', .intro hbelow' ((h.distinctScopes hscopes).1 hdistinct) hget' hkind'
        (eq_none_of_rel hrel) hroutine'⟩

namespace Resolved

variable {x y : BodyId} {outcome outcome' : PassOutcome}
  (h : Resolved a b x y nodes nodes' outcome outcome')

include h

/-- Nodes at the same place both stay, or both become calls. -/
theorem standAt {v w v₁ w₁ : Visit} (hplace : SamePlace a b x y v w)
    (hv : a.Becomes outcome.arena v v₁) (hw : b.Becomes outcome'.arena w w₁) :
    StandAt a b outcome.arena outcome'.arena x y v w v₁ w₁ := by
  cases hv with
  | kept hkept =>
      cases hw with
      | kept => exact .kept hkept
      | called hat' =>
          obtain ⟨e, r, rfl, -, hat⟩ := h.twins.symm.callAt hat' hplace.symm
          exact absurd hat (hkept e _ r rfl)
  | called hat hcall =>
      obtain ⟨e', r', rfl, hroutine, hat'⟩ := h.twins.callAt hat hplace
      cases hw with
      | kept hkept => exact absurd hat' (hkept e' _ r' rfl)
      | @called _ call' name' r₂ span' hat₂ hcall' =>
          obtain ⟨rfl, rfl⟩ := hat'.unique hat₂
          exact .called hat hat' hroutine hcall hcall'

/-- What is left below nodes at the same place that stay. -/
theorem standAt_children {v w v₁ w₁ : Visit} (hplace : SamePlace a b x y v w) (hv : v ≠ .body x)
    (hw : w ≠ .body y) (hchild : (v₁, w₁) ∈ (outcome.arena.children v).zip (outcome'.arena.children w)) :
    ∃ v' w', SamePlace a b x y v' w' ∧
      StandAt a b outcome.arena outcome'.arena x y v' w' v₁ w₁ := by
  obtain ⟨v', w', hmem, hbecomes, hbecomes'⟩ := exists_mem_zip
    (h.left.becomes h.twins.left (hplace.mem h.twins.left))
    (h.right.becomes h.twins.right (hplace.symm.mem h.twins.right)) hchild
  have hplace' : SamePlace a b x y v' w' := .child hplace hv hw hmem
  exact ⟨v', w', hplace', h.standAt hplace' hbecomes hbecomes'⟩

/-- **What is left at a place** was left of what stood there. -/
theorem exists_stood {v₁ w₁ : Visit} (hplace : SamePlace outcome.arena outcome'.arena x y v₁ w₁) :
    ∃ v w, SamePlace a b x y v w ∧ StandAt a b outcome.arena outcome'.arena x y v w v₁ w₁ := by
  induction hplace with
  | program => exact ⟨.program, .program, .program, .kept nofun⟩
  | child _ hv hw hchild ih =>
      obtain ⟨v, w, hplace, hstand⟩ := ih
      cases hstand with
      | kept => exact h.standAt_children hplace hv hw hchild
      | @called e e' call call' name r r' span span' hat hat' hroutine hcall hcall' =>
          have hleaf : outcome.arena.children (.expression call) = [] := by
            rw [Visit.expression_eq call, children_of_get? hcall]
            rfl
          rw [hleaf] at hchild
          nomatch hchild

/-- **Of what stood at a place** something is left at the same place. -/
theorem exists_stands {v w : Visit} (hplace : SamePlace a b x y v w) :
    ∃ v₁ w₁, SamePlace outcome.arena outcome'.arena x y v₁ w₁ ∧
      StandAt a b outcome.arena outcome'.arena x y v w v₁ w₁ := by
  induction hplace with
  | program => exact ⟨.program, .program, .program, .kept nofun⟩
  | @child v w v' w' houter hv hw hchild ih =>
      obtain ⟨v₁, w₁, hplace₁, hstand⟩ := ih
      cases hstand with
      | kept =>
          obtain ⟨v₂, w₂, hmem, hbecomes, hbecomes'⟩ := exists_mem_zip
            (h.left.becomes h.twins.left (houter.mem h.twins.left)).flip
            (h.right.becomes h.twins.right (houter.symm.mem h.twins.right)).flip hchild
          exact ⟨v₂, w₂, .child hplace₁ hv hw hmem,
            h.standAt (.child houter hv hw hchild) hbecomes hbecomes'⟩
      | called hat =>
          rw [hat.leaf] at hchild
          nomatch hchild

/-- Nodes other than expressions stay at their places. -/
theorem place_kept {v w : Visit} (hplace : SamePlace a b x y v w)
    (hexpression : ∀ e, v ≠ .expression e) : SamePlace outcome.arena outcome'.arena x y v w := by
  obtain ⟨v₁, w₁, hplace₁, hstand⟩ := h.exists_stands hplace
  cases hstand with
  | kept => exact hplace₁
  | called => exact absurd rfl (hexpression _)

/-- **The same forms** are left. -/
theorem form_eq {v₁ w₁ : Visit} (hplace : SamePlace outcome.arena outcome'.arena x y v₁ w₁)
    (hv : v₁ ≠ .body x) : outcome.arena.form v₁ = outcome'.arena.form w₁ := by
  obtain ⟨v, w, hplace, hstand⟩ := h.exists_stood hplace
  cases hstand with
  | kept =>
      rw [h.left.evolves.form_eq h.twins.left (hplace.mem h.twins.left),
        h.right.evolves.form_eq h.twins.right (hplace.symm.mem h.twins.right)]
      exact h.twins.same.form _ _ hplace hv
  | @called e e' call call' name r r' span span' hat hat' hroutine hcall hcall' =>
      rw [Visit.expression_eq call,
        Visit.expression_eq call', form_of_get? hcall, form_of_get? hcall']
      rfl

end Resolved

end ProcLang
