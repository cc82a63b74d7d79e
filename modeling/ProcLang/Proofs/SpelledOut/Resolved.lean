import ProcLang.Proofs.Reordered.Programs
import ProcLang.Proofs.SpelledOut.Renamed
import ProcLang.Proofs.SpelledOut.Sites
import ProcLang.Proofs.Walk.Record

/-!
# ProcLang.Proofs.SpelledOut.Resolved

**The resolved tree is the same, spelled out or not** (`Explicit.exists_renamed`). In the tree of the bare
names a call is added for each name that becomes one, and stands where the name stood
(`Settles.exists_turned`). In the tree in which these names are spelled out no call is added: each one is
linked in its place. Otherwise both trees have the same slots and the same links, so one of them is the
other one, with other ids for these calls.

A node is compared by its parts: what it says, what it owns, and what it is linked to
(`Node.eq_of_parts`).
-/

namespace ProcLang

open Arena

variable {family : Family} {f : ExpressionId → ExpressionId}

/-! ### The parts of a node -/

/-- The mark of an expression as constant. -/
def Node.mark : (family : Family) → Node family → Bool
  | .expression, node => Expression.constant node
  | _, _ => false

theorem of_map {α : Type} {g : α → Visit} (hg : ∀ x y, g x = g y → x = y) {xs ys : List α}
    (h : xs.map g = ys.map g) : xs = ys :=
  List.map_injective_iff.2 (fun _ _ => hg _ _) h

theorem of_toList {α : Type} {g : α → Visit} (hg : ∀ x y, g x = g y → x = y) {x y : Option α}
    (h : x.toList.map g = y.toList.map g) : x = y := by
  have hlist := of_map hg h
  cases x <;> cases y <;> simp_all

theorem Declaration.visit_injective (d e : Declaration) (h : d.visit = e.visit) : d = e := by
  cases d <;> cases e <;> simp_all [visit]

theorem TypeKind.eq_of_parts {kind other : TypeKind} {span : Span} (hform : kind.form = other.form)
    (hchildren : Node.children .type ⟨span, kind⟩ = Node.children .type ⟨span, other⟩)
    (hlinks : Node.links .type ⟨span, kind⟩ = Node.links .type ⟨span, other⟩) : kind = other := by
  cases kind <;> cases other <;> simp only [form, reduceCtorEq, Form.named.injEq] at hform <;>
    simp only [Node.children, Node.links] at hchildren hlinks
  case named.named name target name' target' =>
    cases target <;> cases target' <;> simp_all
  case array.array length element length' element' =>
    obtain ⟨hlengths, helements⟩ := List.append_inj' hchildren rfl
    obtain rfl := of_toList (by simp) hlengths
    simp_all
  case record.record fields fields' =>
    obtain rfl := of_map (by simp) hchildren
    rfl
  all_goals rfl

theorem StatementKind.eq_of_parts {kind other : StatementKind} {span : Span} (hform : kind.form = other.form)
    (hchildren : Node.children .statement ⟨span, kind⟩ = Node.children .statement ⟨span, other⟩) :
    kind = other := by
  cases kind <;> cases other <;>
    simp only [form, reduceCtorEq, Form.forLoop.injEq, Form.branch.injEq, Form.returning.injEq] at hform <;>
    simp only [Node.children, expressions, counter?, bodies] at hchildren
  case branch.branch condition thenBody elseBody condition' thenBody' elseBody' =>
    cases elseBody <;> cases elseBody' <;> simp_all
  case returning.returning value value' =>
    cases value <;> cases value' <;> simp_all
  all_goals simp_all

theorem Expression.eq_of_parts {node other : Expression} (hspan : node.span = other.span)
    (hconstant : node.constant = other.constant) (hform : node.kind.form = other.kind.form)
    (hoperands : node.kind.operands = other.kind.operands)
    (hlinks : Node.links .expression node = Node.links .expression other) : node = other := by
  obtain ⟨span, constant, type, kind⟩ := node
  obtain ⟨span', constant', type', kind'⟩ := other
  dsimp only at hspan hconstant hform hoperands
  subst hspan hconstant
  -- the type is in front of the other links
  cases kind <;> cases kind' <;>
    simp only [ExpressionKind.form, reduceCtorEq, Form.unary.injEq, Form.binary.injEq, Form.integer.injEq,
      Form.real.injEq, Form.boolean.injEq, Form.identifier.injEq, Form.call.injEq] at hform <;>
    simp only [ExpressionKind.operands, Node.links] at hoperands hlinks
  case identifier.identifier name target name' target' =>
    cases target <;> cases target' <;> cases type <;> cases type' <;> simp_all
  case call.call name target arguments name' target' arguments' =>
    cases target <;> cases target' <;> cases type <;> cases type' <;> simp_all
  all_goals cases type <;> cases type' <;> simp_all

/-- **A node is what it says, owns and is linked to.** -/
theorem Node.eq_of_parts {node other : Node family} (hspan : Node.span family node = Node.span family other)
    (hmark : Node.mark family node = Node.mark family other)
    (hform : Node.form family node = Node.form family other)
    (hchildren : Node.children family node = Node.children family other)
    (hlinks : Node.links family node = Node.links family other) : node = other := by
  cases family with
  | routine =>
      obtain ⟨span, name, parameters, returnType, body⟩ := node
      obtain ⟨span', name', parameters', returnType', body'⟩ := other
      simp only [Node.form, Form.routine.injEq] at hform
      obtain ⟨hfront, hbody⟩ := List.append_inj' hchildren rfl
      obtain ⟨hparameters, hreturns⟩ := List.append_inj hfront (by simp [hform])
      obtain rfl := of_map (by simp) hparameters
      obtain rfl := of_toList (by simp) hreturns
      simp_all [Node.span]
  | «variable» =>
      obtain ⟨span, name, declaredType, initializer⟩ := node
      obtain ⟨span', name', declaredType', initializer'⟩ := other
      simp only [Node.form, Form.variable.injEq] at hform
      obtain ⟨htypes, hvalues⟩ := List.append_inj hchildren (by
        cases declaredType <;> cases declaredType' <;> simp_all)
      obtain rfl := of_toList (by simp) htypes
      obtain rfl := of_toList (by simp) hvalues
      simp_all [Node.span]
  | typeDecl =>
      obtain ⟨span, name, type⟩ := node
      obtain ⟨span', name', type'⟩ := other
      simp_all [Node.span, Node.form, Node.children]
  | type =>
      obtain ⟨span, kind⟩ := node
      obtain ⟨span', kind'⟩ := other
      obtain rfl : span = span' := hspan
      exact congrArg (TypeNode.mk span) (TypeKind.eq_of_parts hform hchildren hlinks)
  | body =>
      obtain ⟨span, declarations, statements⟩ := node
      obtain ⟨span', declarations', statements'⟩ := other
      simp only [Node.form, Form.body.injEq] at hform
      obtain ⟨hfront, hback⟩ := List.append_inj hchildren (by simp [hform])
      obtain rfl := of_map Declaration.visit_injective hfront
      obtain rfl := of_map (by simp) hback
      simp_all [Node.span]
  | statement =>
      obtain ⟨span, kind⟩ := node
      obtain ⟨span', kind'⟩ := other
      obtain rfl : span = span' := hspan
      exact congrArg (Statement.mk span) (StatementKind.eq_of_parts hform hchildren)
  | expression =>
      exact Expression.eq_of_parts hspan hmark hform (of_map (by simp) hchildren) hlinks

section

variable (node : Node family)

theorem Node.span_mapColumns (g : Nat → Nat) :
    Node.span family (Node.mapColumns g family node) = (Node.span family node).mapColumns g := by
  cases family <;> rfl

theorem Node.mark_mapColumns (g : Nat → Nat) :
    Node.mark family (Node.mapColumns g family node) = Node.mark family node := by
  cases family <;> rfl

theorem Node.form_mapColumns (g : Nat → Nat) :
    Node.form family (Node.mapColumns g family node) = Node.form family node := by
  cases family <;> rfl

theorem Node.children_mapColumns (g : Nat → Nat) :
    Node.children family (Node.mapColumns g family node) = Node.children family node := by
  cases family <;> rfl

theorem Node.links_mapColumns (g : Nat → Nat) :
    Node.links family (Node.mapColumns g family node) = Node.links family node := by
  cases family <;> rfl

theorem Node.span_mapExpressions :
    Node.span family (Node.mapExpressions f family node) = Node.span family node := by
  cases family <;> rfl

theorem Node.mark_mapExpressions :
    Node.mark family (Node.mapExpressions f family node) = Node.mark family node := by
  cases family <;> rfl

theorem Node.form_mapExpressions :
    Node.form family (Node.mapExpressions f family node) = Node.form family node := by
  cases family with
  | «variable» => simp [mapExpressions, form]
  | type =>
      obtain ⟨span, kind⟩ := node
      cases kind <;> simp [mapExpressions, TypeKind.mapExpressions, form, TypeKind.form]
  | statement =>
      obtain ⟨span, kind⟩ := node
      cases kind <;> simp [mapExpressions, StatementKind.mapExpressions, form, StatementKind.form]
  | expression =>
      obtain ⟨span, constant, type, kind⟩ := node
      cases kind <;> simp [mapExpressions, ExpressionKind.mapExpressions, form, ExpressionKind.form]
  | routine | typeDecl | body => rfl

theorem Node.children_mapExpressions :
    Node.children family (Node.mapExpressions f family node) =
      (Node.children family node).map (Visit.rename f) := by
  have hsame : ∀ {α : Type} (g : α → Visit), (∀ x, (g x).rename f = g x) → ∀ xs : List α,
      (xs.map g).map (Visit.rename f) = xs.map g := fun g hg xs => by
    rw [List.map_map]
    exact List.map_congr_left fun x _ => hg x
  have hexpressions : ∀ es : List ExpressionId,
      (es.map Visit.expression).map (Visit.rename f) = (es.map f).map Visit.expression := fun es => by
    rw [List.map_map, List.map_map]
    rfl
  cases family with
  | routine =>
      simp only [mapExpressions, children, List.map_append]
      rw [hsame _ fun _ => rfl, hsame _ fun _ => rfl]
      rfl
  | «variable» =>
      simp only [mapExpressions, children, List.map_append, hexpressions]
      rw [hsame _ fun _ => rfl]
      cases node.initializer <;> rfl
  | typeDecl => rfl
  | type =>
      obtain ⟨span, kind⟩ := node
      cases kind with
      | array length element => cases length <;> rfl
      | record fields => exact (hsame _ (fun _ => rfl) fields).symm
      | named | integer | real | boolean => rfl
  | body =>
      simp only [mapExpressions, children, List.map_append]
      rw [hsame _ fun d => by cases d <;> rfl, hsame _ fun _ => rfl]
  | statement =>
      simp only [mapExpressions, children, List.map_append, hexpressions,
        StatementKind.expressions_mapExpressions, StatementKind.counter?_mapExpressions,
        StatementKind.bodies_mapExpressions]
      rw [hsame _ fun _ => rfl, hsame _ fun _ => rfl]
  | expression =>
      simp only [mapExpressions, children, ExpressionKind.operands_mapExpressions, hexpressions]

theorem Node.links_mapExpressions :
    Node.links family (Node.mapExpressions f family node) = Node.links family node := by
  cases family with
  | type =>
      obtain ⟨span, kind⟩ := node
      cases kind <;> rfl
  | expression =>
      obtain ⟨span, constant, type, kind⟩ := node
      cases kind with
      | call name target arguments => cases target <;> rfl
      | unary | binary | integer | real | boolean | identifier => rfl
  | routine | «variable» | typeDecl | body | statement => rfl

end

/-- Name resolution marks nothing. -/
theorem Node.Changes.mark_eq {a : Arena} {node node' : Node family} (h : Node.Changes a family node node') :
    Node.mark family node' = Node.mark family node := by
  induction h with
  | refl => rfl
  | tail _ hchange ih =>
      rw [← ih]
      cases hchange <;> rfl

/-! ### Turning names into calls -/

/-- If all members of some lists are different, lists of the same lengths are images of them. -/
theorem exists_map_of_beside {ι α : Type} [DecidableEq α] {P : ι → Prop} {xs ys : ι → List α}
    (hlength : ∀ i, P i → (ys i).length = (xs i).length) (hnodup : ∀ i, P i → (xs i).Nodup)
    (hunique : ∀ i j x, P i → P j → x ∈ xs i → x ∈ xs j → i = j) :
    ∃ g : α → α, ∀ i, P i → ys i = (xs i).map g := by
  classical
  let beside (x y : α) : Prop := ∃ (i : ι) (n : Nat), P i ∧ (xs i)[n]? = some x ∧ (ys i)[n]? = some y
  have hfunctional : ∀ x y z, beside x y → beside x z → y = z := by
    rintro x y z ⟨i, n, hi, hx, hy⟩ ⟨j, m, hj, hx', hz⟩
    obtain rfl := hunique i j x hi hj (List.mem_of_getElem? hx) (List.mem_of_getElem? hx')
    obtain ⟨hn, hxn⟩ := List.getElem?_eq_some_iff.1 hx
    obtain ⟨hm, hxm⟩ := List.getElem?_eq_some_iff.1 hx'
    obtain rfl := (hnodup i hi).getElem_inj_iff.1 (hxn.trans hxm.symm)
    exact Option.some.inj (hy.symm.trans hz)
  refine ⟨fun x => if h : ∃ y, beside x y then h.choose else x, fun i hi => ?_⟩
  refine List.ext_getElem? fun n => ?_
  rw [List.getElem?_map]
  cases hy : (ys i)[n]? with
  | none =>
      rw [List.getElem?_eq_none_iff, hlength i hi] at hy
      rw [List.getElem?_eq_none hy, Option.map_none]
  | some y =>
      obtain ⟨hn, -⟩ := List.getElem?_eq_some_iff.1 hy
      rw [hlength i hi] at hn
      rw [List.getElem?_eq_getElem hn, Option.map_some]
      have hbeside : beside (xs i)[n] y := ⟨i, n, hi, List.getElem?_eq_getElem hn, hy⟩
      have hsome : ∃ y, beside (xs i)[n] y := ⟨y, hbeside⟩
      rw [dif_pos hsome]
      exact congrArg some (hfunctional _ _ _ hbeside hsome.choose_spec)

/-- What the expression `e` of the tree `a` has become in `b` has the id `f e`. -/
structure Arena.Turned (a b : Arena) (f : ExpressionId → ExpressionId) : Prop where
  injective : Function.Injective f
  beyond : ∀ e, ¬ a.Has (.expression e) → ¬ b.Has (.expression (f e))
  becomes : ∀ e, a.Has (.expression e) → a.Becomes b (.expression e) (.expression (f e))
  replaces : ∀ e, a.Has (.expression e) → a.Replaces b (.expression e) (.expression (f e))

/-- Each node but the shared types is below the program or below another node. -/
theorem Arena.IsTree.exists_parent {a : Arena} {nodes : List Visit} (htree : a.IsTree nodes) {w : Visit}
    (hw : w ∈ nodes) : ∃ v, (v = .program ∨ v ∈ nodes) ∧ w ∈ a.children v := by
  obtain ⟨root, hroot, hreaches⟩ := htree.spans.exists_reaches hw
  have hmem : ∀ w, a.Reaches root w → w ∈ nodes := by
    intro w hw
    induction hw with
    | refl => exact htree.spans.mem_of_root hroot
    | tail _ hchild ih => exact htree.spans.child_mem ih hchild
  cases hreaches with
  | refl => exact ⟨.program, Or.inl rfl, hroot⟩
  | @tail v _ hreaches hchild => exact ⟨v, Or.inr (hmem v hreaches), hchild⟩

/-- Each expression is below another node. -/
theorem Arena.IsTree.exists_owner {a : Arena} {nodes : List Visit} (htree : a.IsTree nodes)
    {e : ExpressionId} (hhas : a.Has (.expression e)) : ∃ v ∈ nodes, .expression e ∈ a.children v := by
  obtain ⟨v, rfl | hv, hchild⟩ := htree.exists_parent (htree.mem_iff.2 ⟨hhas, by simp⟩)
  · obtain ⟨d, -, heq⟩ := List.mem_map.1 hchild
    cases d <;> nomatch heq
  · exact ⟨v, hv, hchild⟩

/-- The shared types own nothing. -/
theorem Arena.IsTree.children_eq_nil {a : Arena} {nodes : List Visit} (htree : a.IsTree nodes) {v : Visit}
    (hhas : a.Has v) (hv : v ∉ nodes) : a.children v = [] := by
  obtain ⟨family, id, rfl⟩ := hhas.exists_of
  obtain ⟨node, hget⟩ := hhas.exists_get?
  rw [children_of_get? hget]
  exact List.eq_nil_iff_forall_not_mem.2 fun w hw => hv (htree.mem_of_child hget hw)

theorem Arena.Reshapes.children_eq_nil {a b : Arena} (h : a.Reshapes b) {v : Visit} (hhas : a.Has v)
    (hnone : a.children v = []) : b.children v = [] := by
  have hall := h.children v hhas
  rwa [hnone, List.forall₂_nil_left_iff] at hall

/-- The expression that a node is, or a given one where the node is something else. -/
def Visit.expressionOr (e : ExpressionId) : Visit → ExpressionId
  | .expression c => c
  | _ => e

section

variable {a : Arena} {nodes : List Visit} {outcome : PassOutcome} (h : a.Settles nodes outcome)
  (htree : a.IsTree nodes)

include h htree

/-- Below the nodes, expressions become expressions, and all else stays. -/
theorem Arena.Settles.exists_turn : ∃ turn : ExpressionId → ExpressionId, ∀ v, v = .program ∨ v ∈ nodes →
    outcome.arena.children v = (a.children v).map (Visit.rename turn) := by
  obtain ⟨g, hg⟩ := @exists_map_of_beside _ _ _ (fun v => v = .program ∨ v ∈ nodes) a.children
    outcome.arena.children (fun v hv => (h.becomes htree hv).length_eq.symm)
    (fun v hv => htree.place_nodup hv) fun v w u hv hw hu hu' => htree.parent_eq hv hw hu hu'
  refine ⟨fun e => (g (.expression e)).expressionOr e, fun v hv => ?_⟩
  have hall := h.becomes htree hv
  rw [hg v hv, List.forall₂_map_right_iff, List.forall₂_same] at hall
  rw [hg v hv]
  refine List.map_congr_left fun w hw => ?_
  have hbecomes := hall w hw
  cases w with
  | expression e =>
      generalize hu : g (.expression e) = u at hbecomes
      cases hbecomes with
      | kept | called => simp only [Visit.rename, Visit.expressionOr, hu]
  | program | declaration | routine | «variable» | typeDecl | type | body | statement =>
      generalize g _ = u at hbecomes ⊢
      cases hbecomes with
      | kept => rfl

/-- What an expression has become stands where the expression stood. -/
theorem Arena.Settles.becomes_turn {turn : ExpressionId → ExpressionId}
    (hturn : ∀ v ∈ nodes, outcome.arena.children v = (a.children v).map (Visit.rename turn)) {e : ExpressionId}
    (hhas : a.Has (.expression e)) : a.Becomes outcome.arena (.expression e) (.expression (turn e)) ∧
      a.Replaces outcome.arena (.expression e) (.expression (turn e)) := by
  obtain ⟨v, hv, hchild⟩ := htree.exists_owner hhas
  have hbecomes := h.becomes htree (Or.inr hv)
  have hreplaces := (h.reshapes htree).children v (htree.spans.has_of_mem hv)
  rw [hturn v hv, List.forall₂_map_right_iff, List.forall₂_same] at hbecomes hreplaces
  exact ⟨hbecomes _ hchild, hreplaces _ hchild⟩

/-- **What name resolution does to the slots** of a tree is a renaming of their expressions. -/
theorem Arena.Settles.exists_turned :
    ∃ f, a.Turned outcome.arena f ∧ ∀ v, a.Has v →
      outcome.arena.children v = (a.children v).map (Visit.rename f) := by
  obtain ⟨turn, hturn⟩ := h.exists_turn htree
  -- ids without a node go beyond all nodes
  let f (e : ExpressionId) : ExpressionId :=
    if e.index < a.count .expression then turn e else ⟨e.index + outcome.arena.count .expression⟩
  have hin : ∀ e : ExpressionId, a.Has (.expression e) → f e = turn e := fun e hhas =>
    if_pos (has_of.1 (show a.Has (Visit.of e) from hhas))
  have hout : ∀ e : ExpressionId, ¬ a.Has (.expression e) →
      f e = ⟨e.index + outcome.arena.count .expression⟩ := fun e hnot =>
    if_neg fun hlt => hnot (show a.Has (Visit.of e) from has_of.2 hlt)
  have hbeyond : ∀ e, ¬ a.Has (.expression e) → ¬ outcome.arena.Has (.expression (f e)) := by
    intro e hnot hhas
    have hlt := has_of.1 (show outcome.arena.Has (Visit.of (f e)) from hhas)
    rw [hout e hnot] at hlt
    exact Nat.not_lt.2 (Nat.le_add_left _ _) hlt
  have hbecomes : ∀ e, a.Has (.expression e) →
      a.Becomes outcome.arena (.expression e) (.expression (f e)) ∧
        a.Replaces outcome.arena (.expression e) (.expression (f e)) := by
    intro e hhas
    rw [hin e hhas]
    exact h.becomes_turn htree (fun v hv => hturn v (Or.inr hv)) hhas
  refine ⟨f, ⟨fun e e' heq => ?_, hbeyond, fun e hhas => (hbecomes e hhas).1, fun e hhas =>
    (hbecomes e hhas).2⟩, fun v hv => ?_⟩
  · by_cases hhas : a.Has (.expression e) <;> by_cases hhas' : a.Has (.expression e')
    · have hsame := (hbecomes e' hhas').2
      rw [← heq] at hsame
      exact Visit.expression.inj ((hbecomes e hhas).2.injective htree hsame)
    · exact absurd ((h.reshapes htree).has (hbecomes e hhas).2) (heq ▸ hbeyond e' hhas')
    · exact absurd ((h.reshapes htree).has (hbecomes e' hhas').2) (heq ▸ hbeyond e hhas)
    · rw [hout e hhas, hout e' hhas'] at heq
      exact congrArg NodeId.mk (Nat.add_right_cancel (congrArg NodeId.index heq))
  · by_cases hmem : v ∈ nodes
    · rw [hturn v (Or.inr hmem)]
      refine List.map_congr_left fun w hw => ?_
      cases w with
      | expression e =>
          have hhas := htree.spans.has_of_mem (htree.spans.child_mem hmem hw)
          exact congrArg Visit.expression (hin e hhas).symm
      | program | declaration | routine | «variable» | typeDecl | type | body | statement => rfl
    · have hnone := htree.children_eq_nil hv hmem
      rw [hnone, (h.reshapes htree).children_eq_nil hv hnone]
      rfl

end

/-- **What stands for a name that becomes a call** was added, and has the span of the name. -/
theorem Arena.Turned.get?_call {a b : Arena} (h : a.Turned b f) (hreshapes : a.Reshapes b) {e : ExpressionId}
    {node : Expression} {name : String} {r : RoutineId} (hat : a.CallAt e name r)
    (hget : a.get? e = some node) : a.count .expression ≤ (f e).index ∧
      b.get? (f e) = some (.plain (.call name (some r) []) node.span) := by
  have hhas : a.Has (.expression e) := show a.Has (Visit.of e) from has_of_get? hget
  have hbecomes := h.becomes e hhas
  have hreplaces := h.replaces e hhas
  generalize f e = c at hbecomes hreplaces
  obtain ⟨-, -, hfound, hkind, -, -⟩ := id hat
  obtain rfl := Option.some.inj (hfound.symm.trans hget)
  cases hbecomes with
  | kept hkept => exact absurd hat (hkept e name r rfl)
  | called hat' hcall =>
      obtain ⟨rfl, rfl⟩ := hat.unique hat'
      obtain ⟨hfresh, rfl⟩ := hreshapes.call_of_replaces hget hkind hreplaces hcall
      exact ⟨hfresh, hcall⟩

theorem Arena.get?_eq_none {a : Arena} {id : NodeId family} (h : ¬ a.Has (Visit.of id)) :
    a.get? id = none :=
  Option.eq_none_iff_forall_ne_some.2 fun _ hget => h (has_of_get? hget)

theorem Arena.count_le_of_has {a b : Arena}
    (h : ∀ id : NodeId family, a.Has (Visit.of id) → b.Has (Visit.of id)) : a.count family ≤ b.count family :=
  Nat.le_of_not_lt fun hlt => Nat.lt_irrefl _ (has_of.1 (h ⟨b.count family⟩ (has_of.2 hlt)))

/-- Only expressions are added. -/
theorem Arena.Settles.has_of_ne {a : Arena} {nodes : List Visit} {outcome : PassOutcome}
    (h : a.Settles nodes outcome) (hfamily : family ≠ .expression) {id : NodeId family}
    (hhas : outcome.arena.Has (Visit.of id)) : a.Has (Visit.of id) := by
  obtain ⟨node, hget⟩ := hhas.exists_get?
  refine (h.evolves.added family id node hget).resolve_right fun hadded => ?_
  cases family with
  | expression => exact hfamily rfl
  | routine | «variable» | typeDecl | type | body | statement => exact hadded

/-! ### Spelled out -/

namespace Arena.Explicit

variable {chosen : Position → Bool} {a a' : Arena} {nodes nodes' : List Visit} {first second : PassOutcome}
  (h : a.Explicit chosen a' nodes nodes')

section

include h

theorem has_iff {v : Visit} : a'.Has v ↔ a.Has v := by
  refine ⟨fun hhas => ?_, h.has⟩
  obtain ⟨family, id, rfl⟩ := hhas.exists_of
  obtain ⟨node', hget'⟩ := hhas.exists_get?
  obtain ⟨node, hget, -⟩ := h.exists_origin hget'
  exact has_of_get? hget

theorem mem_iff {v : Visit} : v ∈ nodes' ↔ v ∈ nodes := by
  rw [h.tree'.mem_iff, h.tree.mem_iff, h.has_iff]

theorem count_eq : a'.count .expression = a.count .expression :=
  Nat.le_antisymm (count_le_of_has fun _ hhas => h.has_iff.1 hhas) (count_le_of_has fun _ hhas => h.has hhas)

/-- **Nothing is reported** of the tree in which the calls are spelled out. -/
theorem silent (hrun' : nameResolution.run a' = .ok second) : second.diagnostics = [] :=
  (h.tree'.silent_iff hrun').2 fun _ hbelow => h.quiet' hbelow

end

variable (hrun : nameResolution.run a = .ok first) (hrun' : nameResolution.run a' = .ok second)

/-! ### Slots -/

section

include h hrun'

/-- Nothing becomes a call where the calls are spelled out. -/
theorem children_eq' {v : Visit} (hv : a.Has v) : second.arena.children v = a.children v := by
  by_cases hmem : v ∈ nodes'
  swap
  · have hnone := h.tree'.children_eq_nil (h.has hv) hmem
    rw [((h.tree'.settles hrun').reshapes h.tree').children_eq_nil (h.has hv) hnone, ← h.children_eq, hnone]
  have hbecomes := (h.tree'.settles hrun').becomes h.tree' (Or.inr hmem)
  rw [h.children_eq] at hbecomes
  refine (List.forall₂_eq_eq_eq ▸ hbecomes.imp fun w w' hw => ?_ : a.children v = _).symm
  cases hw with
  | kept => rfl
  | called hat => exact absurd hat h.not_callAt

/-- So nothing is added. -/
theorem has_iff' {e : ExpressionId} : second.arena.Has (.expression e) ↔ a.Has (.expression e) := by
  have hsettles := h.tree'.settles hrun'
  refine ⟨fun hhas => ?_, fun hhas => hsettles.evolves.has (h.has hhas)⟩
  by_contra hnot
  have hfresh : a'.count .expression ≤ e.index := by
    rw [h.count_eq]
    exact Nat.le_of_not_lt fun hlt => hnot (show a.Has (Visit.of e) from has_of.2 hlt)
  obtain ⟨v, hv, hslot⟩ := hsettles.stored e hfresh hhas
  have hchild := slots_subset hslot (hsettles.evolves.has (h.tree'.spans.has_of_mem hv))
  rw [h.children_eq' hrun' (h.tree.spans.has_of_mem (h.mem_iff.1 hv))] at hchild
  exact hnot (h.tree.spans.has_of_mem (h.tree.spans.child_mem (h.mem_iff.1 hv) hchild))

end

/-! ### Links -/

section

include h hrun hrun'

/-- **The links of a name** that does not become a call are the same. -/
theorem links_identifier {scopes : List (List Declaration)} {e : ExpressionId} {node node' : Expression}
    {name : String} {target : Option VariableId} (hbelow : a.Below a.top ⟨scopes, .expression e⟩)
    (hget : a.get? e = some node) (hget' : a'.get? e = some node')
    (hkind : node.kind = .identifier name target) (hkind' : node'.kind = node.kind)
    (hkept : ∀ name r, ¬ a.CallAt e name r) :
    second.arena.links (.expression e) = first.arena.links (.expression e) := by
  have hdistinct := (h.quiet _ hbelow).distinct
  have hlinks := (h.tree.settles hrun).links_identifier h.tree hbelow hdistinct hget hkind hkept
  have hlinks' := (h.tree'.settles hrun').links_identifier h.tree' (h.below_top_iff.2 hbelow)
    (h.distinctScopes_iff.2 hdistinct) hget' (hkind'.trans hkind) fun _ _ => h.not_callAt
  rw [h.innermost_eq] at hlinks'
  rcases hlinks with ⟨hnone, hlinks⟩ | ⟨x, declared, hx, hdeclared, hlinks⟩
  · rcases hlinks' with ⟨-, hlinks'⟩ | ⟨x', declared', hx', hdeclared', hlinks'⟩
    · rw [hlinks, hlinks']
    · nomatch hnone.symm.trans hx'
  · rcases hlinks' with ⟨hnone', -⟩ | ⟨x', declared', hx', hdeclared', hlinks'⟩
    · nomatch hx.symm.trans hnone'
    · obtain rfl := Option.some.inj (hx.symm.trans hx')
      obtain ⟨found, hfound, hnode⟩ := h.exists_origin hdeclared'
      obtain rfl := Option.some.inj (hdeclared.symm.trans hfound)
      obtain ⟨-, -, htype, -⟩ := Variable.mk.inj hnode
      rw [hlinks, hlinks']
      exact congrArg (fun type => Option.toList type |>.map Visit.type |>.append _) htype

/-- **The links of an expression** that does not become a call are the same. -/
theorem links_expression {scopes : List (List Declaration)} {e : ExpressionId} {node node' : Expression}
    (hbelow : a.Below a.top ⟨scopes, .expression e⟩) (hget : a.get? e = some node)
    (hget' : a'.get? e = some node') (hkind' : node'.kind = node.kind) (htype : node'.type = node.type)
    (hkept : ∀ name r, ¬ a.CallAt e name r) :
    second.arena.links (.expression e) = first.arena.links (.expression e) := by
  have hsettles := h.tree.settles hrun
  have hsettles' := h.tree'.settles hrun'
  cases hkind : node.kind with
  | identifier name target => exact h.links_identifier hrun hrun' hbelow hget hget' hkind hkind' hkept
  | call name target arguments =>
      have hdistinct := (h.quiet _ hbelow).distinct
      rw [hsettles.links_call h.tree (fun _ _ _ => h.tree.routineNamed_of_calls hrun) hbelow hdistinct hget
          hkind,
        hsettles'.links_call h.tree' (fun _ _ _ => h.tree'.routineNamed_of_calls hrun')
          (h.below_top_iff.2 hbelow) (h.distinctScopes_iff.2 hdistinct) hget' (hkind'.trans hkind),
        h.routineNamed_eq]
  | unary | binary | integer | real | boolean =>
      rw [hsettles.links_other hget (by simp [hkind]) (by simp [hkind]),
        hsettles'.links_other hget' (by simp [hkind', hkind]) (by simp [hkind', hkind]), htype]

/-- **The links of a type** are the same. -/
theorem links_type {scopes : List (List Declaration)} {t : TypeId} {node node' : TypeNode}
    (hbelow : a.Below a.top ⟨scopes, .type t⟩) (hget : a.get? t = some node)
    (hget' : a'.get? t = some node') (hkind' : node'.kind = node.kind) :
    second.arena.links (.type t) = first.arena.links (.type t) := by
  have hsettles := h.tree.settles hrun
  have hsettles' := h.tree'.settles hrun'
  cases hkind : node.kind with
  | named name target =>
      have hdistinct := (h.quiet _ hbelow).distinct
      rw [hsettles.links_named h.tree hbelow hdistinct hget hkind,
        hsettles'.links_named h.tree' (h.below_top_iff.2 hbelow) (h.distinctScopes_iff.2 hdistinct) hget'
          (hkind'.trans hkind), h.innermost_eq]
  | integer | real | boolean | array | record =>
      rw [hsettles.links_unnamed hget (by simp [hkind]),
        hsettles'.links_unnamed hget' (by simp [hkind', hkind])]

/-- **The same links** are left of a node that does not become a call. -/
theorem links_eq {id : NodeId family} {node node' : Node family} (hget : a.get? id = some node)
    (hget' : a'.get? id = some node')
    (hnode : Node.mapColumns noColumn family node' = Node.mapColumns noColumn family node)
    (hkept : ∀ e name r, Visit.of id = .expression e → ¬ a.CallAt e name r) :
    second.arena.links (Visit.of id) = first.arena.links (Visit.of id) := by
  have hsettles := h.tree.settles hrun
  have hsettles' := h.tree'.settles hrun'
  by_cases hhidden : a.Hidden (Visit.of id)
  · rw [links_of_get? (hsettles.hidden family id node hhidden hget),
      links_of_get? (hsettles'.hidden family id node' (h.hidden_iff.2 hhidden) hget'),
      ← Node.links_mapColumns node noColumn, ← Node.links_mapColumns node' noColumn, hnode]
  · obtain ⟨scopes, hbelow⟩ := exists_site_of_not_hidden hhidden
    cases family with
    | expression =>
        obtain ⟨-, htype, hkind'⟩ := Expression.of_noColumn hnode
        exact h.links_expression hrun hrun' hbelow hget hget' hkind' htype fun name r => hkept _ name r rfl
    | type => exact h.links_type hrun hrun' hbelow hget hget' (TypeNode.mk.inj hnode).2
    | routine | «variable» | typeDecl | body | statement =>
        -- these have no links at all
        obtain ⟨after, hafter, -⟩ := hsettles.evolves.changed _ id node hget
        obtain ⟨after', hafter', -⟩ := hsettles'.evolves.changed _ id node' hget'
        rw [links_of_get? hafter, links_of_get? hafter']
        rfl

end

/-! ### Nodes -/

section

variable (hturned : a.Turned first.arena f)
  (hslots : ∀ v, a.Has v → first.arena.children v = (a.children v).map (Visit.rename f))

include h hrun hrun' hturned hslots

/-- A node that does not become a call is the same in both trees. -/
theorem get?_kept {id : NodeId family} {node : Node family} (hget : a.get? id = some node)
    (hkept : ∀ e name r, Visit.of id = .expression e → ¬ a.CallAt e name r) :
    (first.arena.get? (id.rename f)).map (Node.mapColumns noColumn family) =
      (second.arena.get? id).map fun node =>
        Node.mapExpressions f family (Node.mapColumns noColumn family node) := by
  obtain ⟨node', hget', hnode⟩ := h.exists_kept hget hkept
  obtain ⟨after, hafter, hchanges⟩ := (h.tree.settles hrun).evolves.changed family id node hget
  obtain ⟨after', hafter', hchanges'⟩ := (h.tree'.settles hrun').evolves.changed family id node' hget'
  have hid : id.rename f = id := by
    by_cases hfamily : family = .expression
    · subst hfamily
      have hbecomes := hturned.becomes id (show a.Has (Visit.of id) from has_of_get? hget)
      generalize hw : Visit.expression (f id) = w at hbecomes
      cases hbecomes with
      | kept => exact Visit.expression.inj hw
      | called hat => exact absurd hat (hkept id _ _ rfl)
    · exact NodeId.rename_of_ne hfamily id
  rw [hid, hafter, hafter', Option.map_some, Option.map_some]
  refine congrArg some (Node.eq_of_parts ?_ ?_ ?_ ?_ ?_)
  · rw [Node.span_mapExpressions, Node.span_mapColumns, Node.span_mapColumns, hchanges.span_eq,
      hchanges'.span_eq, ← Node.span_mapColumns, ← Node.span_mapColumns, hnode]
  · rw [Node.mark_mapExpressions, Node.mark_mapColumns, Node.mark_mapColumns, hchanges.mark_eq,
      hchanges'.mark_eq, ← Node.mark_mapColumns node noColumn, ← Node.mark_mapColumns node' noColumn, hnode]
  · rw [Node.form_mapExpressions, Node.form_mapColumns, Node.form_mapColumns, hchanges.form_eq,
      hchanges'.form_eq, ← Node.form_mapColumns node noColumn, ← Node.form_mapColumns node' noColumn, hnode]
  · rw [Node.children_mapExpressions, Node.children_mapColumns, Node.children_mapColumns,
      ← children_of_get? hafter, ← children_of_get? hafter', hslots _ (has_of_get? hget),
      h.children_eq' hrun' (has_of_get? hget)]
  · rw [Node.links_mapExpressions, Node.links_mapColumns, Node.links_mapColumns, ← links_of_get? hafter,
      ← links_of_get? hafter', h.links_eq hrun hrun' hget hget' hnode hkept]

omit hslots in
/-- **A name that becomes a call** of which nothing is left in its tree is the call in the other one. -/
theorem get?_called {e : ExpressionId} {name : String} {r : RoutineId} (hat : a.CallAt e name r) :
    (first.arena.get? (f e)).map (Node.mapColumns noColumn .expression) =
      (second.arena.get? e).map fun node =>
        Node.mapExpressions f .expression (Node.mapColumns noColumn .expression node) := by
  obtain ⟨node, node', hget, hget', hnode⟩ := h.exists_called hat
  obtain ⟨after', hafter', hchanges'⟩ := (h.tree'.settles hrun').evolves.changed .expression e node' hget'
  have hhas : a.Has (.expression e) := show a.Has (Visit.of e) from has_of_get? hget
  obtain ⟨hspan, hconstant, -, hkind'⟩ := Expression.mk.inj hnode
  -- what stands for the name is an added call of the same routine, at the same place
  obtain ⟨-, hafter⟩ := hturned.get?_call ((h.tree.settles hrun).reshapes h.tree) hat hget
  have hlinks' : second.arena.links (.expression e) = [.routine r] := by
    obtain ⟨hbelow, hdistinct, -, -, -, hroutine⟩ := hat
    rw [(h.tree'.settles hrun').links_call h.tree' (fun _ _ _ => h.tree'.routineNamed_of_calls hrun')
      (h.below_top_iff.2 hbelow) (h.distinctScopes_iff.2 hdistinct) hget' hkind', h.routineNamed_eq, hroutine]
    rfl
  rw [hafter, hafter', Option.map_some, Option.map_some]
  refine congrArg some (@Node.eq_of_parts .expression _ _ ?_ ?_ ?_ ?_ ?_)
  · rw [Node.span_mapExpressions, Node.span_mapColumns, Node.span_mapColumns, hchanges'.span_eq]
    exact hspan.symm
  · rw [Node.mark_mapExpressions, Node.mark_mapColumns, Node.mark_mapColumns, hchanges'.mark_eq]
    exact hconstant.symm
  · rw [Node.form_mapExpressions, Node.form_mapColumns, Node.form_mapColumns, hchanges'.form_eq]
    exact congrArg ExpressionKind.form hkind'.symm
  · rw [Node.children_mapExpressions, Node.children_mapColumns, Node.children_mapColumns,
      ← children_of_get? hafter', show Visit.of e = .expression e from rfl, h.children_eq' hrun' hhas,
      hat.leaf]
    rfl
  · rw [Node.links_mapExpressions, Node.links_mapColumns, Node.links_mapColumns, ← links_of_get? hafter',
      show Visit.of e = .expression e from rfl, hlinks']
    rfl

end

include h hrun hrun' in
/-- **The resolved tree is the same, spelled out or not**, but for the ids of the calls. -/
theorem exists_renamed :
    ∃ f, (second.arena.mapColumns noColumn).Renamed f (first.arena.mapColumns noColumn) := by
  have hsettles := h.tree.settles hrun
  have hsettles' := h.tree'.settles hrun'
  obtain ⟨f, hturned, hslots⟩ := hsettles.exists_turned h.tree
  refine ⟨f, ⟨hturned.injective, ?_, fun {family} id => ?_, ?_⟩⟩
  · rw [program_mapColumns, program_mapColumns, hsettles.evolves.program, hsettles'.evolves.program,
      h.declarations]
  · rw [get?_mapColumns, get?_mapColumns, Option.map_map]
    by_cases hhas : a.Has (Visit.of id)
    · obtain ⟨node, hget⟩ := hhas.exists_get?
      by_cases hcalled : ∃ e name r, Visit.of id = .expression e ∧ a.CallAt e name r
      · obtain ⟨e, name, r, hvisit, hat⟩ := hcalled
        cases family with
        | expression =>
            cases hvisit
            exact h.get?_called hrun hrun' hturned hat
        | routine | «variable» | typeDecl | type | body | statement => nomatch hvisit
      · exact h.get?_kept hrun hrun' hturned hslots hget fun e name r hvisit hat =>
          hcalled ⟨e, name, r, hvisit, hat⟩
    · -- neither tree has such a node
      by_cases hfamily : family = .expression
      · subst hfamily
        rw [@get?_eq_none _ _ (id.rename f) (hturned.beyond id hhas),
          get?_eq_none fun hnew => hhas ((h.has_iff' hrun').1 hnew)]
        rfl
      · rw [NodeId.rename_of_ne hfamily, get?_eq_none fun hnew => hhas (hsettles.has_of_ne hfamily hnew),
          get?_eq_none fun hnew => hhas (h.has_iff.1 (hsettles'.has_of_ne hfamily hnew))]
        rfl
  · rw [count_mapColumns, count_mapColumns]
    refine Nat.le_trans ?_ (hsettles.evolves.count_le .expression)
    exact count_le_of_has fun e hhas => (h.has_iff' hrun').1 hhas

end Arena.Explicit

end ProcLang
