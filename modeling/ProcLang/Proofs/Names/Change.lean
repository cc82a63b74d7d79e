import ProcLang.Proofs.Names.Site
import ProcLang.Proofs.Parser.Program
import ProcLang.Proofs.Walk.Runs
import Mathlib.Logic.Relation
import Mathlib.Data.List.Pairwise

/-!
# ProcLang.Proofs.Names.Change

**What name resolution may change.** `Node.Change` lists the changes of a single node: a link is
set, or an expression that was added takes the place of another one. Besides, calls are added.
`Effect a all s s'` says that between two states nothing else happened, that the nodes that were
changed are among `all`, and that undeclared names were reported only where names of `all` begin.

So whatever is known about other nodes stays known (`NamesResolved.persist`), and parts of the tree
can be resolved one after the other.
-/

namespace ProcLang

/-! ### Changes of nodes -/

/-- One change of a node in the course of resolving the names of `a`. -/
inductive Node.Change (a : Arena) : (family : Family) → Node family → Node family → Prop
  | initializer (node : Variable) {old e : ExpressionId} (hold : node.initializer = some old)
      (hfresh : a.count .expression ≤ e.index) :
      Change a .variable node { node with initializer := some e }
  | length (node : TypeNode) {old e : ExpressionId} {element : TypeId}
      (hold : node.kind = .array (some old) element) (hfresh : a.count .expression ≤ e.index) :
      Change a .type node { node with kind := .array (some e) element }
  | target (node : TypeNode) {name : String} {old : Option TypeDeclId} {t : TypeDeclId}
      (hold : node.kind = .named name old) (ht : a.Has (.typeDecl t)) :
      Change a .type node { node with kind := .named name (some t) }
  | expression (node : Statement) (index : Nat) {e : ExpressionId}
      (hfresh : a.count .expression ≤ e.index) :
      Change a .statement node { node with kind := node.kind.setExpression index e }
  | operand (node : Expression) {index : Nat} {e : ExpressionId}
      (hopen : index < (Node.slots .expression node).length)
      (hfresh : a.count .expression ≤ e.index) :
      Change a .expression node { node with kind := node.kind.setOperand index e }
  | link (node : Expression) {name : String} {x : VariableId} {declared : Variable}
      (hold : node.kind = .identifier name none) (hx : a.get? x = some declared) :
      Change a .expression node
        { node with
          kind := .identifier name (some x), type := declared.declaredType <|> node.type }
  | routine (node : Expression) {name : String} {old : Option RoutineId} {r : RoutineId}
      {arguments : List ExpressionId} (hold : node.kind = .call name old arguments)
      (hr : a.Has (.routine r)) :
      Change a .expression node { node with kind := .call name (some r) arguments }

/-- Any number of changes of a node. -/
abbrev Node.Changes (a : Arena) (family : Family) (node changed : Node family) : Prop :=
  Relation.ReflTransGen (Node.Change a family) node changed

/-- A node that is added: the call that takes the place of a bare name. -/
def Node.IsAdded (a : Arena) : (family : Family) → Node family → Prop
  | .expression, node => ∃ name r span,
      a.Has (.routine r) ∧ node = .plain (.call name (some r) []) span
  | _, _ => False

theorem Node.IsAdded.change {a : Arena} {family : Family} {node changed : Node family}
    (h : Node.IsAdded a family node) (hchange : Node.Change a family node changed) :
    Node.IsAdded a family changed := by
  cases hchange with
  | operand node hopen hfresh =>
      obtain ⟨name, r, span, -, rfl⟩ := h
      exact absurd hopen (Nat.not_lt_zero _)
  | link node hold hx =>
      obtain ⟨name, r, span, -, rfl⟩ := h
      nomatch hold
  | routine node hold hr =>
      obtain ⟨name, r, span, -, rfl⟩ := h
      cases hold
      exact ⟨_, _, span, hr, rfl⟩
  | initializer | length | target | expression => exact h.elim

/-! ### Fields -/

/-- An expression is the name behind the point of a member access. -/
def Arena.IsField (a : Arena) (f : ExpressionId) : Prop :=
  ∃ (e : ExpressionId) (node : Expression) (left : ExpressionId),
    a.get? e = some node ∧ node.kind = .binary .member left f

/-- The names behind points are nowhere looked up as expressions. -/
def Arena.Separate (a : Arena) : Prop :=
  ∀ f, a.IsField f → ∀ (family : Family) (id : NodeId family) node, a.get? id = some node →
    f ∉ Node.slots family node

/-- A node without a site: it is behind a point, or belongs to the counter of a loop. -/
def Arena.Hidden (a : Arena) (v : Visit) : Prop := ∀ site, a.Below a.top site → site.visit ≠ v

theorem Arena.exists_site_of_not_hidden {a : Arena} {v : Visit} (h : ¬ a.Hidden v) :
    ∃ scopes, a.Below a.top ⟨scopes, v⟩ := by
  by_contra hnone
  refine h fun site hbelow hvisit => hnone ⟨site.scopes, ?_⟩
  exact hvisit ▸ hbelow

namespace Arena

/-! ### Changes of the tree -/

/-- From `b` to `c` nodes were changed and calls were added, in the course of resolving the names of
`a`. -/
structure Evolves (a b c : Arena) : Prop where
  changed : ∀ (family : Family) (id : NodeId family) node, b.get? id = some node →
    ∃ node', c.get? id = some node' ∧ Node.Changes a family node node'
  added : ∀ (family : Family) (id : NodeId family) node, c.get? id = some node →
    b.Has (Visit.of id) ∨ Node.IsAdded a family node
  program : c.program = b.program

variable {a b c d : Arena} {family : Family} {id : NodeId family}

theorem Evolves.refl (a b : Arena) : Evolves a b b :=
  ⟨fun _ _ node h => ⟨node, h, .refl⟩, fun _ _ _ h => Or.inl (has_of_get? h), rfl⟩

theorem Evolves.has (h : Evolves a b c) {v : Visit} (hhas : b.Has v) : c.Has v := by
  obtain ⟨family, id, rfl⟩ := hhas.exists_of
  obtain ⟨node, hget⟩ := hhas.exists_get?
  obtain ⟨node', hget', -⟩ := h.changed family id node hget
  exact has_of_get? hget'

theorem Evolves.trans (h₁ : Evolves a b c) (h₂ : Evolves a c d) : Evolves a b d where
  changed family id node hget := by
    obtain ⟨node₁, hget₁, hchanges₁⟩ := h₁.changed family id node hget
    obtain ⟨node₂, hget₂, hchanges₂⟩ := h₂.changed family id node₁ hget₁
    exact ⟨node₂, hget₂, hchanges₁.trans hchanges₂⟩
  added family id node hget := by
    rcases h₂.added family id node hget with hhas | hadded
    · obtain ⟨node₁, hget₁⟩ := hhas.exists_get?
      refine (h₁.added family id node₁ hget₁).imp_right fun hadded => ?_
      obtain ⟨node₂, hget₂, hchanges⟩ := h₂.changed family id node₁ hget₁
      obtain rfl : node₂ = node := Option.some.inj (hget₂.symm.trans hget)
      clear hget hget₂
      induction hchanges with
      | refl => exact hadded
      | tail _ hchange ih => exact ih.change hchange
    · exact Or.inr hadded
  program := h₂.program.trans h₁.program

theorem Evolves.count_le (h : Evolves a b c) (family : Family) :
    b.count family ≤ c.count family := by
  by_contra hlt
  have hhas : b.Has (Visit.of (⟨c.count family⟩ : NodeId family)) :=
    has_of.2 (Nat.lt_of_not_le hlt)
  exact Nat.lt_irrefl _ (has_of.1 (h.has hhas))

/-- One node changes. -/
theorem evolves_put {node node' : Node family} (hget : b.get? id = some node)
    (hchanges : Node.Changes a family node node') : Evolves a b (b.put id node') where
  changed other kept found hfound := by
    by_cases hsame : Visit.of kept = Visit.of id
    · obtain rfl : other = family := Visit.family_eq_of_eq hsame
      obtain rfl := Visit.of_injective hsame
      obtain rfl : node = found := Option.some.inj (hget.symm.trans hfound)
      exact ⟨node', get?_put_self hget node', hchanges⟩
    · exact ⟨found, (get?_put_of_ne b hsame node').trans hfound, .refl⟩
  added other kept found hfound := by
    have hlt := index_lt_of_get? hfound
    rw [count_put] at hlt
    exact Or.inl (has_of.2 hlt)
  program := by cases family <;> rfl

/-- A call is added. -/
theorem evolves_add {name : String} {r : RoutineId} {span : Span} (hr : a.Has (.routine r)) :
    Evolves a b (b.add .expression (.plain (.call name (some r) []) span)).2 where
  changed family id node hget := ⟨node, b.extendedBy_add _ _ family id node hget, .refl⟩
  added family id node hget := by
    rcases get?_added hget with hold | ⟨heq, hnode, -⟩
    · exact Or.inl (has_of_get? hold)
    · subst heq
      subst hnode
      exact Or.inr ⟨name, r, span, hr, rfl⟩
  program := rfl

end Arena

/-! ### Effects -/

open Arena

/-- Between two states the nodes `all` may have been changed, and reported if they are names. -/
structure Effect (a : Arena) (all : List Visit) (s s' : WalkState Routines) : Prop where
  evolves : Evolves a s.arena s'.arena
  frame : ∀ (family : Family) (id : NodeId family) node, s.arena.get? id = some node →
    Visit.of id ∉ all → s'.arena.get? id = some node
  own : s'.own = s.own
  reports : ∀ p ∉ a.starts all,
    undeclaredAt s'.diagnostics.toList p = undeclaredAt s.diagnostics.toList p
  silent : s'.diagnostics = #[] → s.diagnostics = #[]
  hidden : ∀ (family : Family) (id : NodeId family) node, a.Hidden (Visit.of id) →
    s.arena.get? id = some node → s'.arena.get? id = some node

theorem mem_starts {a : Arena} {all : List Visit} {p : Position} :
    p ∈ a.starts all ↔ ∃ v ∈ all, a.start? v = some p := by
  rw [Arena.starts, List.mem_filterMap]

namespace Effect

variable {a : Arena} {xs ys : List Visit} {s s₁ s' : WalkState Routines} {family : Family}
  {id : NodeId family}

theorem refl (a : Arena) (s : WalkState Routines) : Effect a [] s s :=
  ⟨.refl a _, fun _ _ _ h _ => h, rfl, fun _ _ => rfl, id, fun _ _ _ _ h => h⟩

theorem mono (h : Effect a xs s s') (hsub : xs ⊆ ys) : Effect a ys s s' where
  evolves := h.evolves
  frame family id node hget hmem := h.frame family id node hget fun hxs => hmem (hsub hxs)
  own := h.own
  reports p hp := h.reports p fun hxs => by
    obtain ⟨v, hv, hstart⟩ := mem_starts.1 hxs
    exact hp (mem_starts.2 ⟨v, hsub hv, hstart⟩)
  silent := h.silent
  hidden := h.hidden

theorem trans (h₁ : Effect a xs s s₁) (h₂ : Effect a xs s₁ s') : Effect a xs s s' where
  evolves := h₁.evolves.trans h₂.evolves
  frame family id node hget hmem :=
    h₂.frame family id node (h₁.frame family id node hget hmem) hmem
  own := h₂.own.trans h₁.own
  reports p hp := (h₂.reports p hp).trans (h₁.reports p hp)
  silent h := h₁.silent (h₂.silent h)
  hidden family id node hhidden hget :=
    h₂.hidden family id node hhidden (h₁.hidden family id node hhidden hget)

theorem append (h₁ : Effect a xs s s₁) (h₂ : Effect a ys s₁ s') : Effect a (xs ++ ys) s s' :=
  (h₁.mono (List.subset_append_left xs ys)).trans (h₂.mono (List.subset_append_right xs ys))

/-- Nodes outside of an effect can be read as before. -/
theorem get?_eq (h : Effect a xs s s') (hhas : s.arena.Has (Visit.of id))
    (hmem : Visit.of id ∉ xs) : s'.arena.get? id = s.arena.get? id := by
  obtain ⟨node, hget⟩ := hhas.exists_get?
  rw [hget, h.frame family id node hget hmem]

theorem noted (a : Arena) (s : WalkState Routines) (event : Event) :
    Effect a [] s (s.noted event) :=
  ⟨.refl a _, fun _ _ _ h _ => h, rfl, fun _ _ => rfl, fun h => h, fun _ _ _ _ h => h⟩

theorem reported_ne (s : WalkState Routines) (cause : Cause) (place : Position) :
    (s.reported cause place).diagnostics ≠ #[] := by
  simp [WalkState.reported]

theorem undeclaredAt_push {ds : Array Diagnostic} {cause : Cause} {place p : Position}
    (h : place = p → cause.isUndeclared = false) :
    undeclaredAt (ds.push ⟨cause, place⟩).toList p = undeclaredAt ds.toList p := by
  rw [undeclaredAt, undeclaredAt, Array.toList_push, List.filter_append]
  by_cases hplace : place = p
  · simp [h hplace]
  · simp [hplace]

/-- A report about something else than an undeclared name. -/
theorem reported (a : Arena) (s : WalkState Routines) {cause : Cause}
    (h : cause.isUndeclared = false) (place : Position) :
    Effect a [] s (s.reported cause place) :=
  ⟨.refl a _, fun _ _ _ h _ => h, rfl, fun _ _ => undeclaredAt_push fun _ => h,
    fun hsilent => absurd hsilent (reported_ne s cause place), fun _ _ _ _ h => h⟩

/-- A report about the name at which a node begins. -/
theorem reported_at {v : Visit} {place : Position} (s : WalkState Routines) (cause : Cause)
    (h : a.start? v = some place) : Effect a [v] s (s.reported cause place) where
  evolves := .refl a _
  frame _ _ _ hget _ := hget
  own := rfl
  reports _ hp := undeclaredAt_push fun hplace =>
    absurd (mem_starts.2 ⟨v, List.mem_singleton_self v, hplace ▸ h⟩) hp
  silent hsilent := absurd hsilent (reported_ne s cause place)
  hidden _ _ _ _ hget := hget

theorem put {node node' : Node family} (hget : s.arena.get? id = some node)
    (hchanges : Node.Changes a family node node')
    (hsite : ¬ a.Hidden (Visit.of id)) :
    Effect a [Visit.of id] s (s.put id node') where
  evolves := evolves_put hget hchanges
  frame other kept found hfound hmem := by
    rw [WalkState.put, get?_put_of_ne s.arena (fun heq => hmem (List.mem_singleton.2 heq)) node']
    exact hfound
  own := rfl
  reports _ _ := rfl
  silent h := h
  hidden other kept found hhidden hfound :=
    (get?_put_of_ne s.arena (fun heq => hsite (heq ▸ hhidden)) node').trans hfound

theorem added {name : String} {r : RoutineId} (s : WalkState Routines) (span : Span)
    (hr : a.Has (.routine r)) :
    Effect a [] s (s.added .expression (.plain (.call name (some r) []) span)) where
  evolves := evolves_add hr
  frame family id node hget _ := s.arena.extendedBy_add _ _ family id node hget
  own := rfl
  reports _ _ := rfl
  silent h := h
  hidden family id node _ hget := s.arena.extendedBy_add _ _ family id node hget

end Effect

/-! ### What stays known -/

section

variable {a : Arena} {nodes : List Visit}

/-- Two nodes of a tree do not begin with a name at the same place. -/
theorem Arena.IsTree.start?_ne (htree : a.IsTree nodes) {v w : Visit} {p : Position}
    (hv : v ∈ nodes) (hw : w ∈ nodes) (hne : v ≠ w) (hstart : a.start? v = some p) :
    a.start? w ≠ some p := by
  have hpairwise := List.pairwise_filterMap.1 htree.starts
  have hsymm : Std.Symm fun x y : Visit =>
      ∀ q, a.start? x = some q → ∀ q', a.start? y = some q' → q ≠ q' :=
    ⟨fun x y h q hq q' hq' heq => h q' hq' q hq heq.symm⟩
  intro hstart'
  exact hpairwise.forall hv hw hne p hstart p hstart' rfl

/-- Names outside of an effect are reported as before. -/
theorem Effect.undeclaredAt_eq (htree : a.IsTree nodes) {ys : List Visit}
    {s s' : WalkState Routines} (h : Effect a ys s s') (hys : ys ⊆ nodes) {v : Visit}
    {p : Position} (hv : v ∈ nodes) (hmem : v ∉ ys) (hstart : a.start? v = some p) :
    undeclaredAt s'.diagnostics.toList p = undeclaredAt s.diagnostics.toList p := by
  refine h.reports p fun hp => ?_
  obtain ⟨w, hw, hstart'⟩ := mem_starts.1 hp
  exact htree.start?_ne hv (hys hw) (fun heq => hmem (heq ▸ hw)) hstart hstart'

theorem start?_of_identifier {e : ExpressionId} {node : Expression} {name : String}
    {target : Option VariableId} (hnode : a.get? e = some node)
    (hkind : node.kind = .identifier name target) :
    a.start? (.expression e) = some node.span.start := by
  rw [Visit.expression_eq e, start?_of_get? hnode, Node.start?, hkind]

theorem start?_of_call {e : ExpressionId} {node : Expression} {name : String}
    {target : Option RoutineId} {arguments : List ExpressionId} (hnode : a.get? e = some node)
    (hkind : node.kind = .call name target arguments) :
    a.start? (.expression e) = some node.span.start := by
  rw [Visit.expression_eq e, start?_of_get? hnode, Node.start?, hkind]

theorem start?_of_named {id : TypeId} {node : TypeNode} {name : String}
    {target : Option TypeDeclId} (hnode : a.get? id = some node)
    (hkind : node.kind = .named name target) : a.start? (.type id) = some node.span.start := by
  rw [Visit.type_eq id, start?_of_get? hnode, Node.start?, hkind]

theorem StandsFor.persist (htree : a.IsTree nodes) {ys : List Visit} {s s' : WalkState Routines}
    (heffect : Effect a ys s s') (hys : ys ⊆ nodes) {scopes : List (List Declaration)}
    {e e' : ExpressionId} (he : .expression e ∈ nodes) (hmem : .expression e ∉ ys)
    (h : StandsFor a s.arena s.diagnostics.toList scopes e e') :
    StandsFor a s'.arena s'.diagnostics.toList scopes e e' := by
  cases h with
  | linked hnode hkind hname hlinked hlink hspan hsilent =>
      refine .linked hnode hkind hname (heffect.frame .expression e _ hlinked hmem) hlink hspan ?_
      rw [heffect.undeclaredAt_eq htree hys he hmem (start?_of_identifier hnode hkind), hsilent]
  | called hnode hkind hvariable hname hfresh hcall hsilent =>
      refine .called hnode hkind hvariable hname hfresh
        (heffect.frame .expression e' _ hcall fun hcalled => ?_) ?_
      · have hhas : a.Has (Visit.of e') := htree.spans.has_of_mem (hys hcalled)
        exact Nat.not_lt.2 hfresh (has_of.1 hhas)
      · rw [heffect.undeclaredAt_eq htree hys he hmem (start?_of_identifier hnode hkind), hsilent]
  | undeclared hnode hkind hvariable hroutine hkept hreport =>
      refine .undeclared hnode hkind hvariable hroutine
        (heffect.frame .expression e _ hkept hmem) ?_
      rw [heffect.undeclaredAt_eq htree hys he hmem (start?_of_identifier hnode hkind), hreport]
  | other hnode hkind => exact .other hnode hkind

theorem CallLinked.persist {ds ds' : List Diagnostic} {node linked : Expression} {name : String}
    (hreports : undeclaredAt ds' node.span.start = undeclaredAt ds node.span.start)
    (h : CallLinked a ds node linked name) : CallLinked a ds' node linked name := by
  cases h with
  | linked hname hlink hsilent => exact .linked hname hlink (hreports.trans hsilent)
  | undeclared hname hlink hreport => exact .undeclared hname hlink (hreports.trans hreport)

theorem TypeLinked.persist {ds ds' : List Diagnostic} {scopes : List (List Declaration)}
    {node linked : TypeNode} {name : String}
    (hreports : undeclaredAt ds' node.span.start = undeclaredAt ds node.span.start)
    (h : TypeLinked a ds scopes node linked name) : TypeLinked a ds' scopes node linked name := by
  cases h with
  | linked hname hlink hsilent => exact .linked hname hlink (hreports.trans hsilent)
  | undeclared hname hlink hreport => exact .undeclared hname hlink (hreports.trans hreport)

end

end ProcLang
