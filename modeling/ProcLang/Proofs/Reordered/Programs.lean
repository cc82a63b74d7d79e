import ProcLang.Proofs.Reordered.Silence

/-!
# ProcLang.Proofs.Reordered.Programs

**The order of the declarations does not matter to name resolution** (`nameResolution_reordered`). Of a
program whose declarations are permuted something is reported if and only if something is reported of the
first one. If nothing is, all nodes have the same links in the end, and the same bare names have become
calls of the same routines; only the ids of the added calls may differ.

The links of a node are what the scopes around its site say, and these are the same in both orders. A bare
name that becomes a call is a special case: it is no longer part of the tree, so no site says what has
become of it. It is left as it was read (`IsTree.get?_of_callAt`).
-/

namespace ProcLang

open Arena

variable {a b : Arena} {nodes others : List Visit} {declarations : List Declaration}
  {first second : PassOutcome}

/-! ### What is left -/

/-- In the same slot of two trees that name resolution left of `a` stand the same node of `a`, or calls
of the same routine in place of the same name. -/
inductive Arena.SameSlot (a b c : Arena) : Visit → Visit → Prop
  | kept {v : Visit} (hhas : a.Has v) : SameSlot a b c v v
  | called {call call' : ExpressionId} {name : String} {r : RoutineId} {span : Span}
      (hfresh : a.count .expression ≤ call.index) (hfresh' : a.count .expression ≤ call'.index)
      (hcall : b.get? call = some (.plain (.call name (some r) []) span))
      (hcall' : c.get? call' = some (.plain (.call name (some r) []) span)) :
      SameSlot a b c (.expression call) (.expression call')

/-- Two trees that name resolution left of `a` have the same links and slots. -/
structure Arena.ResolvedAlike (a b c : Arena) : Prop where
  links : ∀ v, a.Has v → c.links v = b.links v
  slots : ∀ v, a.Has v → List.Forall₂ (SameSlot a b c) (b.children v) (c.children v)

/-- **A bare name that becomes a call** stays as it was read, beside the tree. -/
theorem Arena.IsTree.get?_of_callAt (htree : a.IsTree nodes)
    (hrun : nameResolution.run a = .ok first) {e : ExpressionId} {node : Expression} {name : String}
    {r : RoutineId} (hat : a.CallAt e name r) (hget : a.get? e = some node) :
    first.arena.get? e = some node := by
  obtain ⟨hbelow, -, hfound, hkind, hvariable, -⟩ := hat
  obtain rfl := Option.some.inj (hfound.symm.trans hget)
  obtain ⟨node', hget', hchanges⟩ := (htree.settles hrun).evolves.changed .expression e _ hget
  rcases hchanges.identifier_cases (htree.unlinked hget hkind) with rfl | ⟨x, -, -, hlink, -⟩
  · exact hget'
  · -- it is linked to no variable, since none has its name
    obtain ⟨hbelow', hfound', hkind', hname⟩ := htree.declares_of_identifies hrun ⟨node', _, hget', hlink⟩
    obtain rfl := Option.some.inj (hfound'.symm.trans hget)
    obtain ⟨rfl, -⟩ := ExpressionKind.identifier.inj (hkind'.symm.trans hkind)
    obtain rfl := htree.scopes_unique hbelow hbelow'
    nomatch hvariable.symm.trans hname

/-- A call in place of a name was added, and has the span of the name. -/
theorem Arena.Reshapes.call_of_replaces (h : a.Reshapes b) {e call : ExpressionId} {node : Expression}
    {name name' : String} {target : Option VariableId} {r : RoutineId} {span : Span}
    (hget : a.get? e = some node) (hkind : node.kind = .identifier name target)
    (hreplaces : a.Replaces b (.expression e) (.expression call))
    (hcall : b.get? call = some (.plain (.call name' (some r) []) span)) :
    a.count .expression ≤ call.index ∧ span = node.span := by
  cases hreplaces with
  | same =>
      obtain ⟨node', hget', hchanges⟩ := h.evolves.changed .expression e node hget
      obtain rfl := Option.some.inj (hcall.symm.trans hget')
      have hform := hchanges.form_eq
      rw [Node.form, Node.form, hkind] at hform
      cases hform
  | called hnode _ hfresh hcall' =>
      obtain rfl := Option.some.inj (hnode.symm.trans hget)
      exact ⟨hfresh, congrArg Expression.span (Option.some.inj (hcall.symm.trans hcall'))⟩

/-- What is related to members of one list is related in its order. -/
theorem forall₂_beside {α β γ : Type} {R : α → β → Prop} {S : α → γ → Prop} {xs : List α} {ys : List β}
    {zs : List γ} (h : List.Forall₂ R xs ys) (h' : List.Forall₂ S xs zs) :
    List.Forall₂ (fun y z => ∃ x ∈ xs, R x y ∧ S x z) ys zs := by
  induction h generalizing zs with
  | nil =>
      cases h'
      exact .nil
  | @cons x y xs ys hfirst _ ih =>
      obtain ⟨z, rest, hfirst', hrest, rfl⟩ := List.forall₂_cons_left_iff.1 h'
      refine .cons ⟨x, List.mem_cons_self, hfirst, hfirst'⟩ ((ih hrest).imp fun y z => ?_)
      rintro ⟨x, hx, hxy, hxz⟩
      exact ⟨x, List.mem_cons_of_mem _ hx, hxy, hxz⟩

/-! ### Two orders -/

/-- A program in two orders, and what name resolution leaves of both without a report. -/
structure Reordered (a : Arena) (declarations : List Declaration) (nodes others : List Visit)
    (first second : PassOutcome) : Prop where
  perm : declarations.Perm a.program.declarations
  tree : a.IsTree nodes
  tree' : (a.withDeclarations declarations).IsTree others
  run : nameResolution.run a = .ok first
  run' : nameResolution.run (a.withDeclarations declarations) = .ok second
  silent : first.diagnostics = []
  silent' : second.diagnostics = []

namespace Reordered

variable (h : Reordered a declarations nodes others first second)

include h

/-- A node has a site in both orders, in scopes with distinct names, or it stays as it was read. -/
theorem site_or_kept {family : Family} {id : NodeId family} {node : Node family}
    (hget : a.get? id = some node) :
    (∃ inner, a.Below a.top ⟨inner ++ [a.program.declarations], Visit.of id⟩ ∧
      (a.withDeclarations declarations).Below (a.withDeclarations declarations).top
        ⟨inner ++ [declarations], Visit.of id⟩ ∧
      a.DistinctScopes (inner ++ [a.program.declarations])) ∨
    first.arena.get? id = some node ∧ second.arena.get? id = some node := by
  by_cases hhidden : a.Hidden (Visit.of id)
  · have hhidden' := h.tree.hidden_withDeclarations h.perm hhidden
    exact Or.inr ⟨(h.tree.settles h.run).hidden family id node hhidden hget,
      (h.tree'.settles h.run').hidden family id node hhidden' ((get?_withDeclarations id).trans hget)⟩
  · obtain ⟨scopes, hbelow⟩ := exists_site_of_not_hidden hhidden
    obtain ⟨inner, hscopes, hbelow'⟩ := h.tree.below_withDeclarations h.perm hbelow
    dsimp only at hscopes
    subst hscopes
    exact Or.inl ⟨inner, hbelow, hbelow', ((h.tree.settles h.run).checked h.silent _ hbelow).1⟩

/-- The same names become calls in both orders. -/
theorem callAt_iff {e : ExpressionId} {name : String} {r : RoutineId} :
    (a.withDeclarations declarations).CallAt e name r ↔ a.CallAt e name r :=
  ⟨fun hat => hat.withDeclarations h.tree' h.perm.symm, fun hat => hat.withDeclarations h.tree h.perm⟩

/-! ### Links -/

/-- **The links of names** are the same. -/
theorem links_identifier {inner : List (List Declaration)} {e : ExpressionId} {node : Expression}
    {name : String} {target : Option VariableId}
    (hbelow : a.Below a.top ⟨inner ++ [a.program.declarations], .expression e⟩)
    (hbelow' : (a.withDeclarations declarations).Below (a.withDeclarations declarations).top
      ⟨inner ++ [declarations], .expression e⟩)
    (hdistinct : a.DistinctScopes (inner ++ [a.program.declarations])) (hget : a.get? e = some node)
    (hkind : node.kind = .identifier name target) :
    second.arena.links (.expression e) = first.arena.links (.expression e) := by
  have hget' : (a.withDeclarations declarations).get? e = some node :=
    (get?_withDeclarations e).trans hget
  by_cases hat : ∃ name r, a.CallAt e name r
  · obtain ⟨name, r, hat⟩ := hat
    rw [Visit.expression_eq e, links_of_get? (h.tree.get?_of_callAt h.run hat hget),
      links_of_get? (h.tree'.get?_of_callAt h.run' (h.callAt_iff.2 hat) hget')]
  · -- the innermost variable of this name is the same, whatever the order
    have hkept : ∀ name r, ¬ a.CallAt e name r := fun name r hcall => hat ⟨name, r, hcall⟩
    have hname : (a.withDeclarations declarations).innermost Declaration.variable? name
        (inner ++ [declarations]) =
          a.innermost Declaration.variable? name (inner ++ [a.program.declarations]) :=
      innermost_withDeclarations h.perm (hdistinct _ (List.mem_append_right _ List.mem_cons_self)) _ name
    rcases (h.tree.settles h.run).links_identifier h.tree hbelow hdistinct hget hkind hkept with
      ⟨hnone, hlinks⟩ | ⟨x, declared, hx, hdeclared, hlinks⟩ <;>
    rcases (h.tree'.settles h.run').links_identifier h.tree' hbelow'
      (distinctScopes_withDeclarations h.perm hdistinct) hget' hkind
      (fun name r hcall => hkept name r (h.callAt_iff.1 hcall)) with
      ⟨hnone', hlinks'⟩ | ⟨x', declared', hx', hdeclared', hlinks'⟩
    · rw [hlinks, hlinks']
    · rw [hname, hnone] at hx'
      nomatch hx'
    · rw [hname, hx] at hnone'
      nomatch hnone'
    · obtain rfl := Option.some.inj (hx.symm.trans (hname.symm.trans hx'))
      rw [get?_withDeclarations, hdeclared] at hdeclared'
      obtain rfl := Option.some.inj hdeclared'
      rw [hlinks, hlinks']

/-- **The links of expressions** are the same. -/
theorem links_expression {e : ExpressionId} {node : Expression} (hget : a.get? e = some node) :
    second.arena.links (.expression e) = first.arena.links (.expression e) := by
  have hsettles := h.tree.settles h.run
  have hsettles' := h.tree'.settles h.run'
  have hget' : (a.withDeclarations declarations).get? e = some node :=
    (get?_withDeclarations e).trans hget
  rcases h.site_or_kept hget with ⟨inner, hbelow, hbelow', hdistinct⟩ | ⟨hkept, hkept'⟩
  · have hnodup := hdistinct _ (List.mem_append_right _ List.mem_cons_self)
    have hdistinct' := distinctScopes_withDeclarations h.perm hdistinct
    cases hkind : node.kind with
    | identifier name target => exact h.links_identifier hbelow hbelow' hdistinct hget hkind
    | call name target arguments =>
        rw [hsettles.links_call h.tree (fun _ _ _ => h.tree.routineNamed_of_calls h.run) hbelow
            hdistinct hget hkind,
          hsettles'.links_call h.tree' (fun _ _ _ => h.tree'.routineNamed_of_calls h.run') hbelow'
            hdistinct' hget' hkind, routineNamed_withDeclarations h.perm hnodup]
    | unary | binary | integer | real | boolean =>
        have hname : ∀ name target, node.kind ≠ .identifier name target := by simp [hkind]
        have hcall : ∀ name target arguments, node.kind ≠ .call name target arguments := by simp [hkind]
        rw [hsettles.links_other hget hname hcall, hsettles'.links_other hget' hname hcall]
  · rw [Visit.expression_eq e, links_of_get? hkept, links_of_get? hkept']

/-- **The links of types** are the same. -/
theorem links_type {t : TypeId} {node : TypeNode} (hget : a.get? t = some node) :
    second.arena.links (.type t) = first.arena.links (.type t) := by
  have hsettles := h.tree.settles h.run
  have hsettles' := h.tree'.settles h.run'
  have hget' : (a.withDeclarations declarations).get? t = some node :=
    (get?_withDeclarations t).trans hget
  rcases h.site_or_kept hget with ⟨inner, hbelow, hbelow', hdistinct⟩ | ⟨hkept, hkept'⟩
  · have hnodup := hdistinct _ (List.mem_append_right _ List.mem_cons_self)
    have hdistinct' := distinctScopes_withDeclarations h.perm hdistinct
    cases hkind : node.kind with
    | named name target =>
        rw [hsettles.links_named h.tree hbelow hdistinct hget hkind,
          hsettles'.links_named h.tree' hbelow' hdistinct' hget' hkind,
          innermost_withDeclarations h.perm hnodup]
    | integer | real | boolean | array | record =>
        have hname : ∀ name target, node.kind ≠ .named name target := by simp [hkind]
        rw [hsettles.links_unnamed hget hname, hsettles'.links_unnamed hget' hname]
  · rw [Visit.type_eq t, links_of_get? hkept, links_of_get? hkept']

/-- **The same links** are left. -/
theorem links {v : Visit} (hhas : a.Has v) : second.arena.links v = first.arena.links v := by
  obtain ⟨family, id, rfl⟩ := hhas.exists_of
  obtain ⟨node, hget⟩ := hhas.exists_get?
  cases family with
  | expression => exact h.links_expression hget
  | type => exact h.links_type hget
  | routine | «variable» | typeDecl | body | statement =>
      -- these have no links at all
      obtain ⟨after, hafter, -⟩ := (h.tree.settles h.run).evolves.changed _ id node hget
      obtain ⟨after', hafter', -⟩ := (h.tree'.settles h.run').evolves.changed _ id node
        ((get?_withDeclarations id).trans hget)
      rw [links_of_get? hafter, links_of_get? hafter']
      rfl

/-! ### Slots -/

/-- What stands where a node stood, in both trees. -/
theorem sameSlot {v w w' : Visit} (hhas : a.Has v) (hbecomes : a.Becomes first.arena v w)
    (hreplaces : a.Replaces first.arena v w)
    (hbecomes' : (a.withDeclarations declarations).Becomes second.arena v w')
    (hreplaces' : (a.withDeclarations declarations).Replaces second.arena v w') :
    a.SameSlot first.arena second.arena w w' := by
  cases hbecomes with
  | kept hkept =>
      cases hbecomes' with
      | kept => exact .kept hhas
      | called hat' => exact absurd (h.callAt_iff.1 hat') (hkept _ _ _ rfl)
  | called hat hcall =>
      cases hbecomes' with
      | kept hkept' => exact absurd (h.callAt_iff.2 hat) (hkept' _ _ _ rfl)
      | called hat' hcall' =>
          obtain ⟨rfl, rfl⟩ := hat.unique (h.callAt_iff.1 hat')
          obtain ⟨-, -, hget, hkind, -, -⟩ := hat
          obtain ⟨hfresh, rfl⟩ := ((h.tree.settles h.run).reshapes h.tree).call_of_replaces hget hkind
            hreplaces hcall
          obtain ⟨hfresh', rfl⟩ := ((h.tree'.settles h.run').reshapes h.tree').call_of_replaces
            ((get?_withDeclarations _).trans hget) hkind hreplaces' hcall'
          exact .called hfresh hfresh' hcall hcall'

/-- **The same slots** hold calls, and the others what they held. -/
theorem slots {v : Visit} (hhas : a.Has v) : List.Forall₂ (a.SameSlot first.arena second.arena)
    (first.arena.children v) (second.arena.children v) := by
  obtain ⟨family, id, rfl⟩ := hhas.exists_of
  obtain ⟨node, hget⟩ := hhas.exists_get?
  have hchild : ∀ w ∈ a.children (Visit.of id), a.Has w := fun w hw =>
    h.tree.has_child hget (children_of_get? hget ▸ hw)
  rcases h.site_or_kept hget with ⟨inner, hbelow, hbelow', -⟩ | ⟨hkept, hkept'⟩
  · -- both lists of slots are aligned with the slots that were read
    have hsettles := h.tree.settles h.run
    have hsettles' := h.tree'.settles h.run'
    have hfirst := List.Forall₂.mp (fun _ _ hbecomes hreplaces => And.intro hbecomes hreplaces)
      (hsettles.becomes h.tree (h.tree.site_mem hbelow)) ((hsettles.reshapes h.tree).children _ hhas)
    have hsecond := List.Forall₂.mp (fun _ _ hbecomes hreplaces => And.intro hbecomes hreplaces)
      (hsettles'.becomes h.tree' (h.tree'.site_mem hbelow'))
      ((hsettles'.reshapes h.tree').children _ (has_withDeclarations.2 hhas))
    rw [children_withDeclarations (by cases family <;> nofun)] at hsecond
    refine (forall₂_beside hfirst hsecond).imp fun w w' => ?_
    rintro ⟨u, hu, ⟨hbecomes, hreplaces⟩, hbecomes', hreplaces'⟩
    exact h.sameSlot (hchild u hu) hbecomes hreplaces hbecomes' hreplaces'
  · rw [children_of_get? hget] at hchild
    rw [children_of_get? hkept, children_of_get? hkept']
    exact List.forall₂_same.2 fun w hw => .kept (hchild w hw)

theorem resolvedAlike : a.ResolvedAlike first.arena second.arena where
  links _ hhas := h.links hhas
  slots _ hhas := h.slots hhas

end Reordered

/-! ### Programs -/

/-- Name resolution does the same to a tree in both orders. -/
theorem Arena.IsTree.exists_reordered (htree : a.IsTree nodes)
    (hperm : declarations.Perm a.program.declarations) :
    ∃ first second, nameResolution.run a = .ok first ∧
      nameResolution.run (a.withDeclarations declarations) = .ok second ∧
      (second.diagnostics = [] ↔ first.diagnostics = []) ∧
      (first.diagnostics = [] → a.ResolvedAlike first.arena second.arena) := by
  obtain ⟨others, htree', -⟩ := htree.withDeclarations hperm
  obtain ⟨first, hfirst, -⟩ := htree.exists_settles
  obtain ⟨second, hsecond, -⟩ := htree'.exists_settles
  have hsilent : first.diagnostics = [] → second.diagnostics = [] :=
    htree.silent_withDeclarations hperm hfirst hsecond
  -- the first order is a permutation of the second one
  have hsilent' : second.diagnostics = [] → first.diagnostics = [] :=
    htree'.silent_withDeclarations hperm.symm hsecond hfirst
  exact ⟨first, second, hfirst, hsecond, ⟨hsilent', hsilent⟩, fun hnone =>
    Reordered.resolvedAlike ⟨hperm, htree, htree', hfirst, hsecond, hnone, hsilent hnone⟩⟩

/-- **The order of the declarations does not matter to name resolution.** -/
theorem nameResolution_reordered (source : String) (hparse : (parse source).errors = [])
    (declarations : List Declaration)
    (hperm : declarations.Perm (parse source).arena.program.declarations) :
    ∃ first second, nameResolution.run (parse source).arena = .ok first ∧
      nameResolution.run ((parse source).arena.withDeclarations declarations) = .ok second ∧
      (second.diagnostics = [] ↔ first.diagnostics = []) ∧
      (first.diagnostics = [] → (parse source).arena.ResolvedAlike first.arena second.arena) := by
  obtain ⟨nodes, htree⟩ := Parser.parse_isTree source hparse
  exact htree.exists_reordered hperm

/-- A variable whose value is a bare name, in front of the routine of this name and behind it. -/
theorem nameResolution_reordered_call :
    let source := "var u is f\nroutine f() : t is\nend\ntype t is integer\n"
    let declarations : List Declaration := [.type ⟨0⟩, .routine ⟨0⟩, .variable ⟨0⟩]
    (parse source).errors = [] ∧ declarations.Perm (parse source).arena.program.declarations ∧
      ∃ first second, nameResolution.run (parse source).arena = .ok first ∧
        nameResolution.run ((parse source).arena.withDeclarations declarations) = .ok second ∧
        (second.diagnostics = [] ↔ first.diagnostics = []) ∧
        (first.diagnostics = [] → (parse source).arena.ResolvedAlike first.arena second.arena) := by
  intro source declarations
  obtain ⟨hparse, hperm⟩ : (parse source).errors = [] ∧
      declarations.Perm (parse source).arena.program.declarations := by
    decide +kernel
  exact ⟨hparse, hperm, nameResolution_reordered source hparse declarations hperm⟩

end ProcLang
