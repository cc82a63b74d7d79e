import ProcLang.Proofs.Columns.Tree
import ProcLang.Proofs.Reordered.Silence

/-!
# ProcLang.Proofs.SpelledOut.Sites

**Bare names that are spelled out as calls.** `a.spellOut chosen` is the tree `a` with an empty call in
place of each bare name that begins at a chosen place. A tree that differs from it in columns only has
the sites of `a`, with the same scopes around them (`SpelledOut.below_iff`), and names stand for the same
declarations in both (`SpelledOut.innermost_eq`).

If the names that become calls are spelled out, and no others, then there is as little to say of the sites
of the new tree as of those of `a` (`Explicit.quiet`), and nothing is left in it to become a call
(`Explicit.not_callAt`).
-/

namespace ProcLang

open Arena

/-! ### Spelling out -/

section

variable (chosen : Position → Bool)

/-- An empty call in place of a bare name that begins at a chosen place. -/
def Expression.spellOut (e : Expression) : Expression :=
  match e.kind with
  | .identifier name none => if chosen e.span.start then .plain (.call name none []) e.span else e
  | _ => e

theorem Expression.operands_spellOut (e : Expression) :
    (e.spellOut chosen).kind.operands = e.kind.operands := by
  obtain ⟨span, constant, type, kind⟩ := e
  rw [spellOut]
  dsimp only
  split
  · split <;> rfl
  · rfl

theorem Expression.slots_spellOut (e : Expression) :
    Node.slots .expression (e.spellOut chosen) = Node.slots .expression e := by
  obtain ⟨span, constant, type, kind⟩ := e
  rw [spellOut]
  dsimp only
  split
  · split <;> rfl
  · rfl

/-- The node with a call in place of a bare name that begins at a chosen place. -/
def Node.spellOut : (family : Family) → Node family → Node family
  | .routine, node => node
  | .variable, node => node
  | .typeDecl, node => node
  | .type, node => node
  | .body, node => node
  | .statement, node => node
  | .expression, node => Expression.spellOut chosen node

/-- The tree with calls in place of the bare names that begin at chosen places. -/
def Arena.spellOut (a : Arena) : Arena :=
  { a with expressionTable := a.expressionTable.map (Expression.spellOut chosen) }

/-- A tree in which bare names are spelled out; columns may be other ones. -/
structure Arena.SpelledOut (a a' : Arena) : Prop where
  declarations : a'.program.declarations = a.program.declarations
  get? : ∀ {family : Family} (id : NodeId family),
    (a'.get? id).map (Node.mapColumns noColumn family) =
      (a.get? id).map fun node => Node.mapColumns noColumn family (Node.spellOut chosen family node)

theorem Arena.get?_spellOut (a : Arena) {family : Family} (id : NodeId family) :
    (a.spellOut chosen).get? id = (a.get? id).map (Node.spellOut chosen family) := by
  cases family with
  | expression => exact Array.getElem?_map
  | routine | «variable» | typeDecl | type | body | statement => exact (congrFun Option.map_id _).symm

theorem Arena.SpelledOut.of_noColumn {a a' : Arena}
    (h : (a.spellOut chosen).mapColumns noColumn = a'.mapColumns noColumn) :
    a.SpelledOut chosen a' where
  declarations := by
    have hprogram := congrArg (fun tree => tree.program.declarations) h
    exact hprogram.symm
  get? id := by
    rw [← get?_mapColumns, ← h, get?_mapColumns, get?_spellOut, Option.map_map]
    rfl

end

variable {chosen : Position → Bool} {a a' : Arena}

/-- What an expression says besides its place. -/
theorem Expression.of_noColumn {e e' : Expression}
    (h : Node.mapColumns noColumn .expression e' = Node.mapColumns noColumn .expression e) :
    e'.constant = e.constant ∧ e'.type = e.type ∧ e'.kind = e.kind := by
  obtain ⟨-, hconstant, htype, hkind⟩ := Expression.mk.inj h
  exact ⟨hconstant, htype, hkind⟩

theorem Arena.isName_iff {e : ExpressionId} : a.isName e = true ↔
    ∃ (node : Expression) (name : String) (target : Option VariableId),
      a.get? e = some node ∧ node.kind = .identifier name target := by
  rw [isName]
  constructor
  · intro h
    split at h
    · rename_i name target hkind
      obtain ⟨node, hget, hname⟩ := Option.map_eq_some_iff.1 hkind
      exact ⟨node, name, target, hget, hname⟩
    · cases h
  · rintro ⟨node, name, target, hget, hname⟩
    rw [hget, Option.map_some, hname]

namespace Arena.SpelledOut

variable (h : a.SpelledOut chosen a') {family : Family} {id : NodeId family}

include h

/-! ### Nodes -/

theorem exists_node {node : Node family} (hget : a.get? id = some node) :
    ∃ node', a'.get? id = some node' ∧ Node.mapColumns noColumn family node' =
      Node.mapColumns noColumn family (Node.spellOut chosen family node) := by
  have heq := h.get? id
  rw [hget, Option.map_some] at heq
  exact Option.map_eq_some_iff.1 heq

theorem exists_origin {node' : Node family} (hget' : a'.get? id = some node') :
    ∃ node, a.get? id = some node ∧ Node.mapColumns noColumn family node' =
      Node.mapColumns noColumn family (Node.spellOut chosen family node) := by
  have heq := h.get? id
  rw [hget', Option.map_some] at heq
  obtain ⟨node, hget, hnode⟩ := Option.map_eq_some_iff.1 heq.symm
  exact ⟨node, hget, hnode.symm⟩

/-- What is read of a node does not change if neither places nor bare names matter. -/
theorem read_eq {β : Type} {f : Node family → β}
    (hcolumns : ∀ node, f (Node.mapColumns noColumn family node) = f node)
    (hspelled : ∀ node, f (Node.spellOut chosen family node) = f node) :
    (a'.get? id).map f = (a.get? id).map f := by
  have heq := congrArg (Option.map f) (h.get? id)
  rw [Option.map_map, Option.map_map] at heq
  simpa only [Function.comp_def, hcolumns, hspelled] using heq

omit h in
theorem elim_eq_getD {β : Type} (f : Node family → List β) (x : Option (Node family)) :
    x.elim [] f = (x.map f).getD [] := by
  cases x <;> rfl

theorem ofNode_eq {α : Type} {f : (family : Family) → Node family → List α}
    (hcolumns : ∀ family node, f family (Node.mapColumns noColumn family node) = f family node)
    (hspelled : ∀ node : Expression, f .expression (node.spellOut chosen) = f .expression node)
    (v : Visit) : a'.ofNode f v = a.ofNode f v := by
  cases v with
  | program | declaration => rfl
  | expression =>
      rw [ofNode, ofNode, elim_eq_getD, elim_eq_getD, h.read_eq (hcolumns .expression) hspelled]
  | routine | «variable» | typeDecl | type | body | statement =>
      rw [ofNode, ofNode, elim_eq_getD, elim_eq_getD, h.read_eq (hcolumns _) fun _ => rfl]

/-- Where a function of nodes gives nothing, another one gives nothing for the new tree, if this is so for
each node. -/
theorem ofNode_eq_nil {α : Type} {f f' : (family : Family) → Node family → List α} {v : Visit}
    (hnone : a.ofNode f v = [])
    (hnode : ∀ {family : Family} (id : NodeId family) node node', v = Visit.of id →
      a.get? id = some node → a'.get? id = some node' → f family node = [] → f' family node' = []) :
    a'.ofNode f' v = [] := by
  have hof : ∀ {family : Family} (id : NodeId family), v = Visit.of id →
      (a'.get? id).elim [] (f' family) = [] := by
    intro family id hvisit
    cases hget' : a'.get? id with
    | none => rfl
    | some node' =>
        obtain ⟨node, hget, -⟩ := h.exists_origin hget'
        rw [hvisit, ofNode_of_get? hget] at hnone
        exact hnode id node node' hvisit hget hget' hnone
  cases v with
  | program | declaration => rfl
  | routine id => exact hof id rfl
  | «variable» id => exact hof id rfl
  | typeDecl id => exact hof id rfl
  | type id => exact hof id rfl
  | body id => exact hof id rfl
  | statement id => exact hof id rfl
  | expression id => exact hof id rfl

/-- Neither a bare name nor an empty call owns anything. -/
theorem children_eq (v : Visit) : a'.children v = a.children v := by
  have hown : ∀ {family : Family} (id : NodeId family), a'.childrenOf id = a.childrenOf id := by
    intro family id
    have hread : (a'.get? id).map (Node.children family) = (a.get? id).map (Node.children family) :=
      h.read_eq (fun _ => by cases family <;> rfl) (fun node => by
        cases family with
        | expression => exact congrArg (List.map Visit.expression) (node.operands_spellOut chosen)
        | routine | «variable» | typeDecl | type | body | statement => rfl)
    rw [childrenOf, childrenOf]
    revert hread
    cases a'.get? id <;> cases a.get? id
    · exact fun _ => rfl
    · exact fun hread => by cases hread
    · exact fun hread => by cases hread
    · exact fun hread => Option.some.inj hread
  cases v with
  | program => rw [children, children, h.declarations]
  | declaration => rfl
  | routine id => exact hown id
  | «variable» id => exact hown id
  | typeDecl id => exact hown id
  | type id => exact hown id
  | body id => exact hown id
  | statement id => exact hown id
  | expression id => exact hown id

/-! ### Names and sites -/

theorem name_eq (id : NodeId family) (f : Node family → String × Span)
    (hcolumns : ∀ node, (f (Node.mapColumns noColumn family node)).1 = (f node).1)
    (hspelled : ∀ node, (f (Node.spellOut chosen family node)).1 = (f node).1) :
    (match f <$> a'.get id with | .ok (name, _) => some name | .error _ => none) =
      match f <$> a.get id with | .ok (name, _) => some name | .error _ => none := by
  have hread := @read_eq _ _ _ h _ id _ (fun node => (f node).1) hcolumns hspelled
  rw [Arena.get, Arena.get]
  revert hread
  cases a'.get? id <;> cases a.get? id
  · exact fun _ => rfl
  · exact fun hread => by cases hread
  · exact fun hread => by cases hread
  · exact fun hread => hread

theorem nameOf_eq : a'.nameOf = a.nameOf := by
  funext d
  cases d with
  | routine id => exact h.name_eq id (fun node => (node.name, node.span)) (fun _ => rfl) fun _ => rfl
  | «variable» id => exact h.name_eq id (fun node => (node.name, node.span)) (fun _ => rfl) fun _ => rfl
  | type id => exact h.name_eq id (fun node => (node.name, node.span)) (fun _ => rfl) fun _ => rfl

theorem innermost_eq {α : Type} (select : Declaration → Option α) (name : String)
    (scopes : List (List Declaration)) :
    a'.innermost select name scopes = a.innermost select name scopes := by
  rw [innermost, innermost, h.nameOf_eq]

theorem routineNamed_eq (name : String) : a'.routineNamed name = a.routineNamed name := by
  rw [routineNamed, routineNamed, h.innermost_eq, h.declarations]

theorem distinctScopes_iff {scopes : List (List Declaration)} :
    a'.DistinctScopes scopes ↔ a.DistinctScopes scopes := by
  rw [DistinctScopes, DistinctScopes, h.nameOf_eq]

theorem bodySite_eq : a'.bodySite = a.bodySite := by
  funext seeds scopes id
  have hread : (a'.get? id).map Body.declarations = (a.get? id).map Body.declarations :=
    @read_eq _ _ _ h .body id _ Body.declarations (fun _ => rfl) fun _ => rfl
  rw [bodySite, bodySite, elim_eq_getD, elim_eq_getD, hread]

/-- **The same sites** are right below a site. -/
theorem inside_eq (site : Site) : a'.inside site = a.inside site := by
  have hnode : ∀ scopes, a'.insideNode scopes = a.insideNode scopes := by
    intro scopes
    funext family node
    cases family with
    | routine | statement => rw [insideNode, insideNode, h.bodySite_eq]
    | «variable» | typeDecl | type | body | expression => rfl
  obtain ⟨scopes, v⟩ := site
  cases v with
  | program => rw [inside, inside, h.declarations]
  | declaration | routine | «variable» | typeDecl | type | body | statement | expression =>
      rw [inside, inside, hnode]
      refine h.ofNode_eq (fun family node => ?_) (fun node => ?_) _
      · cases family <;> rfl
      · exact congrArg (fun es => (es.map Visit.expression).map (Site.mk scopes))
          (node.slots_spellOut chosen)

theorem top_eq : a'.top = a.top := by
  rw [top, top, h.declarations]

theorem below_iff {site inner : Site} : a'.Below site inner ↔ a.Below site inner := by
  constructor
  · intro hbelow
    induction hbelow with
    | here => exact .here _
    | inside hchild _ ih => exact .inside (h.inside_eq _ ▸ hchild) ih
  · intro hbelow
    induction hbelow with
    | here => exact .here _
    | inside hchild _ ih => exact .inside ((h.inside_eq _).symm ▸ hchild) ih

theorem below_top_iff {site : Site} : a'.Below a'.top site ↔ a.Below a.top site := by
  rw [h.top_eq, h.below_iff]

theorem hidden_iff {v : Visit} : a'.Hidden v ↔ a.Hidden v :=
  forall_congr' fun _ => imp_congr h.below_top_iff Iff.rfl

/-! ### Types -/

theorem exists_type {id : TypeId} {node' : TypeNode} (hget' : a'.get? id = some node') :
    ∃ node, a.get? id = some node ∧ node'.kind = node.kind := by
  obtain ⟨node, hget, hnode⟩ := h.exists_origin hget'
  exact ⟨node, hget, (TypeNode.mk.inj hnode).2⟩

/-- A type that names a declaration in the new tree does so in the first one. -/
theorem names {scopes : List (List Declaration)} {t : TypeId} {d : TypeDeclId}
    (hnames : a'.Names scopes t d) : a.Names scopes t d := by
  induction hnames with
  | named hget' hkind hname =>
      obtain ⟨node, hget, heq⟩ := h.exists_type hget'
      exact .named hget (heq.symm.trans hkind) ((h.innermost_eq _ _ _).symm.trans hname)
  | element hget' hkind _ ih =>
      obtain ⟨node, hget, heq⟩ := h.exists_type hget'
      exact .element hget (heq.symm.trans hkind) ih

theorem circleFree {scopes : List (List Declaration)} (hfree : a.CircleFree scopes) :
    a'.CircleFree scopes := by
  intro d hd hcircle
  refine hfree d hd (Relation.TransGen.mono (fun e f hleads => ?_) _ _ hcircle)
  obtain ⟨hmem, node', hget', hnames⟩ := hleads
  obtain ⟨node, hget, hnode⟩ := h.exists_origin hget'
  obtain ⟨-, -, htype⟩ := TypeDecl.mk.inj hnode
  exact ⟨hmem, node, hget, h.names (htype ▸ hnames)⟩

theorem has {v : Visit} (hhas : a.Has v) : a'.Has v := by
  obtain ⟨family, id, rfl⟩ := hhas.exists_of
  obtain ⟨node, hget⟩ := hhas.exists_get?
  obtain ⟨node', hget', -⟩ := h.exists_node hget
  exact has_of_get? hget'

theorem repeated_eq_nil {scope : List Declaration} (hhas : ∀ d ∈ scope, a.Has d.visit)
    (hnone : a.repeated scope = []) : a'.repeated scope = [] := by
  have hnodup := (repeated_eq_nil_iff hhas).1 hnone
  rw [← h.nameOf_eq] at hnodup
  exact (repeated_eq_nil_iff fun d hd => h.has (hhas d hd)).2 hnodup

end Arena.SpelledOut

/-! ### Where calls are made explicit -/

/-- A tree of which there is nothing to say, and a tree in which the names that become calls are spelled
out, and no others. -/
structure Arena.Explicit (chosen : Position → Bool) (a a' : Arena) (nodes nodes' : List Visit) : Prop
    extends a.SpelledOut chosen a' where
  tree : a.IsTree nodes
  tree' : a'.IsTree nodes'
  quiet : ∀ site, a.Below a.top site → a.Quiet site
  chosen_iff : ∀ (e : ExpressionId) (node : Expression) name target, a.get? e = some node →
    node.kind = .identifier name target → (chosen node.span.start = true ↔ ∃ r, a.CallAt e name r)

namespace Arena.Explicit

variable {nodes nodes' : List Visit} (h : a.Explicit chosen a' nodes nodes')

include h

/-- **A name that becomes a call** is an empty call in the new tree. -/
theorem exists_called {e : ExpressionId} {name : String} {r : RoutineId} (hat : a.CallAt e name r) :
    ∃ node node' : Expression, a.get? e = some node ∧ a'.get? e = some node' ∧
      Node.mapColumns noColumn .expression node' =
        Node.mapColumns noColumn .expression (.plain (.call name none []) node.span) := by
  have hcall := hat
  obtain ⟨-, -, hget, hkind, -, -⟩ := hat
  obtain ⟨node', hget', hnode⟩ := h.exists_node hget
  have hchosen := (h.chosen_iff _ _ _ _ hget hkind).2 ⟨r, hcall⟩
  rw [Node.spellOut, Expression.spellOut, h.tree.unlinked hget hkind] at hnode
  dsimp only at hnode
  rw [if_pos hchosen] at hnode
  exact ⟨_, node', hget, hget', hnode⟩

/-- **Every other node** is what it was, but for columns. -/
theorem exists_kept {family : Family} {id : NodeId family} {node : Node family} (hget : a.get? id = some node)
    (hkept : ∀ e name r, Visit.of id = .expression e → ¬ a.CallAt e name r) :
    ∃ node', a'.get? id = some node' ∧
      Node.mapColumns noColumn family node' = Node.mapColumns noColumn family node := by
  obtain ⟨node', hget', hnode⟩ := h.exists_node hget
  refine ⟨node', hget', hnode.trans ?_⟩
  cases family with
  | routine | «variable» | typeDecl | type | body | statement => rfl
  | expression =>
      rw [Node.spellOut, Expression.spellOut]
      split
      · rename_i name hkind
        rw [if_neg fun hchosen => ?_]
        obtain ⟨r, hat⟩ := (h.chosen_iff _ _ _ _ hget hkind).1 hchosen
        exact hkept id name r rfl hat
      · rfl

/-- The two sorts of expressions. -/
theorem called_or_kept {e : ExpressionId} {node' : Expression} (hget' : a'.get? e = some node') :
    (∃ name r, a.CallAt e name r ∧ node'.kind = .call name none []) ∨
      (∀ name r, ¬ a.CallAt e name r) ∧ ∃ node, a.get? e = some node ∧ node'.kind = node.kind := by
  by_cases hat : ∃ name r, a.CallAt e name r
  · obtain ⟨name, r, hat⟩ := hat
    obtain ⟨node, found, -, hfound, hnode⟩ := h.exists_called hat
    obtain rfl := Option.some.inj (hfound.symm.trans hget')
    exact Or.inl ⟨name, r, hat, (Expression.of_noColumn hnode).2.2⟩
  · have hkept : ∀ name r, ¬ a.CallAt e name r := fun name r hcall => hat ⟨name, r, hcall⟩
    obtain ⟨node, hget, -⟩ := h.exists_origin hget'
    obtain ⟨found, hfound, hnode⟩ := @exists_kept _ _ _ _ _ h _ e node hget fun e' name r heq => by
      cases heq
      exact hkept name r
    obtain rfl := Option.some.inj (hfound.symm.trans hget')
    exact Or.inr ⟨hkept, node, hget, (Expression.of_noColumn hnode).2.2⟩

/-- **Nothing is left to become a call.** -/
theorem not_callAt {e : ExpressionId} {name : String} {r : RoutineId} : ¬ a'.CallAt e name r := by
  rintro ⟨hbelow, hdistinct, hget', hkind', hvariable, hroutine⟩
  rcases h.called_or_kept hget' with ⟨_, _, -, hkind⟩ | ⟨hkept, node, hget, hkind⟩
  · nomatch hkind'.symm.trans hkind
  · rw [h.innermost_eq] at hvariable
    rw [h.routineNamed_eq] at hroutine
    exact hkept name r (.intro (h.below_top_iff.1 hbelow) (h.distinctScopes_iff.1 hdistinct) hget
      (hkind.symm.trans hkind') hvariable hroutine)

/-! ### Silence -/

/-- The name of a field stays a name. -/
theorem isName {e field left : ExpressionId} {node : Expression} (hget : a.get? e = some node)
    (hkind : node.kind = .binary .member left field) (hname : a.isName field = true) :
    a'.isName field = true := by
  have hfield : a.IsField field := ⟨e, node, left, hget, hkind⟩
  obtain ⟨found, name, target, hfound, hidentifier⟩ := isName_iff.1 hname
  obtain ⟨found', hfound', hnode⟩ := @exists_kept _ _ _ _ _ h _ field found hfound fun e' name r heq hat => by
    cases heq
    obtain ⟨hbelow, -⟩ := hat
    exact h.tree.hidden_of_isField hfield _ hbelow rfl
  exact isName_iff.2 ⟨found', name, target, hfound', (Expression.of_noColumn hnode).2.2.trans hidentifier⟩

/-- What is the name of a variable was one before. -/
theorem isVariable {scopes : List (List Declaration)} {e : ExpressionId}
    (hvariable : a'.isVariable scopes e = true) : a.isVariable scopes e = true := by
  rw [Arena.isVariable] at hvariable ⊢
  cases hget' : a'.get? e with
  | none =>
      rw [hget'] at hvariable
      cases hvariable
  | some node' =>
      rw [hget', Option.map_some] at hvariable
      rcases h.called_or_kept hget' with ⟨_, _, -, hkind⟩ | ⟨-, node, hget, hkind⟩
      · rw [hkind] at hvariable
        cases hvariable
      · rw [hget, Option.map_some, ← hkind]
        simpa only [h.innermost_eq] using hvariable

/-- There is as little to say in front of a site. -/
theorem ahead_eq_nil {site : Site} (hahead : a.ahead site = []) : a'.ahead site = [] := by
  refine h.ofNode_eq_nil hahead fun {family} id node node' hvisit hget hget' hnone => ?_
  cases family with
  | type =>
      obtain ⟨found, hfound, hkind'⟩ := h.exists_type hget'
      obtain rfl := Option.some.inj (hfound.symm.trans hget)
      rw [aheadNode] at hnone ⊢
      rw [hkind']
      cases hkind : found.kind with
      | named name target => simpa only [hkind, h.innermost_eq] using hnone
      | record fields =>
          simp only [hkind] at hnone ⊢
          refine h.repeated_eq_nil (fun d hd => ?_) hnone
          obtain ⟨x, hx, rfl⟩ := List.mem_map.1 hd
          refine h.tree.has_child hget ?_
          rw [Node.children, hkind]
          exact List.mem_map_of_mem hx
      | integer | real | boolean | array => rfl
  | expression =>
      rw [aheadNode] at hnone ⊢
      rcases h.called_or_kept hget' with ⟨_, _, -, hkind⟩ | ⟨-, found, hfound, hkind⟩
      · rw [hkind]
      · obtain rfl := Option.some.inj (hfound.symm.trans hget)
        rw [hkind]
        simpa only [h.innermost_eq, h.routineNamed_eq] using hnone
  | routine | «variable» | typeDecl | body | statement => rfl

/-- There is as little to say behind a site. -/
theorem behind_eq_nil {site : Site} (hbehind : a.behind site = []) : a'.behind site = [] := by
  refine h.ofNode_eq_nil hbehind fun {family} id node node' hvisit hget hget' hnone => ?_
  cases family with
  | statement =>
      obtain ⟨found, hfound, hnode⟩ := h.exists_origin hget'
      obtain rfl := Option.some.inj (hfound.symm.trans hget)
      have hkind' : node'.kind = found.kind := (Statement.mk.inj hnode).2
      rw [behindNode] at hnone ⊢
      rw [hkind']
      cases hkind : found.kind with
      | call callee =>
          simp only [hkind] at hnone ⊢
          refine if_neg fun hvariable => ?_
          rw [if_pos (h.isVariable hvariable)] at hnone
          cases hnone
      | assignment | whileLoop | forLoop | branch | returning => rfl
  | expression =>
      rw [behindNode] at hnone ⊢
      rcases h.called_or_kept hget' with ⟨_, _, ⟨-, -, -, -, -, hroutine⟩, hkind⟩ | ⟨-, found, hfound, hkind'⟩
      · rw [hkind]
        simp only [h.routineNamed_eq, hroutine]
      · obtain rfl := Option.some.inj (hfound.symm.trans hget)
        rw [hkind']
        cases hkind : found.kind with
        | call name target arguments => simpa only [hkind, h.routineNamed_eq] using hnone
        | binary operator left right =>
            cases operator with
            | member =>
                simp only [hkind] at hnone ⊢
                refine if_pos (h.isName hget hkind ?_)
                by_contra hname
                rw [if_neg hname] at hnone
                cases hnone
            | _ => rfl
        | unary | integer | real | boolean | identifier => rfl
  | routine | «variable» | typeDecl | type | body => rfl

theorem checked {site : Site} (hchecked : a.Checked site) : a'.Checked site := by
  obtain ⟨scopes, v⟩ := site
  cases v with
  | program => exact h.circleFree hchecked
  | body => exact h.circleFree hchecked
  | expression e =>
      intro node' left field hget' hkind'
      rcases h.called_or_kept hget' with ⟨_, _, -, hkind⟩ | ⟨-, node, hget, hkind⟩
      · nomatch hkind'.symm.trans hkind
      · have hmember := hkind.symm.trans hkind'
        exact isName_iff.1 (h.isName hget hmember (isName_iff.2 (hchecked node left field hget hmember)))
  | declaration | routine | «variable» | typeDecl | type | statement => trivial

/-- **There is as little to say of the new tree** as of the first one. -/
theorem quiet' {site : Site} (hbelow : a'.Below a'.top site) : a'.Quiet site := by
  have hquiet := h.quiet site (h.below_top_iff.1 hbelow)
  exact ⟨h.distinctScopes_iff.2 hquiet.distinct, h.checked hquiet.checked, h.ahead_eq_nil hquiet.ahead,
    h.behind_eq_nil hquiet.behind⟩

end Arena.Explicit

end ProcLang
