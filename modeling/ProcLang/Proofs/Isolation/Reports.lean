import ProcLang.Proofs.Isolation.Sites

/-!
# ProcLang.Proofs.Isolation.Reports

**The same is said outside of the body.** The accounts of two trees that are the same outside of a body
agree on all nodes outside: they make the same remarks about nodes at the same places, in the same order
(`Twins.ahead`, `Twins.behind`, `Twins.circleHeads`). What is said besides is about nodes in the two bodies.

A body that declares a name twice is passed over. Then nothing is said of what is in it but for the
repetitions themselves, and nothing else changes.
-/

namespace ProcLang

open Arena

/-! ### Remarks side by side -/

/-- The cause without the lines that it mentions. -/
def Cause.withoutLine : Cause → Cause
  | .redeclaration name _ => .redeclaration name 0
  | cause => cause

/-- The same remark about nodes at the same place, lines apart. -/
structure SameRemark (a b : Arena) (x y : BodyId) (r r' : Remark) : Prop where
  place : SamePlace a b x y r.visit r'.visit
  cause : r.cause.withoutLine = r'.cause.withoutLine

/-- A node belongs to the contents of a body. -/
def Arena.InBody (a : Arena) (x : BodyId) (v : Visit) : Prop :=
  ∃ w ∈ a.children (.body x), a.Reaches w v

theorem Arena.InBody.child {a : Arena} {x : BodyId} {v w : Visit} (h : a.InBody x v)
    (hw : w ∈ a.children v) : a.InBody x w := by
  obtain ⟨u, hu, hreaches⟩ := h
  exact ⟨u, hu, hreaches.tail hw⟩

/-- Remarks that are the same outside of the two bodies, in the same order. -/
inductive Agree (a b : Arena) (x y : BodyId) : List Remark → List Remark → Prop
  | nil : Agree a b x y [] []
  | both {r r' : Remark} {rs rs' : List Remark} (hsame : SameRemark a b x y r r')
      (h : Agree a b x y rs rs') : Agree a b x y (r :: rs) (r' :: rs')
  | left {r : Remark} {rs rs' : List Remark} (hin : a.InBody x r.visit) (h : Agree a b x y rs rs') :
      Agree a b x y (r :: rs) rs'
  | right {r' : Remark} {rs rs' : List Remark} (hin : b.InBody y r'.visit) (h : Agree a b x y rs rs') :
      Agree a b x y rs (r' :: rs')

namespace Agree

variable {a b : Arena} {x y : BodyId} {rs rs' ts ts' : List Remark}

theorem append (h : Agree a b x y rs rs') (h' : Agree a b x y ts ts') :
    Agree a b x y (rs ++ ts) (rs' ++ ts') := by
  induction h with
  | nil => exact h'
  | both hsame _ ih => exact .both hsame ih
  | left hin _ ih => exact .left hin ih
  | right hin _ ih => exact .right hin ih

theorem of_same (h : List.Forall₂ (SameRemark a b x y) rs rs') : Agree a b x y rs rs' := by
  induction h with
  | nil => exact .nil
  | cons hfirst _ ih => exact .both hfirst ih

/-- What is said of the contents of the two bodies does not count. -/
theorem of_inBody (h : ∀ r ∈ rs, a.InBody x r.visit) (h' : ∀ r ∈ rs', b.InBody y r.visit) :
    Agree a b x y rs rs' := by
  induction rs with
  | nil =>
      induction rs' with
      | nil => exact .nil
      | cons r rest ih =>
          exact .right (h' r List.mem_cons_self) (ih fun r hr => h' r (List.mem_cons_of_mem _ hr))
  | cons r rest ih =>
      exact .left (h r List.mem_cons_self) (ih fun r hr => h r (List.mem_cons_of_mem _ hr))

end Agree

theorem exists_right_of_forall₂ {α β : Type} {R : α → β → Prop} {xs : List α} {ys : List β}
    (h : List.Forall₂ R xs ys) {p : α} (hp : p ∈ xs) : ∃ q ∈ ys, R p q := by
  obtain ⟨q, hq, hrel⟩ := exists_of_forall₂ h.flip hp
  exact ⟨q, hq, hrel⟩

/-! ### Repetitions -/

/-- Entries of the same name, declared at the same place. -/
structure SameEntry (a b : Arena) (x y : BodyId) (entry entry' : ScopeEntry) : Prop where
  name : entry.name = entry'.name
  place : SamePlace a b x y entry.declaration.visit entry'.declaration.visit

section

variable {a b : Arena} {x y : BodyId}

theorem lookup_rel {seen seen' : List (String × Nat)}
    (h : List.Forall₂ (fun p p' => p.1 = p'.1) seen seen') (name : String) :
    Option.Rel (fun _ _ => True) (seen.lookup name) (seen'.lookup name) := by
  induction h with
  | nil => exact .none
  | @cons p p' ps ps' hfirst _ ih =>
      obtain ⟨other, line⟩ := p
      obtain ⟨other', line'⟩ := p'
      obtain rfl : other = other' := hfirst
      rw [List.lookup_cons, List.lookup_cons]
      split
      · exact .some trivial
      · exact ih

theorem sameRemark_repeatedAfter {entries entries' : List ScopeEntry}
    (h : List.Forall₂ (SameEntry a b x y) entries entries') {seen seen' : List (String × Nat)}
    (hseen : List.Forall₂ (fun p p' => p.1 = p'.1) seen seen') :
    List.Forall₂ (SameRemark a b x y) (repeatedAfter seen entries) (repeatedAfter seen' entries') := by
  induction h generalizing seen seen' with
  | nil => exact .nil
  | @cons entry entry' rest rest' hfirst _ ih =>
      have hlookup := lookup_rel hseen entry.name
      rw [repeatedAfter, repeatedAfter, ← hfirst.name]
      generalize seen.lookup entry.name = found at hlookup ⊢
      generalize seen'.lookup entry.name = found' at hlookup ⊢
      cases hlookup with
      | none => exact ih (.cons rfl hseen)
      | some => exact .cons ⟨hfirst.place, rfl⟩ (ih hseen)

theorem mem_repeatedAfter {entries : List ScopeEntry} {seen : List (String × Nat)} {r : Remark}
    (h : r ∈ repeatedAfter seen entries) : ∃ entry ∈ entries, r.visit = entry.declaration.visit := by
  induction entries generalizing seen with
  | nil => nomatch h
  | cons entry rest ih =>
      have hrest : ∀ {seen}, r ∈ repeatedAfter seen rest →
          ∃ entry' ∈ entry :: rest, r.visit = entry'.declaration.visit := by
        intro seen hr
        obtain ⟨entry', hentry', hvisit⟩ := ih hr
        exact ⟨entry', List.mem_cons_of_mem _ hentry', hvisit⟩
      rw [repeatedAfter] at h
      split at h
      · rcases List.mem_cons.1 h with rfl | h
        · exact ⟨entry, List.mem_cons_self, rfl⟩
        · exact hrest h
      · exact hrest h

theorem repeatedAfter_append (entries others : List ScopeEntry) (seen : List (String × Nat)) :
    ∃ seen', repeatedAfter seen (entries ++ others) =
      repeatedAfter seen entries ++ repeatedAfter seen' others := by
  induction entries generalizing seen with
  | nil => exact ⟨seen, rfl⟩
  | cons entry rest ih =>
      rw [List.cons_append, repeatedAfter, repeatedAfter]
      cases seen.lookup entry.name with
      | some line =>
          obtain ⟨seen', heq⟩ := ih seen
          exact ⟨seen', congrArg (List.cons _) heq⟩
      | none => exact ih _

theorem mem_entries {scope : List Declaration} {entry : ScopeEntry} (h : entry ∈ a.entries scope) :
    entry.declaration ∈ scope := by
  obtain ⟨d, hd, heq⟩ := List.mem_filterMap.1 h
  split at heq
  · cases heq
    exact hd
  · nomatch heq

/-- What a scope repeats is what its first declarations repeat, and some of the others. -/
theorem exists_repeated_append (scope others : List Declaration) : ∃ rest,
    a.repeated (scope ++ others) = a.repeated scope ++ rest ∧
      ∀ r ∈ rest, ∃ d ∈ others, r.visit = d.visit := by
  obtain ⟨seen, heq⟩ := repeatedAfter_append (a.entries scope) (a.entries others) []
  refine ⟨repeatedAfter seen (a.entries others), ?_, fun r hr => ?_⟩
  · rw [Arena.repeated, entries, List.filterMap_append]
    exact heq
  · obtain ⟨entry, hentry, hvisit⟩ := mem_repeatedAfter hr
    exact ⟨entry.declaration, mem_entries hentry, hvisit⟩

theorem mem_repeated {scope : List Declaration} {r : Remark} (h : r ∈ a.repeated scope) :
    ∃ d ∈ scope, r.visit = d.visit := by
  obtain ⟨entry, hentry, hvisit⟩ := mem_repeatedAfter h
  exact ⟨entry.declaration, mem_entries hentry, hvisit⟩

end

namespace Twins

variable {a b : Arena} {x y : BodyId} {nodes nodes' : List Visit} (h : Twins a b x y nodes nodes')

include h

theorem sameEntries {scope scope' : List Declaration} (hscope : SameDeclarations a b x y scope scope') :
    List.Forall₂ (SameEntry a b x y) (a.entries scope) (b.entries scope') := by
  induction hscope with
  | nil => exact .nil
  | cons hfirst _ ih =>
      obtain ⟨name, span, span', hd, hd'⟩ := h.declarationName hfirst
      rw [entries, entries, List.filterMap_cons, List.filterMap_cons, hd, hd']
      exact .cons ⟨rfl, hfirst⟩ ih

/-- **Scopes at the same place** repeat the same names. -/
theorem repeated {scope scope' : List Declaration} (hscope : SameDeclarations a b x y scope scope') :
    List.Forall₂ (SameRemark a b x y) (a.repeated scope) (b.repeated scope') :=
  sameRemark_repeatedAfter (h.sameEntries hscope) .nil

theorem repeated_eq_nil {scope scope' : List Declaration}
    (hscope : SameDeclarations a b x y scope scope') : a.repeated scope = [] ↔ b.repeated scope' = [] := by
  have hrepeated := h.repeated hscope
  constructor
  · intro hnil
    rwa [hnil, List.forall₂_nil_left_iff] at hrepeated
  · intro hnil
    rwa [hnil, List.forall₂_nil_right_iff] at hrepeated

/-! ### Single nodes -/

/-- Names are at the same places. -/
theorem isName {e e' : ExpressionId} (hplace : SamePlace a b x y (.expression e) (.expression e')) :
    a.isName e = b.isName e' := by
  obtain ⟨id', node, node', hw, hget, hget', hform⟩ := h.exists_node e hplace (by simp [Visit.of])
  cases hw
  rw [Arena.isName, Arena.isName, hget, hget']
  rw [Node.form, Node.form] at hform
  dsimp only [Option.map_some]
  cases hkind : node.kind <;> cases hkind' : node'.kind <;> rw [hkind, hkind'] at hform <;>
    first | rfl | cases hform

theorem isVariable {scopes scopes' : List (List Declaration)}
    (hscopes : SameScopes a b x y scopes scopes') {e e' : ExpressionId}
    (hplace : SamePlace a b x y (.expression e) (.expression e')) :
    a.isVariable scopes e = b.isVariable scopes' e' := by
  obtain ⟨id', node, node', hw, hget, hget', hform⟩ := h.exists_node e hplace (by simp [Visit.of])
  cases hw
  rw [Arena.isVariable, Arena.isVariable, hget, hget']
  rw [Node.form, Node.form] at hform
  dsimp only [Option.map_some]
  cases hkind : node.kind with
  | identifier name target =>
      rw [hkind] at hform
      obtain ⟨target', hkind'⟩ := ExpressionKind.exists_identifier hform.symm
      rw [hkind']
      have hrel := h.innermost_variable name hscopes
      dsimp only
      generalize a.innermost Declaration.variable? name scopes = found at hrel ⊢
      generalize b.innermost Declaration.variable? name scopes' = found' at hrel ⊢
      cases hrel <;> rfl
  | unary | binary | integer | real | boolean | call =>
      rw [hkind] at hform
      cases hkind' : node'.kind <;> rw [hkind'] at hform
      -- a name on the other side only
      cases hform

variable {scopes scopes' : List (List Declaration)} (hscopes : SameScopes a b x y scopes scopes')

include hscopes

/-- **The same is said of types** in front of what is inside. -/
theorem ahead_type {id id' : TypeId} {node node' : TypeNode} (hget : a.get? id = some node)
    (hget' : b.get? id' = some node') (hplace : SamePlace a b x y (Visit.of id) (Visit.of id')) :
    List.Forall₂ (SameRemark a b x y) (a.aheadNode ⟨scopes, Visit.of id⟩ .type node)
      (b.aheadNode ⟨scopes', Visit.of id'⟩ .type node') := by
  have hform := h.same.form _ _ hplace (by simp [Visit.of])
  rw [form_of_get? hget, form_of_get? hget', List.singleton_inj, Node.form, Node.form] at hform
  rw [aheadNode, aheadNode]
  cases hkind : node.kind with
  | named name target =>
      rw [hkind] at hform
      obtain ⟨target', hkind'⟩ := TypeKind.exists_named hform.symm
      rw [hkind']
      have hrel := h.innermost_type name hscopes
      dsimp only
      generalize a.innermost Declaration.type? name scopes = found at hrel ⊢
      generalize b.innermost Declaration.type? name scopes' = found' at hrel ⊢
      cases hrel with
      | none => exact .cons ⟨hplace, rfl⟩ .nil
      | some => exact .nil
  | record fields =>
      rw [hkind] at hform
      obtain ⟨fields', hkind'⟩ := TypeKind.exists_record hform.symm
      have hchildren := h.children hplace (by simp [Visit.of])
      rw [children_of_get? hget, children_of_get? hget', Node.children, Node.children, hkind,
        hkind'] at hchildren
      rw [hkind']
      exact h.repeated (forall₂_map_iff.2 (forall₂_map_iff.1 hchildren))
  | integer | real | boolean | array =>
      rw [hkind] at hform
      cases hkind' : node'.kind <;> rw [hkind'] at hform <;> first | exact .nil | cases hform

/-- **The same is said of expressions** in front of what is inside. -/
theorem ahead_expression {id id' : ExpressionId} {node node' : Expression}
    (hget : a.get? id = some node) (hget' : b.get? id' = some node')
    (hplace : SamePlace a b x y (Visit.of id) (Visit.of id')) :
    List.Forall₂ (SameRemark a b x y) (a.aheadNode ⟨scopes, Visit.of id⟩ .expression node)
      (b.aheadNode ⟨scopes', Visit.of id'⟩ .expression node') := by
  have hform := h.same.form _ _ hplace (by simp [Visit.of])
  rw [form_of_get? hget, form_of_get? hget', List.singleton_inj, Node.form, Node.form] at hform
  rw [aheadNode, aheadNode]
  cases hkind : node.kind with
  | identifier name target =>
      rw [hkind] at hform
      obtain ⟨target', hkind'⟩ := ExpressionKind.exists_identifier hform.symm
      rw [hkind']
      have hrel := h.innermost_variable name hscopes
      have hroutine := h.routineNamed name
      dsimp only
      generalize a.innermost Declaration.variable? name scopes = found at hrel ⊢
      generalize b.innermost Declaration.variable? name scopes' = found' at hrel ⊢
      generalize a.routineNamed name = r at hroutine ⊢
      generalize b.routineNamed name = r' at hroutine ⊢
      cases hrel with
      | some => exact .nil
      | none =>
          cases hroutine with
          | none => exact .cons ⟨hplace, rfl⟩ .nil
          | some => exact .nil
  | unary | binary | integer | real | boolean | call =>
      rw [hkind] at hform
      cases hkind' : node'.kind <;> rw [hkind'] at hform <;> first | exact .nil | cases hform

/-- **The same is said of statements** behind what is inside. -/
theorem behind_statement {id id' : StatementId} {node node' : Statement}
    (hget : a.get? id = some node) (hget' : b.get? id' = some node')
    (hplace : SamePlace a b x y (Visit.of id) (Visit.of id')) :
    List.Forall₂ (SameRemark a b x y) (a.behindNode ⟨scopes, Visit.of id⟩ .statement node)
      (b.behindNode ⟨scopes', Visit.of id'⟩ .statement node') := by
  obtain ⟨hform, hexpressions, -, -⟩ := h.statement_parts hget hget' hplace
  rw [behindNode, behindNode]
  cases hkind : node.kind with
  | call callee =>
      rw [hkind] at hform
      obtain ⟨callee', hkind'⟩ := StatementKind.exists_call hform.symm
      rw [hkind, hkind'] at hexpressions
      rw [hkind']
      dsimp only
      rw [h.isVariable hscopes (List.forall₂_cons.1 hexpressions).1]
      split
      · exact .cons ⟨hplace, rfl⟩ .nil
      · exact .nil
  | assignment | whileLoop | forLoop | branch | returning =>
      rw [hkind] at hform
      cases hkind' : node'.kind <;> rw [hkind'] at hform <;> first | exact .nil | cases hform

omit hscopes in
/-- **The same is said of expressions** behind what is inside. -/
theorem behind_expression {id id' : ExpressionId} {node node' : Expression}
    (hget : a.get? id = some node) (hget' : b.get? id' = some node')
    (hplace : SamePlace a b x y (Visit.of id) (Visit.of id')) :
    List.Forall₂ (SameRemark a b x y) (a.behindNode ⟨scopes, Visit.of id⟩ .expression node)
      (b.behindNode ⟨scopes', Visit.of id'⟩ .expression node') := by
  obtain ⟨hform, hoperands⟩ := h.expression_parts hget hget' hplace
  rw [behindNode, behindNode]
  cases hkind : node.kind with
  | call name target arguments =>
      rw [hkind] at hform
      obtain ⟨target', arguments', hkind'⟩ := ExpressionKind.exists_call hform.symm
      rw [hkind']
      have hroutine := h.routineNamed name
      dsimp only
      generalize a.routineNamed name = r at hroutine ⊢
      generalize b.routineNamed name = r' at hroutine ⊢
      cases hroutine with
      | none => exact .cons ⟨hplace, rfl⟩ .nil
      | some => exact .nil
  | binary operator left f =>
      rw [hkind] at hform
      obtain ⟨left', f', hkind'⟩ := ExpressionKind.exists_binary hform.symm
      rw [hkind, hkind'] at hoperands
      rw [hkind']
      have hfield := (List.forall₂_cons.1 (List.forall₂_cons.1 hoperands).2).1
      cases operator with
      | member =>
          dsimp only
          rw [h.isName hfield]
          split
          · exact .nil
          · exact .cons ⟨hfield, rfl⟩ .nil
      | _ => exact .nil
  | unary | integer | real | boolean | identifier =>
      rw [hkind] at hform
      cases hkind' : node'.kind <;> rw [hkind'] at hform <;> first | exact .nil | cases hform

/-- **The same is said of nodes** in front of what is inside. -/
theorem ahead {v w : Visit} (hplace : SamePlace a b x y v w) (hv : v ≠ .body x) :
    List.Forall₂ (SameRemark a b x y) (a.ahead ⟨scopes, v⟩) (b.ahead ⟨scopes', w⟩) := by
  rcases hplace.mem h.left with rfl | hmem
  · obtain rfl := h.same.program_eq hplace
    exact .nil
  · obtain ⟨family, id, rfl⟩ := (h.left.spans.has_of_mem hmem).exists_of
    obtain ⟨id', node, node', rfl, hget, hget', -⟩ := h.exists_node id hplace hv
    rw [Arena.ahead, Arena.ahead, ofNode_of_get? hget, ofNode_of_get? hget']
    cases family with
    | type => exact h.ahead_type hscopes hget hget' hplace
    | expression => exact h.ahead_expression hscopes hget hget' hplace
    | routine | «variable» | typeDecl | body | statement => exact .nil

/-- **The same is said of nodes** behind what is inside. -/
theorem behind {v w : Visit} (hplace : SamePlace a b x y v w) (hv : v ≠ .body x) :
    List.Forall₂ (SameRemark a b x y) (a.behind ⟨scopes, v⟩) (b.behind ⟨scopes', w⟩) := by
  rcases hplace.mem h.left with rfl | hmem
  · obtain rfl := h.same.program_eq hplace
    exact .nil
  · obtain ⟨family, id, rfl⟩ := (h.left.spans.has_of_mem hmem).exists_of
    obtain ⟨id', node, node', rfl, hget, hget', -⟩ := h.exists_node id hplace hv
    rw [Arena.behind, Arena.behind, ofNode_of_get? hget, ofNode_of_get? hget']
    cases family with
    | statement => exact h.behind_statement hscopes hget hget' hplace
    | expression => exact h.behind_expression hget hget' hplace
    | routine | «variable» | typeDecl | body | type => exact .nil

/-! ### Circles -/

/-- What a type names is declared at the same place. -/
theorem names {t : TypeId} {e : TypeDeclId} (hnames : a.Names scopes t e) {t' : TypeId}
    (hplace : SamePlace a b x y (.type t) (.type t')) :
    ∃ e', SamePlace a b x y (.typeDecl e) (.typeDecl e') ∧ b.Names scopes' t' e' := by
  induction hnames generalizing t' with
  | @named t node name target e hget hkind hname =>
      obtain ⟨id', node', hw, hget', hform⟩ := h.same.exists_node hget hplace (by simp [Visit.of])
      cases hw
      rw [Node.form, Node.form, hkind] at hform
      obtain ⟨target', hkind'⟩ := TypeKind.exists_named hform.symm
      have hrel := h.innermost_type name hscopes
      rw [hname] at hrel
      obtain ⟨e', hfound, he'⟩ := exists_of_rel_some hrel
      exact ⟨e', he', .named hget' hkind' hfound⟩
  | @element t node length element e hget hkind _ ih =>
      obtain ⟨id', node', hw, hget', hform⟩ := h.same.exists_node hget hplace (by simp [Visit.of])
      cases hw
      have hchildren := h.children hplace (by simp)
      rw [Visit.type_eq t, Visit.type_eq t',
        children_of_get? hget, children_of_get? hget', Node.children, Node.children] at hchildren
      rw [Node.form, Node.form, hkind] at hform
      obtain ⟨length', element', hkind', hsized⟩ := TypeKind.exists_array hform.symm
      rw [hkind, hkind'] at hchildren
      obtain ⟨-, hlast⟩ := forall₂_append_inv hchildren (by simp [length_toList hsized])
      obtain ⟨e', he', hnames'⟩ := ih (List.forall₂_cons.1 hlast).1
      exact ⟨e', he', .element hget' hkind' hnames'⟩

omit h in
theorem headD : SameDeclarations a b x y (scopes.headD []) (scopes'.headD []) := by
  cases hscopes with
  | nil => exact .nil
  | cons hfirst _ => exact hfirst

/-- What a type declaration leads to is declared at the same place. -/
theorem leadsInside {d e d' : TypeDeclId} (hleads : a.LeadsInside scopes d e)
    (hplace : SamePlace a b x y (.typeDecl d) (.typeDecl d')) :
    ∃ e', SamePlace a b x y (.typeDecl e) (.typeDecl e') ∧ b.LeadsInside scopes' d' e' := by
  obtain ⟨hmem, node, hget, hnames⟩ := hleads
  obtain ⟨id', node', hw, hget', -⟩ := h.same.exists_node hget hplace nofun
  cases hw
  have hchildren := h.children hplace nofun
  rw [Visit.typeDecl_eq d, Visit.typeDecl_eq d',
    children_of_get? hget, children_of_get? hget', Node.children, Node.children] at hchildren
  obtain ⟨e', he', hnames'⟩ := h.names hscopes hnames (List.forall₂_cons.1 hchildren).1
  obtain ⟨other, hother, hsame⟩ := exists_right_of_forall₂ (headD hscopes) hmem
  cases h.sameSort hsame with
  | type hsame =>
      cases hsame.unique h.left he'
      exact ⟨_, he', hother, node', hget', hnames'⟩

theorem transGen_leadsInside {d e d' e' : TypeDeclId}
    (hpath : Relation.TransGen (a.LeadsInside scopes) d e)
    (hd : SamePlace a b x y (.typeDecl d) (.typeDecl d'))
    (he : SamePlace a b x y (.typeDecl e) (.typeDecl e')) :
    Relation.TransGen (b.LeadsInside scopes') d' e' := by
  have hexists : ∃ f, SamePlace a b x y (.typeDecl e) (.typeDecl f) ∧
      Relation.TransGen (b.LeadsInside scopes') d' f := by
    clear he
    induction hpath with
    | single hleads =>
        obtain ⟨f, hf, hleads'⟩ := h.leadsInside hscopes hleads hd
        exact ⟨f, hf, .single hleads'⟩
    | tail _ hleads ih =>
        obtain ⟨f, hf, hpath'⟩ := ih
        obtain ⟨g, hg, hleads'⟩ := h.leadsInside hscopes hleads hf
        exact ⟨g, hg, hpath'.tail hleads'⟩
  obtain ⟨f, hf, hpath'⟩ := hexists
  cases he.unique h.left hf
  exact hpath'

omit hscopes in
/-- What is on a circle with a member of a list is so at the same place. -/
theorem exists_transGen {scopes scopes' : List (List Declaration)}
    (hscopes : SameScopes a b x y scopes scopes') {d d' : TypeDeclId} {seen seen' : List TypeDeclId}
    (hseen : List.Forall₂ (fun d d' => SamePlace a b x y (.typeDecl d) (.typeDecl d')) seen seen')
    (hd : SamePlace a b x y (.typeDecl d) (.typeDecl d'))
    (hpath : ∃ e ∈ seen, Relation.TransGen (a.LeadsInside scopes) d e) :
    ∃ e ∈ seen', Relation.TransGen (b.LeadsInside scopes') d' e := by
  obtain ⟨e, he, hpath⟩ := hpath
  obtain ⟨e', he', hplace⟩ := exists_right_of_forall₂ hseen he
  exact ⟨e', he', h.transGen_leadsInside hscopes hpath hd hplace⟩

omit h hscopes in
theorem sameTypes_symm {ds ds' : List TypeDeclId}
    (hds : List.Forall₂ (fun d d' => SamePlace a b x y (.typeDecl d) (.typeDecl d')) ds ds') :
    List.Forall₂ (fun d d' => SamePlace b a y x (.typeDecl d) (.typeDecl d')) ds' ds :=
  (hds.imp fun _ _ hplace => hplace.symm).flip

/-- **The same circles** are found in scopes at the same place. -/
theorem circleHeads {seen seen' ds ds' heads heads' : List TypeDeclId}
    (hseen : List.Forall₂ (fun d d' => SamePlace a b x y (.typeDecl d) (.typeDecl d')) seen seen')
    (hds : List.Forall₂ (fun d d' => SamePlace a b x y (.typeDecl d) (.typeDecl d')) ds ds')
    (hheads : CircleHeads (a.LeadsInside scopes) seen ds heads)
    (hheads' : CircleHeads (b.LeadsInside scopes') seen' ds' heads') :
    List.Forall₂ (fun d d' => SamePlace a b x y (.typeDecl d) (.typeDecl d')) heads heads' := by
  have hback := SameScopes.symm hscopes
  induction hheads generalizing seen' ds' heads' with
  | nil =>
      cases hds
      cases hheads'
      exact .nil
  | @head seen rest heads d hcircle hnew _ ih =>
      cases hds with
      | @cons _ d' _ rest' hfirst hrest =>
          have hcircle' := h.transGen_leadsInside hscopes hcircle hfirst hfirst
          cases hheads' with
          | head _ _ hheads' => exact .cons hfirst (ih (.cons hfirst hseen) hrest hheads')
          | pass hpass _ =>
              obtain ⟨e, he, hpath⟩ := h.symm.exists_transGen hback (sameTypes_symm hseen)
                (hfirst.symm) (hpass hcircle')
              exact absurd hpath (hnew e he)
  | @pass seen rest heads d hpass _ ih =>
      cases hds with
      | @cons _ d' _ rest' hfirst hrest =>
          cases hheads' with
          | head hcircle' hnew _ =>
              have hback' := hfirst.symm
              obtain ⟨e, he, hpath⟩ := h.exists_transGen hscopes hseen hfirst
                (hpass (h.symm.transGen_leadsInside hback hcircle' hback' hback'))
              exact absurd hpath (hnew e he)
          | pass _ hheads' => exact ih (.cons hfirst hseen) hrest hheads'

end Twins

end ProcLang
