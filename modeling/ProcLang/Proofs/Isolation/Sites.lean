import ProcLang.Proofs.Isolation.Places

/-!
# ProcLang.Proofs.Isolation.Sites

**The same scopes around the same places.** In two trees that are the same outside of a body, sites at
the same place lie in scopes that declare the same names, and what a name stands for is declared at the
same place (`Twins.innermost`). Below sites of that sort are such sites again (`Twins.inside`); the two
bodies themselves are the only ones whose scopes differ.
-/

namespace ProcLang

open Arena

/-- Two trees that are the same outside of a body. -/
structure Twins (a b : Arena) (x y : BodyId) (nodes nodes' : List Visit) : Prop where
  left : a.IsTree nodes
  right : b.IsTree nodes'
  same : SameOutside a b x y

namespace Arena

/-- Declarations at the same places, in the same order. -/
def SameDeclarations (a b : Arena) (x y : BodyId) : List Declaration → List Declaration → Prop :=
  List.Forall₂ fun d d' => SamePlace a b x y d.visit d'.visit

/-- Scopes with declarations at the same places. -/
def SameScopes (a b : Arena) (x y : BodyId) : List (List Declaration) → List (List Declaration) → Prop :=
  List.Forall₂ (SameDeclarations a b x y)

/-- The same scopes, seen from the other side. -/
theorem SameScopes.symm {a b : Arena} {x y : BodyId} {scopes scopes' : List (List Declaration)}
    (h : SameScopes a b x y scopes scopes') : SameScopes b a y x scopes' scopes :=
  (h.imp fun _ _ hscope => (hscope.imp fun _ _ hplace => hplace.symm).flip).flip

/-- Declarations of one sort at the same place. -/
inductive SameSort (a b : Arena) (x y : BodyId) : Declaration → Declaration → Prop
  | routine {id id' : RoutineId} (h : SamePlace a b x y (.routine id) (.routine id')) :
      SameSort a b x y (.routine id) (.routine id')
  | variable {id id' : VariableId} (h : SamePlace a b x y (.variable id) (.variable id')) :
      SameSort a b x y (.variable id) (.variable id')
  | type {id id' : TypeDeclId} (h : SamePlace a b x y (.typeDecl id) (.typeDecl id')) :
      SameSort a b x y (.type id) (.type id')

/-- Sites at the same place outside of the body, or those of the two bodies. -/
inductive SameSite (a b : Arena) (x y : BodyId) : Site → Site → Prop
  | outside {scopes scopes' : List (List Declaration)} {v w : Visit}
      (hscopes : SameScopes a b x y scopes scopes') (hplace : SamePlace a b x y v w) (hv : v ≠ .body x) :
      SameSite a b x y ⟨scopes, v⟩ ⟨scopes', w⟩
  | hole {scopes scopes' : List (List Declaration)} {seeds seeds' : List VariableId}
      (hscopes : SameScopes a b x y scopes scopes')
      (hseeds : List.Forall₂ (fun p p' => SamePlace a b x y (.variable p) (.variable p')) seeds seeds') :
      SameSite a b x y (a.bodySite seeds scopes x) (b.bodySite seeds' scopes' y)

end Arena

/-! ### Lists side by side -/

section

variable {α β γ δ : Type}

theorem forall₂_append_inv {R : α → β → Prop} {xs ys : List α} {xs' ys' : List β}
    (h : List.Forall₂ R (xs ++ ys) (xs' ++ ys')) (hlength : xs.length = xs'.length) :
    List.Forall₂ R xs xs' ∧ List.Forall₂ R ys ys' := by
  induction xs generalizing xs' with
  | nil =>
      obtain rfl := List.length_eq_zero_iff.1 hlength.symm
      exact ⟨.nil, h⟩
  | cons x xs ih =>
      cases xs' with
      | nil => nomatch hlength
      | cons x' xs' =>
          obtain ⟨hfirst, hrest⟩ := List.forall₂_cons.1 h
          obtain ⟨hxs, hys⟩ := ih hrest (Nat.succ.inj hlength)
          exact ⟨.cons hfirst hxs, hys⟩

theorem forall₂_map_iff {R : γ → δ → Prop} {f : α → γ} {g : β → δ} {xs : List α} {ys : List β} :
    List.Forall₂ R (xs.map f) (ys.map g) ↔ List.Forall₂ (fun p q => R (f p) (g q)) xs ys := by
  rw [List.forall₂_map_left_iff, List.forall₂_map_right_iff]

theorem eq_none_of_rel {R : α → β → Prop} {q : Option β} (h : Option.Rel R none q) :
    q = none := by
  cases h
  rfl

theorem exists_of_rel_some {R : α → β → Prop} {p : α} {q : Option β}
    (h : Option.Rel R (some p) q) : ∃ r, q = some r ∧ R p r := by
  cases h with
  | some hrel => exact ⟨_, rfl, hrel⟩

/-- Searches side by side find what is related. -/
theorem findSome?_rel {R : α → β → Prop} {S : γ → δ → Prop} {f : α → Option γ} {g : β → Option δ}
    {xs : List α} {ys : List β} (h : List.Forall₂ R xs ys)
    (hfg : ∀ p q, R p q → Option.Rel S (f p) (g q)) :
    Option.Rel S (xs.findSome? f) (ys.findSome? g) := by
  induction h with
  | nil => exact .none
  | @cons p q ps qs hfirst _ ih =>
      rw [List.findSome?_cons, List.findSome?_cons]
      have hrel := hfg p q hfirst
      generalize f p = found at hrel ⊢
      generalize g q = found' at hrel ⊢
      cases hrel with
      | none => exact ih
      | some hz => exact .some hz

end

namespace Twins

variable {a b : Arena} {x y : BodyId} {nodes nodes' : List Visit} (h : Twins a b x y nodes nodes')

include h

/-- The two bodies are at the same place, and nothing else is there. -/
theorem hole {v w : Visit} (hplace : SamePlace a b x y v w) : v = .body x ↔ w = .body y := by
  constructor
  · rintro rfl
    exact hplace.unique h.left h.same.place
  · rintro rfl
    exact hplace.symm.unique h.right h.same.place.symm

theorem symm : Twins b a y x nodes' nodes := ⟨h.right, h.left, h.same.symm fun _ _ => h.hole⟩

/-- The nodes below two nodes at the same place outside are at the same places. -/
theorem children {v w : Visit} (hplace : SamePlace a b x y v w) (hv : v ≠ .body x) :
    List.Forall₂ (SamePlace a b x y) (a.children v) (b.children w) :=
  h.same.children h.left hplace hv fun hw => hv ((h.hole hplace).2 hw)

/-! ### Declarations -/

/-- At the place of a node stands one of its form. -/
theorem exists_node {family : Family} (id : NodeId family) {w : Visit}
    (hplace : SamePlace a b x y (Visit.of id) w) (hid : Visit.of id ≠ .body x) :
    ∃ (id' : NodeId family) (node node' : Node family), w = Visit.of id' ∧ a.get? id = some node ∧
      b.get? id' = some node' ∧ Node.form family node = Node.form family node' := by
  have hmem : Visit.of id ∈ nodes := (hplace.mem h.left).resolve_left (by cases family <;> nofun)
  obtain ⟨node, hget⟩ := (h.left.spans.has_of_mem hmem).exists_get?
  obtain ⟨id', node', hw, hget', hform⟩ := h.same.exists_node hget hplace hid
  exact ⟨id', node, node', hw, hget, hget', hform⟩

/-- Declarations at the same place are of one sort. -/
theorem sameSort {d d' : Declaration} (hplace : SamePlace a b x y d.visit d'.visit) :
    SameSort a b x y d d' := by
  cases d with
  | routine id =>
      obtain ⟨id', -, -, hw, -⟩ := h.exists_node id hplace nofun
      cases d' with
      | routine => exact .routine hplace
      | «variable» | type => nomatch hw
  | «variable» id =>
      obtain ⟨id', -, -, hw, -⟩ := h.exists_node id hplace nofun
      cases d' with
      | «variable» => exact .variable hplace
      | routine | type => nomatch hw
  | type id =>
      obtain ⟨id', -, -, hw, -⟩ := h.exists_node id hplace nofun
      cases d' with
      | type => exact .type hplace
      | routine | «variable» => nomatch hw

/-- **Declarations at the same place** declare the same name. -/
theorem declarationName {d d' : Declaration} (hplace : SamePlace a b x y d.visit d'.visit) :
    ∃ name span span', a.declarationName d = .ok (name, span) ∧
      b.declarationName d' = .ok (name, span') := by
  cases h.sameSort hplace with
  | @routine id _ hplace =>
      obtain ⟨id', node, node', hw, hget, hget', hform⟩ := h.exists_node id hplace (by simp [Visit.of])
      cases hw
      obtain ⟨hname, -, -⟩ := Form.routine.inj hform
      exact ⟨node.name, Routine.span node, Routine.span node', by
        simp [Arena.declarationName, Arena.get, hget],
        by simp [Arena.declarationName, Arena.get, hget', hname]⟩
  | @«variable» id _ hplace =>
      obtain ⟨id', node, node', hw, hget, hget', hform⟩ := h.exists_node id hplace (by simp [Visit.of])
      cases hw
      obtain ⟨hname, -, -⟩ := Form.variable.inj hform
      exact ⟨node.name, Variable.span node, Variable.span node', by
        simp [Arena.declarationName, Arena.get, hget],
        by simp [Arena.declarationName, Arena.get, hget', hname]⟩
  | @type id _ hplace =>
      obtain ⟨id', node, node', hw, hget, hget', hform⟩ := h.exists_node id hplace (by simp [Visit.of])
      cases hw
      have hname := Form.typeDecl.inj hform
      exact ⟨node.name, TypeDecl.span node, TypeDecl.span node', by
        simp [Arena.declarationName, Arena.get, hget],
        by simp [Arena.declarationName, Arena.get, hget', hname]⟩

theorem nameOf {d d' : Declaration} (hplace : SamePlace a b x y d.visit d'.visit) :
    a.nameOf d = b.nameOf d' := by
  obtain ⟨name, span, span', hd, hd'⟩ := h.declarationName hplace
  rw [Arena.nameOf, Arena.nameOf, hd, hd']

theorem map_nameOf {scope scope' : List Declaration} (hscope : SameDeclarations a b x y scope scope') :
    scope.map a.nameOf = scope'.map b.nameOf := by
  induction hscope with
  | nil => rfl
  | cons hfirst _ ih => rw [List.map_cons, List.map_cons, h.nameOf hfirst, ih]

/-- Scopes at the same places declare distinct names, or both do not. -/
theorem distinctScopes {scopes scopes' : List (List Declaration)}
    (hscopes : SameScopes a b x y scopes scopes') :
    a.DistinctScopes scopes ↔ b.DistinctScopes scopes' := by
  induction hscopes with
  | nil => exact ⟨fun _ => nofun, fun _ => nofun⟩
  | @cons scope scope' rest rest' hfirst _ ih =>
      rw [DistinctScopes, DistinctScopes, List.forall_mem_cons, List.forall_mem_cons,
        h.map_nameOf hfirst]
      exact and_congr_right fun _ => ih

/-! ### Lookups -/

/-- **What a name stands for** is declared at the same place. -/
theorem innermost {family : Family} {select : Declaration → Option (NodeId family)}
    (hselect : ∀ d d', SamePlace a b x y d.visit d'.visit →
      Option.Rel (fun id id' => SamePlace a b x y (Visit.of id) (Visit.of id')) (select d) (select d'))
    (name : String) {scopes scopes' : List (List Declaration)}
    (hscopes : SameScopes a b x y scopes scopes') :
    Option.Rel (fun id id' => SamePlace a b x y (Visit.of id) (Visit.of id'))
      (a.innermost select name scopes) (b.innermost select name scopes') := by
  refine findSome?_rel hscopes fun scope scope' hscope => findSome?_rel hscope fun d d' hplace => ?_
  rw [h.nameOf hplace]
  split
  · exact hselect d d' hplace
  · exact .none

theorem innermost_variable (name : String) {scopes scopes' : List (List Declaration)}
    (hscopes : SameScopes a b x y scopes scopes') :
    Option.Rel (fun id id' => SamePlace a b x y (.variable id) (.variable id'))
      (a.innermost Declaration.variable? name scopes) (b.innermost Declaration.variable? name scopes') :=
  h.innermost (fun _ _ hplace => by
    cases h.sameSort hplace with
    | «variable» hplace => exact .some hplace
    | routine | type => exact .none) name hscopes

theorem innermost_type (name : String) {scopes scopes' : List (List Declaration)}
    (hscopes : SameScopes a b x y scopes scopes') :
    Option.Rel (fun id id' => SamePlace a b x y (.typeDecl id) (.typeDecl id'))
      (a.innermost Declaration.type? name scopes) (b.innermost Declaration.type? name scopes') :=
  h.innermost (fun _ _ hplace => by
    cases h.sameSort hplace with
    | type hplace => exact .some hplace
    | routine | «variable» => exact .none) name hscopes

/-- The declarations of the programs are at the same places. -/
theorem sameScopes_top : SameScopes a b x y a.top.scopes b.top.scopes := by
  refine .cons ?_ .nil
  have hchildren := h.children .program nofun
  exact forall₂_map_iff.1 hchildren

theorem routineNamed (name : String) :
    Option.Rel (fun id id' => SamePlace a b x y (.routine id) (.routine id'))
      (a.routineNamed name) (b.routineNamed name) :=
  h.innermost (fun _ _ hplace => by
    cases h.sameSort hplace with
    | routine hplace => exact .some hplace
    | type | «variable» => exact .none) name h.sameScopes_top

/-! ### Parts of nodes -/

/-- The parts of routines at the same place. -/
theorem routine_parts {id id' : RoutineId} {node node' : Routine} (hget : a.get? id = some node)
    (hget' : b.get? id' = some node') (hplace : SamePlace a b x y (.routine id) (.routine id')) :
    node.name = node'.name ∧
      List.Forall₂ (fun p p' => SamePlace a b x y (.variable p) (.variable p')) node.parameters
        node'.parameters ∧
      List.Forall₂ (SamePlace a b x y) (node.returnType.toList.map Visit.type)
        (node'.returnType.toList.map Visit.type) ∧
      SamePlace a b x y (.body node.body) (.body node'.body) := by
  have hchildren := h.children hplace nofun
  have hform := h.same.form _ _ hplace nofun
  rw [Visit.routine_eq id, Visit.routine_eq id']
    at hchildren hform
  rw [children_of_get? hget, children_of_get? hget', Node.children, Node.children] at hchildren
  rw [form_of_get? hget, form_of_get? hget', List.singleton_inj] at hform
  obtain ⟨hname, hparameters, hreturns⟩ := Form.routine.inj hform
  obtain ⟨hchildren, hbody⟩ := forall₂_append_inv hchildren (by
    simp [hparameters, length_toList hreturns])
  obtain ⟨hvariables, htypes⟩ := forall₂_append_inv hchildren (by simp [hparameters])
  exact ⟨hname, forall₂_map_iff.1 hvariables, htypes,
    (List.forall₂_cons.1 hbody).1⟩

end Twins

theorem StatementKind.lengths_of_form {kind kind' : StatementKind} (h : kind.form = kind'.form) :
    kind.expressions.length = kind'.expressions.length ∧
      kind.counter?.toList.length = kind'.counter?.toList.length ∧
      kind.bodies.length = kind'.bodies.length := by
  cases kind <;> cases kind' <;>
    simp_all [StatementKind.form, StatementKind.expressions, StatementKind.counter?,
      StatementKind.bodies] <;> exact length_toList h

namespace Twins

variable {a b : Arena} {x y : BodyId} {nodes nodes' : List Visit} (h : Twins a b x y nodes nodes')

include h

/-- The parts of statements at the same place. -/
theorem statement_parts {id id' : StatementId} {node node' : Statement} (hget : a.get? id = some node)
    (hget' : b.get? id' = some node') (hplace : SamePlace a b x y (.statement id) (.statement id')) :
    node.kind.form = node'.kind.form ∧
      List.Forall₂ (SamePlace a b x y) (node.kind.expressions.map Visit.expression)
        (node'.kind.expressions.map Visit.expression) ∧
      List.Forall₂ (fun p p' => SamePlace a b x y (.variable p) (.variable p')) node.kind.counter?.toList
        node'.kind.counter?.toList ∧
      List.Forall₂ (fun i i' => SamePlace a b x y (.body i) (.body i')) node.kind.bodies
        node'.kind.bodies := by
  have hchildren := h.children hplace nofun
  have hform := h.same.form _ _ hplace nofun
  rw [Visit.statement_eq id, Visit.statement_eq id']
    at hchildren hform
  rw [children_of_get? hget, children_of_get? hget', Node.children, Node.children] at hchildren
  rw [form_of_get? hget, form_of_get? hget', List.singleton_inj] at hform
  obtain ⟨hexpressions, hcounter, hbodies⟩ := StatementKind.lengths_of_form hform
  obtain ⟨hchildren, hthird⟩ := forall₂_append_inv hchildren (by simp [hexpressions, hcounter])
  obtain ⟨hfirst, hsecond⟩ := forall₂_append_inv hchildren (by simp [hexpressions])
  exact ⟨hform, hfirst, forall₂_map_iff.1 hsecond, forall₂_map_iff.1 hthird⟩

/-- The parts of bodies at the same place outside. -/
theorem body_parts {id id' : BodyId} {node node' : Body} (hget : a.get? id = some node)
    (hget' : b.get? id' = some node') (hplace : SamePlace a b x y (.body id) (.body id'))
    (hid : id ≠ x) :
    SameDeclarations a b x y node.declarations node'.declarations ∧
      List.Forall₂ (SamePlace a b x y) (node.statements.map Visit.statement)
        (node'.statements.map Visit.statement) := by
  have hne : Visit.body id ≠ .body x := fun heq => hid (Visit.body.inj heq)
  have hchildren := h.children hplace hne
  have hform := h.same.form _ _ hplace hne
  rw [Visit.body_eq id, Visit.body_eq id']
    at hchildren hform
  rw [children_of_get? hget, children_of_get? hget', Node.children, Node.children] at hchildren
  rw [form_of_get? hget, form_of_get? hget', List.singleton_inj] at hform
  obtain ⟨hdeclarations, hstatements⟩ := Form.body.inj hform
  obtain ⟨hfirst, hsecond⟩ := forall₂_append_inv hchildren (by simp [hdeclarations])
  exact ⟨forall₂_map_iff.1 hfirst, hsecond⟩

end Twins

theorem ExpressionKind.NotMember.of_form {kind kind' : ExpressionKind} (hmember : kind.NotMember)
    (h : kind.form = kind'.form) : kind'.NotMember := by
  intro left f hkind
  rw [hkind] at h
  obtain ⟨left', f', hkind'⟩ := exists_binary h
  exact hmember left' f' hkind'

namespace Twins

variable {a b : Arena} {x y : BodyId} {nodes nodes' : List Visit} (h : Twins a b x y nodes nodes')

include h

/-- The operands of expressions at the same place. -/
theorem expression_parts {id id' : ExpressionId} {node node' : Expression}
    (hget : a.get? id = some node) (hget' : b.get? id' = some node')
    (hplace : SamePlace a b x y (.expression id) (.expression id')) :
    node.kind.form = node'.kind.form ∧
      List.Forall₂ (fun e e' => SamePlace a b x y (.expression e) (.expression e')) node.kind.operands
        node'.kind.operands := by
  have hchildren := h.children hplace nofun
  have hform := h.same.form _ _ hplace nofun
  rw [Visit.expression_eq id, Visit.expression_eq id']
    at hchildren hform
  rw [children_of_get? hget, children_of_get? hget', Node.children, Node.children] at hchildren
  rw [form_of_get? hget, form_of_get? hget', List.singleton_inj] at hform
  exact ⟨hform, forall₂_map_iff.1 hchildren⟩

/-- The slots of expressions at the same place. -/
theorem expression_slots {id id' : ExpressionId} {node node' : Expression}
    (hget : a.get? id = some node) (hget' : b.get? id' = some node')
    (hplace : SamePlace a b x y (.expression id) (.expression id')) :
    List.Forall₂ (fun e e' => SamePlace a b x y (.expression e) (.expression e'))
      (Node.slots .expression node) (Node.slots .expression node') := by
  obtain ⟨hform, hoperands⟩ := h.expression_parts hget hget' hplace
  by_cases hmember : node.kind.NotMember
  · rw [slots_of_notMember hmember, slots_of_notMember (hmember.of_form hform)]
    exact hoperands
  · obtain ⟨left, f, hkind⟩ := exists_member hmember
    rw [hkind] at hform
    obtain ⟨left', f', hkind'⟩ := ExpressionKind.exists_binary hform.symm
    rw [hkind, hkind'] at hoperands
    rw [Node.slots, Node.slots, hkind, hkind']
    exact .cons (List.forall₂_cons.1 hoperands).1 .nil

/-! ### Sites below sites -/

omit h in
theorem sameSites {scopes scopes' : List (List Declaration)} (hscopes : SameScopes a b x y scopes scopes')
    {vs ws : List Visit} (hplaces : List.Forall₂ (SamePlace a b x y) vs ws)
    (hbody : ∀ v ∈ vs, ∀ id, v ≠ .body id) :
    List.Forall₂ (SameSite a b x y) (vs.map (Site.mk scopes)) (ws.map (Site.mk scopes')) := by
  induction hplaces with
  | nil => exact .nil
  | cons hfirst _ ih =>
      exact .cons (.outside hscopes hfirst (hbody _ List.mem_cons_self x))
        (ih fun v hv => hbody v (List.mem_cons_of_mem _ hv))

/-- The sites of bodies at the same place. -/
theorem sameSite_body {scopes scopes' : List (List Declaration)}
    (hscopes : SameScopes a b x y scopes scopes') {seeds seeds' : List VariableId}
    (hseeds : List.Forall₂ (fun p p' => SamePlace a b x y (.variable p) (.variable p')) seeds seeds')
    {id id' : BodyId} (hplace : SamePlace a b x y (.body id) (.body id')) :
    SameSite a b x y (a.bodySite seeds scopes id) (b.bodySite seeds' scopes' id') := by
  by_cases hid : id = x
  · subst hid
    cases (h.hole hplace).1 rfl
    exact .hole hscopes hseeds
  · have hne : Visit.body id ≠ .body x := fun heq => hid (Visit.body.inj heq)
    obtain ⟨other, node, node', hw, hget, hget', -⟩ := h.exists_node id hplace hne
    cases hw
    obtain ⟨hdeclarations, -⟩ := h.body_parts hget hget' hplace hid
    have hvariables : SameDeclarations a b x y (seeds.map Declaration.variable)
        (seeds'.map Declaration.variable) := forall₂_map_iff.2 hseeds
    rw [bodySite_of_get? hget, bodySite_of_get? hget']
    exact .outside (.cons (List.rel_append hvariables hdeclarations) hscopes) hplace hne

/-- **Below sites at the same place** are such sites again. -/
theorem inside {scopes scopes' : List (List Declaration)} (hscopes : SameScopes a b x y scopes scopes')
    {v w : Visit} (hplace : SamePlace a b x y v w) (hv : v ≠ .body x) :
    List.Forall₂ (SameSite a b x y) (a.inside ⟨scopes, v⟩) (b.inside ⟨scopes', w⟩) := by
  have hchildren := h.children hplace hv
  rcases hplace.mem h.left with rfl | hmem
  · obtain rfl := h.same.program_eq hplace
    refine sameSites hscopes hchildren fun v hv id heq => ?_
    obtain ⟨d, -, rfl⟩ := List.mem_map.1 hv
    cases d <;> cases heq
  · obtain ⟨family, id, rfl⟩ := (h.left.spans.has_of_mem hmem).exists_of
    obtain ⟨id', node, node', rfl, hget, hget', -⟩ := h.exists_node id hplace hv
    rw [inside_of_get? hget, inside_of_get? hget']
    rw [children_of_get? hget, children_of_get? hget'] at hchildren
    cases family with
    | routine =>
        obtain ⟨-, hparameters, hreturn, hbody⟩ := h.routine_parts hget hget' hplace
        refine List.rel_append (sameSites hscopes (List.rel_append (forall₂_map_iff.2 hparameters) hreturn)
          ?_) (.cons (h.sameSite_body hscopes hparameters hbody) .nil)
        intro v hv id heq
        subst heq
        simp at hv
    | statement =>
        obtain ⟨-, hexpressions, hcounter, hbodies⟩ := h.statement_parts hget hget' hplace
        refine List.rel_append (sameSites hscopes hexpressions (by simp)) (forall₂_map_iff.2 ?_)
        exact hbodies.imp fun i i' hbody => h.sameSite_body hscopes hcounter hbody
    | expression =>
        exact sameSites hscopes (forall₂_map_iff.2 (h.expression_slots hget hget' hplace)) (by simp)
    | «variable» =>
        refine sameSites hscopes hchildren ?_
        simp [Node.children, or_imp, forall_and]
    | typeDecl =>
        refine sameSites hscopes hchildren ?_
        simp [Node.children]
    | type =>
        refine sameSites hscopes hchildren ?_
        rw [Node.children]
        split <;> simp [or_imp, forall_and]
    | body =>
        refine sameSites hscopes hchildren ?_
        intro v hv id' heq
        subst heq
        rcases List.mem_append.1 hv with hv | hv
        · obtain ⟨d, -, hd⟩ := List.mem_map.1 hv
          cases d <;> cases hd
        · obtain ⟨s, -, hs⟩ := List.mem_map.1 hv
          cases hs

end Twins

end ProcLang
