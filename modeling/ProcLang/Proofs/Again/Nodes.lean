import ProcLang.Proofs.Again.Expressions
import ProcLang.Proofs.Again.Scopes

/-!
# ProcLang.Proofs.Again.Nodes

**Name resolution goes on at each node a second time.** A named type is linked as before or reported
(`visitsAgain_named`), the fields of a record are compared again, and so is a statement that is a bare
name (`visitsAgain_callStatement`). Routines and loops open the scopes of their bodies. With the
expressions these are all sorts of nodes (`proceedsAgain`).
-/

namespace ProcLang

open Arena WalkM

variable {a b : Arena} {nodes : List Visit} {outcome : PassOutcome}
  {below : Visit → NamesM (Option ExpressionId)} {scopes : List (List Declaration)}

section

variable (htree : a.IsTree nodes) (h : a.Settles nodes outcome)

include htree h

/-! ### Variables and types -/

/-- Of a variable nothing is said. -/
theorem visitsAgain_variable {id : VariableId}
    (hsite : a.Revisited outcome.arena ⟨scopes, .variable id⟩ (.variable id))
    (hready : ReadyAgain a outcome.arena below (.variable id)) :
    VisitsAgain a outcome.arena scopes (resolver below) (.variable id) := by
  obtain ⟨node, hget⟩ := exists_of_has id (htree.spans.has_of_mem (hsite.mem htree nofun))
  have hchildren :=
    revisited_same htree h hget hsite.below hsite.distinct rfl (by simp [Node.children])
  exact visitsIn_silent htree h hget hready hchildren hsite rfl rfl rfl

/-- Of a type declaration nothing is said. -/
theorem visitsAgain_typeDecl {id : TypeDeclId}
    (hsite : a.Revisited outcome.arena ⟨scopes, .typeDecl id⟩ (.typeDecl id))
    (hready : ReadyAgain a outcome.arena below (.typeDecl id)) :
    VisitsAgain a outcome.arena scopes (resolver below) (.typeDecl id) := by
  obtain ⟨node, hget⟩ := exists_of_has id (htree.spans.has_of_mem (hsite.mem htree nofun))
  have hchildren :=
    revisited_same htree h hget hsite.below hsite.distinct rfl (by simp [Node.children])
  exact visitsIn_silent htree h hget hready hchildren hsite rfl rfl rfl

/-- **A named type** is linked or reported as before. -/
theorem visitsAgain_named {id : TypeId} {node : TypeNode} {name : String} {target : Option TypeDeclId}
    (hsite : a.Revisited outcome.arena ⟨scopes, .type id⟩ (.type id)) (hget : a.get? id = some node)
    (hkind : node.kind = .named name target) :
    VisitsAgain a outcome.arena scopes (resolver below) (.type id) := by
  intro s hs
  have hinside : a.insideNode scopes .type node = [] := by
    rw [show a.insideNode scopes .type node = (Node.children .type node).map (Site.mk scopes) from rfl,
      Node.children, hkind]
    rfl
  have hfinish : ∀ s', Told a [] [] (a.aheadNode ⟨scopes, Visit.of id⟩ .type node) s s' →
      Retells a outcome.arena (.type id) s s' := fun s' htold =>
    .of_recount htree hsite (.of_node hget rfl htold (.of_nil hinside s') (.refl s'))
  obtain ⟨linked, hlinked, hlink⟩ := ((h.settled _ hsite.below).resolved hsite.distinct).type id node
    name target rfl hget hkind
  have hread := hs.arena.symm ▸ hlinked
  cases hlink with
  | @linked t hname hlink =>
      have hkind' : linked.kind = .named name (some t) := by rw [hlink]
      refine ⟨s, ?_, hs, hfinish s (.silent (by simp [aheadNode, hkind, hname]) s)⟩
      refine runs_bind.2 ⟨(), s, runs_node_bind.2 ⟨linked, hread, ?_⟩, runs_pure.2 ⟨rfl, rfl⟩⟩
      rw [hkind']
      refine runs_read_bind.2 ?_
      rw [lookup_typeNames, hname]
      refine runs_update.2 ⟨linked, hread, (hs.put hlinked ?_).symm⟩
      rw [hkind', TypeKind.setTarget, ← hkind']
  | undeclared hname hlink =>
      subst hlink
      refine ⟨s.reported (.undeclaredType name) linked.span.start, ?_, hs.reported _ _, hfinish _ ?_⟩
      · refine runs_bind.2 ⟨(), _, runs_node_bind.2 ⟨linked, hread, ?_⟩, runs_pure.2 ⟨rfl, rfl⟩⟩
        rw [hkind]
        refine runs_read_bind.2 ?_
        rw [lookup_typeNames, hname]
        exact runs_node_bind.2 ⟨linked, hread, runs_report.2 rfl⟩
      · rw [show a.aheadNode ⟨scopes, Visit.of id⟩ .type linked =
            [⟨Visit.of id, .undeclaredType name⟩] by
          simp [aheadNode, hkind, hname, Visit.of]]
        exact .single hget _ s

/-- What stands right below a type is visited again. -/
theorem revisited_type {id : TypeId} {node : TypeNode}
    (hsite : a.Revisited outcome.arena ⟨scopes, .type id⟩ (.type id)) (hget : a.get? id = some node) :
    List.Forall₂ (a.Revisited outcome.arena) (a.inside ⟨scopes, .type id⟩)
      (outcome.arena.children (.type id)) := by
  refine revisited_same htree h hget hsite.below hsite.distinct rfl fun body => ?_
  rw [Node.children]
  split <;> simp

/-- **A record**: its fields are compared again, and then visited. -/
theorem visitsAgain_record {id : TypeId} {node node' : TypeNode} {fields : List VariableId}
    (hsite : a.Revisited outcome.arena ⟨scopes, .type id⟩ (.type id)) (hget : a.get? id = some node)
    (hkind : node.kind = .record fields) (hget' : outcome.arena.get? id = some node')
    (hkind' : node'.kind = .record fields) (hready : ReadyAgain a outcome.arena below (.type id)) :
    VisitsAgain a outcome.arena scopes (resolver below) (.type id) := by
  intro s hs
  have hhas : ∀ x ∈ fields, a.Has (.variable x) := fun x hx => htree.has_child hget (by
    rw [Node.children, hkind]
    exact List.mem_map_of_mem hx)
  have hevolves : Evolves a a s.arena := hs.arena.symm ▸ h.evolves
  obtain ⟨s₁, hcheck, hremarks⟩ := exists_runs_checkFields (a := a) (a.scopeOf scopes) fields
    fun x hx => hevolves.has (hhas x hx)
  obtain ⟨-, -, htold⟩ := checkFields_told [] [] hevolves hhas hcheck
  obtain ⟨s', hwalk, hs', hrecount⟩ :=
    retelling_walk h hget hready (revisited_type htree h hsite hget) (hs.remarks hremarks)
  have hahead : a.aheadNode ⟨scopes, Visit.of id⟩ .type node =
      a.repeated (fields.map Declaration.variable) := by
    rw [aheadNode, hkind]
  refine ⟨s', ?_, hs', .of_recount htree hsite
    (.of_node hget rfl (hahead ▸ htold) hrecount (.refl s'))⟩
  refine runs_bind.2 ⟨(), s', runs_node_bind.2 ⟨node', hs.arena.symm ▸ hget', ?_⟩,
    runs_pure.2 ⟨rfl, rfl⟩⟩
  rw [hkind']
  exact runs_bind.2 ⟨(), s₁, hcheck, hwalk⟩

/-- **A type is visited again.** -/
theorem visitsAgain_type {id : TypeId}
    (hsite : a.Revisited outcome.arena ⟨scopes, .type id⟩ (.type id))
    (hready : ReadyAgain a outcome.arena below (.type id)) :
    VisitsAgain a outcome.arena scopes (resolver below) (.type id) := by
  obtain ⟨node, hget⟩ := exists_of_has id (htree.spans.has_of_mem (hsite.mem htree nofun))
  obtain ⟨node', hget', hchanges⟩ := h.evolves.changed .type id node hget
  -- where nothing is said, it is enough that the parts are visited
  have hwalk : a.aheadNode ⟨scopes, Visit.of id⟩ .type node = [] →
      (∀ s s' : WalkState Routines, s.arena = outcome.arena →
        Runs (walkType below id) (a.scopeOf scopes) s () s' →
        Runs (resolveTypeNode below id) (a.scopeOf scopes) s () s') →
      VisitsAgain a outcome.arena scopes (resolver below) (.type id) := by
    intro hahead hresolve s hs
    obtain ⟨s', hrun, hs', hrecount⟩ :=
      retelling_walk h hget hready (revisited_type htree h hsite hget) hs
    exact ⟨s', runs_bind.2 ⟨(), s', hresolve s s' hs.arena hrun, runs_pure.2 ⟨rfl, rfl⟩⟩, hs',
      .of_recount htree hsite (.of_node hget rfl (.silent hahead s) hrecount (.refl s'))⟩
  rcases hchanges.type_cases with hsame | ⟨name, target, target', hkind, hkind'⟩ |
    ⟨l, l', element, hkind, hkind'⟩
  · cases hkind : node.kind with
    | named name target => exact visitsAgain_named htree h hsite hget hkind
    | record fields =>
        exact visitsAgain_record htree h hsite hget hkind hget' (hsame.trans hkind) hready
    | integer | real | boolean | array =>
        refine hwalk (by rw [aheadNode, hkind]) fun s s' hs hrun => ?_
        refine runs_node_bind.2 ⟨node', hs.symm ▸ hget', ?_⟩
        rw [hsame, hkind]
        exact hrun
  · exact visitsAgain_named htree h hsite hget hkind
  · refine hwalk (by rw [aheadNode, hkind]) fun s s' hs hrun => ?_
    refine runs_node_bind.2 ⟨node', hs.symm ▸ hget', ?_⟩
    rw [hkind']
    exact hrun

/-! ### Routines -/

/-- **A routine is visited again**: the parameters and the result type, and then the body in the scope
that the parameters open. -/
theorem visitsAgain_routine {id : RoutineId}
    (hsite : a.Revisited outcome.arena ⟨scopes, .routine id⟩ (.routine id))
    (hready : ReadyAgain a outcome.arena below (.routine id)) :
    VisitsAgain a outcome.arena scopes (resolver below) (.routine id) := by
  intro s hs
  obtain ⟨node, hget⟩ := exists_of_has id (htree.spans.has_of_mem (hsite.mem htree nofun))
  obtain ⟨node', hget', hchanges⟩ := h.evolves.changed .routine id node hget
  obtain rfl := hchanges.routine_eq
  have hinside : a.inside ⟨scopes, .routine id⟩ = a.insideNode scopes .routine node' :=
    inside_of_get? hget
  have hchild : ∀ w ∈ Node.children .routine node', w ∈ outcome.arena.children (.routine id) := by
    rw [Visit.routine_eq id, children_of_get? hget']
    exact fun _ hw => hw
  have hvariable : ∀ x ∈ node'.parameters, Visit.variable x ∈
      node'.parameters.map Visit.variable ++ node'.returnType.toList.map Visit.type := fun x hx =>
    List.mem_append_left _ (List.mem_map_of_mem hx)
  have hresult : ∀ t ∈ node'.returnType.toList, Visit.type t ∈
      node'.parameters.map Visit.variable ++ node'.returnType.toList.map Visit.type := fun t ht =>
    List.mem_append_right _ (List.mem_map_of_mem ht)
  have hbody : a.bodySite node'.parameters scopes node'.body ∈ a.inside ⟨scopes, .routine id⟩ := by
    rw [hinside]
    exact List.mem_append_right _ List.mem_cons_self
  -- the three parts, each from the state that the one before left
  obtain ⟨s₁, hrun₁, hs₁, hfirst⟩ := retelling_visitEach htree (f := Visit.variable) hsite.below
    hsite.distinct
    (fun x hx => by rw [hinside]; exact List.mem_append_left _ (List.mem_map_of_mem (hvariable x hx)))
    nofun nofun hready (fun x hx => .single (hchild _ (List.mem_append_left _ (hvariable x hx)))) hs
  obtain ⟨s₂, hrun₂, hs₂, hsecond⟩ := retelling_visitEach htree (f := Visit.type) hsite.below
    hsite.distinct
    (fun t ht => by rw [hinside]; exact List.mem_append_left _ (List.mem_map_of_mem (hresult t ht)))
    nofun nofun hready (fun t ht => .single (hchild _ (List.mem_append_left _ (hresult t ht)))) hs₁
  obtain ⟨s₃, hrun₃, hs₃, hlast⟩ := retelling_resolveBody htree h (hsite.below.tail hbody)
    hsite.distinct hready (.single (hchild _ (List.mem_append_right _ List.mem_cons_self))) hs₂
  rw [← visitOptional_eq] at hrun₂
  have hparts : a.insideNode scopes .routine node' =
      ((node'.parameters.map fun x => ⟨scopes, .variable x⟩) ++
        node'.returnType.toList.map fun t => ⟨scopes, .type t⟩) ++
        [a.bodySite node'.parameters scopes node'.body] := by
    simp [insideNode, Function.comp_def]
  refine ⟨s₃, ?_, hs₃, .of_recount htree hsite (.of_node hget rfl (.refl s) ?_ (.refl s₃))⟩
  · refine runs_bind.2 ⟨(), s₃, runs_node_bind.2 ⟨node', hs.arena.symm ▸ hget', ?_⟩,
      runs_pure.2 ⟨rfl, rfl⟩⟩
    exact runs_bind.2 ⟨(), s₁, hrun₁, runs_bind.2 ⟨(), s₂, hrun₂, hrun₃⟩⟩
  · rw [hparts]
    exact (hfirst.trans hsecond).trans hlast

/-! ### Statements -/

/-- The expressions of a statement have their turns. -/
theorem retelling_statementExpressions {id : StatementId} {node : Statement}
    (hsite : a.Revisited outcome.arena ⟨scopes, .statement id⟩ (.statement id))
    (hget : a.get? id = some node) (hready : ReadyAgain a outcome.arena below (.statement id))
    {s : WalkState Routines} (hs : a.Rests outcome.arena s) :
    Retelling a outcome.arena (walkStatementExpressions below id) (a.scopeOf scopes)
      (node.kind.expressions.map fun e => ⟨scopes, .expression e⟩) s := by
  obtain ⟨node', hget', hchanges⟩ := h.evolves.changed .statement id node hget
  have hslots := revisited_slots htree h hsite.below hsite.distinct fun e he => by
    rw [Visit.statement_eq id, inside_of_get? hget]
    rw [Visit.statement_eq id, slots_of_get? hget] at he
    exact mem_insideNode_of_slot he
  rw [Visit.statement_eq id, slots_of_get? hget, slots_of_get? hget'] at hslots
  have hvisits := visitsIn_of_revisited hready hslots (fun site hmem => by
    obtain ⟨e, -, rfl⟩ := List.mem_map.1 hmem
    rfl) fun w hw => .single (by
      rw [Visit.statement_eq id, children_of_get? hget']
      exact List.mem_append_left _ (List.mem_append_left _ hw))
  refine .of_turns hslots (.node_bind (hs.arena.symm ▸ hget') ?_)
  exact ReadyIn.slots (fun e he => hvisits _ (List.mem_map_of_mem he)) hs

/-- **A call statement**: it is reported again if it is the name of a variable. -/
theorem visitsAgain_callStatement {id : StatementId} {node : Statement} {callee : ExpressionId}
    (hsite : a.Revisited outcome.arena ⟨scopes, .statement id⟩ (.statement id))
    (hget : a.get? id = some node) (hkind : node.kind = .call callee)
    (hready : ReadyAgain a outcome.arena below (.statement id)) :
    VisitsAgain a outcome.arena scopes (resolver below) (.statement id) := by
  intro s hs
  obtain ⟨node', hget', hchanges⟩ := h.evolves.changed .statement id node hget
  obtain ⟨e', hkind'⟩ := hchanges.exists_callee hkind
  obtain ⟨s₁, hwalk, hs₁, hrecount⟩ := retelling_statementExpressions htree h hsite hget hready hs
  -- the callee may be a call by now, so what it stands for decides
  have hslots := ((h.settled _ hsite.below).resolved hsite.distinct).slots
  rw [Visit.statement_eq id, slots_of_get? hget, slots_of_get? hget',
    Node.slots, Node.slots, hkind, hkind'] at hslots
  obtain ⟨hstands, -⟩ := List.forall₂_cons.1 hslots
  have hread := hs₁.arena.symm ▸ hget'
  obtain ⟨s', hcheck, hremarks⟩ := exists_runs_checkCallStatement (a := a) (c := a.scopeOf scopes)
    hread fun e he => by
      rw [hkind'] at he
      obtain rfl := List.mem_singleton.1 he
      exact hs₁.arena.symm ▸ hstands.has h.evolves
  have hinside : a.insideNode scopes .statement node =
      node.kind.expressions.map fun e => ⟨scopes, .expression e⟩ := by
    rw [insideNode, hkind]
    rfl
  have htold : Told a scopes [] (a.behindNode ⟨scopes, Visit.of id⟩ .statement node) s₁ s' :=
    checkCallStatement_told htree (hs₁.arena.symm ▸ h.evolves) hget hkind hread hchanges.span_eq hkind'
      (hs₁.arena.symm ▸ hstands) hcheck
  refine ⟨s', ?_, hs₁.remarks hremarks, .of_recount htree hsite (.of_node hget rfl (.refl s)
    (hinside ▸ hrecount) (htold.mono_nil hremarks.arena))⟩
  refine runs_bind.2 ⟨(), s', runs_node_bind.2 ⟨node', hs.arena.symm ▸ hget', ?_⟩,
    runs_pure.2 ⟨rfl, rfl⟩⟩
  rw [hkind']
  exact runs_bind.2 ⟨(), s₁, hwalk, hcheck⟩

/-- **A loop with a counter**: its bounds are visited, and then its body in the scope that the counter
opens. -/
theorem visitsAgain_forLoop {id : StatementId} {node : Statement} {counter : VariableId}
    {first last : ExpressionId} {reverse : Bool} {body : BodyId}
    (hsite : a.Revisited outcome.arena ⟨scopes, .statement id⟩ (.statement id))
    (hget : a.get? id = some node) (hkind : node.kind = .forLoop counter first last reverse body)
    (hready : ReadyAgain a outcome.arena below (.statement id)) :
    VisitsAgain a outcome.arena scopes (resolver below) (.statement id) := by
  intro s hs
  obtain ⟨node', hget', hchanges⟩ := h.evolves.changed .statement id node hget
  obtain ⟨hcounter, hbodies⟩ := hchanges.statement_eq
  have hinside : a.insideNode scopes .statement node =
      (node.kind.expressions.map fun e => ⟨scopes, .expression e⟩) ++
        [a.bodySite [counter] scopes body] := by
    rw [insideNode, List.map_map, hkind]
    rfl
  have hbody : a.bodySite [counter] scopes body ∈ a.inside ⟨scopes, .statement id⟩ := by
    rw [Visit.statement_eq id, inside_of_get? hget, hinside]
    exact List.mem_append_right _ List.mem_cons_self
  have hcontains : outcome.arena.Reaches (.statement id) (.body body) := by
    refine .single ?_
    rw [Visit.statement_eq id, children_of_get? hget', Node.children, hbodies, hkind]
    exact List.mem_append_right _ List.mem_cons_self
  obtain ⟨s₁, hwalk, hs₁, hfirst⟩ := retelling_statementExpressions htree h hsite hget hready hs
  obtain ⟨s', hrun, hs', hlast⟩ := retelling_resolveBody htree h (hsite.below.tail hbody)
    hsite.distinct hready hcontains hs₁
  have hbehind : a.behindNode ⟨scopes, Visit.of id⟩ .statement node = [] := by
    rw [behindNode, hkind]
  refine ⟨s', ?_, hs', .of_recount htree hsite (.of_node hget rfl (.refl s)
    (hinside ▸ hfirst.trans hlast) (.silent hbehind s'))⟩
  refine runs_bind.2 ⟨(), s', runs_node_bind.2 ⟨node', hs.arena.symm ▸ hget', ?_⟩,
    runs_pure.2 ⟨rfl, rfl⟩⟩
  -- it is still a loop with this counter and this body
  cases hkind' : node'.kind with
  | forLoop counter' first' last' reverse' body' =>
      rw [hkind, hkind'] at hcounter hbodies
      obtain rfl := Option.some.inj hcounter
      obtain rfl := List.singleton_inj.1 hbodies
      exact runs_bind.2 ⟨(), s₁, hwalk, hrun⟩
  | assignment | whileLoop | branch | returning | call =>
      rw [hkind, hkind'] at hcounter
      cases hcounter

/-- **A statement is visited again.** -/
theorem visitsAgain_statement {id : StatementId}
    (hsite : a.Revisited outcome.arena ⟨scopes, .statement id⟩ (.statement id))
    (hready : ReadyAgain a outcome.arena below (.statement id)) :
    VisitsAgain a outcome.arena scopes (resolver below) (.statement id) := by
  obtain ⟨node, hget⟩ := exists_of_has id (htree.spans.has_of_mem (hsite.mem htree (by simp)))
  obtain ⟨node', hget', hchanges⟩ := h.evolves.changed .statement id node hget
  cases hkind : node.kind with
  | forLoop => exact visitsAgain_forLoop htree h hsite hget hkind hready
  | call => exact visitsAgain_callStatement htree h hsite hget hkind hready
  | assignment | whileLoop | branch | returning =>
      have hcounter : node.kind.counter? = none := by
        rw [hkind]
        rfl
      have hinside : a.inside ⟨scopes, .statement id⟩ =
          (node.kind.expressions.map Visit.expression).map (Site.mk scopes) ++
            node.kind.bodies.map (a.bodySite [] scopes) := by
        rw [Visit.statement_eq id, inside_of_get? hget, insideNode, hcounter]
        rfl
      have hchildren := revisited_children htree h hsite.below hsite.distinct (hsite.mem htree (by simp))
        (by
          rw [hinside, Visit.statement_eq id, children_of_get? hget,
            Node.children, hcounter, List.map_append, List.map_map, List.map_map]
          simp [Function.comp_def, bodySite])
        (fun child hchild body hbody => by
          rw [hinside] at hchild
          rcases List.mem_append.1 hchild with hchild | hchild
          · obtain ⟨w, hw, rfl⟩ := List.mem_map.1 hchild
            obtain ⟨e, -, rfl⟩ := List.mem_map.1 hw
            cases hbody
          · obtain ⟨body', -, rfl⟩ := List.mem_map.1 hchild
            cases hbody
            rfl)
      have hbehind : a.behindNode ⟨scopes, Visit.of id⟩ .statement node = [] := by
        rw [behindNode, hkind]
      intro s hs
      obtain ⟨s', hrun, hdone⟩ :=
        visitsIn_silent htree h hget hready hchildren hsite rfl rfl hbehind s hs
      obtain ⟨⟨⟩, s₁, hwalk, hlast⟩ := runs_bind.1 hrun
      refine ⟨s', runs_bind.2 ⟨(), s₁, runs_node_bind.2 ⟨node', hs.arena.symm ▸ hget', ?_⟩, hlast⟩,
        hdone⟩
      have hform : node'.kind.form = node.kind.form := hchanges.form_eq
      rw [hkind] at hform
      cases hkind' : node'.kind <;> rw [hkind'] at hform <;> first | exact hwalk | cases hform

/-- **A body is visited again.** -/
theorem visitsAgain_body {id : BodyId} {site : Site} (hsite : a.Revisited outcome.arena site (.body id))
    (hvisit : site.visit = .body id) (hready : ReadyAgain a outcome.arena below (.body id)) :
    VisitsAgain a outcome.arena site.around (resolver below) (.body id) := by
  intro s hs
  have hplain := hsite.plain id hvisit
  obtain ⟨s', hrun, hs', hrecount⟩ := retelling_resolveBody htree h (hplain ▸ hsite.below)
    hsite.distinct hready .refl hs
  refine ⟨s', runs_bind.2 ⟨(), s', hrun, runs_pure.2 ⟨rfl, rfl⟩⟩, hs', .of_recount htree hsite ?_⟩
  rwa [← hplain] at hrecount

/-! ### All nodes -/

/-- **Name resolution goes on a second time at each node**, in the scopes that are right for it. -/
theorem proceedsAgain :
    ProceedsWhere (a.Revisits outcome.arena) outcome.arena (a.Rests outcome.arena)
      (Retells a outcome.arena) resolver where
  refined hs := hs.arena.symm ▸ .refl _
  entry n d hvisits c hc := visitsIn_declaration (hvisits c hc)
  layer n v c hok hreaches hv hready := by
    obtain ⟨⟨scopes, u⟩, hsite, rfl⟩ := hok
    have hkept : (∀ e, v ≠ .expression e) → u = v := by
      intro hexpression
      have hbecomes := hsite.becomes
      cases hbecomes with
      | kept => rfl
      | called => exact absurd rfl (hexpression _)
    cases v with
    | program | declaration =>
        -- neither of them is a node
        obtain rfl := hkept nofun
        have hreplaces := hsite.replaces
        cases hreplaces with
        | same hhas =>
            obtain ⟨family, index, haddress, -⟩ := hhas
            nomatch haddress
    | expression id => exact visitsAgain_expression htree h hsite hready
    | routine id =>
        obtain rfl := hkept nofun
        exact visitsAgain_routine htree h hsite hready
    | «variable» id =>
        obtain rfl := hkept nofun
        exact visitsAgain_variable htree h hsite hready
    | typeDecl id =>
        obtain rfl := hkept nofun
        exact visitsAgain_typeDecl htree h hsite hready
    | type id =>
        obtain rfl := hkept nofun
        exact visitsAgain_type htree h hsite hready
    | body id =>
        obtain rfl := hkept nofun
        exact visitsAgain_body htree h hsite rfl hready
    | statement id =>
        obtain rfl := hkept nofun
        exact visitsAgain_statement htree h hsite hready

end

end ProcLang
