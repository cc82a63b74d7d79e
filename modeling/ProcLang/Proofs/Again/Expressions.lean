import ProcLang.Proofs.Again.Sites

/-!
# ProcLang.Proofs.Again.Expressions

**Expressions that are visited again.** An identifier that was linked to a variable is linked to the same
one, which changes nothing, and one that was reported is reported again. A call that took the place of a
bare name is linked to its routine, as is any other call (`visitsAgain_called`, `visitsAgain_call`). The
name behind a point was left alone, and is looked at once more (`visitsAgain_member`).
-/

namespace ProcLang

open Arena WalkM

variable {a b : Arena} {nodes : List Visit} {outcome : PassOutcome}
  {below : Visit → NamesM (Option ExpressionId)} {scopes : List (List Declaration)}

/-! ### What is stored again -/

theorem Arena.Rests.put {s : WalkState Routines} (h : a.Rests b s) {family : Family}
    {id : NodeId family} {node changed : Node family} (hget : b.get? id = some node)
    (hsame : changed = node) : s.put id changed = s := by
  subst hsame
  rw [WalkState.put, h.arena, put_of_get? hget, ← h.arena]

/-- The routines that are known are those of the program. -/
theorem Arena.Rests.lookup {s : WalkState Routines} (h : a.Rests b s) (name : String) :
    s.own.lookup name = a.routineNamed name := by
  rw [h.own, lookup_routines]

section

variable (htree : a.IsTree nodes) (h : a.Settles nodes outcome)

include htree h

/-! ### Identifiers -/

/-- **An identifier** that stayed is linked or reported as before. -/
theorem visitsAgain_identifier {id : ExpressionId} {node : Expression} {name : String}
    {target : Option VariableId}
    (hsite : a.Revisited outcome.arena ⟨scopes, .expression id⟩ (.expression id))
    (hkept : ∀ name r, ¬ a.CallAt id name r) (hget : a.get? id = some node)
    (hkind : node.kind = .identifier name target) :
    VisitsAgain a outcome.arena scopes (resolver below) (.expression id) := by
  intro s hs
  have hinside : a.insideNode scopes .expression node = [] := by
    rw [insideNode, Node.slots, hkind]
    rfl
  have hbehind : a.behindNode ⟨scopes, Visit.of id⟩ .expression node = [] := by
    rw [behindNode, hkind]
  have hfinish : ∀ s', Told a [] [] (a.aheadNode ⟨scopes, Visit.of id⟩ .expression node) s s' →
      Retells a outcome.arena (.expression id) s s' := fun s' htold =>
    .of_recount htree hsite (.of_node hget rfl htold (.of_nil hinside s') (.silent hbehind s'))
  obtain ⟨e', hstands⟩ := h.exists_standsFor htree hsite.below hsite.distinct
  cases hstands with
  | @linked found linked name' target' x hnode hkind' hname hlinked hlink =>
      obtain rfl := Option.some.inj (hget.symm.trans hnode)
      obtain ⟨rfl, -⟩ := ExpressionKind.identifier.inj (hkind.symm.trans hkind')
      -- the link that is there is set once more
      obtain ⟨after, hafter, hchanges⟩ := h.evolves.changed .expression id node hget
      obtain rfl := Option.some.inj (hlinked.symm.trans hafter)
      rcases hchanges.identifier_cases (htree.unlinked hget hkind) with
        rfl | ⟨x', declared, hx, hlink', htype⟩
      · cases (htree.unlinked hget hkind).symm.trans hlink
      · obtain ⟨-, heq⟩ := ExpressionKind.identifier.inj (hlink.symm.trans hlink')
        obtain rfl := Option.some.inj heq
        obtain ⟨declared', hx', hdeclared⟩ := h.evolves.changed .variable x declared hx
        have hsame : { linked with
            kind := linked.kind.setVariable x, type := declared'.declaredType <|> linked.type } =
            linked := by
          have hdeclaredType : declared'.declaredType = declared.declaredType := by
            rw [hdeclared.variable_eq]
          obtain ⟨kind, span, type, comptime⟩ := linked
          simp only at hlink htype
          subst hlink htype
          rw [hdeclaredType]
          cases declared.declaredType <;> rfl
        refine ⟨s, runs_node_bind.2 ⟨linked, hs.arena.symm ▸ hlinked, ?_⟩, hs, hfinish s ?_⟩
        · rw [hlink]
          refine runs_read_bind.2 ?_
          rw [lookup_variableNames, hname]
          refine runs_node_bind.2 ⟨declared', hs.arena.symm ▸ hx', ?_⟩
          refine runs_update_bind.2 ⟨linked, hs.arena.symm ▸ hlinked, ?_⟩
          rw [hs.put hlinked hsame]
          exact runs_pure.2 ⟨rfl, rfl⟩
        · exact .silent (by simp [aheadNode, hkind, hname]) s
  | called hnode hkind' hvariable hname =>
      exact absurd (.intro hsite.below hsite.distinct hnode hkind' hvariable hname) (hkept _ _)
  | undeclared hnode hkind' hvariable hroutine hafter =>
      obtain rfl := Option.some.inj (hget.symm.trans hnode)
      obtain ⟨rfl, -⟩ := ExpressionKind.identifier.inj (hkind.symm.trans hkind')
      have hread := hs.arena.symm ▸ hafter
      refine ⟨s.reported (.undeclaredName name) node.span.start, runs_node_bind.2 ⟨node, hread, ?_⟩,
        hs.reported _ _, hfinish _ ?_⟩
      · rw [hkind]
        refine runs_read_bind.2 ?_
        rw [lookup_variableNames, hvariable]
        refine runs_node_bind.2 ⟨node, hread, runs_get_bind.2 ?_⟩
        rw [hs.lookup, hroutine]
        exact runs_report_bind.2 (runs_pure.2 ⟨rfl, rfl⟩)
      · rw [show a.aheadNode ⟨scopes, Visit.of id⟩ .expression node =
            [⟨Visit.of id, .undeclaredName name⟩] by
          simp [aheadNode, hkind, hvariable, hroutine, Visit.of]]
        exact .single hget _ s
  | other hnode hother =>
      obtain rfl := Option.some.inj (hget.symm.trans hnode)
      exact absurd hkind (hother _ _)

/-! ### Calls -/

omit h in
/-- **A call in the place of a bare name** is linked to the same routine. -/
theorem visitsAgain_called {e call : ExpressionId} {name : String} {r : RoutineId} {span : Span}
    (hsite : a.Revisited b ⟨scopes, .expression e⟩ (.expression call)) (hat : a.CallAt e name r)
    (hcall : b.get? call = some (.plain (.call name (some r) []) span)) :
    VisitsAgain a b scopes (resolver below) (.expression call) := by
  intro s hs
  obtain ⟨hbelow, -, hget, hkind, hvariable, hroutine⟩ := hat
  obtain rfl := htree.scopes_unique hsite.below hbelow
  have hread := hs.arena.symm ▸ hcall
  refine ⟨s, runs_node_bind.2 ⟨_, hread, ?_⟩, hs, .of_recount htree hsite ?_⟩
  · -- there are no arguments, and the link is set once more
    have hwalk : Runs (walkExpression below call) (a.scopeOf scopes) s () s :=
      runs_node_bind.2 ⟨_, hread, runs_forM_nil.2 rfl⟩
    refine runs_bind.2 ⟨(), s, hwalk, runs_bind.2 ⟨(), s, runs_get_bind.2 ?_, runs_pure.2 ⟨rfl, rfl⟩⟩⟩
    rw [hs.lookup, hroutine]
    exact runs_update.2 ⟨_, hread, (hs.put hcall rfl).symm⟩
  · refine .of_node hget rfl (.silent ?_ s) (.of_nil ?_ s) (.silent ?_ s)
    · simp [aheadNode, hkind, hvariable, hroutine]
    · rw [insideNode, Node.slots, hkind]
      rfl
    · rw [behindNode, hkind]

/-- What stands right below an expression that is no member access is visited again. -/
theorem revisited_operands {id : ExpressionId} {node : Expression}
    (hsite : a.Revisited outcome.arena ⟨scopes, .expression id⟩ (.expression id))
    (hget : a.get? id = some node) (hmember : node.kind.NotMember) :
    List.Forall₂ (a.Revisited outcome.arena) (a.inside ⟨scopes, .expression id⟩)
      (outcome.arena.children (.expression id)) := by
  refine revisited_same htree h hget hsite.below hsite.distinct ?_ (by simp [Node.children])
  rw [insideNode_of_notMember hmember, Node.children, List.map_map]
  rfl

/-- **A call** is linked to the routine of its name, or reported, as before. -/
theorem visitsAgain_call {id : ExpressionId} {node : Expression} {name : String}
    {target : Option RoutineId} {arguments : List ExpressionId}
    (hsite : a.Revisited outcome.arena ⟨scopes, .expression id⟩ (.expression id))
    (hget : a.get? id = some node) (hkind : node.kind = .call name target arguments)
    (hready : ReadyAgain a outcome.arena below (.expression id)) :
    VisitsAgain a outcome.arena scopes (resolver below) (.expression id) := by
  intro s hs
  obtain ⟨linked, hlinked, hlink⟩ := ((h.settled _ hsite.below).resolved hsite.distinct).call id node
    name target arguments rfl hget hkind
  have hmember : node.kind.NotMember := by
    rw [hkind]
    nofun
  obtain ⟨s₁, hwalk, hs₁, hrecount⟩ :=
    retelling_walk h hget hready (revisited_operands htree h hsite hget hmember) hs
  have hahead : a.aheadNode ⟨scopes, Visit.of id⟩ .expression node = [] := by
    rw [aheadNode, hkind]
  have hread₁ := hs₁.arena.symm ▸ hlinked
  cases hlink with
  | @linked r arguments' hname hlink =>
      refine ⟨s₁, runs_node_bind.2 ⟨linked, hs.arena.symm ▸ hlinked, ?_⟩, hs₁,
        .of_recount htree hsite (.of_node hget rfl (.silent hahead s) hrecount (.silent ?_ s₁))⟩
      · rw [hlink]
        refine runs_bind.2 ⟨(), s₁, hwalk, runs_bind.2 ⟨(), s₁, runs_get_bind.2 ?_,
          runs_pure.2 ⟨rfl, rfl⟩⟩⟩
        rw [hs₁.lookup, hname]
        refine runs_update.2 ⟨linked, hread₁, (hs₁.put hlinked ?_).symm⟩
        rw [hlink, ExpressionKind.setRoutine, ← hlink]
      · simp [behindNode, hkind, hname]
  | @undeclared target' arguments' hname hlink =>
      obtain ⟨after, hafter, hchanges⟩ := h.evolves.changed .expression id node hget
      obtain rfl := Option.some.inj (hlinked.symm.trans hafter)
      refine ⟨s₁.reported (.undeclaredRoutine name) linked.span.start,
        runs_node_bind.2 ⟨linked, hs.arena.symm ▸ hlinked, ?_⟩, hs₁.reported _ _,
        .of_recount htree hsite (.of_node hget rfl (.silent hahead s) hrecount ?_)⟩
      · rw [hlink]
        refine runs_bind.2 ⟨(), s₁, hwalk, runs_bind.2 ⟨(), _, runs_get_bind.2 ?_,
          runs_pure.2 ⟨rfl, rfl⟩⟩⟩
        rw [hs₁.lookup, hname]
        exact runs_node_bind.2 ⟨linked, hread₁, runs_report.2 rfl⟩
      · rw [show a.behindNode ⟨scopes, Visit.of id⟩ .expression node =
            [⟨Visit.of id, .undeclaredRoutine name⟩] by
          simp [behindNode, hkind, hname, Visit.of]]
        rw [show linked.span = node.span from hchanges.span_eq]
        exact .single hget _ s₁

/-! ### Member accesses -/

/-- **A member access**: only the record is visited, and the name of the field is looked at. -/
theorem visitsAgain_member {id left right : ExpressionId} {node : Expression}
    (hsite : a.Revisited outcome.arena ⟨scopes, .expression id⟩ (.expression id))
    (hget : a.get? id = some node) (hkind : node.kind = .binary .member left right)
    (hready : ReadyAgain a outcome.arena below (.expression id)) :
    VisitsAgain a outcome.arena scopes (resolver below) (.expression id) := by
  intro s hs
  obtain ⟨node', hget', hchanges⟩ := h.evolves.changed .expression id node hget
  obtain ⟨left', hkind'⟩ := hchanges.member_kept hkind
  have hslots : a.slots (.expression id) = [left] := by
    rw [Visit.expression_eq id, slots_of_get? hget, Node.slots, hkind]
  have hslots' : outcome.arena.slots (.expression id) = [left'] := by
    rw [Visit.expression_eq id, slots_of_get? hget', Node.slots, hkind']
  have hinside : a.insideNode scopes .expression node = [⟨scopes, .expression left⟩] := by
    rw [insideNode, Node.slots, hkind]
    rfl
  -- the record has its turn
  have hrecord := revisited_slots htree h hsite.below hsite.distinct fun e he => by
    rw [Visit.expression_eq id, inside_of_get? hget]
    exact mem_insideNode_of_slot (slots_of_get? hget ▸ he)
  rw [hslots, hslots'] at hrecord
  have hvisit := visitsIn_of_revisited hready hrecord (fun site hmem => by
    rw [List.mem_singleton.1 hmem]) (fun w hw => .single (by
      rw [List.mem_singleton.1 hw, Visit.expression_eq id,
        children_of_get? hget', Node.children, hkind']
      exact List.mem_cons_self)) _ List.mem_cons_self
  have hoperand : Retelling a outcome.arena (visitOperand below id 0 left') (a.scopeOf scopes)
      [⟨scopes, .expression left⟩] s := .of_turns hrecord (turns_visitSlot hvisit hs)
  obtain ⟨s₁, hwalk, hs₁, hrecount⟩ := hoperand
  -- the name of the field has not been touched
  have hfield : a.IsField right := ⟨id, node, left, hget, hkind⟩
  obtain ⟨field, hright⟩ := exists_of_has right (htree.has_child hget (by
    rw [Node.children, hkind]
    exact List.mem_cons_of_mem _ List.mem_cons_self))
  have hright' := h.hidden .expression right field (htree.hidden_of_isField hfield) hright
  have hread := hs₁.arena.symm ▸ hright'
  obtain ⟨s', hcheck, hremarks, -⟩ := exists_runs_checkMemberName (c := a.scopeOf scopes) (a := a) hread
  have hahead : a.aheadNode ⟨scopes, Visit.of id⟩ .expression node = [] := by
    rw [aheadNode, hkind]
  refine ⟨s', runs_node_bind.2 ⟨node', hs.arena.symm ▸ hget', ?_⟩, hs₁.remarks hremarks,
    .of_recount htree hsite (.of_node hget rfl (.silent hahead s) (by rw [hinside]; exact hrecount)
      (checkMemberName_told hkind hright hread hcheck))⟩
  rw [hkind']
  exact runs_bind.2 ⟨(), s₁, hwalk, runs_bind.2 ⟨(), s', hcheck, runs_pure.2 ⟨rfl, rfl⟩⟩⟩

/-! ### The layer -/

/-- **An expression is visited again.** -/
theorem visitsAgain_expression {id : ExpressionId} {site : Site}
    (hsite : a.Revisited outcome.arena site (.expression id))
    (hready : ReadyAgain a outcome.arena below (.expression id)) :
    VisitsAgain a outcome.arena site.around (resolver below) (.expression id) := by
  obtain ⟨scopes, v⟩ := site
  have hbecomes := hsite.becomes
  cases hbecomes with
  | called hat hcall => exact visitsAgain_called htree hsite hat hcall
  | kept hkept =>
      obtain ⟨node, hget⟩ := exists_of_has id (htree.spans.has_of_mem (hsite.mem htree (by simp)))
      obtain ⟨node', hget', hchanges⟩ := h.evolves.changed .expression id node hget
      cases hkind : node.kind with
      | identifier name target =>
          exact visitsAgain_identifier htree h hsite (fun name r => hkept id name r rfl) hget hkind
      | call name target arguments => exact visitsAgain_call htree h hsite hget hkind hready
      | binary operator left right =>
          by_cases hmember : operator = .member
          · subst hmember
            exact visitsAgain_member htree h hsite hget hkind hready
          · intro s hs
            have hchildren := revisited_operands htree h hsite hget
              (by rw [hkind]; rintro _ _ ⟨⟩; exact hmember rfl)
            obtain ⟨s', hrun, hdone⟩ := visitsIn_silent htree h hget hready hchildren hsite rfl
              (by rw [aheadNode, hkind])
              (by rw [behindNode, hkind]; cases operator <;> first | rfl | exact absurd rfl hmember) s hs
            refine ⟨s', runs_node_bind.2 ⟨node', hs.arena.symm ▸ hget', ?_⟩, hdone⟩
            have hform : node'.kind.form = node.kind.form := hchanges.form_eq
            obtain ⟨left', right', hkind'⟩ :=
              ExpressionKind.exists_binary (hform.trans (congrArg ExpressionKind.form hkind))
            rw [hkind']
            cases operator <;> first | exact hrun | exact absurd rfl hmember
      | integer | real | boolean | unary =>
          intro s hs
          have hchildren := revisited_operands htree h hsite hget (by rw [hkind]; rintro _ _ ⟨⟩)
          obtain ⟨s', hrun, hdone⟩ := visitsIn_silent htree h hget hready hchildren hsite rfl
            (by rw [aheadNode, hkind]) (by rw [behindNode, hkind]) s hs
          refine ⟨s', runs_node_bind.2 ⟨node', hs.arena.symm ▸ hget', ?_⟩, hdone⟩
          have hform : node'.kind.form = node.kind.form := hchanges.form_eq
          rw [hkind] at hform
          cases hkind' : node'.kind <;> rw [hkind'] at hform <;> first | exact hrun | cases hform

end

end ProcLang
