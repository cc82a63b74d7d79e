import ProcLang.Proofs.Names.Layer

/-!
# ProcLang.Proofs.Names.Expressions

**Expressions in one layer of name resolution.** An identifier is linked to a variable, gives a call
to stand in its place, or is reported (`resolveIdentifier_resolves`); a call is linked to the routine
of its name; of a member access only the record is looked into. Together with the other kinds of
nodes this makes a layer (`resolver_handles`).
-/

namespace ProcLang

open Arena WalkM

variable {a : Arena} {routines : Routines} {nodes : List Visit}
  {below : Visit → NamesM (Option ExpressionId)} {n : Nat} {all : List Visit}
  {s : WalkState Routines} {scopes : List (List Declaration)}

/-- What the visit of an expression does: everything below is resolved, and it is known what is to
stand in the slot of the expression. -/
def ExpressionResolved (a : Arena) (scopes : List (List Declaration)) (all : List Visit)
    (s : WalkState Routines) (id : ExpressionId) (m : NamesM (Option ExpressionId)) : Prop :=
  ∃ r s', Runs m (a.scopeOf scopes) s r s' ∧ Visited a ⟨scopes, .expression id⟩ all r s s' ∧
    StandsFor a s'.arena s'.diagnostics.toList scopes id (r.getD id) ∧
    ∀ c, r = some c → a.count .expression ≤ c.index

/-- The kind is no member access. -/
def ExpressionKind.NotMember (kind : ExpressionKind) : Prop :=
  ∀ left right, kind ≠ .binary .member left right

/-- A member access, if it is none of the other forms. -/
theorem exists_member {kind : ExpressionKind} (h : ¬ kind.NotMember) :
    ∃ left field, kind = .binary .member left field := by
  by_contra hnone
  exact h fun left field heq => hnone ⟨left, field, heq⟩

/-- There is nothing to check at an expression that is no member access. -/
theorem checked_of_notMember {id : ExpressionId} {node : Expression} (hget : a.get? id = some node)
    (h : node.kind.NotMember) : a.Checked ⟨scopes, .expression id⟩ := by
  intro other left field hother hkind
  obtain rfl : node = other := Option.some.inj (hget.symm.trans hother)
  exact absurd hkind (h left field)

/-! ### Identifiers -/

section

variable {id : ExpressionId} {node : Expression} {name : String} {target : Option VariableId}

/-- There is nothing below an identifier. -/
theorem Arrival.visited_identifier {s' : WalkState Routines} {given : Option ExpressionId}
    (h : Arrival a routines nodes n ⟨scopes, .expression id⟩ all s) (hget : a.get? id = some node)
    (hkind : node.kind = .identifier name target) (heffect : Effect a [.expression id] s s')
    {linked : Expression} {x : Option VariableId} (hlinked : s'.arena.get? id = some linked)
    (hlink : linked.kind = .identifier name x) (hstored : Stores given.toList [] s s') :
    Visited a ⟨scopes, .expression id⟩ all given s s' := by
  refine h.leaf heffect ?_ (.of_identifier hget hkind hlinked hlink)
    (checked_of_notMember hget (by rw [hkind]; nofun)) hstored
  rw [Visit.expression_eq id, inside_of_get? hget, insideNode, Node.slots, hkind]
  rfl

/-- **An identifier is linked** to the variable of its name. -/
theorem resolveIdentifier_variable (hset : Setting a routines nodes) {x : VariableId}
    (h : Arrival a routines nodes n ⟨scopes, .expression id⟩ all s) (hget : a.get? id = some node)
    (hkind : node.kind = .identifier name target)
    (hvariable : a.innermost Declaration.variable? name scopes = some x) :
    ExpressionResolved a scopes all s id (resolveIdentifier id name) := by
  have hread : s.arena.get? id = some node := (h.read id rfl).trans hget
  have hx : a.Has (Visit.of x) := by
    refine hset.tree.has_of_innermost (fun d y hd => ?_) h.top hvariable
    cases d with
    | «variable» other =>
        cases hd
        rfl
    | routine | type => cases hd
  obtain ⟨declared, hdeclared⟩ := hx.exists_get?
  obtain ⟨now, hnow, hchanges⟩ := h.ready.evolves.changed .variable x declared hdeclared
  have htype : now.declaredType = declared.declaredType := by
    rw [hchanges.variable_eq]
  have hput : Effect a [.expression id] s (s.put id { node with
      kind := .identifier name (some x), type := declared.declaredType <|> node.type }) :=
    .put hread (.single (.link node (hset.tree.unlinked hget hkind) hdeclared)) fun hhidden =>
      hhidden _ h.top rfl
  rw [ExpressionResolved, resolveIdentifier]
  simp only [runs_read_bind, lookup_variableNames, hvariable]
  refine ⟨none, s.put id { node with
    kind := .identifier name (some x), type := declared.declaredType <|> node.type },
    runs_node_bind.2 ⟨now, hnow, ?_⟩, ?_, ?_, by rintro _ ⟨⟩⟩
  · refine runs_update_bind.2 ⟨node, hread, runs_pure.2 ⟨rfl, ?_⟩⟩
    rw [htype, hkind]
    rfl
  · exact h.visited_identifier hget hkind hput (get?_put_self hread _) rfl
      (.of_count (count_put s.arena id _ .expression))
  · exact .linked hget hkind hvariable (get?_put_self hread _) rfl rfl
      (h.silent (start?_of_identifier hget hkind))

/-- **An identifier that names a routine gives a call** to stand in its place. -/
theorem resolveIdentifier_routine (hset : Setting a routines nodes) {r : RoutineId}
    (h : Arrival a routines nodes n ⟨scopes, .expression id⟩ all s) (hget : a.get? id = some node)
    (hkind : node.kind = .identifier name target)
    (hvariable : a.innermost Declaration.variable? name scopes = none)
    (hroutine : a.routineNamed name = some r) :
    ExpressionResolved a scopes all s id (resolveIdentifier id name) := by
  have hread : s.arena.get? id = some node := (h.read id rfl).trans hget
  have hlookup : s.own.lookup name = some r := by
    rw [h.ready.own, hset.lookup, hroutine]
  have heffect : Effect a [] s ((s.noted (.nameTurnedCall node.span.start name)).added
      .expression (.plain (.call name (some r) []) node.span)) :=
    (Effect.noted a s _).trans (.added _ node.span (hset.known name r hroutine))
  have hfresh : a.count .expression ≤ s.arena.count .expression :=
    h.ready.evolves.count_le .expression
  rw [ExpressionResolved, resolveIdentifier]
  simp only [runs_read_bind, lookup_variableNames, hvariable]
  refine ⟨some ⟨s.arena.count .expression⟩,
    (s.noted (.nameTurnedCall node.span.start name)).added .expression
      (.plain (.call name (some r) []) node.span),
    runs_node_bind.2 ⟨node, hread, runs_get_bind.2 ?_⟩, ?_, ?_, fun c hc => ?_⟩
  · rw [hlookup]
    exact runs_note_bind.2 (runs_map.2 ⟨_, runs_add.2 ⟨rfl, rfl⟩, rfl⟩)
  · refine h.visited_identifier hget hkind (heffect.mono (List.nil_subset _))
      (heffect.frame .expression id node hread List.not_mem_nil) hkind fun c hle hhas => Or.inl ?_
    obtain ⟨found, hfound⟩ := exists_of_has c hhas
    rcases get?_added hfound with hold | ⟨-, -, hindex⟩
    · exact absurd (index_lt_of_get? hold) (Nat.not_lt.2 hle)
    · exact List.mem_singleton.2 (congrArg NodeId.mk hindex)
  · exact .called hget hkind hvariable hroutine hfresh (s.arena.get?_add .expression _)
      (h.silent (start?_of_identifier hget hkind))
  · cases hc
    exact hfresh

/-- **An identifier that names nothing is reported.** -/
theorem resolveIdentifier_undeclared (hset : Setting a routines nodes)
    (h : Arrival a routines nodes n ⟨scopes, .expression id⟩ all s) (hget : a.get? id = some node)
    (hkind : node.kind = .identifier name target)
    (hvariable : a.innermost Declaration.variable? name scopes = none)
    (hroutine : a.routineNamed name = none) :
    ExpressionResolved a scopes all s id (resolveIdentifier id name) := by
  have hread : s.arena.get? id = some node := (h.read id rfl).trans hget
  have hstart := start?_of_identifier hget hkind
  have hlookup : s.own.lookup name = none := by
    rw [h.ready.own, hset.lookup, hroutine]
  rw [ExpressionResolved, resolveIdentifier]
  simp only [runs_read_bind, lookup_variableNames, hvariable]
  refine ⟨none, s.reported (.undeclaredName name) node.span.start,
    runs_node_bind.2 ⟨node, hread, runs_get_bind.2 ?_⟩, ?_, ?_, by rintro _ ⟨⟩⟩
  · rw [hlookup]
    exact runs_report_bind.2 (runs_pure.2 ⟨rfl, rfl⟩)
  · exact h.visited_identifier hget hkind (.reported_at s _ hstart) hread hkind (.of_count rfl)
  · exact .undeclared hget hkind hvariable hroutine hread
      (undeclaredAt_push_self rfl (h.silent hstart))

theorem resolveIdentifier_resolves (hset : Setting a routines nodes)
    (h : Arrival a routines nodes n ⟨scopes, .expression id⟩ all s) (hget : a.get? id = some node)
    (hkind : node.kind = .identifier name target) :
    ExpressionResolved a scopes all s id (resolveIdentifier id name) := by
  cases hvariable : a.innermost Declaration.variable? name scopes with
  | some x => exact resolveIdentifier_variable hset h hget hkind hvariable
  | none =>
      cases hroutine : a.routineNamed name with
      | some r => exact resolveIdentifier_routine hset h hget hkind hvariable hroutine
      | none => exact resolveIdentifier_undeclared hset h hget hkind hvariable hroutine

end

/-! ### Operands -/

theorem slots_of_notMember {node : Expression} (h : node.kind.NotMember) :
    Node.slots .expression node = node.kind.operands := by
  rw [Node.slots]
  split
  · rename_i left right hkind
    exact absurd hkind (h left right)
  · rfl

theorem ExpressionKind.NotMember.setOperand {kind : ExpressionKind} (h : kind.NotMember)
    (index : Nat) (e : ExpressionId) : (kind.setOperand index e).NotMember := by
  intro left right heq
  cases kind with
  | binary operator l r =>
      rcases index with _ | _ | index
      · cases heq
        exact h l _ rfl
      · cases heq
        exact h _ r rfl
      · cases heq
        exact h _ _ rfl
  | _ => rcases index with _ | index <;> nomatch heq

/-- What storing an operand keeps of a call. -/
theorem setOperand_call {kind : ExpressionKind} {name : String} {target : Option RoutineId}
    (h : ∃ arguments, kind = .call name target arguments) (index : Nat) (e : ExpressionId) :
    ∃ arguments, kind.setOperand index e = .call name target arguments := by
  obtain ⟨arguments, rfl⟩ := h
  exact ⟨arguments.set index e, by rcases index with _ | _ | index <;> rfl⟩

/-- The operands of an expression are visited; a call keeps its name. -/
theorem walkExpression_part (hset : Setting a routines nodes)
    (hbelow : Handles a routines nodes below n) {id : ExpressionId} {node : Expression}
    {xs todo : List Visit} {s₀ : WalkState Routines} (hmem : .expression id ∈ nodes)
    (hread : s.arena.get? id = some node) (hmember : node.kind.NotMember)
    (htop : ∀ e ∈ node.kind.operands, a.Below a.top ⟨scopes, .expression e⟩)
    (hspans : Spans a (node.kind.operands.map Visit.expression) xs) (hlayers : 2 * xs.length ≤ n)
    (h : Progress a routines nodes ⟨scopes, .expression id⟩ [] (xs ++ todo) [] [] s₀ s) :
    ∃ stood node' s', Runs (walkExpression below id) (a.scopeOf scopes) s () s' ∧
      Progress a routines nodes ⟨scopes, .expression id⟩ xs todo
        (node.kind.operands.map fun e => ⟨scopes, .expression e⟩) stood s₀ s' ∧
      node.kind.operands = stood.map (·.1) ∧ s'.arena.get? id = some node' ∧
      Node.slots .expression node' = stood.map (·.2) ∧
      (∀ p, a.start? (.expression id) = some p →
        undeclaredAt s'.diagnostics.toList p = undeclaredAt s.diagnostics.toList p) ∧
      node'.span = node.span ∧
      ∀ name target, (∃ arguments, node.kind = .call name target arguments) →
        ∃ arguments, node'.kind = .call name target arguments := by
  obtain ⟨stood, node', s', hrun, hprogress, hfst, hread', hkept, hslots, hquiet⟩ := hbelow.visitSlots
    hset.tree id rfl hmem
    (fun m => m.kind.NotMember ∧ m.span = node.span ∧
      ∀ name target, (∃ arguments, node.kind = .call name target arguments) →
        ∃ arguments, m.kind = .call name target arguments)
    (f := fun index c m => { m with kind := m.kind.setOperand index c })
    (fun m index c hP hopen hfresh => by
      refine ⟨.operand m hopen hfresh, ⟨hP.1.setOperand index c, hP.2.1,
        fun name target hcall => setOperand_call (hP.2.2 name target hcall) index c⟩, ?_⟩
      rw [slots_of_notMember hP.1, slots_of_notMember (hP.1.setOperand index c)]
      exact ExpressionKind.operands_setOperand _ _ _)
    hread ⟨hmember, rfl, fun _ _ hcall => hcall⟩ (slots_of_notMember hmember) htop hspans hlayers h
  exact ⟨stood, node', s', runs_node_bind.2 ⟨node, hread, hrun⟩, hprogress, hfst.symm, hread',
    hslots, hquiet, hkept.2⟩

/-! ### Calls -/

/-- **A call is linked** to the routine of its name. -/
theorem resolveCall_resolves (hset : Setting a routines nodes)
    (hbelow : Handles a routines nodes below n) {id : ExpressionId} {node : Expression}
    {name : String} {target : Option RoutineId} {arguments : List ExpressionId}
    (h : Arrival a routines nodes n ⟨scopes, .expression id⟩ all s) (hget : a.get? id = some node)
    (hkind : node.kind = .call name target arguments) :
    ∃ s', Runs (do walkExpression below id; resolveCall id name) (a.scopeOf scopes) s () s' ∧
      Visited a ⟨scopes, .expression id⟩ all none s s' := by
  have htree := hset.tree
  obtain ⟨found, rest, hfound, hread, hspans, rfl, hlayers, hmem, htop, hprogress⟩ :=
    h.begin id rfl
  obtain rfl : found = node := Option.some.inj (hfound.symm.trans hget)
  have hmember : found.kind.NotMember := by
    rw [hkind]
    nofun
  have hoperands : ∀ e ∈ found.kind.operands, a.Below a.top ⟨scopes, .expression e⟩ := fun e he =>
    htop _ (List.mem_map_of_mem (List.mem_map_of_mem (slots_of_notMember hmember ▸ he)))
  rw [← List.append_nil rest] at hprogress
  obtain ⟨stood, node₁, s₁, hrun₁, hprogress₁, hfst, hread₁, hsnd, hquiet, hspan, hcall⟩ :=
    walkExpression_part hset hbelow hmem hread hmember hoperands hspans (by omega) hprogress
  obtain ⟨arguments₁, hkind₁⟩ := hcall name target ⟨arguments, hkind⟩
  have hstart := start?_of_call hget hkind
  have hsilent : undeclaredAt s₁.diagnostics.toList found.span.start = [] := by
    rw [hquiet _ hstart]
    exact h.ready.silent _ (mem_starts.2 ⟨_, List.mem_cons_self, hstart⟩)
  -- the node itself changes once more, and then it is done
  have hvisited : ∀ s' linked, Effect a [.expression id] s₁ s' →
      s'.arena.count .expression = s₁.arena.count .expression → s'.arena.get? id = some linked →
      Node.slots .expression linked = stood.map (·.2) →
      CallLinked a s'.diagnostics.toList found linked name →
      Visited a ⟨scopes, .expression id⟩ (.expression id :: rest) none s s' := by
    intro s' linked heffect hcount hlinked hslots hlink
    have hprogress' := hprogress₁.self htree hmem heffect hcount
    refine hprogress'.finish (List.Subset.refl _) ?_ (fun c hc => ?_) (.of_call hget hkind hlinked ?_ hlink)
      fun _ => checked_of_notMember hget hmember
    · intro child hchild
      rw [Visit.expression_eq id, inside_of_get? hget, insideNode,
        slots_of_notMember hmember, List.map_map] at hchild
      exact hchild
    · rwa [Visit.expression_eq id, slots_of_get? hlinked, hslots]
    · rw [slots_of_notMember hmember, hfst, hslots]
      exact hprogress'.forall₂
  have hlookup : s₁.own.lookup name = a.routineNamed name := by
    rw [hprogress₁.ready.own, hset.lookup]
  have hslots₁ : node₁.kind.operands = arguments₁ := by
    rw [hkind₁]
    rfl
  cases hroutine : a.routineNamed name with
  | some r =>
      have hchanged : { node₁ with kind := node₁.kind.setRoutine r } =
          { node₁ with kind := .call name (some r) arguments₁ } := by
        rw [hkind₁]
        rfl
      refine ⟨s₁.put id { node₁ with kind := .call name (some r) arguments₁ },
        runs_bind.2 ⟨(), s₁, hrun₁, runs_get_bind.2 ?_⟩, ?_⟩
      · rw [hlookup, hroutine]
        exact runs_update.2 ⟨node₁, hread₁, by rw [hchanged]⟩
      · refine hvisited _ _
          (.put hread₁ (.single (.routine node₁ hkind₁ (hset.known name r hroutine)))
            fun hhidden => hhidden _ h.top rfl)
          (count_put s₁.arena id _ .expression) (get?_put_self hread₁ _) ?_ (.linked hroutine rfl hsilent)
        rw [← hsnd, Node.slots, Node.slots, hkind₁]
        rfl
  | none =>
      refine ⟨s₁.reported (.undeclaredRoutine name) found.span.start,
        runs_bind.2 ⟨(), s₁, hrun₁, runs_get_bind.2 ?_⟩, ?_⟩
      · rw [hlookup, hroutine]
        exact runs_node_bind.2 ⟨node₁, hread₁, runs_report.2 (by rw [hspan])⟩
      · exact hvisited _ node₁ (.reported_at s₁ _ hstart) rfl hread₁ hsnd
          (.undeclared hroutine hkind₁ (undeclaredAt_push_self rfl hsilent))

/-! ### Other expressions -/

theorem exists_runs_checkMemberName {c : Scope} {field : ExpressionId} {e : Expression}
    (he : s.arena.get? field = some e) :
    ∃ s', Runs (checkMemberName field) c s () s' ∧ Remarks a s s' ∧
      (s'.diagnostics = #[] → ∃ name x, e.kind = .identifier name x) := by
  by_cases hname : ∃ name x, e.kind = .identifier name x
  · refine ⟨s, runs_node_bind.2 ⟨e, he, ?_⟩, .refl a s, fun _ => hname⟩
    obtain ⟨name, x, hname⟩ := hname
    rw [hname]
    exact runs_pure.2 ⟨rfl, rfl⟩
  · refine ⟨s.reported .memberNotIdentifier e.span.start, runs_node_bind.2 ⟨e, he, ?_⟩,
      .reported a s rfl _, fun h => absurd h (Effect.reported_ne s _ _)⟩
    split
    · rename_i hkind
      exact absurd ⟨_, _, hkind⟩ hname
    · exact runs_report.2 rfl

/-- Of a member access the record is resolved; the name of the field is left alone. -/
theorem resolveMember_resolves (hset : Setting a routines nodes)
    (hbelow : Handles a routines nodes below n) {id left right : ExpressionId} {node : Expression}
    (h : Arrival a routines nodes n ⟨scopes, .expression id⟩ all s) (hget : a.get? id = some node)
    (hkind : node.kind = .binary .member left right) :
    ∃ s', Runs (do visitOperand below id 0 left; checkMemberName right) (a.scopeOf scopes) s () s' ∧
      Visited a ⟨scopes, .expression id⟩ all none s s' := by
  have htree := hset.tree
  obtain ⟨found, rest, hfound, hread, hspans, rfl, hlayers, hmem, htop, hprogress⟩ :=
    h.begin id rfl
  obtain rfl : found = node := Option.some.inj (hfound.symm.trans hget)
  have hslots : Node.slots .expression found = [left] := by
    rw [Node.slots, hkind]
  have hinside : a.insideNode scopes .expression found = [⟨scopes, .expression left⟩] := by
    rw [insideNode, hslots]
    rfl
  rw [Node.children, hkind] at hspans
  obtain ⟨xs, ys, rfl, hxs, hys⟩ := hspans.cons_inv
  rw [List.length_append] at hlayers
  obtain ⟨e', node₁, s₁, hrun₁, hprogress₁, hread₁, hnode₁, -⟩ := hbelow.visitSlot htree id rfl hmem
    hread (f := fun c m => { m with kind := m.kind.setOperand 0 c })
    (fun c hfresh => .operand found (by rw [hslots]; exact Nat.zero_lt_one) hfresh)
    (htop _ (hinside ▸ List.mem_cons_self)) hxs (by omega) hprogress
  -- the name of the field has not been touched
  have hbeside : Visit.expression right ∈ ys := hys.mem_of_root List.mem_cons_self
  obtain ⟨field, hfield⟩ := exists_of_has right (hys.has_of_mem hbeside)
  have hright : s₁.arena.get? right = some field :=
    (hprogress₁.ready.untouched .expression right hbeside).trans hfield
  obtain ⟨s₂, hrun₂, hremarks₂, hfieldName⟩ :=
    exists_runs_checkMemberName (a := a) (c := a.scopeOf scopes) hright
  have hread₂ := hremarks₂.effect.frame .expression id node₁ hread₁ List.not_mem_nil
  refine ⟨s₂, runs_bind.2 ⟨(), s₁, hrun₁, hrun₂⟩, ?_⟩
  refine (hprogress₁.aside htree hremarks₂).complete id rfl hget hread₂ hslots ?_ ?_
    (List.subset_append_left _ _) (hinside ▸ List.Subset.refl _) fun hsilent => ?_
  · rcases hnode₁ with ⟨rfl, rfl⟩ | ⟨-, rfl⟩
    · exact hslots
    · rw [Node.slots, hkind]
      rfl
  · rw [Node.start?, hkind]
  · intro node' left' field' hget' hkind'
    obtain rfl : found = node' := Option.some.inj (hget.symm.trans hget')
    cases hkind.symm.trans hkind'
    obtain ⟨name, x, hname⟩ := hfieldName hsilent
    exact ⟨field, name, x, hfield, hname⟩

/-- An expression that is neither a name nor a member access is resolved when its operands are. -/
theorem walkExpression_resolves (hset : Setting a routines nodes)
    (hbelow : Handles a routines nodes below n) {id : ExpressionId} {node : Expression}
    (h : Arrival a routines nodes n ⟨scopes, .expression id⟩ all s) (hget : a.get? id = some node)
    (hmember : node.kind.NotMember) (hname : Node.start? .expression node = none) :
    ∃ s', Runs (walkExpression below id) (a.scopeOf scopes) s () s' ∧
      Visited a ⟨scopes, .expression id⟩ all none s s' := by
  obtain ⟨found, rest, hfound, hread, hspans, rfl, hlayers, hmem, htop, hprogress⟩ :=
    h.begin id rfl
  obtain rfl : found = node := Option.some.inj (hfound.symm.trans hget)
  have hoperands : ∀ e ∈ found.kind.operands, a.Below a.top ⟨scopes, .expression e⟩ := fun e he =>
    htop _ (List.mem_map_of_mem (List.mem_map_of_mem (slots_of_notMember hmember ▸ he)))
  rw [← List.append_nil rest] at hprogress
  obtain ⟨stood, node₁, s₁, hrun₁, hprogress₁, hfst, hread₁, hsnd, -, -⟩ :=
    walkExpression_part hset hbelow hmem hread hmember hoperands hspans (by omega) hprogress
  refine ⟨s₁, hrun₁, hprogress₁.complete id rfl hget hread₁ ?_ hsnd hname (List.Subset.refl _) ?_
    fun _ => checked_of_notMember hget hmember⟩
  · rw [slots_of_notMember hmember, hfst]
  · rw [insideNode, slots_of_notMember hmember, List.map_map]
    exact List.Subset.refl _

/-- **An expression is resolved.** -/
theorem resolveExpression_resolves (hset : Setting a routines nodes)
    (hbelow : Handles a routines nodes below n) {id : ExpressionId}
    (h : Arrival a routines nodes n ⟨scopes, .expression id⟩ all s) :
    ExpressionResolved a scopes all s id (resolveExpression below id) := by
  obtain ⟨node, rest, hget, hread, -⟩ := h.begin id rfl
  -- whatever is no identifier stays in its slot
  have hstays : (∀ name target, node.kind ≠ .identifier name target) →
      ∀ m : NamesM Unit, (∃ s', Runs m (a.scopeOf scopes) s () s' ∧
        Visited a ⟨scopes, .expression id⟩ all none s s') →
      ExpressionResolved a scopes all s id (do m; return none) := by
    intro hkind m hrun
    obtain ⟨s', hrun, hvisited⟩ := hrun
    exact ⟨none, s', runs_bind.2 ⟨(), s', hrun, runs_pure.2 ⟨rfl, rfl⟩⟩, hvisited,
      .other hget hkind, by rintro _ ⟨⟩⟩
  have hread' : ∀ m : NamesM (Option ExpressionId), ExpressionResolved a scopes all s id m →
      (∀ r s', Runs m (a.scopeOf scopes) s r s' →
        Runs (resolveExpression below id) (a.scopeOf scopes) s r s') →
      ExpressionResolved a scopes all s id (resolveExpression below id) := by
    intro m hm hsame
    obtain ⟨r, s', hrun, hrest⟩ := hm
    exact ⟨r, s', hsame r s' hrun, hrest⟩
  cases hkind : node.kind with
  | identifier name target =>
      refine hread' _ (resolveIdentifier_resolves hset h hget hkind) fun r s' hrun =>
        runs_node_bind.2 ⟨node, hread, ?_⟩
      rw [hkind]
      exact hrun
  | call name target arguments =>
      refine hread' _ (hstays (by rw [hkind]; rintro _ _ ⟨⟩) _
        (resolveCall_resolves hset hbelow h hget hkind)) fun r s' hrun =>
        runs_node_bind.2 ⟨node, hread, ?_⟩
      rw [hkind]
      simpa only [bind_assoc] using hrun
  | binary operator left right =>
      by_cases hmember : operator = .member
      · subst hmember
        refine hread' _ (hstays (by rw [hkind]; rintro _ _ ⟨⟩) _
          (resolveMember_resolves hset hbelow h hget hkind)) fun r s' hrun =>
          runs_node_bind.2 ⟨node, hread, ?_⟩
        rw [hkind]
        simpa only [bind_assoc] using hrun
      · refine hread' _ (hstays (by rw [hkind]; rintro _ _ ⟨⟩) _
          (walkExpression_resolves hset hbelow h hget ?_ ?_)) fun r s' hrun =>
          runs_node_bind.2 ⟨node, hread, ?_⟩
        · rw [hkind]
          intro l r heq
          cases heq
          exact hmember rfl
        · rw [Node.start?, hkind]
        · rw [hkind]
          cases operator <;> first | exact hrun | exact absurd rfl hmember
  | integer | real | boolean | unary =>
      refine hread' _ (hstays (by rw [hkind]; rintro _ _ ⟨⟩) _
        (walkExpression_resolves hset hbelow h hget ?_ ?_)) fun r s' hrun =>
        runs_node_bind.2 ⟨node, hread, ?_⟩
      · rw [hkind]
        rintro _ _ ⟨⟩
      · rw [Node.start?, hkind]
      · rw [hkind]
        exact hrun

/-! ### The layer -/

/-- **A layer resolves what it visits**, if the layers below do. -/
theorem resolver_handles (hset : Setting a routines nodes)
    (hbelow : Handles a routines nodes below n) :
    Handles a routines nodes (resolver below) (n + 1) := by
  intro scopes v site hentry htop hdistinct all s hspans hsub hnodup hlayers hready
  -- what is no expression gives nothing to stand in a slot
  have hnone : (∀ e, site.visit ≠ .expression e) → ∀ m : NamesM Unit,
      (∃ s', Runs m (a.scopeOf scopes) s () s' ∧ Visited a site all none s s') →
      ∃ r s', Runs (do m; return none) (a.scopeOf scopes) s r s' ∧ Visited a site all r s s' ∧
        (∀ e, site.visit = .expression e →
          StandsFor a s'.arena s'.diagnostics.toList scopes e (r.getD e) ∧
          ∀ c, r = some c → a.count .expression ≤ c.index) ∧
        ((∀ e, site.visit ≠ .expression e) → r = none) := by
    intro hkind m hrun
    obtain ⟨s', hrun, hvisited⟩ := hrun
    exact ⟨none, s', runs_bind.2 ⟨(), s', hrun, runs_pure.2 ⟨rfl, rfl⟩⟩, hvisited,
      fun e he => absurd he (hkind e), fun _ => rfl⟩
  have hhas := hspans.has_of_mem (hspans.mem_of_root List.mem_cons_self)
  cases hentry with
  | body scopes id =>
      exact hnone nofun _ (resolveBody_resolves hset hbelow htop hdistinct hspans hsub hnodup
        hlayers hready)
  | declaration scopes d =>
      have hlayers' : 2 * all.length + d.visit.layers ≤ n := by
        have hzero : d.visit.layers = 0 := by
          cases d <;> rfl
        rw [hzero]
        exact Nat.le_of_succ_le_succ hlayers
      have hkind : ∀ e, d.visit ≠ .expression e := by cases d <;> nofun
      obtain ⟨r, s', hrun, hvisited, -, hr⟩ := hbelow
        (.node ⟨scopes, d.visit⟩ (by cases d <;> nofun)) htop hdistinct hspans hsub hnodup hlayers'
        hready
      obtain rfl := hr hkind
      refine hnone hkind (walk below (.declaration d)) ⟨s', ?_, hvisited⟩
      cases d <;> exact runs_discard.2 ⟨none, hrun⟩
  | node site hbody =>
      have harrival : Arrival a routines nodes n site all s :=
        ⟨htop, hspans, hsub, hnodup, by omega, hready, hdistinct⟩
      obtain ⟨scopes, v⟩ := site
      obtain ⟨family, id, rfl⟩ := hhas.exists_of
      cases family with
      | routine => exact hnone nofun _ (resolveRoutine_resolves hset hbelow harrival)
      | «variable» => exact hnone nofun _ (walkVariable_resolves hset hbelow harrival)
      | typeDecl => exact hnone nofun _ (walkTypeDecl_resolves hset hbelow harrival)
      | type => exact hnone nofun _ (resolveTypeNode_resolves hset hbelow harrival)
      | body => exact absurd rfl (hbody id)
      | statement => exact hnone nofun _ (resolveStatement_resolves hset hbelow harrival)
      | expression =>
          obtain ⟨r, s', hrun, hvisited, hstands, hfresh⟩ :=
            resolveExpression_resolves hset hbelow harrival
          refine ⟨r, s', hrun, hvisited, fun e he => ?_, fun hno => absurd rfl (hno id)⟩
          cases he
          exact ⟨hstands, hfresh⟩

/-- **Name resolution resolves every tree** for which there are enough layers. -/
theorem visitWithin_handles (hset : Setting a routines nodes) (n : Nat) :
    Handles a routines nodes (visitWithin resolver n) n := by
  induction n with
  | zero =>
      intro scopes v site hentry htop hdistinct all s hspans hsub hnodup hlayers hready
      obtain ⟨-, rest, -, rfl⟩ := hspans.singleton_inv
      rw [List.length_cons] at hlayers
      omega
  | succ n ih => exact resolver_handles hset ih

end ProcLang
