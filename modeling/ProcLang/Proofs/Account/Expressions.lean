import ProcLang.Proofs.Account.Layer

/-!
# ProcLang.Proofs.Account.Expressions

**Expressions in the account.** A bare name is reported if neither a variable nor a routine has it, a
call if no routine has its name, and a member access if there is something else than a name behind its
point. Together with the other kinds of nodes this makes a layer (`resolver_recounts`).
-/

namespace ProcLang

open Arena WalkM

variable {a : Arena} {routines : Routines} {nodes : List Visit}
  {below : Visit → NamesM (Option ExpressionId)} {n : Nat} {all xs todo : List Visit}
  {s s' : WalkState Routines} {scopes : List (List Declaration)}

/-! ### Identifiers -/

/-- No link of a type is set when an expression is added, and no call but the added one. -/
theorem told_added {name : String} {r : RoutineId} (hname : a.routineNamed name = some r) (span : Span)
    (s : WalkState Routines) :
    Told a scopes xs [] s (s.added .expression (.plain (.call name (some r) []) span)) where
  reported := ⟨[], (List.append_nil _).symm, .nil⟩
  linked t e := by
    rintro ⟨found, name', hget, hfound⟩
    rcases get?_added hget with hold | ⟨heq, -, -⟩
    · exact Or.inl ⟨found, name', hold, hfound⟩
    · nomatch heq
  called e name' r' := by
    rintro ⟨found, arguments', hget, hfound⟩
    rcases get?_added hget with hold | ⟨_, hnew, -⟩
    · exact Or.inl ⟨found, arguments', hold, hfound⟩
    · obtain rfl : .plain (.call name (some r) []) span = found := hnew
      obtain ⟨rfl, heq, -⟩ := ExpressionKind.call.inj hfound
      exact Or.inr (hname.trans heq)
  identified e x := by
    rintro ⟨found, name', hget, hfound⟩
    rcases get?_added hget with hold | ⟨_, hnew, -⟩
    · exact Or.inl ⟨found, name', hold, hfound⟩
    · obtain rfl : .plain (.call name (some r) []) span = found := hnew
      nomatch hfound

/-- An expression that is overwritten has the links that it had, or those that its name stands for. -/
theorem told_put {id : ExpressionId} {old node : Expression} (s : WalkState Routines)
    (hget : s.arena.get? id = some old)
    (hcall : ∀ name r arguments, node.kind = .call name (some r) arguments →
      s.arena.Calls id name r ∨ a.routineNamed name = some r)
    (hname : ∀ name x, node.kind = .identifier name (some x) →
      s.arena.Identifies id x ∨ a.Declares id x) :
    Told a scopes xs [] s (s.put id node) where
  reported := ⟨[], (List.append_nil _).symm, .nil⟩
  linked t e h := Or.inl (h.of_put nofun)
  called e name r h := by
    by_cases hsame : Visit.of e = Visit.of id
    · obtain rfl := Visit.of_injective hsame
      obtain ⟨found, arguments, hfound, hkind⟩ := h
      obtain rfl := Option.some.inj ((get?_put_self hget _).symm.trans hfound)
      exact hcall name r arguments hkind
    · exact Or.inl (h.of_put hsame)
  identified e x h := by
    by_cases hsame : Visit.of e = Visit.of id
    · obtain rfl := Visit.of_injective hsame
      obtain ⟨found, name, hfound, hkind⟩ := h
      obtain rfl := Option.some.inj ((get?_put_self hget _).symm.trans hfound)
      exact hname name x hkind
    · exact Or.inl (h.of_put hsame)

/-- A call is linked to the routine of its name. -/
theorem told_linked {id : ExpressionId} {node : Expression} {r : RoutineId}
    (hname : ∀ name target arguments, node.kind = .call name target arguments →
      a.routineNamed name = some r) (s : WalkState Routines) (hget : s.arena.get? id = some node) :
    Told a scopes xs [] s (s.put id { node with kind := node.kind.setRoutine r }) := by
  refine told_put s hget (fun name r' arguments hcall => ?_) fun name x hidentifier => ?_
  · cases hkind : node.kind with
    | call other target before =>
        rw [hkind] at hcall
        obtain ⟨rfl, heq, -⟩ := ExpressionKind.call.inj hcall
        exact Or.inr ((hname _ _ _ hkind).trans heq)
    | unary | binary | integer | real | boolean | identifier =>
        rw [hkind] at hcall
        nomatch hcall
  · cases hkind : node.kind with
    | identifier =>
        rw [hkind] at hidentifier
        exact Or.inl ⟨node, name, hget, hkind.trans hidentifier⟩
    | unary | binary | integer | real | boolean | call =>
        rw [hkind] at hidentifier
        nomatch hidentifier

/-- **A bare name is told.** -/
theorem resolveIdentifier_recounts (hset : Setting a routines nodes) {id : ExpressionId}
    {node : Expression} {name : String} {target : Option VariableId} {r : Option ExpressionId}
    (h : Reached a routines nodes n scopes (.expression id) all s) (hget : a.get? id = some node)
    (hkind : node.kind = .identifier name target)
    (hrun : Runs (resolveIdentifier id name) (a.scopeOf scopes) s r s') :
    Recount a scopes [⟨scopes, .expression id⟩] all s s' := by
  have hread : s.arena.get? id = some node :=
    (h.facing.ready.untouched .expression id (h.spans.mem_of_root List.mem_cons_self)).trans hget
  have hinside : a.insideNode scopes .expression node = [] := by
    rw [insideNode, Node.slots, hkind]
    rfl
  have hbehind : a.behindNode ⟨scopes, Visit.of id⟩ .expression node = [] := by
    rw [behindNode, hkind]
  have hfinish : Told a scopes all (a.aheadNode ⟨scopes, Visit.of id⟩ .expression node) s s' →
      Recount a scopes [⟨scopes, .expression id⟩] all s s' := fun htold =>
    .of_node hget rfl htold (.of_nil hinside s') (.silent hbehind s')
  rw [resolveIdentifier] at hrun
  simp only [runs_read_bind, lookup_variableNames] at hrun
  cases hvariable : a.innermost Declaration.variable? name scopes with
  | some x =>
      rw [hvariable] at hrun
      obtain ⟨declared, -, hmore⟩ := runs_node_bind.1 hrun
      obtain ⟨found, hfound, hlast⟩ := runs_update_bind.1 hmore
      obtain ⟨-, rfl⟩ := runs_pure.1 hlast
      obtain rfl := Option.some.inj (hread.symm.trans hfound)
      refine hfinish ?_
      rw [show a.aheadNode ⟨scopes, Visit.of id⟩ .expression node = [] by
        simp [aheadNode, hkind, hvariable]]
      have hlink : node.kind.setVariable x = .identifier name (some x) := by
        rw [hkind]
        rfl
      refine told_put s hread (fun _ _ _ hcall => by cases hlink.symm.trans hcall)
        fun other y hidentifier => ?_
      cases hlink.symm.trans hidentifier
      exact Or.inr (.intro h.top hget hkind hvariable)
  | none =>
      rw [hvariable] at hrun
      obtain ⟨found, hfound, hmore⟩ := runs_node_bind.1 hrun
      obtain rfl := Option.some.inj (hread.symm.trans hfound)
      replace hmore := runs_get_bind.1 hmore
      rw [h.facing.ready.own, hset.lookup] at hmore
      cases hroutine : a.routineNamed name with
      | some routine =>
          rw [hroutine] at hmore
          obtain ⟨added, hadd, -⟩ := runs_map.1 (runs_note_bind.1 hmore)
          obtain ⟨-, rfl⟩ := runs_add.1 hadd
          refine hfinish ?_
          rw [show a.aheadNode ⟨scopes, Visit.of id⟩ .expression node = [] by
            simp [aheadNode, hkind, hvariable, hroutine]]
          exact Told.trans (.noted s _) (told_added hroutine node.span _)
      | none =>
          rw [hroutine] at hmore
          replace hmore := runs_report_bind.1 hmore
          obtain ⟨-, rfl⟩ := runs_pure.1 hmore
          refine hfinish ?_
          rw [show a.aheadNode ⟨scopes, Visit.of id⟩ .expression node =
              [⟨Visit.of id, .undeclaredName name⟩] by
            simp [aheadNode, hkind, hvariable, hroutine, Visit.of]]
          exact .single hget _ s

/-! ### Operands -/

/-- The operands of an expression are told. -/
theorem walkExpression_passed (htree : a.IsTree nodes) (hbelow : Recounts a routines nodes below n)
    {id : ExpressionId} {node : Expression} (howner : a.Below a.top ⟨scopes, .expression id⟩)
    (hmem : .expression id ∈ nodes) (hself : Visit.expression id ∉ xs)
    (hread : s.arena.get? id = some node) (hmember : node.kind.NotMember)
    (htop : ∀ e ∈ node.kind.operands, a.Below a.top ⟨scopes, .expression e⟩)
    (hspans : Spans a (node.kind.operands.map Visit.expression) xs) (hlayers : 2 * xs.length ≤ n)
    (h : Facing a routines nodes scopes xs s)
    (hrun : Runs (walkExpression below id) (a.scopeOf scopes) s () s') :
    Passed a routines nodes scopes (node.kind.operands.map fun e => ⟨scopes, .expression e⟩)
      (.expression id :: xs) [] s s' := by
  obtain ⟨found, hfound, hmore⟩ := runs_node_bind.1 hrun
  obtain rfl := Option.some.inj (hread.symm.trans hfound)
  rw [← List.append_nil xs] at h hself
  exact hbelow.visitSlots htree id howner hmem hself hread .refl
    (f := fun index c m => { m with kind := m.kind.setOperand index c })
    (fun m index c hchanges hopen hfresh => .operand m (by rwa [hchanges.length_slots]) hfresh) .operand
    (by simp [slots_of_notMember hmember]) htop hspans hlayers h hmore

/-- What is known of an expression whose operands were told. -/
theorem insideNode_of_notMember {node : Expression} (hmember : node.kind.NotMember) :
    a.insideNode scopes .expression node =
      node.kind.operands.map fun e => ⟨scopes, .expression e⟩ := by
  rw [insideNode, slots_of_notMember hmember, List.map_map]
  rfl

/-- An expression that is neither a name, a call nor a member access is told by its operands. -/
theorem walkExpression_recounts (htree : a.IsTree nodes) (hbelow : Recounts a routines nodes below n)
    {id : ExpressionId} {node : Expression}
    (h : Reached a routines nodes n scopes (.expression id) all s) (hget : a.get? id = some node)
    (hmember : node.kind.NotMember)
    (hahead : a.aheadNode ⟨scopes, Visit.of id⟩ .expression node = [])
    (hbehind : a.behindNode ⟨scopes, Visit.of id⟩ .expression node = [])
    (hrun : Runs (walkExpression below id) (a.scopeOf scopes) s () s') :
    Recount a scopes [⟨scopes, .expression id⟩] all s s' := by
  obtain ⟨found, rest, hfound, hread, hspans, rfl, hlayers, hmem, hself, htop, hfacing⟩ := h.begin id
  obtain rfl : found = node := Option.some.inj (hfound.symm.trans hget)
  rw [insideNode_of_notMember hmember] at htop
  have hpassed := walkExpression_passed htree hbelow h.top hmem hself hread hmember
    (fun e he => htop _ (List.mem_map_of_mem he)) hspans (by omega) hfacing hrun
  refine .of_node hget rfl (.silent hahead s) ?_ (.silent hbehind s')
  rw [insideNode_of_notMember hmember]
  exact hpassed.recount

/-! ### Calls -/

/-- **A call is told**: it is reported if no routine has its name. -/
theorem resolveCall_recounts (hset : Setting a routines nodes)
    (hbelow : Recounts a routines nodes below n) {id : ExpressionId} {node : Expression}
    {name : String} {target : Option RoutineId} {arguments : List ExpressionId}
    (h : Reached a routines nodes n scopes (.expression id) all s) (hget : a.get? id = some node)
    (hkind : node.kind = .call name target arguments) {s₁ : WalkState Routines}
    (hrun₁ : Runs (walkExpression below id) (a.scopeOf scopes) s () s₁)
    (hrun₂ : Runs (resolveCall id name) (a.scopeOf scopes) s₁ () s') :
    Recount a scopes [⟨scopes, .expression id⟩] all s s' := by
  obtain ⟨found, rest, hfound, hread, hspans, rfl, hlayers, hmem, hself, htop, hfacing⟩ := h.begin id
  obtain rfl : found = node := Option.some.inj (hfound.symm.trans hget)
  have hmember : found.kind.NotMember := by
    rw [hkind]
    nofun
  rw [insideNode_of_notMember hmember] at htop
  have hpassed := walkExpression_passed hset.tree hbelow h.top hmem hself hread hmember
    (fun e he => htop _ (List.mem_map_of_mem he)) hspans (by omega) hfacing hrun₁
  have hahead : a.aheadNode ⟨scopes, Visit.of id⟩ .expression found = [] := by
    rw [aheadNode, hkind]
  refine .of_node hget rfl (.silent hahead s)
    (by rw [insideNode_of_notMember hmember]; exact hpassed.recount) ?_
  replace hrun₂ := runs_get_bind.1 hrun₂
  rw [hpassed.facing.ready.own, hset.lookup] at hrun₂
  cases hroutine : a.routineNamed name with
  | some routine =>
      rw [hroutine] at hrun₂
      obtain ⟨linked, hlinked, rfl⟩ := runs_update.1 hrun₂
      obtain ⟨node', hnode', hchanges⟩ := hpassed.effect.evolves.changed .expression id found hread
      obtain rfl := Option.some.inj (hnode'.symm.trans hlinked)
      rw [show a.behindNode ⟨scopes, Visit.of id⟩ .expression found = [] by
        simp [behindNode, hkind, hroutine]]
      refine told_linked (fun name' target' arguments' hcall => ?_) s₁ hlinked
      obtain ⟨old, before, hbefore⟩ := hchanges.exists_call hcall
      obtain ⟨rfl, -, -⟩ := ExpressionKind.call.inj (hkind.symm.trans hbefore)
      exact hroutine
  | none =>
      rw [hroutine] at hrun₂
      obtain ⟨node₁, hread₁, hlast⟩ := runs_node_bind.1 hrun₂
      obtain rfl := runs_report.1 hlast
      obtain ⟨node', hnode', hchanges⟩ := hpassed.effect.evolves.changed .expression id found hread
      obtain rfl := Option.some.inj (hnode'.symm.trans hread₁)
      rw [show a.behindNode ⟨scopes, Visit.of id⟩ .expression found =
          [⟨Visit.of id, .undeclaredRoutine name⟩] by
        simp [behindNode, hkind, hroutine, Visit.of]]
      rw [show Expression.span node' = Expression.span found from hchanges.span_eq]
      exact .single hget _ s₁

/-! ### Member accesses -/

/-- **What is said of the name of a field**: it is reported if it is no name. -/
theorem checkMemberName_told {c : Scope} {id left right : ExpressionId} {node field : Expression}
    (hkind : node.kind = .binary .member left right) (hright : a.get? right = some field)
    (hread : s.arena.get? right = some field) (hrun : Runs (checkMemberName right) c s () s') :
    Told a scopes xs (a.behindNode ⟨scopes, Visit.of id⟩ .expression node) s s' := by
  obtain ⟨found, hfound, hlast⟩ := runs_node_bind.1 hrun
  obtain rfl := Option.some.inj (hread.symm.trans hfound)
  have hbehind : a.behindNode ⟨scopes, Visit.of id⟩ .expression node =
      if a.isName right then [] else [⟨Visit.of right, .memberNotIdentifier⟩] := by
    rw [behindNode, hkind]
    rfl
  have hname : a.isName right = true ↔ ∃ name x, field.kind = .identifier name x := by
    rw [isName, hright]
    constructor
    · intro hname
      split at hname
      · rename_i name x hkind
        exact ⟨name, x, Option.some.inj hkind⟩
      · cases hname
    · rintro ⟨name, x, hkind⟩
      simp [hkind]
  rw [hbehind]
  split at hlast
  · rename_i name x hkind
    obtain ⟨-, rfl⟩ := runs_pure.1 hlast
    rw [if_pos (hname.2 ⟨name, x, hkind⟩)]
    exact .refl s'
  · rename_i hno
    obtain rfl := runs_report.1 hlast
    rw [if_neg fun hyes => ?_]
    · exact .single hright _ s
    · obtain ⟨name, x, hkind⟩ := hname.1 hyes
      exact hno name x hkind

/-- **A member access is told**: what is behind its point is reported if it is no name. -/
theorem resolveMember_recounts (hset : Setting a routines nodes)
    (hbelow : Recounts a routines nodes below n) {id left right : ExpressionId} {node : Expression}
    (h : Reached a routines nodes n scopes (.expression id) all s) (hget : a.get? id = some node)
    (hkind : node.kind = .binary .member left right) {s₁ : WalkState Routines}
    (hrun₁ : Runs (visitOperand below id 0 left) (a.scopeOf scopes) s () s₁)
    (hrun₂ : Runs (checkMemberName right) (a.scopeOf scopes) s₁ () s') :
    Recount a scopes [⟨scopes, .expression id⟩] all s s' := by
  have htree := hset.tree
  obtain ⟨found, rest, hfound, hread, hspans, rfl, hlayers, hmem, hself, htop, hfacing⟩ := h.begin id
  obtain rfl : found = node := Option.some.inj (hfound.symm.trans hget)
  have hslots : Node.slots .expression found = [left] := by
    rw [Node.slots, hkind]
  have hinside : a.insideNode scopes .expression found = [⟨scopes, .expression left⟩] := by
    rw [insideNode, hslots]
    rfl
  rw [Node.children, hkind] at hspans
  obtain ⟨xs, ys, rfl, hxs, hys⟩ := hspans.cons_inv
  rw [List.length_append] at hlayers
  obtain ⟨hpassed, -⟩ := hbelow.visitSlot htree id h.top hmem hself hread
    (f := fun c m => { m with kind := m.kind.setOperand 0 c })
    (fun c hfresh => .operand found (by rw [hslots]; exact Nat.zero_lt_one) hfresh)
    (fun c => .operand found 0 c) (htop _ (hinside ▸ List.mem_cons_self)) hxs (by omega) hfacing
    hrun₁
  -- the name of the field has not been touched
  have hbeside : Visit.expression right ∈ ys := hys.mem_of_root List.mem_cons_self
  have huntouched := hpassed.facing.ready.untouched .expression right hbeside
  obtain ⟨field, hfield, -⟩ := runs_node_bind.1 hrun₂
  have hahead : a.aheadNode ⟨scopes, Visit.of id⟩ .expression found = [] := by
    rw [aheadNode, hkind]
  have hrecount : Recount a scopes (a.insideNode scopes .expression found) (.expression id :: (xs ++ ys))
      s s₁ := by
    rw [hinside]
    exact hpassed.recount.mono (List.cons_subset_cons _ (List.subset_append_left _ _))
  exact .of_node hget rfl (.silent hahead s) hrecount
    (checkMemberName_told hkind (huntouched.symm.trans hfield) hfield hrun₂)

/-! ### The layer -/

/-- **An expression is told.** -/
theorem resolveExpression_recounts (hset : Setting a routines nodes)
    (hbelow : Recounts a routines nodes below n) {id : ExpressionId} {r : Option ExpressionId}
    (h : Reached a routines nodes n scopes (.expression id) all s)
    (hrun : Runs (resolveExpression below id) (a.scopeOf scopes) s r s') :
    Recount a scopes [⟨scopes, .expression id⟩] all s s' := by
  obtain ⟨node, rest, hget, hread, -⟩ := h.begin id
  obtain ⟨found, hfound, hmore⟩ := runs_node_bind.1 hrun
  obtain rfl := Option.some.inj (hread.symm.trans hfound)
  cases hkind : node.kind with
  | identifier name target =>
      rw [hkind] at hmore
      exact resolveIdentifier_recounts hset h hget hkind hmore
  | call name target arguments =>
      rw [hkind] at hmore
      obtain ⟨⟨⟩, s₁, hrun₁, hmore⟩ := runs_bind.1 hmore
      obtain ⟨⟨⟩, s₂, hrun₂, hlast⟩ := runs_bind.1 hmore
      obtain ⟨-, rfl⟩ := runs_pure.1 hlast
      exact resolveCall_recounts hset hbelow h hget hkind hrun₁ hrun₂
  | binary operator left right =>
      by_cases hmember : operator = .member
      · subst hmember
        rw [hkind] at hmore
        obtain ⟨⟨⟩, s₁, hrun₁, hmore⟩ := runs_bind.1 hmore
        obtain ⟨⟨⟩, s₂, hrun₂, hlast⟩ := runs_bind.1 hmore
        obtain ⟨-, rfl⟩ := runs_pure.1 hlast
        exact resolveMember_recounts hset hbelow h hget hkind hrun₁ hrun₂
      · rw [hkind] at hmore
        have hwalk : Runs (do walkExpression below id; return none) (a.scopeOf scopes) s r s' := by
          cases operator <;> first | exact hmore | exact absurd rfl hmember
        obtain ⟨⟨⟩, s₁, hrun₁, hlast⟩ := runs_bind.1 hwalk
        obtain ⟨-, rfl⟩ := runs_pure.1 hlast
        refine walkExpression_recounts hset.tree hbelow h hget ?_ ?_ ?_ hrun₁
        · rw [hkind]
          intro l r heq
          cases heq
          exact hmember rfl
        · rw [aheadNode, hkind]
        · rw [behindNode, hkind]
          cases operator <;> first | rfl | exact absurd rfl hmember
  | integer | real | boolean | unary =>
      rw [hkind] at hmore
      obtain ⟨⟨⟩, s₁, hrun₁, hlast⟩ := runs_bind.1 hmore
      obtain ⟨-, rfl⟩ := runs_pure.1 hlast
      refine walkExpression_recounts hset.tree hbelow h hget ?_ ?_ ?_ hrun₁
      · rw [hkind]
        rintro _ _ ⟨⟩
      · rw [aheadNode, hkind]
      · rw [behindNode, hkind]

/-- **A layer tells what it visits**, if the layers below do. -/
theorem resolver_recounts (hset : Setting a routines nodes)
    (hbelow : Recounts a routines nodes below n) :
    Recounts a routines nodes (resolver below) (n + 1) where
  handles := resolver_handles hset hbelow.handles
  recount := by
    intro scopes v site hentry htop all s r s' hspans hlayers h hrun
    have hhas := hspans.has_of_mem (hspans.mem_of_root List.mem_cons_self)
    cases hentry with
    | body scopes id =>
        obtain ⟨⟨⟩, s₁, hrun₁, hlast⟩ := runs_bind.1 hrun
        obtain ⟨-, rfl⟩ := runs_pure.1 hlast
        exact resolveBody_recounts hset hbelow htop hspans hlayers h hrun₁
    | declaration scopes d =>
        obtain ⟨⟨⟩, s₁, hrun₁, hlast⟩ := runs_bind.1 hrun
        obtain ⟨-, rfl⟩ := runs_pure.1 hlast
        have hbelowRun : ∃ r, Runs (below d.visit) (a.scopeOf scopes) s r s' := by
          cases d <;> exact runs_discard.1 hrun₁
        obtain ⟨r, hrun₂⟩ := hbelowRun
        have hlayers' : 2 * all.length + d.visit.layers ≤ n := by
          have hzero : d.visit.layers = 0 := by
            cases d <;> rfl
          rw [hzero]
          exact Nat.le_of_succ_le_succ hlayers
        exact hbelow.recount (.node ⟨scopes, d.visit⟩ (by cases d <;> nofun)) htop hspans hlayers' h
          hrun₂
    | node site hbody =>
        obtain ⟨scopes, v⟩ := site
        have hreached : Reached a routines nodes n scopes v all s := ⟨htop, hspans, by omega, h⟩
        obtain ⟨family, id, rfl⟩ := hhas.exists_of
        cases family with
        | expression => exact resolveExpression_recounts hset hbelow hreached hrun
        | body => exact absurd rfl (hbody id)
        | routine =>
            obtain ⟨⟨⟩, s₁, hrun₁, hlast⟩ := runs_bind.1 hrun
            obtain ⟨-, rfl⟩ := runs_pure.1 hlast
            exact resolveRoutine_recounts hset hbelow hreached hrun₁
        | «variable» =>
            obtain ⟨⟨⟩, s₁, hrun₁, hlast⟩ := runs_bind.1 hrun
            obtain ⟨-, rfl⟩ := runs_pure.1 hlast
            exact walkVariable_recounts hset.tree hbelow hreached hrun₁
        | typeDecl =>
            obtain ⟨⟨⟩, s₁, hrun₁, hlast⟩ := runs_bind.1 hrun
            obtain ⟨-, rfl⟩ := runs_pure.1 hlast
            exact walkTypeDecl_recounts hset.tree hbelow hreached hrun₁
        | type =>
            obtain ⟨⟨⟩, s₁, hrun₁, hlast⟩ := runs_bind.1 hrun
            obtain ⟨-, rfl⟩ := runs_pure.1 hlast
            exact resolveTypeNode_recounts hset.tree hbelow hreached hrun₁
        | statement =>
            obtain ⟨⟨⟩, s₁, hrun₁, hlast⟩ := runs_bind.1 hrun
            obtain ⟨-, rfl⟩ := runs_pure.1 hlast
            exact resolveStatement_recounts hset hbelow hreached hrun₁

/-- **Name resolution tells the account of every tree** for which there are enough layers. -/
theorem visitWithin_recounts (hset : Setting a routines nodes) (n : Nat) :
    Recounts a routines nodes (visitWithin resolver n) n := by
  induction n with
  | zero =>
      refine ⟨visitWithin_handles hset 0, fun {scopes v site} _ _ {all s r s'} hspans hlayers _ _ => ?_⟩
      obtain ⟨-, rest, -, rfl⟩ := hspans.singleton_inv
      rw [List.length_cons] at hlayers
      omega
  | succ n ih => exact resolver_recounts hset ih

end ProcLang
