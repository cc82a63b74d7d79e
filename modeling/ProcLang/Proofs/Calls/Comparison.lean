import ProcLang.Proofs.Typing.Consistency
import ProcLang.Proofs.Walk.Erasure

/-!
# ProcLang.Proofs.Calls.Comparison

**What the check of calls compares.** An argument is compared with the type that it has when its turn
comes; without a type it is not compared at all. `a.comparisons` are the arguments in the order of
their turns, with the types that they had. They are written down by a visitor that otherwise does
what the check of calls does (`callVisitor_watched`).

If nothing is reported, then an argument that had a type had the type of its parameter, and keeps it
in every tree that more is known of (`Compared`). So every call below the program has arguments that
agree, but for those whose types were not known (`comparisons_cover`).
-/

namespace ProcLang

open Arena WalkM Judgement

/-! ### The comparisons -/

/-- The turn of an argument, and the type that the argument had, if any. -/
structure Comparison where
  argument : ExpressionId
  parameter : VariableId
  received : Option TypeId
  deriving DecidableEq, Repr

/-- Compares an argument, and writes down the type that it had. -/
def recordArgument : ArgumentCheck (List Comparison) := fun argument parameter number => do
  checkArgument argument parameter number
  let received := (← node argument).type
  updateOwn fun seen => seen ++ [⟨argument, parameter, received⟩]

/-- The turns of arguments when the calls of a tree are checked. -/
def Arena.comparisons (a : Arena) : Except Fault (List Comparison) := do
  return (← a.walkProgram (callVisitor recordArgument) () []).own

/-! ### The turn of one call -/

/-- What is done when an expression has its turn. -/
inductive CallTurn {σ : Type} (check : ArgumentCheck σ) (c : Unit) (id : ExpressionId)
    (s : WalkState σ) : WalkState σ → Prop
  /-- A call without a routine is reported. -/
  | dangling {node : Expression} {name : String} {arguments : List ExpressionId}
      (hget : s.arena.get? id = some node) (hkind : node.kind = .call name none arguments) :
      CallTurn check c id s (s.reported (.danglingReference name) node.span.start)
  /-- The arguments of a call are checked, and then it gets the type of the result. -/
  | call {node node₁ : Expression} {name : String} {r : RoutineId} {arguments : List ExpressionId}
      {routine : Routine} {s₁ : WalkState σ} (hget : s.arena.get? id = some node)
      (hkind : node.kind = .call name (some r) arguments) (hroutine : s.arena.get? r = some routine)
      (harguments : Runs (checkArguments check arguments routine.parameters node.span.start) c s () s₁)
      (hget₁ : s₁.arena.get? id = some node₁) :
      CallTurn check c id s (s₁.put id { node₁ with type := routine.returnType })
  | other {node : Expression} (hget : s.arena.get? id = some node)
      (hkind : ∀ name target arguments, node.kind ≠ .call name target arguments) :
      CallTurn check c id s s

theorem callTurn_of_runs {σ : Type} {check : ArgumentCheck σ} {c u : Unit} {id : ExpressionId}
    {s s' : WalkState σ} (hrun : Runs (checkCall check id) c s u s') : CallTurn check c id s s' := by
  obtain ⟨node, hget, hrun⟩ := runs_node_bind.1 hrun
  split at hrun
  · rename_i name arguments hkind
    obtain rfl := runs_report.1 hrun
    exact .dangling hget hkind
  · rename_i name r arguments hkind
    obtain ⟨routine, hroutine, hrun⟩ := runs_node_bind.1 hrun
    obtain ⟨_, s₁, harguments, hrun⟩ := runs_bind.1 hrun
    obtain ⟨node₁, hget₁, rfl⟩ := runs_update.1 hrun
    exact .call hget hkind hroutine harguments hget₁
  · rename_i hdangling hcall
    obtain ⟨-, rfl⟩ := runs_pure.1 hrun
    refine .other hget fun name target arguments hkind => ?_
    cases target with
    | none => exact hdangling name arguments hkind
    | some r => exact hcall name r arguments hkind

/-! ### The turn of one argument -/

section

variable {σ τ : Type} {c : Unit} {u : Unit} {argument : ExpressionId} {parameter : VariableId}
  {number : Nat}

/-- **An argument is typed, and compared if it has a type then.** -/
theorem checkArgument_runs {s s' : WalkState σ}
    (hrun : Runs (checkArgument argument parameter number) c s u s') :
    Refines Eq s s' ∧ ∃ e v, s'.arena.get? argument = some e ∧ s'.arena.get? parameter = some v ∧
      (s'.diagnostics = #[] → ∀ t p, e.type = some t → v.declaredType = some p →
        s'.arena.sameType t p = .ok true) := by
  obtain ⟨_, s₁, htype, hrun⟩ := runs_bind.1 hrun
  have hrefines := refines_typeQuietly htype
  obtain ⟨e, he, hrun⟩ := runs_node_bind.1 hrun
  obtain ⟨v, hv, hrun⟩ := runs_node_bind.1 hrun
  cases ht : e.type with
  | none =>
      rw [ht] at hrun
      obtain ⟨-, rfl⟩ := runs_pure.1 hrun
      refine ⟨hrefines, e, v, he, hv, fun _ t p ht' => ?_⟩
      nomatch ht.symm.trans ht'
  | some t =>
      cases hp : v.declaredType with
      | none =>
          rw [ht, hp] at hrun
          obtain ⟨-, rfl⟩ := runs_pure.1 hrun
          refine ⟨hrefines, e, v, he, hv, fun _ t' p _ hp' => ?_⟩
          nomatch hp.symm.trans hp'
      | some p =>
          rw [ht, hp] at hrun
          obtain ⟨same, hsame, hrun⟩ := runs_inspect_bind.1 hrun
          split at hrun
          · rename_i htrue
            obtain ⟨-, rfl⟩ := runs_pure.1 hrun
            refine ⟨hrefines, e, v, he, hv, fun _ t' p' ht' hp' => ?_⟩
            obtain rfl := Option.some.inj (ht.symm.trans ht')
            obtain rfl := Option.some.inj (hp.symm.trans hp')
            rw [hsame, htrue]
          · -- the types differ, and that is reported
            obtain ⟨expected, -, hrun⟩ := runs_inspect_bind.1 hrun
            obtain ⟨received, -, hrun⟩ := runs_inspect_bind.1 hrun
            obtain ⟨_, -, hrun⟩ := runs_node_bind.1 hrun
            obtain rfl := runs_report.1 hrun
            refine ⟨hrefines.trans (fun h₁ h₂ => h₁.trans h₂) (.reported s₁ _ _), e, v, he, hv,
              fun hsilent => ?_⟩
            simp [WalkState.reported] at hsilent

/-- What is recorded does not change what is done. -/
theorem mirrors_checkArgument :
    Mirrors (checkArgument argument parameter number : CallsM σ Unit)
      (checkArgument argument parameter number : CallsM τ Unit) := by
  refine .bind (.typeQuietly argument) fun _ => .bind (.node argument) fun e =>
    .bind (.node parameter) fun v => ?_
  cases e.type with
  | none => exact .pure _
  | some t =>
      cases v.declaredType with
      | none => exact .pure _
      | some p =>
          refine .bind (.inspect _) fun same => ?_
          cases same with
          | true => exact .pure _
          | false =>
              refine .bind (.inspect _) fun expected => .bind (.inspect _) fun received => ?_
              exact .bind (.node argument) fun e => .report _ _

theorem mirrors_recordArgument :
    Mirrors (checkArgument argument parameter number : CallsM σ Unit)
      (recordArgument argument parameter number) := by
  intro c s u s' t hrun hbeside
  obtain ⟨t', hcheck, own, rfl⟩ := mirrors_checkArgument _ _ _ _ _ hrun hbeside
  obtain ⟨-, e, v, he, -, -⟩ := checkArgument_runs hcheck
  refine ⟨s'.withOwn (own ++ [⟨argument, parameter, e.type⟩]), ?_, _, rfl⟩
  exact runs_bind.2 ⟨_, _, hcheck, runs_node_bind.2 ⟨e, he, rfl⟩⟩

end

/-! ### Watching the check of calls -/

/-- **The check of calls does the same when it is watched.** -/
theorem callVisitor_watched {a : Arena} {s : WalkState Unit}
    (hrun : a.walkProgram (callVisitor checkArgument) () () = .ok s) :
    ∃ history, a.walkProgram (callVisitor recordArgument) () [] = .ok (s.withOwn history) := by
  refine Mirrors.walkProgram (fun below below' h v => ?_) hrun []
  have hcall : ∀ id, Mirrors (checkCall (checkArgument : ArgumentCheck Unit) id)
      (checkCall recordArgument id) := by
    intro id
    refine .bind (.node id) fun e => ?_
    cases e.kind with
    | call name target arguments =>
        cases target with
        | none => exact .report _ _
        | some r =>
            refine .bind (.node r) fun routine => .bind ?_ fun _ => .update id _
            unfold checkArguments
            split
            · exact .forM fun p => mirrors_recordArgument
            · exact .report _ _
    | unary | binary | integer | real | boolean | identifier => exact .pure _
  cases v with
  | «variable» id =>
      refine .bind (.walkVariable h id) fun _ => .bind (.node id) fun v => ?_
      cases v.initializer with
      | none => exact .pure _
      | some e => exact .bind (.typeQuietly e) fun _ => .pure _
  | expression id =>
      exact .bind (.walkExpression h id) fun _ => .bind (hcall id) fun _ => .pure _
  | program | declaration | routine | typeDecl | type | body | statement =>
      exact .walkThrough h _

/-! ### What was compared -/

variable {a b : Arena} {history : List Comparison}

/-- Between two states a tree was refined and turns of arguments were written down. -/
abbrev Records : WalkState (List Comparison) → WalkState (List Comparison) → Prop :=
  Refines fun before after => before ⊆ after

/-- An argument had its turn: without a type, or with the type that it has in the tree, and that is
then the one of the parameter. -/
def Compared (a : Arena) (history : List Comparison) (argument : ExpressionId)
    (parameter : VariableId) : Prop :=
  ∃ received, ⟨argument, parameter, received⟩ ∈ history ∧ ∀ t, received = some t →
    (∃ e, a.get? argument = some e ∧ e.type = some t) ∧
    ∀ v p, a.get? parameter = some v → v.declaredType = some p → a.sameType t p = .ok true

/-- What was compared stays so when more becomes known. -/
theorem Compared.refine {argument : ExpressionId} {parameter : VariableId}
    {later : List Comparison} (h : Compared a history argument parameter)
    (hrefined : a.RefinedBy b) (hfield : ¬ a.IsField argument) (hsub : history ⊆ later) :
    Compared b later argument parameter := by
  obtain ⟨received, hmem, hknown⟩ := h
  refine ⟨received, hsub hmem, fun t ht => ?_⟩
  obtain ⟨⟨e, he, htype⟩, hsame⟩ := hknown t ht
  obtain ⟨e', he', -⟩ := hrefined.expressions argument e he
  refine ⟨⟨e', he', hrefined.type_eq hfield he he' htype⟩, fun v p hv hp => ?_⟩
  rw [hrefined.get?_eq .variable nofun] at hv
  rw [hrefined.sameType_eq]
  exact hsame v p hv hp

section

variable {c u : Unit} {s s' : WalkState (List Comparison)}

theorem records_trans {s₁ : WalkState (List Comparison)} (h₁ : Records s s₁) (h₂ : Records s₁ s') :
    Records s s' :=
  h₁.trans List.Subset.trans h₂

theorem recordArgument_runs {argument : ExpressionId} {parameter : VariableId} {number : Nat}
    (hrun : Runs (recordArgument argument parameter number) c s u s') :
    Records s s' ∧ (s'.diagnostics = #[] → Compared s'.arena s'.own argument parameter) := by
  obtain ⟨_, s₁, hcheck, hrun⟩ := runs_bind.1 hrun
  obtain ⟨hrefines, e, v, he, hv, hsame⟩ := checkArgument_runs hcheck
  obtain ⟨e', he', hrun⟩ := runs_node_bind.1 hrun
  obtain rfl : e = e' := Option.some.inj (he.symm.trans he')
  obtain rfl : s' = { s₁ with own := s₁.own ++ [⟨argument, parameter, e.type⟩] } :=
    (Prod.mk.inj (Except.ok.inj hrun)).2.symm
  refine ⟨⟨hrefines.refined, hrefines.silent, ?_⟩, fun hsilent => ?_⟩
  · rw [show s.own = s₁.own from hrefines.own]
    exact List.subset_append_left _ _
  · refine ⟨e.type, List.mem_append_right _ List.mem_cons_self, fun t ht => ⟨⟨e, he, ht⟩, ?_⟩⟩
    intro v' p hv' hp
    obtain rfl : v = v' := Option.some.inj (hv.symm.trans hv')
    exact hsame hsilent t p ht hp

theorem recordArguments_runs {turns : List ((ExpressionId × VariableId) × Nat)} {u : PUnit}
    (hrun : Runs (turns.forM fun ((argument, parameter), index) =>
      recordArgument argument parameter (index + 1)) c s u s') :
    Records s s' ∧ (s'.diagnostics = #[] → s.arena.Consistent →
      (∀ p ∈ turns, ¬ s.arena.IsField p.1.1) →
      ∀ p ∈ turns, Compared s'.arena s'.own p.1.1 p.1.2) := by
  induction turns generalizing s with
  | nil =>
      obtain rfl := runs_forM_nil.1 hrun
      exact ⟨.refl (fun _ => List.Subset.refl _) _, fun _ _ _ => nofun⟩
  | cons p rest ih =>
      obtain ⟨s₁, hfirst, hrest⟩ := runs_forM_cons.1 hrun
      obtain ⟨hrecords, hcompared⟩ := recordArgument_runs hfirst
      obtain ⟨hrecords', hothers⟩ := ih hrest
      refine ⟨records_trans hrecords hrecords', fun hsilent hconsistent hfields q hq => ?_⟩
      obtain ⟨hconsistent₁, hrefined₁⟩ := hrecords.refined hconsistent
      have hfields₁ : ∀ q ∈ p :: rest, ¬ s₁.arena.IsField q.1.1 := fun q hq hfield =>
        hfields q hq (hrefined₁.isField_iff.1 hfield)
      rcases List.mem_cons.1 hq with rfl | hq
      · exact (hcompared (hrecords'.silent hsilent)).refine (hrecords'.refined hconsistent₁).2
          (hfields₁ _ List.mem_cons_self) hrecords'.own
      · exact hothers hsilent hconsistent₁
          (fun q hq => hfields₁ q (List.mem_cons_of_mem _ hq)) q hq

/-- The arguments of a call agree with the parameters of its routine, but for those that had no
type when they had their turn. -/
def CallChecked (a : Arena) (history : List Comparison) (id : ExpressionId) : Prop :=
  ∀ node name r arguments, a.get? id = some node → node.kind = .call name (some r) arguments →
    ∃ routine, a.get? r = some routine ∧ routine.parameters.length = arguments.length ∧
      ∀ p ∈ arguments.zip routine.parameters, Compared a history p.1 p.2

theorem CallChecked.refine {id : ExpressionId} {later : List Comparison}
    (h : CallChecked a history id) (hconsistent : a.Consistent) (hrefined : a.RefinedBy b)
    (hsub : history ⊆ later) : CallChecked b later id := by
  intro node' name r arguments hnode' hkind'
  obtain ⟨node, hnode, hsame⟩ := hrefined.exists_get? hnode'
  have hkind : node.kind = .call name (some r) arguments := by
    rcases hsame.kind with hsame | ⟨-, other, target, target', -, hnew⟩
    · exact hsame.symm.trans hkind'
    · nomatch hnew.symm.trans hkind'
  obtain ⟨routine, hr, hlength, hcompared⟩ := h node name r arguments hnode hkind
  refine ⟨routine, (hrefined.get?_eq .routine nofun r).trans hr, hlength, fun p hp => ?_⟩
  refine (hcompared p hp).refine hrefined ?_ hsub
  refine hconsistent.separate.not_isField hnode ?_
  rw [Node.slots, hkind]
  exact (List.of_mem_zip hp).1

/-- A call with its routine. -/
structure CallStored (a : Arena) (id : ExpressionId) (node : Expression) (name : String)
    (r : RoutineId) (arguments : List ExpressionId) (routine : Routine) : Prop where
  get : a.get? id = some node
  kind : node.kind = .call name (some r) arguments
  routine : a.get? r = some routine

namespace CallStored

variable {id : ExpressionId} {node : Expression} {name : String} {r : RoutineId}
  {arguments : List ExpressionId} {routine : Routine}

/-- A call has its routine in every tree that more is known of. -/
theorem of_refined {node' : Expression} (h : CallStored a id node name r arguments routine)
    (hrefined : a.RefinedBy b) (hget : b.get? id = some node') :
    CallStored b id node' name r arguments routine := by
  obtain ⟨found, hfound, hsame⟩ := hrefined.expressions id node h.get
  obtain rfl : found = node' := Option.some.inj (hfound.symm.trans hget)
  refine ⟨hget, ?_, (hrefined.get?_eq .routine (by decide) r).trans h.routine⟩
  rw [hsame.kind_eq (by rw [h.kind]; rintro _ _ ⟨⟩), h.kind]

theorem gives (h : CallStored a id node name r arguments routine) :
    Gives (a.deriveType id) (.plain routine.returnType) := by
  refine gives_node_bind.2 ⟨node, h.get, ?_⟩
  rw [h.kind]
  exact gives_node_bind.2 ⟨routine, h.routine, gives_pure.2 rfl⟩

theorem node_refined (h : CallStored a id node name r arguments routine) (hconsistent : a.Consistent) :
    node.RefinedBy (a.IsField id) { node with type := routine.returnType } := by
  refine ⟨rfl, Or.inl rfl, or_iff_not_imp_left.2 fun hfield t ht => ?_⟩
  exact hconsistent.settled id node t hfield h.get ht a (.refl a) _ h.gives

/-- Storing the type of the result refines a consistent tree. -/
theorem refined (h : CallStored a id node name r arguments routine) (hconsistent : a.Consistent) :
    a.RefinedBy (a.put id { node with type := routine.returnType }) :=
  .put h.get (h.node_refined hconsistent)

theorem consistent (h : CallStored a id node name r arguments routine) (hconsistent : a.Consistent) :
    (a.put id { node with type := routine.returnType }).Consistent :=
  hconsistent.put h.get (h.node_refined hconsistent) fun hfield _ ht =>
    hconsistent.settled_of_gives hfield h.gives ht

end CallStored

theorem checkArguments_runs {arguments : List ExpressionId} {parameters : List VariableId}
    {start : Position} (hrun : Runs (checkArguments recordArgument arguments parameters start) c s u s') :
    Records s s' ∧ (s'.diagnostics = #[] → s.arena.Consistent →
      (∀ e ∈ arguments, ¬ s.arena.IsField e) → parameters.length = arguments.length ∧
        ∀ p ∈ arguments.zip parameters, Compared s'.arena s'.own p.1 p.2) := by
  unfold checkArguments at hrun
  split at hrun
  · rename_i hlength
    obtain ⟨hrecords, hcompared⟩ := recordArguments_runs hrun
    refine ⟨hrecords, fun hsilent hconsistent hfields => ⟨hlength, fun p hp => ?_⟩⟩
    have hturns : ∀ q ∈ (arguments.zip parameters).zipIdx, ¬ s.arena.IsField q.1.1 := fun q hq =>
      hfields _ (List.of_mem_zip (List.fst_mem_of_mem_zipIdx hq)).1
    rw [← List.zipIdx_map_fst 0 (arguments.zip parameters)] at hp
    obtain ⟨q, hq, rfl⟩ := List.mem_map.1 hp
    exact hcompared hsilent hconsistent hturns q hq
  · obtain rfl := runs_report.1 hrun
    refine ⟨(Refines.reported s _ _).weaken fun _ => List.Subset.refl _, fun hsilent => ?_⟩
    simp [WalkState.reported] at hsilent

theorem checkCall_runs {id : ExpressionId} (hrun : Runs (checkCall recordArgument id) c s u s') :
    Records s s' ∧ (s'.diagnostics = #[] → s.arena.Consistent →
      CallChecked s'.arena s'.own id) := by
  have hrefl : Records s s := .refl (fun _ => List.Subset.refl _) s
  cases callTurn_of_runs hrun with
  | dangling hnode hkind =>
      refine ⟨(Refines.reported s _ _).weaken fun _ => List.Subset.refl _, fun hsilent => ?_⟩
      simp [WalkState.reported] at hsilent
  | @call node node₁ name r arguments routine s₁ hnode hkind hr harguments hnode₁ =>
      obtain ⟨hrecords, hcompared⟩ := checkArguments_runs harguments
      -- the type of the result is the one that typing finds
      have hstored : s.arena.Consistent → s₁.arena.Consistent ∧ s.arena.RefinedBy s₁.arena ∧
          CallStored s₁.arena id node₁ name r arguments routine := by
        intro h
        obtain ⟨hconsistent, hrefined⟩ := hrecords.refined h
        exact ⟨hconsistent, hrefined, .of_refined ⟨hnode, hkind, hr⟩ hrefined hnode₁⟩
      refine ⟨⟨fun h => ?_, hrecords.silent, hrecords.own⟩, fun hsilent h => ?_⟩
      · obtain ⟨hconsistent, hrefined, hcall⟩ := hstored h
        exact ⟨hcall.consistent hconsistent, hrefined.trans (hcall.refined hconsistent)⟩
      · obtain ⟨hconsistent, -, hcall⟩ := hstored h
        obtain ⟨hlength, hall⟩ := hcompared hsilent h fun e he =>
          h.separate.not_isField hnode (by rwa [Node.slots, hkind])
        refine CallChecked.refine (fun node' name' r' arguments' hnode' hkind' => ?_) hconsistent
          (hcall.refined hconsistent) (List.Subset.refl _)
        obtain rfl := Option.some.inj (hnode₁.symm.trans hnode')
        obtain ⟨-, hr', harguments'⟩ := ExpressionKind.call.inj (hcall.kind.symm.trans hkind')
        obtain rfl := Option.some.inj hr'
        subst harguments'
        exact ⟨routine, hcall.routine, hlength, hall⟩
  | other hnode hother =>
      refine ⟨hrefl, fun _ _ node' name r arguments hnode' hkind' => ?_⟩
      obtain rfl := Option.some.inj (hnode.symm.trans hnode')
      exact absurd hkind' (hother name (some r) arguments)

/-! ### The whole check -/

/-- The visitor first walks on, and then looks at the node itself. -/
theorem callVisitor_runs {below : Visit → WalkM Unit (List Comparison) (Option ExpressionId)}
    {v : Visit} {r : Option ExpressionId} (hrun : Runs (callVisitor recordArgument below v) c s r s') :
    r = none ∧ ∃ s₁, Runs (walk below v) c s () s₁ ∧ Records s₁ s' ∧
      ∀ id, v = .expression id → Runs (checkCall recordArgument id) c s₁ () s' := by
  have hsubset : ∀ xs : List Comparison, xs ⊆ xs := List.Subset.refl
  cases v with
  | «variable» id =>
      obtain ⟨_, s₁, hwalk, hrun⟩ := runs_bind.1 hrun
      obtain ⟨node, -, hrun⟩ := runs_node_bind.1 hrun
      cases hvalue : node.initializer with
      | none =>
          rw [hvalue] at hrun
          obtain ⟨rfl, rfl⟩ := runs_pure.1 hrun
          exact ⟨rfl, _, hwalk, .refl hsubset _, nofun⟩
      | some e =>
          rw [hvalue] at hrun
          obtain ⟨_, s₂, htype, hrun⟩ := runs_bind.1 hrun
          obtain ⟨rfl, rfl⟩ := runs_pure.1 hrun
          exact ⟨rfl, _, hwalk, (refines_typeQuietly htype).weaken hsubset, nofun⟩
  | expression id =>
      obtain ⟨_, s₁, hwalk, hrun⟩ := runs_bind.1 hrun
      obtain ⟨_, s₂, hcall, hrun⟩ := runs_bind.1 hrun
      obtain ⟨rfl, rfl⟩ := runs_pure.1 hrun
      refine ⟨rfl, s₁, hwalk, (checkCall_runs hcall).1, fun other heq => ?_⟩
      cases heq
      exact hcall
  | program | declaration | routine | typeDecl | type | body | statement =>
      obtain ⟨_, s₁, hwalk, hrun⟩ := runs_bind.1 hrun
      obtain ⟨rfl, rfl⟩ := runs_pure.1 hrun
      exact ⟨rfl, _, hwalk, .refl hsubset _, nofun⟩

theorem steady_calls (n : Nat) : Steady Records (visitWithin (callVisitor recordArgument) n) := by
  refine steady_of_refines List.Subset.refl List.Subset.trans ?_ n
  intro below h v c s r s' hrun
  obtain ⟨hnone, s₁, hwalk, hlast, -⟩ := callVisitor_runs hrun
  exact ⟨hnone, records_trans (h.walk hwalk) hlast⟩

/-- **Every call of the program has its turn**, and the tree is refined before and after it. -/
theorem exists_callTurn (hconsistent : a.Consistent)
    (hrun : a.walkProgram (callVisitor recordArgument) () [] = .ok s) {id : ExpressionId}
    (hreaches : a.Reaches .program (.expression id)) : ∃ c s₁ s₂, s₁.arena.Consistent ∧
      a.RefinedBy s₁.arena ∧ Runs (checkCall recordArgument id) c s₁ () s₂ ∧ Records s₂ s := by
  obtain ⟨r, hvisit⟩ := walkProgram_eq_ok.1 hrun
  rw [visit, runs_arena_bind] at hvisit
  have hkept : ∀ {s s' : WalkState (List Comparison)},
      (s.arena.Consistent ∧ a.RefinedBy s.arena) → Records s s' →
      s'.arena.Consistent ∧ a.RefinedBy s'.arena := by
    intro s s' h hrecords
    obtain ⟨hconsistent', hrefined'⟩ := hrecords.refined h.1
    exact ⟨hconsistent', h.2.trans hrefined'⟩
  have hchildren : ∀ {s : WalkState (List Comparison)},
      (s.arena.Consistent ∧ a.RefinedBy s.arena) → s.arena.children = a.children :=
    fun h => funext h.2.children_eq
  obtain ⟨m, c, r, s₁, s₂, hfirst, hcall, hrest⟩ :=
    Steady.exists_visit_of_reaches steady_calls hkept hchildren (fun n v c s r s' hrun => by
      obtain ⟨-, s₁, hwalk, hlast, -⟩ := callVisitor_runs hrun
      exact ⟨s₁, hwalk, hlast⟩) hreaches ⟨hconsistent, .refl a⟩ hvisit
  cases m with
  | zero => exact (runs_throw hcall).elim
  | succ m =>
      obtain ⟨-, t, hwalk, -, hcheck⟩ := callVisitor_runs hcall
      obtain ⟨hbefore, hrefined⟩ := hkept (hkept ⟨hconsistent, .refl a⟩ hfirst)
        ((steady_calls m).walk hwalk)
      exact ⟨c, t, s₂, hbefore, hrefined, hcheck id rfl, hrest⟩

/-- **All calls of the program are checked.** -/
theorem comparisons_cover (hconsistent : a.Consistent)
    (hrun : a.walkProgram (callVisitor recordArgument) () [] = .ok s)
    (hsilent : s.diagnostics = #[]) :
    s.arena.Consistent ∧ a.RefinedBy s.arena ∧
      ∀ id, a.Reaches .program (.expression id) → CallChecked s.arena s.own id := by
  obtain ⟨hlast, hrefined⟩ := (refines_walkProgram steady_calls hrun).refined hconsistent
  refine ⟨hlast, hrefined, fun id hreaches => ?_⟩
  obtain ⟨c, s₁, s₂, hbefore, -, hcheck, hrest⟩ := exists_callTurn hconsistent hrun hreaches
  obtain ⟨hrecords, hchecked⟩ := checkCall_runs hcheck
  have hafter := (hrecords.refined hbefore).1
  exact (hchecked (hrest.silent hsilent) hbefore).refine hafter (hrest.refined hafter).2 hrest.own

end

end ProcLang
