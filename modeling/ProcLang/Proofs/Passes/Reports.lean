import ProcLang.Proofs.Passes.Steps
import ProcLang.Proofs.Walk.Keeps

/-!
# ProcLang.Proofs.Passes.Reports

**What the passes report is about the program.** No pass reports an error that shows a misuse of the
interfaces (`reportsOn_nameResolution`, `reportsOn_laterPasses`). Only the check of calls has such a
report, for a call that is linked to no routine. In a tree in which every call is linked it is never
made, since no step of a pass takes a link away.
-/

namespace ProcLang

open Arena WalkM

variable {κ σ α β : Type} {P : Arena → Prop}

/-! ### States -/

/-- A state of a walk over a tree with a property, in which only errors of the program were
reported. -/
structure WalkState.External (P : Arena → Prop) (s : WalkState σ) : Prop where
  tree : P s.arena
  reports : ∀ d ∈ s.diagnostics, d.isInternal = false

theorem WalkState.External.reported {s : WalkState σ} (h : s.External P) {cause : Cause}
    (hcause : cause.isInternal = false) (place : Position) : (s.reported cause place).External P where
  tree := h.tree
  reports d hd := by
    rcases Array.mem_push.1 hd with hd | rfl
    · exact h.reports d hd
    · exact hcause

/-- A part of a walk that reports errors of the program only, and keeps a property of the tree. -/
abbrev ReportsOn (P : Arena → Prop) (m : WalkM κ σ α) : Prop := Keeps (WalkState.External P) m

theorem reportsOn_report {cause : Cause} (hcause : cause.isInternal = false) (place : Position) :
    ReportsOn P (report cause place : WalkM κ σ Unit) :=
  .modify fun _ hs => hs.reported hcause place

theorem reportsOn_note (event : Event) : ReportsOn P (note event : WalkM κ σ Unit) :=
  .modify fun _ hs => ⟨hs.tree, hs.reports⟩

theorem reportsOn_updateOwn (f : σ → σ) : ReportsOn P (updateOwn f : WalkM κ σ Unit) :=
  .modify fun _ hs => ⟨hs.tree, hs.reports⟩

/-- What a pass reports is about the program, and it keeps a property of the tree. -/
def Pass.ReportsOn (P : Arena → Prop) (pass : Pass) : Prop :=
  ∀ a outcome, P a → pass.run a = .ok outcome →
    P outcome.arena ∧ ∀ d ∈ outcome.diagnostics, d.isInternal = false

theorem reportsOn_ofVisitor {visitor : Visitor κ σ}
    (hslots : SlotSteps fun s s' : WalkState σ => s.External P → s'.External P)
    (hlayer : ∀ below, Steady (fun s s' => s.External P → s'.External P) below →
      ∀ v, ReportsOn P (visitor below v)) (stage : Stage) (context : κ) (own : σ) :
    (Pass.ofVisitor stage visitor context own).ReportsOn P := by
  intro a outcome ha hrun
  obtain ⟨s, hwalk, rfl⟩ := run_ofVisitor.1 hrun
  obtain ⟨htree, hreports⟩ := Keeps.walkProgram hslots hlayer hwalk ⟨ha, fun _ hd => by simp at hd⟩
  exact ⟨htree, fun d hd => hreports d (Array.mem_toList_iff.1 hd)⟩

/-! ### Name resolution -/

section

/-- A part of name resolution that reports errors of the program only. -/
abbrev ReportsAny (m : NamesM α) : Prop := ReportsOn (fun _ => True) m

/-- On any tree. -/
theorem external_of_tree {s s' : WalkState σ} (h : s.External fun _ => True)
    (hsame : s'.diagnostics = s.diagnostics) : s'.External fun _ => True :=
  ⟨trivial, hsame ▸ h.reports⟩

theorem isInternal_of_mem_repetitionsAfter {seen : List (String × Nat)}
    {names : List (String × Position)} {d : Diagnostic} (hd : d ∈ repetitionsAfter seen names) :
    d.isInternal = false := by
  induction names generalizing seen with
  | nil => nomatch hd
  | cons entry rest ih =>
      rw [repetitionsAfter] at hd
      split at hd
      · rcases List.mem_cons.1 hd with rfl | hd
        · rfl
        · exact ih hd
      · exact ih hd

theorem reportsAny_reportAll (names : List (String × Position)) :
    ReportsAny (reportAll (repetitions names)) :=
  .forM fun _ hd => reportsOn_report (isInternal_of_mem_repetitionsAfter hd) _

theorem reportsAny_declareScope (seeds : List VariableId) (declarations : List Declaration) :
    ReportsAny (declareScope seeds declarations) := by
  refine .bind (.mapM fun d => .inspect_bind fun _ _ _ _ => .pure _) fun entries => ?_
  refine .bind (reportsAny_reportAll _) fun _ => .bind (reportsOn_updateOwn _) fun _ => ?_
  split
  · exact .bind .read fun _ => .pure _
  · exact .pure _

theorem reportsAny_checkCycles (declarations : List TypeDeclId) :
    ReportsAny (checkCycles declarations) :=
  .inspect_bind fun _ _ _ _ => .forM fun _ _ => .node_bind fun _ _ _ _ => reportsOn_report rfl _

theorem reportsAny_update {family : Family} (id : NodeId family) (f : Node family → Node family) :
    ReportsAny (update id f) :=
  .update fun _ _ hs _ => external_of_tree hs rfl

theorem reportsAny_resolveIdentifier (id : ExpressionId) (name : String) :
    ReportsAny (resolveIdentifier id name) := by
  refine .bind .read fun scope => ?_
  split
  · exact .node_bind fun _ _ _ _ => .bind (reportsAny_update _ _) fun _ => .pure _
  · refine .node_bind fun _ _ _ _ => .bind .get fun s => ?_
    split
    · refine .bind (reportsOn_note _) fun _ => .map (.add fun _ hs => external_of_tree hs rfl)
    · exact .bind (reportsOn_report rfl _) fun _ => .pure _

theorem reportsAny_resolveCall (id : ExpressionId) (name : String) :
    ReportsAny (resolveCall id name) := by
  refine .bind .get fun s => ?_
  split
  · exact reportsAny_update _ _
  · exact .node_bind fun _ _ _ _ => reportsOn_report rfl _

theorem reportsAny_resolveTypeName (id : TypeId) (name : String) :
    ReportsAny (resolveTypeName id name) := by
  refine .bind .read fun scope => ?_
  split
  · exact reportsAny_update _ _
  · exact .node_bind fun _ _ _ _ => reportsOn_report rfl _

theorem reportsAny_checkFields (fields : List VariableId) : ReportsAny (checkFields fields) :=
  .bind (.mapM fun _ => .node_bind fun _ _ _ _ => .pure _) fun _ => reportsAny_reportAll _

theorem reportsAny_checkMemberName (field : ExpressionId) :
    ReportsAny (checkMemberName field) := by
  refine .node_bind fun _ e _ _ => ?_
  split
  · exact .pure _
  · exact reportsOn_report rfl _

theorem reportsAny_checkCallStatement (id : StatementId) :
    ReportsAny (checkCallStatement id) := by
  refine .node_bind fun _ statement _ _ => ?_
  split
  · refine .node_bind fun _ callee _ _ => ?_
    split
    · exact reportsOn_report rfl _
    · exact .pure _
  · exact .pure _

variable {below : Visit → NamesM (Option ExpressionId)}
  (h : Steady (fun s s' => s.External (fun _ => True) → s'.External (fun _ => True)) below)

include h

theorem reportsAny_resolveDeclarations (declarations : List Declaration) :
    ReportsAny (resolveDeclarations below declarations) :=
  .bind (.visitEach h _ _) fun _ => .bind (reportsAny_checkCycles _) fun _ => .visitEach h _ _

theorem reportsAny_resolveBody (seeds : List VariableId) (id : BodyId) :
    ReportsAny (resolveBody below seeds id) := by
  refine .node_bind fun _ body _ _ => .bind (reportsOn_note _) fun _ =>
    .bind (reportsAny_declareScope _ _) fun scope => ?_
  cases scope with
  | none => exact reportsOn_note _
  | some scope =>
      refine .bind (.inContext (.bind (reportsAny_resolveDeclarations h _) fun _ => ?_) scope)
        fun _ => reportsOn_note _
      exact .visitEach h _ _

/-- One layer of name resolution reports errors of the program only. -/
theorem reportsAny_resolver (v : Visit) : ReportsAny (resolver below v) := by
  cases v with
  | program =>
      refine .bind (.arena_bind fun a => .bind (reportsOn_note _) fun _ =>
        .bind (reportsAny_declareScope _ _) fun scope => ?_) fun _ => .pure _
      cases scope with
      | none => exact .pure _
      | some scope => exact .inContext (reportsAny_resolveDeclarations h _) scope
  | routine id =>
      refine .bind (.node_bind fun _ routine _ _ => ?_) fun _ => .pure _
      exact .bind (.visitEach h _ _) fun _ => .bind (.visitOptional h _ _) fun _ =>
        reportsAny_resolveBody h _ _
  | body id => exact .bind (reportsAny_resolveBody h _ _) fun _ => .pure _
  | statement id =>
      refine .bind (.node_bind fun _ statement _ _ => ?_) fun _ => .pure _
      split
      · exact .bind (.walkStatementExpressions h _) fun _ => reportsAny_resolveBody h _ _
      · exact .bind (.walkStatementExpressions h _) fun _ => reportsAny_checkCallStatement _
      · exact .walk h (.statement id)
  | type id =>
      refine .bind (.node_bind fun _ type _ _ => ?_) fun _ => .pure _
      split
      · exact reportsAny_resolveTypeName _ _
      · exact .bind (reportsAny_checkFields _) fun _ => .walk h (.type id)
      · exact .walk h (.type id)
  | expression id =>
      refine .node_bind fun _ e _ _ => ?_
      split
      · exact reportsAny_resolveIdentifier _ _
      · exact .bind (.walk h (.expression id)) fun _ => .bind (reportsAny_resolveCall _ _) fun _ => .pure _
      · exact .bind (.visitOperand h _ _ _) fun _ => .bind (reportsAny_checkMemberName _) fun _ => .pure _
      · exact .bind (.walk h (.expression id)) fun _ => .pure _
  | declaration | «variable» | typeDecl => exact .walkThrough h _

end

/-- **What name resolution reports is about the program.** -/
theorem reportsOn_nameResolution : nameResolution.ReportsOn fun _ => True :=
  reportsOn_ofVisitor (fun _ _ _ _ _ _ _ hs => external_of_tree hs rfl)
    (fun _ h v => reportsAny_resolver h v) _ _ _

/-! ### Linked calls -/

/-- Every call is linked to a routine. -/
def Arena.CallsLinked (a : Arena) : Prop :=
  ∀ (id : ExpressionId) node name target arguments, a.get? id = some node →
    node.kind = .call name target arguments → ∃ r, target = some r

namespace Arena.CallsLinked

variable {a : Arena}

/-- Overwriting an expression takes no link away, if a call becomes a call with the same link. -/
theorem put (h : a.CallsLinked) {id : ExpressionId} {node node' : Expression}
    (hget : a.get? id = some node) (hcall : ∀ name target arguments,
      node'.kind = .call name target arguments → ∃ arguments', node.kind = .call name target arguments') :
    (a.put id node').CallsLinked := by
  intro other found name target arguments hfound hkind
  by_cases hsame : other = id
  · subst hsame
    rw [get?_put_self hget] at hfound
    obtain rfl := Option.some.inj hfound
    obtain ⟨arguments', hold⟩ := hcall name target arguments hkind
    exact h other node name target arguments' hget hold
  · rw [get?_put_of_id_ne a hsame] at hfound
    exact h other found name target arguments hfound hkind

end Arena.CallsLinked

theorem Arena.CallsLinked.not_hasUnlinked {a : Arena} (h : a.CallsLinked) : ¬ a.HasUnlinked := by
  rintro ⟨e, node, name, arguments, hget, hkind⟩
  obtain ⟨r, hlinked⟩ := h e node name none arguments hget hkind
  nomatch hlinked

/-- No step takes a link away, and where all calls are linked, what is reported is about the program. -/
theorem PassStep.external {written : Option Annotation} {s s' : WalkState σ}
    (h : PassStep written s s') (hs : s.External CallsLinked) : s'.External CallsLinked := by
  cases h with
  | typed hget | marked hget =>
      exact ⟨hs.tree.put hget fun _ _ arguments hkind => ⟨arguments, hkind⟩, hs.reports⟩
  | @bound _ f node hget hfield x t =>
      refine ⟨hs.tree.put hget fun name target arguments hkind => ?_, hs.reports⟩
      rcases setVariable_cases node.kind x with hsame | ⟨_, _, _, _, hname⟩
      · exact ⟨arguments, hsame ▸ hkind⟩
      · nomatch hkind.symm.trans hname
  | reported hcause hplace =>
      exact hs.reported (hcause.resolve_right hs.tree.not_hasUnlinked) _

/-- **What the passes behind name resolution report is about the program**, if every call is linked. -/
theorem reportsOn_laterPasses : ∀ pass ∈ laterPasses, pass.ReportsOn CallsLinked := by
  intro pass hpass a outcome ha hrun
  obtain ⟨s, hsteps, harena, hdiagnostics⟩ := steps_laterPasses pass hpass a outcome hrun
  rw [harena, hdiagnostics]
  have hs : s.External CallsLinked := by
    clear hrun harena hdiagnostics
    induction hsteps with
    | refl => exact ⟨ha, fun _ hd => by simp at hd⟩
    | tail _ hstep ih => exact hstep.external ih
  exact ⟨hs.tree, fun d hd => hs.reports d (Array.mem_toList_iff.1 hd)⟩

end ProcLang
