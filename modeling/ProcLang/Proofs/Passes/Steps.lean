import ProcLang.Pipeline
import ProcLang.Proofs.Typing.Causes
import ProcLang.Proofs.Typing.Consistency

/-!
# ProcLang.Proofs.Passes.Steps

**The steps of the passes behind name resolution.** Whatever such a pass does, it does in steps of four
kinds (`PassStep`): it stores a type on an expression, binds the name behind a point to a field, marks
an expression as constant, or reports something at the place where a node begins. The stage says which
of them a pass takes (`steps_laterPasses`). So an invariant of all these passes needs no more than a
proof for each kind of step.
-/

namespace ProcLang

open Arena WalkM

variable {κ σ : Type} {a : Arena} {c : κ} {s s₁ s' : WalkState σ}

/-! ### Steps -/

/-- What a pass may write on expressions. -/
inductive Annotation where
  | type
  | constant
  deriving DecidableEq, Repr

/-- What the stages behind name resolution write, if anything. -/
def Stage.writes : Stage → Option Annotation
  | .callValidation | .typing => some .type
  | .constants => some .constant
  | .parsing | .nameResolution | .arrayLengths | .returnPaths => none

/-- Something that a pass looks at begins here: a routine, an array type or an expression. -/
inductive Arena.Begins (a : Arena) : Position → Prop
  | routine {r : RoutineId} {node : Routine} (hget : a.get? r = some node) : Begins a node.span.start
  | array {t : TypeId} {node : TypeNode} {length : Option ExpressionId} {element : TypeId}
      (hget : a.get? t = some node) (hkind : node.kind = .array length element) :
      Begins a node.span.start
  | expression {e : ExpressionId} {node : Expression} (hget : a.get? e = some node) :
      Begins a node.span.start

/-- Some call is linked to no routine. -/
def Arena.HasUnlinked (a : Arena) : Prop :=
  ∃ (e : ExpressionId) (node : Expression) (name : String) (arguments : List ExpressionId),
    a.get? e = some node ∧ node.kind = .call name none arguments

/-- One step of a pass that writes what is given. -/
inductive PassStep : Option Annotation → WalkState σ → WalkState σ → Prop
  | typed {s : WalkState σ} {id : ExpressionId} {node : Expression}
      (hget : s.arena.get? id = some node) (t : Option TypeId) :
      PassStep (some .type) s (s.put id { node with type := t })
  | bound {s : WalkState σ} {f : ExpressionId} {node : Expression}
      (hget : s.arena.get? f = some node) (hfield : s.arena.IsField f) (x : VariableId)
      (t : Option TypeId) :
      PassStep (some .type) s (s.put f { node with kind := node.kind.setVariable x, type := t })
  | marked {s : WalkState σ} {id : ExpressionId} {node : Expression}
      (hget : s.arena.get? id = some node) (constant : Bool) :
      PassStep (some .constant) s (s.put id { node with constant })
  | reported {written : Option Annotation} {s : WalkState σ} {cause : Cause} {place : Position}
      (hcause : cause.isInternal = false ∨ s.arena.HasUnlinked) (hplace : s.arena.Begins place) :
      PassStep written s (s.reported cause place)

/-- Any number of steps. -/
abbrev PassSteps (written : Option Annotation) : WalkState σ → WalkState σ → Prop :=
  Relation.ReflTransGen (PassStep written)

variable {written : Option Annotation}

/-- A visitor that replaces nothing takes steps if each of its layers does. -/
theorem steady_of_steps {visitor : Visitor κ σ}
    (hlayer : ∀ below : Visit → WalkM κ σ (Option ExpressionId), Steady (PassSteps written) below →
      ∀ v c s r s', Runs (visitor below v) c s r s' → r = none ∧ PassSteps written s s') (n : Nat) :
    Steady (PassSteps written) (visitWithin visitor n) :=
  .visitWithin_of_none (fun _ => .refl) .trans hlayer n

/-- One report. -/
theorem steps_report {cause : Cause} {place : Position} {u : Unit}
    (hcause : cause.isInternal = false) (hplace : s.arena.Begins place)
    (hrun : Runs (report cause place) c s u s') : PassSteps written s s' := by
  obtain rfl := runs_report.1 hrun
  exact .single (.reported (Or.inl hcause) hplace)

/-! ### Typing -/

theorem steps_typeExpression {reporting : Bool} {id : ExpressionId} {u : Unit}
    (hrun : Runs (typeExpression reporting id) c s u s') : PassSteps (some .type) s s' := by
  obtain ⟨⟨outcome, settled⟩, hsettle, hrun⟩ := runs_inspect_bind.1 hrun
  rw [runs_modify_bind] at hrun
  rcases settleType_ok hsettle with ⟨cause, hcause, rfl, rfl⟩ | ⟨d, hd, rfl, hbind⟩
  · dsimp only at hrun
    split at hrun
    · obtain ⟨node, hnode, hrun⟩ := runs_node_bind.1 hrun
      exact steps_report (external_deriveType _ id cause hcause) (.expression hnode) hrun
    · obtain ⟨-, rfl⟩ := runs_pure.1 hrun
      exact .refl
  · -- the field of a member access comes before the type
    have hfield : PassSteps (some .type) s { s with arena := settled } := by
      rcases bindField_ok hbind with rfl | ⟨f, x, node, hf, hnode, rfl⟩
      · exact .refl
      · exact .single (.bound hnode (isField_of_gives hd hf) x d.type)
    cases ht : d.type with
    | none =>
        rw [ht] at hrun
        obtain ⟨-, rfl⟩ := runs_pure.1 hrun
        exact hfield
    | some t =>
        rw [ht] at hrun
        obtain ⟨node, hnode, rfl⟩ := runs_update.1 hrun
        exact hfield.tail (.typed hnode (some t))

theorem steps_typing (reporting : Bool) (n : Nat) :
    Steady (PassSteps (some .type)) (visitWithin (typingVisitor reporting : Visitor κ σ) n) := by
  refine steady_of_steps (fun below h v c s r s' hrun => ?_) n
  cases v with
  | expression id =>
      obtain ⟨_, s₁, hwalk, hrun⟩ := runs_bind.1 hrun
      obtain ⟨_, s₂, htype, hrun⟩ := runs_bind.1 hrun
      obtain ⟨rfl, rfl⟩ := runs_pure.1 hrun
      exact ⟨rfl, .trans (h.walk (v := .expression id) hwalk) (steps_typeExpression htype)⟩
  | program | declaration | routine | «variable» | typeDecl | type | body | statement =>
      exact h.walkThrough hrun

theorem steps_typeQuietly {id : ExpressionId} {u : Unit} (hrun : Runs (typeQuietly id) c s u s') :
    PassSteps (some .type) s s' := by
  obtain ⟨r, hrun⟩ := runs_discard.1 hrun
  rw [visit, runs_arena_bind] at hrun
  exact (steps_typing false _).visit hrun

/-! ### Calls -/

section

variable {c u : Unit}

theorem steps_checkArgument {argument : ExpressionId} {parameter : VariableId} {number : Nat}
    (hrun : Runs (checkArgument argument parameter number) c s u s') :
    PassSteps (some .type) s s' := by
  obtain ⟨_, s₁, htype, hrun⟩ := runs_bind.1 hrun
  refine (steps_typeQuietly htype).trans ?_
  obtain ⟨e, -, hrun⟩ := runs_node_bind.1 hrun
  obtain ⟨v, -, hrun⟩ := runs_node_bind.1 hrun
  split at hrun
  · obtain ⟨same, -, hrun⟩ := runs_inspect_bind.1 hrun
    split at hrun
    · obtain ⟨-, rfl⟩ := runs_pure.1 hrun
      exact .refl
    · obtain ⟨expectedName, -, hrun⟩ := runs_inspect_bind.1 hrun
      obtain ⟨receivedName, -, hrun⟩ := runs_inspect_bind.1 hrun
      obtain ⟨node, hnode, hrun⟩ := runs_node_bind.1 hrun
      exact steps_report rfl (.expression hnode) hrun
  · obtain ⟨-, rfl⟩ := runs_pure.1 hrun
    exact .refl

/-- The arguments are checked one after the other. -/
theorem steps_checkEach {turns : List ((ExpressionId × VariableId) × Nat)}
    (hrun : Runs (turns.forM fun p => checkArgument p.1.1 p.1.2 (p.2 + 1)) c s u s') :
    PassSteps (some .type) s s' := by
  induction turns generalizing s with
  | nil =>
      obtain rfl := runs_forM_nil.1 hrun
      exact .refl
  | cons p rest ih =>
      obtain ⟨s₁, hfirst, hrest⟩ := runs_forM_cons.1 hrun
      exact (steps_checkArgument hfirst).trans (ih hrest)

theorem steps_checkCall {id : ExpressionId} (hrun : Runs (checkCall checkArgument id) c s u s') :
    PassSteps (some .type) s s' := by
  obtain ⟨e, hget, hrun⟩ := runs_node_bind.1 hrun
  split at hrun
  · rename_i name arguments hkind
    obtain rfl := runs_report.1 hrun
    exact .single (.reported (Or.inr ⟨id, e, name, arguments, hget, hkind⟩) (.expression hget))
  · obtain ⟨routine, -, hrun⟩ := runs_node_bind.1 hrun
    obtain ⟨_, s₁, hcheck, hrun⟩ := runs_bind.1 hrun
    obtain ⟨node, hnode, rfl⟩ := runs_update.1 hrun
    refine Relation.ReflTransGen.tail ?_ (.typed hnode routine.returnType)
    unfold checkArguments at hcheck
    split at hcheck
    · exact steps_checkEach hcheck
    · exact steps_report rfl (.expression hget) hcheck
  · obtain ⟨-, rfl⟩ := runs_pure.1 hrun
    exact .refl

theorem steps_calls (n : Nat) : Steady (PassSteps (some .type))
    (visitWithin (callVisitor checkArgument : Visitor Unit σ) n) := by
  refine steady_of_steps (fun below h v c s r s' hrun => ?_) n
  cases v with
  | «variable» id =>
      obtain ⟨_, s₁, hwalk, hrun⟩ := runs_bind.1 hrun
      have hfirst := h.walk (v := .variable id) hwalk
      obtain ⟨node, -, hrun⟩ := runs_node_bind.1 hrun
      split at hrun
      · obtain ⟨_, s₂, htype, hrun⟩ := runs_bind.1 hrun
        obtain ⟨rfl, rfl⟩ := runs_pure.1 hrun
        exact ⟨rfl, hfirst.trans (steps_typeQuietly htype)⟩
      · obtain ⟨rfl, rfl⟩ := runs_pure.1 hrun
        exact ⟨rfl, hfirst⟩
  | expression id =>
      obtain ⟨_, s₁, hwalk, hrun⟩ := runs_bind.1 hrun
      obtain ⟨_, s₂, hcall, hrun⟩ := runs_bind.1 hrun
      obtain ⟨rfl, rfl⟩ := runs_pure.1 hrun
      exact ⟨rfl, .trans (h.walk (v := .expression id) hwalk) (steps_checkCall hcall)⟩
  | program | declaration | routine | typeDecl | type | body | statement => exact h.walkThrough hrun

end

/-! ### Constants, lengths and returns -/

theorem steps_checkLength {id : TypeId} {u : Unit} (hrun : Runs (checkLength id) c s u s') :
    PassSteps written s s' := by
  obtain ⟨node, -, hrun⟩ := runs_node_bind.1 hrun
  split at hrun
  · obtain ⟨length, hlength, hrun⟩ := runs_node_bind.1 hrun
    split at hrun
    · obtain ⟨-, rfl⟩ := runs_pure.1 hrun
      exact .refl
    · exact steps_report rfl (.expression hlength) hrun
  · obtain ⟨-, rfl⟩ := runs_pure.1 hrun
    exact .refl

theorem steps_constants (n : Nat) :
    Steady (PassSteps (some .constant)) (visitWithin constantVisitor n) := by
  refine steady_of_steps (fun below h v c s r s' hrun => ?_) n
  cases v with
  | expression id =>
      obtain ⟨_, s₁, hwalk, hrun⟩ := runs_bind.1 hrun
      obtain ⟨_, s₂, hmark, hrun⟩ := runs_bind.1 hrun
      obtain ⟨rfl, rfl⟩ := runs_pure.1 hrun
      obtain ⟨constant, -, hmark⟩ := runs_inspect_bind.1 hmark
      obtain ⟨node, hnode, rfl⟩ := runs_update.1 hmark
      exact ⟨rfl, .tail (h.walk (v := .expression id) hwalk) (.marked hnode constant)⟩
  | type id =>
      obtain ⟨_, s₁, hwalk, hrun⟩ := runs_bind.1 hrun
      obtain ⟨_, s₂, hcheck, hrun⟩ := runs_bind.1 hrun
      obtain ⟨rfl, rfl⟩ := runs_pure.1 hrun
      exact ⟨rfl, .trans (h.walk (v := .type id) hwalk) (steps_checkLength hcheck)⟩
  | program | declaration | routine | «variable» | typeDecl | body | statement =>
      exact h.walkThrough hrun

theorem steps_lengths (n : Nat) : Steady (PassSteps none) (visitWithin lengthVisitor n) := by
  refine steady_of_steps (fun below h v c s r s' hrun => ?_) n
  cases v with
  | routine id =>
      obtain ⟨node, -, hrun⟩ := runs_node_bind.1 hrun
      obtain ⟨_, s₁, hparameters, hrun⟩ := runs_bind.1 hrun
      obtain ⟨_, s₂, hresult, hrun⟩ := runs_bind.1 hrun
      obtain ⟨_, s₃, hbody, hrun⟩ := runs_bind.1 hrun
      obtain ⟨rfl, rfl⟩ := runs_pure.1 hrun
      have hfirst := (h.visitEach (runs_inContext.1 hparameters)).1
      exact ⟨rfl, h.trans hfirst (h.trans (h.visitOptional hresult).1 (h.visitOnly hbody).1)⟩
  | type id =>
      obtain ⟨node, hget, hrun⟩ := runs_node_bind.1 hrun
      have hrest : ∀ {s : WalkState Unit}, Runs (do
          inContext false (walkType below id)
          return none) c s r s' → r = none ∧ PassSteps none s s' := by
        intro s hrun
        obtain ⟨_, s₁, hwalk, hrun⟩ := runs_bind.1 hrun
        obtain ⟨rfl, rfl⟩ := runs_pure.1 hrun
        exact ⟨rfl, h.walk (v := .type id) (runs_inContext.1 hwalk)⟩
      dsimp only at hrun
      split at hrun
      · rename_i element hkind
        rw [runs_read_bind] at hrun
        split at hrun
        · exact hrest hrun
        · rw [runs_report_bind] at hrun
          obtain ⟨hnone, hsteps⟩ := hrest hrun
          exact ⟨hnone, .head (.reported (Or.inl rfl) (.array hget hkind)) hsteps⟩
      · exact hrest hrun
  | program | declaration | «variable» | typeDecl | body | statement | expression =>
      exact h.walkThrough hrun

theorem steps_returns (n : Nat) : Steady (PassSteps none) (visitWithin returnVisitor n) := by
  refine steady_of_steps (fun below h v c s r s' hrun => ?_) n
  cases v with
  | routine id =>
      obtain ⟨_, s₁, hcheck, hrun⟩ := runs_bind.1 hrun
      obtain ⟨rfl, rfl⟩ := runs_pure.1 hrun
      obtain ⟨node, hnode, hcheck⟩ := runs_node_bind.1 hcheck
      refine ⟨rfl, ?_⟩
      split at hcheck
      · obtain ⟨returns, -, hcheck⟩ := runs_inspect_bind.1 hcheck
        split at hcheck
        · obtain ⟨-, rfl⟩ := runs_pure.1 hcheck
          exact .refl
        · exact steps_report rfl (.routine hnode) hcheck
      · obtain ⟨-, rfl⟩ := runs_pure.1 hcheck
        exact .refl
  | «variable» | typeDecl =>
      obtain ⟨rfl, rfl⟩ := runs_pure.1 hrun
      exact ⟨rfl, .refl⟩
  | program | declaration | type | body | statement | expression => exact h.walkThrough hrun

/-! ### Whole passes -/

/-- A pass is a sequence of steps of its kinds. -/
def Pass.InSteps (pass : Pass) : Prop :=
  ∀ a outcome, pass.run a = .ok outcome → ∃ s : WalkState Unit,
    PassSteps pass.stage.writes ⟨a, #[], #[], ()⟩ s ∧ outcome.arena = s.arena ∧
      outcome.diagnostics = s.diagnostics.toList

theorem inSteps_ofVisitor {visitor : Visitor κ Unit} {stage : Stage}
    (hsteady : ∀ n, Steady (PassSteps written) (visitWithin visitor n)) (context : κ)
    (hwritten : stage.writes = written) :
    (Pass.ofVisitor stage visitor context ()).InSteps := by
  intro a outcome hrun
  subst hwritten
  obtain ⟨s, hwalk, rfl⟩ := run_ofVisitor.1 hrun
  obtain ⟨r, hvisit⟩ := walkProgram_eq_ok.1 hwalk
  rw [visit, runs_arena_bind] at hvisit
  exact ⟨s, (hsteady _).visit hvisit, rfl, rfl⟩

/-- **Whatever a pass behind name resolution does, it does in steps.** -/
theorem steps_laterPasses : ∀ pass ∈ laterPasses, pass.InSteps := by
  intro pass hpass
  simp only [laterPasses, List.mem_cons, List.not_mem_nil, or_false] at hpass
  rcases hpass with rfl | rfl | rfl | rfl | rfl
  · exact inSteps_ofVisitor steps_calls _ rfl
  · exact inSteps_ofVisitor steps_lengths _ rfl
  · exact inSteps_ofVisitor steps_constants _ rfl
  · exact inSteps_ofVisitor (steps_typing true) _ rfl
  · exact inSteps_ofVisitor steps_returns _ rfl

/-! ### What steps leave as it is -/

/-- Without annotations the tree stays the same. -/
theorem PassSteps.arena_eq (h : PassSteps none s s') : s'.arena = s.arena := by
  induction h with
  | refl => rfl
  | tail _ hstep ih =>
      cases hstep
      exact ih

/-- Looking for returns leaves the tree as it is. -/
theorem arena_returnPaths {outcome : PassOutcome} (hrun : returnPaths.run a = .ok outcome) :
    outcome.arena = a := by
  obtain ⟨s, hsteps, harena, -⟩ := steps_laterPasses returnPaths (by simp [laterPasses]) a outcome hrun
  exact harena.trans hsteps.arena_eq

/-- A pass that refines consistent trees. -/
def Pass.Refining (pass : Pass) : Prop :=
  ∀ a outcome, pass.run a = .ok outcome → a.Consistent →
    outcome.arena.Consistent ∧ a.RefinedBy outcome.arena

/-- Marks and reports change no type. -/
theorem PassStep.refined (h : PassStep written s s') (hwritten : written ≠ some .type)
    (hconsistent : s.arena.Consistent) :
    s'.arena.Consistent ∧ s.arena.RefinedBy s'.arena := by
  cases h with
  | typed | bound => exact absurd rfl hwritten
  | @marked _ id node hget constant =>
      have hrefined : node.RefinedBy (s.arena.IsField id) { node with constant } :=
        ⟨rfl, Or.inl rfl, Or.inr fun _ ht => ht⟩
      refine ⟨hconsistent.put hget hrefined fun hfield t ht => ?_, .put hget hrefined⟩
      exact hconsistent.settled id node t hfield hget ht
  | reported => exact ⟨hconsistent, .refl _⟩

theorem refining_of_steps {pass : Pass} (hsteps : pass.InSteps)
    (hwritten : pass.stage.writes ≠ some .type) : pass.Refining := by
  intro a outcome hrun hconsistent
  obtain ⟨s, hsteps, harena, -⟩ := hsteps a outcome hrun
  rw [harena]
  clear hrun harena
  induction hsteps with
  | refl => exact ⟨hconsistent, .refl a⟩
  | tail _ hstep ih =>
      obtain ⟨hfirst, hrefined⟩ := hstep.refined hwritten ih.1
      exact ⟨hfirst, ih.2.trans hrefined⟩

/-- **The passes behind the check of calls refine the tree.** -/
theorem refining_laterPasses :
    ∀ pass ∈ [arrayLengths, constants, typing, returnPaths], pass.Refining := by
  intro pass hpass
  by_cases hwritten : pass.stage.writes = some .type
  · simp only [List.mem_cons, List.not_mem_nil, or_false] at hpass
    rcases hpass with rfl | rfl | rfl | rfl
    · nomatch hwritten
    · nomatch hwritten
    · intro a outcome hrun hconsistent
      obtain ⟨s, hwalk, rfl⟩ := run_ofVisitor.1 hrun
      exact (refines_walkProgram (steady_typing true) hwalk).refined hconsistent
    · nomatch hwritten
  · exact refining_of_steps (steps_laterPasses pass (List.mem_cons_of_mem _ hpass)) hwritten

end ProcLang
