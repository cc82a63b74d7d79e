import ProcLang.Proofs.Calls.Comparison
import ProcLang.Proofs.Passes.Silent
import ProcLang.Proofs.Typing.Resolved

/-!
# ProcLang.Proofs.Calls.Accepted

**The arguments of an accepted program.** If compiling a source text reports nothing, then every
argument of every call had its turn when calls were checked, and agrees with its parameter, unless
its type was not known at that point (`compile_arguments`).

The exception is real. A variable without a declared type takes the type of its initial value, and
that is typed when the check of calls comes to the variable. An argument that names the variable
before is not compared, and the typing of the program fills in its type when nobody compares it any
more (`compile_arguments_mismatch`).
-/

namespace ProcLang

open Arena WalkM

/-! ### Arguments and parameters -/

/-- A call of the program passes an argument for a parameter of its routine. -/
def Arena.Passes (a : Arena) (argument : ExpressionId) (parameter : VariableId) : Prop :=
  ∃ (call : ExpressionId) (node : Expression) (name : String) (r : RoutineId)
    (arguments : List ExpressionId) (routine : Routine) (k : Nat),
    a.Reaches .program (.expression call) ∧ a.get? call = some node ∧
    node.kind = .call name (some r) arguments ∧ a.get? r = some routine ∧
    arguments[k]? = some argument ∧ routine.parameters[k]? = some parameter

/-- The type of an argument and the declared type of its parameter are the same. -/
def Arena.Agree (a : Arena) (argument : ExpressionId) (parameter : VariableId) : Prop :=
  ∀ e v t p, a.get? argument = some e → a.get? parameter = some v → e.type = some t →
    v.declaredType = some p → a.sameType t p = .ok true

/-! ### Accepted programs -/

/-- **Arguments agree with their parameters in accepted programs**, unless they had no type when they
had their turn. -/
theorem compile_arguments (source : String) (haltOnError : Bool) (c : Compilation)
    (hcompile : compile source haltOnError = .ok c) (hsilent : c.diagnostics = []) :
    ∃ names history, nameResolution.run (parse source).arena = .ok names ∧
      names.arena.comparisons = .ok history ∧
      ∀ argument parameter, c.arena.Passes argument parameter →
        c.arena.Agree argument parameter ∨ ⟨argument, parameter, none⟩ ∈ history := by
  obtain ⟨hparse, names, calls, hnames, hresolved, hcalls, hchecked, hlater⟩ :=
    compile_silent hcompile hsilent
  obtain ⟨nodes, htree⟩ := Parser.parse_isTree source hparse
  have hconsistent := (htree.settles hnames).evolves.consistent htree
  obtain ⟨s, hwalk, rfl⟩ := run_ofVisitor.1 hcalls
  obtain ⟨history, hwatched⟩ := callVisitor_watched hwalk
  obtain ⟨hconsistent', hrefined, hcover⟩ :=
    comparisons_cover hconsistent hwatched (Array.toList_eq_nil_iff.1 hchecked)
  have hlast : s.arena.RefinedBy c.arena := hlater hconsistent'
  refine ⟨names, history, hnames, ?_, ?_⟩
  · rw [comparisons, hwatched]
    rfl
  · intro argument parameter hpasses
    obtain ⟨call, node, name, r, arguments, routine, k, hreaches, hnode, hkind, hr, harg, hparam⟩ :=
      hpasses
    -- the program has the calls that it had when they were checked
    rw [Reaches, funext (hrefined.trans hlast).children_eq] at hreaches
    have hcall := (hcover call hreaches).refine hconsistent' hlast (List.Subset.refl _)
    obtain ⟨routine', hr', -, hcompared⟩ := hcall node name r arguments hnode hkind
    obtain rfl := Option.some.inj (hr.symm.trans hr')
    have hzip : (argument, parameter) ∈ arguments.zip routine.parameters :=
      List.mem_of_getElem? (List.getElem?_zip_eq_some.2 ⟨harg, hparam⟩)
    obtain ⟨received, hmem, hknown⟩ := hcompared _ hzip
    cases received with
    | none => exact Or.inr hmem
    | some t' =>
        refine Or.inl fun e v t p he hv ht hp => ?_
        obtain ⟨⟨e', he', ht'⟩, hsame⟩ := hknown t' rfl
        obtain rfl := Option.some.inj (he.symm.trans he')
        obtain rfl := Option.some.inj (ht.symm.trans ht')
        exact hsame v p hv hp

/-- An untyped variable in front of the call. -/
theorem compile_arguments_untyped :
    let source := "routine r(x: integer) is\nend\nvar b is 1 + 1\nroutine main() is\n  r(b)\nend\n"
    ∃ c : Compilation, compile source false = .ok c ∧ c.diagnostics = [] ∧
      ∃ names history, nameResolution.run (parse source).arena = .ok names ∧
        names.arena.comparisons = .ok history ∧
        ∀ argument parameter, c.arena.Passes argument parameter →
          c.arena.Agree argument parameter ∨ ⟨argument, parameter, none⟩ ∈ history := by
  intro source
  have hrun : (compile source false).map Analysis.diagnostics = .ok [] := by decide +kernel
  cases hcompile : compile source false with
  | error fault =>
      rw [hcompile] at hrun
      nomatch hrun
  | ok c =>
      rw [hcompile] at hrun
      have hsilent : c.diagnostics = [] := Except.ok.inj hrun
      exact ⟨c, rfl, hsilent, compile_arguments source false c hcompile hsilent⟩

/-- **An argument that names an untyped variable too early is not compared**: here the parameter is an
integer, and the argument turns out to be a truth value when its variable has been typed. -/
theorem compile_arguments_mismatch : ¬ ∀ (source : String) (haltOnError : Bool) (c : Compilation),
    compile source haltOnError = .ok c → c.diagnostics = [] →
      ∀ argument parameter, c.arena.Passes argument parameter →
        c.arena.Agree argument parameter := by
  intro hall
  let source := "routine r(x: integer) is\nend\nroutine main() is\n  r(b)\nend\nvar b is not true\n"
  have hrun : (compile source true).map (fun c => decide (c.diagnostics = [] ∧
      .routine ⟨1⟩ ∈ c.arena.children .program ∧
      .body ⟨1⟩ ∈ c.arena.children (.routine ⟨1⟩) ∧
      .statement ⟨0⟩ ∈ c.arena.children (.body ⟨1⟩) ∧
      .expression ⟨1⟩ ∈ c.arena.children (.statement ⟨0⟩) ∧
      (c.arena.get? (⟨1⟩ : ExpressionId)).map (·.kind) = some (.call "r" (some ⟨0⟩) [⟨0⟩]) ∧
      (c.arena.get? (⟨0⟩ : RoutineId)).map (·.parameters) = some [⟨0⟩] ∧
      (c.arena.get? (⟨0⟩ : ExpressionId)).map (·.type) = some (some Arena.boolean) ∧
      (c.arena.get? (⟨0⟩ : VariableId)).map (·.declaredType) = some (some ⟨3⟩) ∧
      c.arena.sameType Arena.boolean ⟨3⟩ = .ok false)) = .ok true := by decide +kernel
  cases hcompile : compile source true with
  | error fault =>
      rw [hcompile] at hrun
      nomatch hrun
  | ok c =>
      rw [hcompile] at hrun
      obtain ⟨hsilent, hroutine, hbody, hstatement, hcall, hkind, hparameters, htype, hdeclared,
        hdiffer⟩ := of_decide_eq_true (Except.ok.inj hrun)
      obtain ⟨node, hnode, hkind⟩ := Option.map_eq_some_iff.1 hkind
      obtain ⟨routine, hr, hparameters⟩ := Option.map_eq_some_iff.1 hparameters
      obtain ⟨e, he, htype⟩ := Option.map_eq_some_iff.1 htype
      obtain ⟨v, hv, hdeclared⟩ := Option.map_eq_some_iff.1 hdeclared
      have hreaches : c.arena.Reaches .program (.expression ⟨1⟩) :=
        (((Relation.ReflTransGen.single hroutine).tail hbody).tail hstatement).tail hcall
      have hpasses : c.arena.Passes ⟨0⟩ ⟨0⟩ :=
        ⟨⟨1⟩, node, "r", ⟨0⟩, [⟨0⟩], routine, 0, hreaches, hnode, hkind, hr, rfl, by rw [hparameters]; rfl⟩
      have hsame := hall source true c hcompile hsilent _ _ hpasses e v _ _ he hv htype hdeclared
      rw [hdiffer] at hsame
      nomatch hsame

end ProcLang
