import ProcLang.Walk.Recorder

/-!
# ProcLang.Check.Pass

A pass is a stage that works on a parsed tree: it walks over the program, annotates the tree and
collects diagnostics. The journal of a pass begins and ends with events of the stage.
-/

namespace ProcLang

/-- The tree after a pass, with the diagnostics and the events of the pass. -/
structure PassOutcome where
  arena : Arena
  diagnostics : List Diagnostic
  journal : Journal

/-- A stage that works on a parsed tree. -/
structure Pass where
  stage : Stage
  run : Arena → Except Fault PassOutcome

/-- The pass that runs a visitor over the program. -/
def Pass.ofVisitor {κ σ : Type} (stage : Stage) (visitor : Visitor κ σ) (context : κ) (own : σ) :
    Pass where
  stage := stage
  run a := do
    let final ← a.walkProgram visitor context own
    let journal := #[.stageStarted stage] ++ final.journal ++
      #[.stageFinished stage final.diagnostics.size]
    return ⟨final.arena, final.diagnostics.toList, journal⟩

end ProcLang
