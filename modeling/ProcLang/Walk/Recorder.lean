import ProcLang.Walk.Basic

/-!
# ProcLang.Walk.Recorder

The visitor that writes down what it visits and otherwise walks on by default. Its record shows the
order of the default walk.
-/

namespace ProcLang

/-- Writes down each visit before walking on. -/
def recorder : Visitor Unit (Array Visit) := fun below v => do
  WalkM.updateOwn fun seen => seen.push v
  walkThrough below v

/-- Runs a visitor over the program of a tree, in a context and with a state of its own to begin
with. -/
def Arena.walkProgram {κ σ : Type} (a : Arena) (visitor : Visitor κ σ) (context : κ) (own : σ) :
    Except Fault (WalkState σ) := do
  let (_, final) ← (visit visitor .program context).run ⟨a, #[], #[], own⟩
  return final

/-- The visits of the default walk over a program, in their order. -/
def Arena.visits (a : Arena) : Except Fault (List Visit) := do
  return (← a.walkProgram recorder () #[]).own.toList

end ProcLang
