import ProcLang.Check.ArrayLengths
import ProcLang.Check.Calls
import ProcLang.Check.Constants
import ProcLang.Check.Names
import ProcLang.Check.ReturnPaths
import ProcLang.Parse.Program

/-!
# ProcLang.Pipeline

The stages in a row. Parsing and name resolution stop the pipeline if they report anything, since
the later stages rely on the tree and its links. The later stages stop it only when asked to;
otherwise all of them run, and their diagnostics are collected in the order of the stages.

A program whose compilation reports nothing may be handed to a code generator.
-/

namespace ProcLang

/-- What analysing a parsed tree gives. -/
structure Analysis where
  arena : Arena
  diagnostics : List Diagnostic
  /-- The stage whose diagnostics stopped the analysis, if any. -/
  haltedAt : Option Stage
  journal : Journal

/-- The passes behind name resolution, in the order in which they run. -/
def laterPasses : List Pass := [callValidation, arrayLengths, constants, typing, returnPaths]

/-- Runs passes one after the other on what has been found before. With `haltOnError` the first
pass that reports anything is the last one. -/
def runPasses (haltOnError : Bool) : List Pass → Analysis → Except Fault Analysis
  | [], found => .ok found
  | pass :: rest, found => do
      let outcome ← pass.run found.arena
      let diagnostics := found.diagnostics ++ outcome.diagnostics
      let journal := found.journal ++ outcome.journal
      if haltOnError && !outcome.diagnostics.isEmpty then
        return ⟨outcome.arena, diagnostics, some pass.stage, journal⟩
      else runPasses haltOnError rest ⟨outcome.arena, diagnostics, none, journal⟩

/-- Runs all passes on a parsed tree. -/
def analyze (a : Arena) (haltOnError : Bool) : Except Fault Analysis := do
  let names ← nameResolution.run a
  if names.diagnostics.isEmpty then
    runPasses haltOnError laterPasses ⟨names.arena, [], none, names.journal⟩
  else return ⟨names.arena, names.diagnostics, some nameResolution.stage, names.journal⟩

/-- What compiling a source text gives. -/
abbrev Compilation := Analysis

/-- Only a program without diagnostics may be handed to a code generator. -/
def Analysis.isGeneratable (c : Compilation) : Bool := c.diagnostics.isEmpty

/-- Reads a source text and runs every stage on it. -/
def compile (source : String) (haltOnError : Bool) : Except Fault Compilation := do
  let parsed := parse source
  let journal := parsed.journal.push (.stageFinished .parsing parsed.errors.length)
  if parsed.errors.isEmpty then
    let analysis ← analyze parsed.arena haltOnError
    return { analysis with journal := journal ++ analysis.journal }
  else return ⟨parsed.arena, parsed.errors, some .parsing, journal⟩

end ProcLang
