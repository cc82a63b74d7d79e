import ProcLang.Report

/-!
# ProcLang.Main

The command line: the name of a source file, and `--keep-going` to run all stages in any case.
-/

namespace ProcLang

/-- What the command line asks for. -/
structure CommandLine where
  file : String
  keepGoing : Bool

/-- The command line that arguments stand for: one file, and options anywhere. -/
def CommandLine.ofArguments? (arguments : List String) : Option CommandLine :=
  let options := arguments.filter (·.startsWith "--")
  let files := arguments.filter fun argument => !argument.startsWith "--"
  match files with
  | [file] =>
      if options.all (· == "--keep-going") then some ⟨file, !options.isEmpty⟩ else none
  | _ => none

/-- Reads a source file. -/
def readSource (file : String) : IO (Except Report.ReadFailure String) := do
  try
    return Report.decode (← IO.FS.readBinFile file)
  catch
    | .noFileOrDirectory _ _ _ => return .error .notFound
    | failure => return .error (.other (toString failure))

end ProcLang

def main (arguments : List String) : IO UInt32 := do
  match ProcLang.CommandLine.ofArguments? arguments with
  | none =>
      IO.eprintln "usage: FILE [--keep-going]"
      return 2
  | some command =>
      let source ← ProcLang.readSource command.file
      let outcome := ProcLang.Report.check command.file source command.keepGoing
      IO.print outcome.output
      IO.eprint outcome.errors
      return outcome.exitCode
