/-!
# ProcLang.Stage

The stages that a program goes through, in the order in which they run.
-/

namespace ProcLang

/-- A stage of the front end. -/
inductive Stage where
  | parsing
  | nameResolution
  | callValidation
  | arrayLengths
  | constants
  | typing
  | returnPaths
  deriving DecidableEq, Repr

namespace Stage

/-- How a stage is named in messages. -/
def text : Stage → String
  | parsing => "parsing"
  | nameResolution => "name resolution"
  | callValidation => "call validation"
  | arrayLengths => "array length check"
  | constants => "constant propagation"
  | typing => "typing"
  | returnPaths => "return path check"

instance : ToString Stage := ⟨text⟩

end Stage

end ProcLang
