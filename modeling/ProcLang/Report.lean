import ProcLang.Pipeline
import ProcLang.Text.Blank
import ProcLang.Text.Lines

/-!
# ProcLang.Report

What a user is shown. A diagnostic is a block of lines: its name and message, the place, the line of
the source and below it a marker that ends in a caret under the place, and the tip if there is one.
The line is shown without the spaces and tabulators at its beginning and the blanks at its end. A
gutter as wide as the line number stands to the left of the line and the marker.

`check` is the whole command: the blocks of all diagnostics go to the error output, and the exit
code is zero only if there are none.
-/

namespace ProcLang

namespace Report

/-- A text padded on its left to a width. -/
def padLeft (width : Nat) (fill : Char) (text : String) : String :=
  String.ofList (List.replicate (width - text.length) fill) ++ text

/-! ### Blocks -/

/-- A character that is left out at the beginning of a shown line. -/
def isIndent (c : Char) : Bool := c == ' ' || c == '\t'

/-- The number of characters left out at the beginning of a line. -/
def indentOf (line : List Char) : Nat := (line.takeWhile isIndent).length

/-- A line as it is shown. -/
def shownLine (line : List Char) : List Char := Text.trimEnd (line.dropWhile isIndent)

/-- The width up to the bar of the gutter. -/
def gutterWidth (line : Nat) : Nat := (toString line).length + 2

/-- The line of the source behind its number. -/
def sourceLine (number : Nat) (line : List Char) : String :=
  toString number ++ " | " ++ String.ofList (shownLine line)

/-- The length of a marker for a column: the caret stands under that column of the shown line, or
under its first one if the column was left out. -/
def markerLength (column : Nat) (line : List Char) : Nat := max 1 (column - indentOf line)

/-- The line below the line of the source, which ends in the caret. -/
def markerLine (position : Position) (line : List Char) : String :=
  padLeft (gutterWidth position.line) ' ' "|" ++ " " ++
    padLeft (markerLength position.column line) '-' "^"

/-- The lines of the block for a diagnostic. -/
def block (file : String) (source : List Char) (d : Diagnostic) : List String :=
  let line := Text.lineAt d.position.line source
  let gutter := gutterWidth d.position.line
  ["Error: " ++ d.name ++ " (" ++ d.message ++ ")",
   "-> " ++ file ++ ":" ++ d.position.text,
   padLeft gutter ' ' "|",
   sourceLine d.position.line line,
   markerLine d.position line] ++
  match d.cause.tip with
  | some tip => [padLeft gutter ' ' "=" ++ " tip: " ++ tip]
  | none => []

/-- Lines one below the other, each with its end. -/
def unlines (lines : List String) : String :=
  lines.foldl (fun text line => text ++ line ++ "\n") ""

/-! ### The command -/

/-- Why a file has no source text. -/
inductive ReadFailure where
  | notFound
  | notText
  | other (reason : String)
  deriving DecidableEq, Repr

/-- The reason as it is shown. -/
def ReadFailure.reason : ReadFailure → String
  | notFound => "No such file or directory (os error 2)"
  | notText => "stream did not contain valid UTF-8"
  | other reason => reason

/-- The text that bytes stand for, if they are UTF-8. -/
def decode (bytes : ByteArray) : Except ReadFailure String :=
  match String.fromUTF8? bytes with
  | some text => .ok text
  | none => .error .notText

/-- The outcome of the command. -/
structure Outcome where
  exitCode : UInt32
  output : String
  errors : String
  deriving DecidableEq, Repr

/-- A failure with a text for the error output. -/
def Outcome.failure (errors : String) : Outcome := ⟨1, "", errors⟩

/-- Checks a source file. With `keepGoing` all stages run even if one reports something. -/
def check (file : String) (source : Except ReadFailure String) (keepGoing : Bool) : Outcome :=
  match source with
  | .error failure =>
      .failure (unlines ["Error: could not read " ++ file ++ " (" ++ failure.reason ++ ")"])
  | .ok text =>
      match compile text (!keepGoing) with
      | .error _ => .failure (unlines ["Error: the tree of " ++ file ++ " is broken"])
      | .ok compilation =>
          let blocks := compilation.diagnostics.flatMap (block file text.toList)
          if compilation.isGeneratable then ⟨0, "", unlines blocks⟩
          else .failure (unlines blocks)

end Report

end ProcLang
