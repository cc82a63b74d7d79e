import ProcLang.Grammar.Standard
import ProcLang.Parse.Statement

/-!
# ProcLang.Parse.Program

Reading routines and whole programs. A program is a list of declarations with line breaks and
semicolons between them. After an error the rest of the line is skipped. `parse` reads a source
text with the grammar of the language; it never fails, and its errors say whether the tree is that
of the text.
-/

namespace ProcLang

namespace Parser

/-- A parameter: its name and its type. -/
def parameter (g : Grammar) : Parser VariableId := do
  let name ← expect .identifier "parameter name"
  discard <| expect .colon "`:`"
  let type ← type g
  let span ← spanFrom name.start
  add .variable ⟨span, name.text, some type, none⟩

/-- The parameters of a routine up to the closing parenthesis. -/
def parameters (g : Grammar) : Parser (List VariableId) := do
  if (← current).kind = .closeParen then return []
  else commaSeparated (parameter g)

/-- A routine; the current token is taken for its first word. -/
def routineDecl (g : Grammar) : Parser RoutineId := do
  let start := (← advance).start
  let name ← expect .identifier "routine name"
  discard <| expect .openParen "`(`"
  let parameters ← parameters g
  discard <| expect .closeParen "`,` or `)`"
  let returnType ← annotation (type g)
  discard <| expect .kwIs "`is`"
  let body ← body g
  discard <| expect .kwEnd "`end`"
  let span ← spanFrom start
  add .routine ⟨span, name.text, parameters, returnType, body⟩

/-- A top-level declaration. -/
def declaration (g : Grammar) : Parser Declaration := do
  match (← current).kind with
  | .kwRoutine => .routine <$> routineDecl g
  | .kwVar => .variable <$> variableDecl g
  | .kwType => .type <$> typeDecl g
  | _ => refuse "`routine`, `var` or `type`"

/-- The declarations up to the end of the text. -/
def declarations (g : Grammar) : Parser (List Declaration) :=
  loop (fun found => do
    match (← current).kind with
    | .endOfFile => return .done found
    | .newline | .semicolon =>
        skip
        return .more found
    | _ =>
        let found ← recovering [.newline, .semicolon] [] found (do
          let next ← declaration g
          return found ++ [next])
        return .more found) []

/-- A whole program, stored as the root of the arena. -/
def program (g : Grammar) : Parser Unit := do
  let start := (← current).start
  let declarations ← declarations g
  let span ← spanFrom start
  modify fun s => { s with arena := { s.arena with program := ⟨span, declarations⟩ } }
  note (.programParsed declarations.length (← get).errors.size)

end Parser

/-- What reading a source text gives. The tree is that of the text if there are no errors. -/
structure Parsed where
  arena : Arena
  errors : List Diagnostic
  journal : Journal

/-- Reads a source text. -/
def parse (source : String) : Parsed :=
  let final := (Parser.program .standard).run (.ofSource source) |>.2
  ⟨final.arena, final.errors.toList, final.journal⟩

end ProcLang
