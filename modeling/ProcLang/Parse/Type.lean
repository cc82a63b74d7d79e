import ProcLang.Parse.Expression

/-!
# ProcLang.Parse.Type

Reading types, and the declarations of variables and types. The fields of a record are variable
declarations, so types and variable declarations contain one another. Every type begins with a
token that tells its form.
-/

namespace ProcLang

namespace Parser

/-- The end of a declaration: a semicolon or a line break. None is needed in front of a word that
closes a body or at the end of the text. -/
def terminator : Parser Unit := do
  match (← current).kind with
  | .semicolon | .newline => skip
  | .kwEnd | .kwElse | .endOfFile => return ()
  | _ => throw (← reject "`;` or line break")

/-- A primitive type. -/
def primitiveType : Parser TypeId := do
  let token ← advance
  let kind : TypeKind :=
    match token.kind with
    | .kwInteger => .integer
    | .kwReal => .real
    | _ => .boolean
  add .type ⟨token.span, kind⟩

/-- A type given by its name. -/
def namedType : Parser TypeId := do
  let token ← expect .identifier "type name"
  add .type ⟨token.span, .named token.text none⟩

section

variable (g : Grammar)

-- The parser for nested types.
variable (type : Parser TypeId)

/-- The type of a declaration, if a colon announces it. -/
def annotation : Parser (Option TypeId) := do
  if (← current).kind = .colon then
    skip
    some <$> type
  else return none

/-- The initial value of a variable, if it has one. -/
def initializer : Parser (Option ExpressionId) := do
  if (← current).kind = .kwIs then
    skip
    let value ← expression g .loosest
    return some value.id
  else return none

/-- A variable declaration. Its terminator is not part of its span. -/
def variableDeclWith : Parser VariableId := do
  let start := (← advance).start
  let name ← expect .identifier "variable name"
  let declaredType ← annotation type
  let initializer ← initializer g
  let span ← spanFrom start
  terminator
  add .variable ⟨span, name.text, declaredType, initializer⟩

/-- The length of an array, if it is stated. -/
def arrayLength : Parser (Option ExpressionId) := do
  if (← current).kind = .openBracket then
    skip
    let length ← expression g .loosest
    discard <| expect .closeBracket "`]`"
    return some length.id
  else return none

/-- An array type: its length and the type of its elements. -/
def arrayType : Parser TypeId := do
  let start := (← advance).start
  let length ← arrayLength g
  let element ← type
  let span ← spanFrom start
  add .type ⟨span, .array length element⟩

/-- The fields of a record up to what is neither a field nor a separator. -/
def recordFields : Parser (List VariableId) :=
  loop (fun fields => do
    match (← current).kind with
    | .newline | .semicolon =>
        skip
        return .more fields
    | .kwVar => return .more (fields ++ [← variableDeclWith g type])
    | _ => return .done fields) []

/-- A record type. -/
def recordType : Parser TypeId := do
  let start := (← advance).start
  let fields ← recordFields g type
  discard <| expect .kwEnd "`var` or `end`"
  let span ← spanFrom start
  add .type ⟨span, .record fields⟩

/-- The type that a rule describes. -/
def typeByRule : TypeRule → Parser TypeId
  | .primitive => primitiveType
  | .named => namedType
  | .array => arrayType g type
  | .record => recordType g type

/-- A type of the form that the current token tells. -/
def typeStep : Parser TypeId := do
  match g.type (← current).kind with
  | none => throw (← reject "type")
  | some rule => typeByRule g type rule

end

/-- A type. -/
def type (g : Grammar) : Parser TypeId :=
  recursive (fun nested (_ : Unit) => typeStep g (nested ())) ()

/-- A variable declaration; the current token is taken for its first word. -/
def variableDecl (g : Grammar) : Parser VariableId := variableDeclWith g (type g)

/-- A type declaration; the current token is taken for its first word. -/
def typeDecl (g : Grammar) : Parser TypeDeclId := do
  let start := (← advance).start
  let name ← expect .identifier "type name"
  discard <| expect .kwIs "`is`"
  let type ← type g
  let span ← spanFrom start
  terminator
  add .typeDecl ⟨span, name.text, type⟩

end Parser

end ProcLang
