import ProcLang.Parse.Type

/-!
# ProcLang.Parse.Statement

Reading statements and bodies. A body reaches up to the `end` or `else` that closes it, which is
left for whoever opened the body. An error inside a body is recorded, the rest of the line is
skipped, and reading goes on, so that one bad line does not hide the others. A body without its
closing word is an error of whoever opened it.
-/

namespace ProcLang

namespace Parser

section

variable (g : Grammar)

-- The parser for nested bodies.
variable (body : Parser BodyId)

/-- An assignment, or an expression that is a call. -/
def expressionStatement : Parser StatementId := do
  let start := (← current).start
  let first ← expression g .loosest
  if (← current).kind = .assign then
    skip
    let value ← expression g .loosest
    let span ← spanFrom start
    add .statement ⟨span, .assignment first.id value.id⟩
  else if first.node.isCallLike then
    let span ← spanFrom start
    add .statement ⟨span, .call first.id⟩
  else raise ⟨.invalidStatement, start⟩

/-- A body with the `end` that closes it. -/
def closedBody : Parser BodyId := do
  let inner ← body
  discard <| expect .kwEnd "`end`"
  return inner

/-- A loop that runs while a condition holds. -/
def whileLoop : Parser StatementId := do
  let start := (← advance).start
  let condition ← expression g .loosest
  discard <| expect .kwLoop "`loop`"
  let inner ← closedBody body
  let span ← spanFrom start
  add .statement ⟨span, .whileLoop condition.id inner⟩

/-- Declares the counter of a loop, an integer variable whose span is its name. -/
def counter (name : Token) : Parser VariableId := do
  let type ← add .type ⟨name.span, .integer⟩
  add .variable ⟨name.span, name.text, some type, none⟩

/-- A loop that counts from one bound to another. -/
def forLoop : Parser StatementId := do
  let start := (← advance).start
  let name ← expect .identifier "loop variable name"
  discard <| expect .kwIn "`in`"
  let reverse := (← current).kind == .kwReverse
  if reverse then skip
  let first ← expression g .loosest
  discard <| expect .dotDot "`..`"
  let last ← expression g .loosest
  discard <| expect .kwLoop "`loop`"
  let counter ← counter name
  let inner ← closedBody body
  let span ← spanFrom start
  add .statement ⟨span, .forLoop counter first.id last.id reverse inner⟩

/-- The other branch of a conditional statement, if it has one. -/
def elseBranch : Parser (Option BodyId) := do
  if (← current).kind = .kwElse then
    skip
    some <$> body
  else return none

/-- A conditional statement. -/
def branch : Parser StatementId := do
  let start := (← advance).start
  let condition ← expression g .loosest
  discard <| expect .kwThen "`then`"
  let thenBody ← body
  let elseBody ← elseBranch body
  discard <| expect .kwEnd "`end`"
  let span ← spanFrom start
  add .statement ⟨span, .branch condition.id thenBody elseBody⟩

/-- The value that a routine gives back, if the statement does not end before it. -/
def resultValue : Parser (Option ExpressionId) := do
  match (← current).kind with
  | .newline | .semicolon | .kwEnd | .kwElse | .endOfFile => return none
  | _ =>
      let value ← expression g .loosest
      return some value.id

/-- The statement that ends a routine. -/
def returning : Parser StatementId := do
  let start := (← advance).start
  let value ← resultValue g
  let span ← spanFrom start
  add .statement ⟨span, .returning value⟩

/-- The statement that a rule describes. -/
def statementByRule : StatementRule → Parser StatementId
  | .whileLoop => whileLoop g body
  | .forLoop => forLoop g body
  | .branch => branch g body
  | .returning => returning g

/-- A statement of the form that the current token tells; without a rule for that token it is an
assignment or a call. -/
def statementWith : Parser StatementId := do
  match g.statement (← current).kind with
  | some rule => statementByRule g body rule
  | none => expressionStatement g

/-- What a body holds, as far as it has been read. -/
structure BodyItems where
  declarations : List Declaration
  statements : List StatementId

/-- A local declaration or a statement. Routines cannot be local. -/
def bodyItem (items : BodyItems) : Parser BodyItems := do
  match (← current).kind with
  | .kwVar =>
      let id ← variableDecl g
      return { items with declarations := items.declarations ++ [.variable id] }
  | .kwType =>
      let id ← typeDecl g
      return { items with declarations := items.declarations ++ [.type id] }
  | .kwRoutine => refuse "statement"
  | _ =>
      let id ← statementWith g body
      return { items with statements := items.statements ++ [id] }

/-- The items of a body up to the word that closes it. -/
def bodyItems : Parser BodyItems :=
  loop (fun items => do
    match (← current).kind with
    | .newline | .semicolon =>
        skip
        return .more items
    | .kwEnd | .kwElse => return .done items
    | .endOfFile => raise ⟨.unterminatedBody, (← current).start⟩
    | _ =>
        let items ← recovering [.newline, .semicolon] [.kwEnd, .kwElse] items (bodyItem g body items)
        return .more items) ⟨[], []⟩

/-- A body. Its span begins at its first token, and ends where the last token before the closing
word stops. -/
def bodyStep : Parser BodyId := do
  let start := (← current).start
  let items ← bodyItems g body
  let span ← spanFrom start
  note (.bodyParsed start items.declarations.length items.statements.length)
  add .body ⟨span, items.declarations, items.statements⟩

end

/-- A body, up to the word that closes it. -/
def body (g : Grammar) : Parser BodyId :=
  recursive (fun nested (_ : Unit) => bodyStep g (nested ())) ()

/-- A statement. -/
def statement (g : Grammar) : Parser StatementId := statementWith g (body g)

end Parser

end ProcLang
