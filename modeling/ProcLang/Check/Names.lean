import ProcLang.Check.Aliases
import ProcLang.Check.Pass

/-!
# ProcLang.Check.Names

Name resolution: every name is linked to its declaration. A scope is the program, or a body together
with what its owner declares for it, the parameters of a routine or the counter of a loop. All
declarations of a scope are visible everywhere in it and hide those of the same name further out.
Variables and types are looked up in the scopes around the place of use; routines are known in the
whole program. A bare name that no variable has becomes a call if a routine has it.

Names of all kinds must differ within one scope, and so must the fields of a record. A scope with a
repeated name is left alone but for the report: nothing in it is resolved.

The name behind the point of a member access belongs to a record and is not looked up here.
-/

namespace ProcLang

/-! ### Scopes -/

/-- The variables and types that are visible at a place, the innermost first. -/
structure Scope where
  variableNames : List (String × VariableId)
  typeNames : List (String × TypeDeclId)
  deriving DecidableEq, Repr

/-- The scope around the program, in which nothing is visible. -/
def Scope.empty : Scope := ⟨[], []⟩

/-- The routines known so far; of two with one name the first counts. -/
abbrev Routines := List (String × RoutineId)

/-- A declaration with its name and the place where it begins. -/
structure ScopeEntry where
  declaration : Declaration
  name : String
  start : Position
  deriving DecidableEq, Repr

/-- The repetitions in a list of names, given those in front of it with the lines of their first
declarations. -/
def repetitionsAfter : List (String × Nat) → List (String × Position) → List Diagnostic
  | _, [] => []
  | seen, (name, start) :: rest =>
      match seen.lookup name with
      | some line => ⟨.redeclaration name line, start⟩ :: repetitionsAfter seen rest
      | none => repetitionsAfter ((name, start.line) :: seen) rest

/-- A report for each name that was declared before in a list, with the line of its first
declaration. -/
def repetitions (names : List (String × Position)) : List Diagnostic := repetitionsAfter [] names

/-- The entries that are the first ones of their names, given the names in front of them. -/
def firstsAfter : List String → List ScopeEntry → List ScopeEntry
  | _, [] => []
  | seen, entry :: rest =>
      if entry.name ∈ seen then firstsAfter seen rest
      else entry :: firstsAfter (entry.name :: seen) rest

/-- The routines among entries, by name. -/
def routinesOf (entries : List ScopeEntry) : Routines :=
  entries.filterMap fun entry =>
    match entry.declaration with
    | .routine id => some (entry.name, id)
    | _ => none

/-- The variables among entries, by name. -/
def variablesOf (entries : List ScopeEntry) : List (String × VariableId) :=
  entries.filterMap fun entry =>
    match entry.declaration with
    | .variable id => some (entry.name, id)
    | _ => none

/-- The types among entries, by name. -/
def typesOf (entries : List ScopeEntry) : List (String × TypeDeclId) :=
  entries.filterMap fun entry =>
    match entry.declaration with
    | .type id => some (entry.name, id)
    | _ => none

/-- The scope with entries in front of what was visible before. -/
def Scope.extend (scope : Scope) (entries : List ScopeEntry) : Scope :=
  ⟨variablesOf entries ++ scope.variableNames, typesOf entries ++ scope.typeNames⟩

/-- A part of name resolution: the context is the scope, the state the known routines. -/
abbrev NamesM := WalkM Scope Routines

open WalkM

/-- Reports diagnostics one after the other. -/
def reportAll (ds : List Diagnostic) : NamesM Unit := ds.forM fun d => report d.cause d.position

/-- The entries that variables and declarations make in a scope. -/
def scopeEntries (seeds : List VariableId) (declarations : List Declaration) :
    NamesM (List ScopeEntry) :=
  (seeds.map Declaration.variable ++ declarations).mapM fun declaration => do
    let (name, span) ← inspect (·.declarationName declaration)
    return ⟨declaration, name, span.start⟩

/-- Opens a scope: the scope in which its names are visible, or none if a name is repeated, which
is reported. The routines among the declarations are known from now on. -/
def declareScope (seeds : List VariableId) (declarations : List Declaration) :
    NamesM (Option Scope) := do
  let entries ← scopeEntries seeds declarations
  let repeated := repetitions (entries.map fun entry => (entry.name, entry.start))
  reportAll repeated
  updateOwn fun routines => routines ++ routinesOf (firstsAfter [] entries)
  if repeated.isEmpty then return some ((← read).extend entries) else return none

/-! ### Single names -/

/-- Reports each circle of type declarations at the first of the given ones on it. -/
def checkCycles (declarations : List TypeDeclId) : NamesM Unit := do
  (← inspect (·.cyclicAmong declarations)).forM fun id => do
    let declaration ← node id
    report (.cyclicType declaration.name) declaration.span.start

/-- Links a name to the variable it stands for, or turns it into a call of the routine it names. -/
def resolveIdentifier (id : ExpressionId) (name : String) : NamesM (Option ExpressionId) := do
  match (← read).variableNames.lookup name with
  | some target =>
      let declared := (← node target).declaredType
      update id fun e => { e with kind := e.kind.setVariable target, type := declared <|> e.type }
      return none
  | none =>
      let span := (← node id).span
      match (← get).own.lookup name with
      | some routine =>
          note (.nameTurnedCall span.start name)
          some <$> add .expression (.plain (.call name (some routine) []) span)
      | none =>
          report (.undeclaredName name) span.start
          return none

/-- Links a call to the routine it names. -/
def resolveCall (id : ExpressionId) (name : String) : NamesM Unit := do
  match (← get).own.lookup name with
  | some routine => update id fun e => { e with kind := e.kind.setRoutine routine }
  | none => report (.undeclaredRoutine name) (← node id).span.start

/-- Links a named type to its declaration. -/
def resolveTypeName (id : TypeId) (name : String) : NamesM Unit := do
  match (← read).typeNames.lookup name with
  | some target => update id fun type => { type with kind := type.kind.setTarget target }
  | none => report (.undeclaredType name) (← node id).span.start

/-- Reports the repeated names among the fields of a record. -/
def checkFields (fields : List VariableId) : NamesM Unit := do
  let names ← fields.mapM fun (id : VariableId) => do
    let field ← node id
    return (field.name, field.span.start)
  reportAll (repetitions names)

/-- Reports a member access to something else than a name. -/
def checkMemberName (field : ExpressionId) : NamesM Unit := do
  let e ← node field
  match e.kind with
  | .identifier _ _ => return ()
  | _ => report .memberNotIdentifier e.span.start

/-- Reports a statement that is the bare name of a variable. -/
def checkCallStatement (id : StatementId) : NamesM Unit := do
  let statement ← node id
  match statement.kind with
  | .call callee =>
      match (← node callee).kind with
      | .identifier _ (some _) => report .invalidStatement statement.span.start
      | _ => return ()
  | _ => return ()

/-! ### The walk -/

section

variable (below : Visit → NamesM (Option ExpressionId))

/-- Resolves the declarations of a scope that has been opened: first the types, so that circles
among them can be found, then all others. -/
def resolveDeclarations (declarations : List Declaration) : NamesM Unit := do
  let types := declarations.filterMap Declaration.type?
  visitEach below .typeDecl types
  checkCycles types
  visitEach below .declaration (declarations.filter fun d => d.type?.isNone)

/-- Resolves a body in a scope of its own, which the variables `seeds` open. -/
def resolveBody (seeds : List VariableId) (id : BodyId) : NamesM Unit := do
  let body ← node id
  note (.scopeEntered body.span.start)
  match ← declareScope seeds body.declarations with
  | some scope =>
      inContext scope do
        resolveDeclarations below body.declarations
        visitEach below .statement body.statements
  | none => pure ()
  note (.scopeLeft body.span.start)

/-- Resolves the program. -/
def resolveProgram : NamesM Unit := do
  let declarations := (← arena).program.declarations
  note .programEntered
  match ← declareScope [] declarations with
  | some scope => inContext scope (resolveDeclarations below declarations)
  | none => return ()

/-- Resolves a routine: its parameters and its result type outside, its body inside of the scope
that the parameters open. -/
def resolveRoutine (id : RoutineId) : NamesM Unit := do
  let routine ← node id
  visitEach below .variable routine.parameters
  visitOptional below .type routine.returnType
  resolveBody below routine.parameters routine.body

/-- Resolves a statement. The bounds of a loop lie outside of the scope that its counter opens. -/
def resolveStatement (id : StatementId) : NamesM Unit := do
  match (← node id).kind with
  | .forLoop counter _ _ _ body =>
      walkStatementExpressions below id
      resolveBody below [counter] body
  | .call _ =>
      walkStatementExpressions below id
      checkCallStatement id
  | _ => walkStatement below id

/-- Resolves a type and the types in it. -/
def resolveTypeNode (id : TypeId) : NamesM Unit := do
  match (← node id).kind with
  | .named name _ => resolveTypeName id name
  | .record fields =>
      checkFields fields
      walkType below id
  | _ => walkType below id

/-- Resolves an expression; the result is the call that takes its place, if any. -/
def resolveExpression (id : ExpressionId) : NamesM (Option ExpressionId) := do
  match (← node id).kind with
  | .identifier name _ => resolveIdentifier id name
  | .call name _ _ =>
      walkExpression below id
      resolveCall id name
      return none
  | .binary .member left right =>
      visitOperand below id 0 left
      checkMemberName right
      return none
  | _ =>
      walkExpression below id
      return none

end

/-- The visitor of name resolution. -/
def resolver : Visitor Scope Routines := fun below v =>
  match v with
  | .program => do resolveProgram below; return none
  | .routine id => do resolveRoutine below id; return none
  | .body id => do resolveBody below [] id; return none
  | .statement id => do resolveStatement below id; return none
  | .type id => do resolveTypeNode below id; return none
  | .expression id => resolveExpression below id
  | _ => walkThrough below v

/-- Name resolution. -/
def nameResolution : Pass := .ofVisitor .nameResolution resolver Scope.empty []

end ProcLang
