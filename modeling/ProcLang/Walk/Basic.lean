import ProcLang.Journal
import ProcLang.Tree.Arena

/-!
# ProcLang.Walk.Basic

Walking over a tree. A `Visitor` says what happens at each node; `walk` is what happens by default:
the children of a node are visited in the order in which the node lists them. Visiting an expression
may give another expression to take its place, and `walk` stores it in the slot of the parent
through which the first one was reached. A node that takes another one's place is not visited.

A visitor is written as one layer: it is given the visitor of the nodes below and the node. `visit`
puts the layers together, down to a depth that no tree exceeds; a circle of nodes is a fault.

The list of children is read before the first of them is visited, and the node itself is read again
when a slot is written.
-/

namespace ProcLang

/-- A node to be visited, the program as a whole, or an entry in a list of declarations. -/
inductive Visit where
  | program
  | declaration (declaration : Declaration)
  | routine (id : RoutineId)
  | variable (id : VariableId)
  | typeDecl (id : TypeDeclId)
  | type (id : TypeId)
  | body (id : BodyId)
  | statement (id : StatementId)
  | expression (id : ExpressionId)
  deriving DecidableEq, Repr

/-- What a walk works on: the tree, the diagnostics and events so far, and a state `σ` of the
visitor's own. -/
structure WalkState (σ : Type) where
  arena : Arena
  diagnostics : Array Diagnostic
  journal : Journal
  own : σ

/-- A part of a walk, in a context `κ` that depends on the place in the tree. -/
abbrev WalkM (κ σ : Type) := ReaderT κ (StateT (WalkState σ) (Except Fault))

/-- One layer of a walk: given how the nodes below are visited, how this node is. The result is the
expression that takes the place of a visited expression, if any. -/
abbrev Visitor (κ σ : Type) :=
  (Visit → WalkM κ σ (Option ExpressionId)) → Visit → WalkM κ σ (Option ExpressionId)

namespace WalkM

variable {κ σ α : Type} {family : Family}

/-- The tree as it is now. -/
def arena : WalkM κ σ Arena := do return (← get).arena

/-- What a function of the tree gives, or its fault. -/
def inspect (f : Arena → Except Fault α) : WalkM κ σ α := do
  match f (← arena) with
  | .ok x => return x
  | .error fault => throw fault

/-- The node with an id. -/
def node (id : NodeId family) : WalkM κ σ (Node family) := inspect (·.get id)

/-- Changes the node with an id. -/
def update (id : NodeId family) (f : Node family → Node family) : WalkM κ σ Unit := do
  let changed ← inspect (·.modify id f)
  modify fun s => { s with arena := changed }

/-- Adds a node to the tree. -/
def add (family : Family) (node : Node family) : WalkM κ σ (NodeId family) :=
  modifyGet fun s =>
    let (id, arena) := s.arena.add family node
    (id, { s with arena })

/-- Adds a diagnostic. -/
def report (cause : Cause) (position : Position) : WalkM κ σ Unit :=
  modify fun s => { s with diagnostics := s.diagnostics.push ⟨cause, position⟩ }

/-- Adds an event to the journal. -/
def note (event : Event) : WalkM κ σ Unit :=
  modify fun s => { s with journal := s.journal.push event }

/-- Changes the visitor's own state. -/
def updateOwn (f : σ → σ) : WalkM κ σ Unit := modify fun s => { s with own := f s.own }

/-- A part of a walk in another context. -/
def inContext (context : κ) (m : WalkM κ σ α) : WalkM κ σ α := fun _ => m context

end WalkM

open WalkM

section

variable {κ σ : Type} (below : Visit → WalkM κ σ (Option ExpressionId))

/-! ### The default walk -/

/-- Visits a node that is no expression. -/
def visitOnly (v : Visit) : WalkM κ σ Unit := discard (below v)

/-- Visits a node that may be missing. -/
def visitOptional {α : Type} (visit : α → Visit) : Option α → WalkM κ σ Unit
  | some x => visitOnly below (visit x)
  | none => return ()

/-- Visits nodes one after the other. -/
def visitEach {α : Type} (visit : α → Visit) (xs : List α) : WalkM κ σ Unit :=
  xs.forM fun x => visitOnly below (visit x)

/-- Visits an expression and stores what takes its place. -/
def visitSlot (e : ExpressionId) (store : ExpressionId → WalkM κ σ Unit) : WalkM κ σ Unit := do
  match ← below (.expression e) with
  | some replacement => store replacement
  | none => return ()

/-- Visits the parameters, the result type and the body of a routine. -/
def walkRoutine (id : RoutineId) : WalkM κ σ Unit := do
  let routine ← node id
  visitEach below .variable routine.parameters
  visitOptional below .type routine.returnType
  visitOnly below (.body routine.body)

/-- Visits the declared type of a variable and its initial value. -/
def walkVariable (id : VariableId) : WalkM κ σ Unit := do
  visitOptional below .type (← node id).declaredType
  match (← node id).initializer with
  | some e =>
      visitSlot below e fun replacement =>
        update id fun node => { node with initializer := some replacement }
  | none => return ()

/-- Visits the length and the element type of an array, or the fields of a record. A name is not
followed. -/
def walkType (id : TypeId) : WalkM κ σ Unit := do
  match (← node id).kind with
  | .array length element =>
      match length with
      | some e =>
          visitSlot below e fun replacement =>
            update id fun type => { type with kind := type.kind.setLength replacement }
      | none => pure ()
      visitOnly below (.type element)
  | .record fields => visitEach below .variable fields
  | .named _ _ | .integer | .real | .boolean => return ()

/-- Visits the declarations of a body and then its statements. -/
def walkBody (id : BodyId) : WalkM κ σ Unit := do
  let body ← node id
  visitEach below .declaration body.declarations
  visitEach below .statement body.statements

/-- Visits the expressions that a statement owns. -/
def walkStatementExpressions (id : StatementId) : WalkM κ σ Unit := do
  let statement ← node id
  statement.kind.expressions.zipIdx.forM fun (e, index) =>
    visitSlot below e fun replacement =>
      update id fun statement =>
        { statement with kind := statement.kind.setExpression index replacement }

/-- Visits the expressions of a statement, the counter of a loop and the bodies. -/
def walkStatement (id : StatementId) : WalkM κ σ Unit := do
  walkStatementExpressions below id
  let kind := (← node id).kind
  visitOptional below .variable kind.counter?
  visitEach below .body kind.bodies

/-- Visits one operand of an expression. -/
def visitOperand (parent : ExpressionId) (index : Nat) (operand : ExpressionId) :
    WalkM κ σ Unit :=
  visitSlot below operand fun replacement =>
    update parent fun e => { e with kind := e.kind.setOperand index replacement }

/-- Visits the operands of an expression. -/
def walkExpression (id : ExpressionId) : WalkM κ σ Unit := do
  let e ← node id
  e.kind.operands.zipIdx.forM fun (operand, index) => visitOperand below id index operand

/-- Visits what lies directly below a node. -/
def walk : Visit → WalkM κ σ Unit
  | .program => do visitEach below .declaration (← arena).program.declarations
  | .declaration (.routine id) => visitOnly below (.routine id)
  | .declaration (.variable id) => visitOnly below (.variable id)
  | .declaration (.type id) => visitOnly below (.typeDecl id)
  | .routine id => walkRoutine below id
  | .variable id => walkVariable below id
  | .typeDecl id => do visitOnly below (.type (← node id).type)
  | .type id => walkType below id
  | .body id => walkBody below id
  | .statement id => walkStatement below id
  | .expression id => walkExpression below id

/-- The default of a layer: the walk, with nothing to take the node's place. -/
def walkThrough (v : Visit) : WalkM κ σ (Option ExpressionId) := do
  walk below v
  return none

end

/-! ### Putting layers together -/

/-- A visitor with at most `depth` layers. -/
def visitWithin {κ σ : Type} (visitor : Visitor κ σ) :
    Nat → Visit → WalkM κ σ (Option ExpressionId)
  | 0, _ => throw .cyclic
  | depth + 1, v => visitor (visitWithin visitor depth) v

/-- More layers than any walk over a tree has: a path from the program down meets each node at most
once, and at most one entry of a list of declarations in front of each. -/
def Arena.depthBound (a : Arena) : Nat := 2 * a.size + 2

/-- Visits a node and all that is below it. -/
def visit {κ σ : Type} (visitor : Visitor κ σ) (v : Visit) : WalkM κ σ (Option ExpressionId) := do
  visitWithin visitor (← arena).depthBound v

end ProcLang
