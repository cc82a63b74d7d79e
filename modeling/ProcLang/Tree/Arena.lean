import ProcLang.Tree.Node

/-!
# ProcLang.Tree.Arena

The arena that holds all nodes of a program: a table of nodes for each family, and the program
itself, which is the list of its top-level declarations. Nodes are added and overwritten, never
removed, so an id stays valid for good. The first three types are shared ones for integers, reals
and booleans; the types of literals refer to them.

Reading or writing a node that does not exist is a `Fault`. So is following ids in a circle that
no tree has. A tree that was parsed has neither.
-/

namespace ProcLang

/-- What is wrong with ids that do not form a tree. -/
inductive Fault where
  /-- There is no node with this id. -/
  | missing (family : Family) (index : Nat)
  /-- A node is its own descendant. -/
  | cyclic
  deriving DecidableEq, Repr

/-- The nodes of a family. -/
@[reducible] def Node : Family → Type
  | .routine => Routine
  | .variable => Variable
  | .typeDecl => TypeDecl
  | .type => TypeNode
  | .body => Body
  | .statement => Statement
  | .expression => Expression

/-- The root of a tree: the top-level declarations as they are written. -/
structure Program where
  span : Span
  declarations : List Declaration
  deriving DecidableEq, Repr

namespace Program

/-- The routines among the declarations. -/
def routineIds (p : Program) : List RoutineId :=
  p.declarations.filterMap fun
    | .routine id => some id
    | _ => none

/-- The variables among the declarations. -/
def variableIds (p : Program) : List VariableId :=
  p.declarations.filterMap fun
    | .variable id => some id
    | _ => none

/-- The types among the declarations. -/
def typeDeclIds (p : Program) : List TypeDeclId :=
  p.declarations.filterMap fun
    | .type id => some id
    | _ => none

end Program

/-- A program with all its nodes. -/
structure Arena where
  program : Program
  routineTable : Array Routine
  variableTable : Array Variable
  typeDeclTable : Array TypeDecl
  typeTable : Array TypeNode
  bodyTable : Array Body
  statementTable : Array Statement
  expressionTable : Array Expression
  deriving DecidableEq, Repr

namespace Arena

/-! ### The shared types -/

/-- The shared type of integers. -/
def integer : TypeId := ⟨0⟩

/-- The shared type of reals. -/
def real : TypeId := ⟨1⟩

/-- The shared type of truth values. -/
def boolean : TypeId := ⟨2⟩

/-- The arena of an empty program, which holds the shared types only. -/
def empty : Arena where
  program := ⟨Span.origin, []⟩
  routineTable := #[]
  variableTable := #[]
  typeDeclTable := #[]
  typeTable := #[⟨Span.origin, .integer⟩, ⟨Span.origin, .real⟩, ⟨Span.origin, .boolean⟩]
  bodyTable := #[]
  statementTable := #[]
  expressionTable := #[]

/-! ### Tables -/

/-- The nodes of a family, in the order in which they were added. -/
def table (a : Arena) : (family : Family) → Array (Node family)
  | .routine => a.routineTable
  | .variable => a.variableTable
  | .typeDecl => a.typeDeclTable
  | .type => a.typeTable
  | .body => a.bodyTable
  | .statement => a.statementTable
  | .expression => a.expressionTable

/-- The arena with the nodes of one family changed. -/
def mapTable (a : Arena) :
    (family : Family) → (Array (Node family) → Array (Node family)) → Arena
  | .routine, f => { a with routineTable := f a.routineTable }
  | .variable, f => { a with variableTable := f a.variableTable }
  | .typeDecl, f => { a with typeDeclTable := f a.typeDeclTable }
  | .type, f => { a with typeTable := f a.typeTable }
  | .body, f => { a with bodyTable := f a.bodyTable }
  | .statement, f => { a with statementTable := f a.statementTable }
  | .expression, f => { a with expressionTable := f a.expressionTable }

/-- The number of nodes of a family. -/
def count (a : Arena) (family : Family) : Nat := (a.table family).size

/-- The number of all nodes. -/
def size (a : Arena) : Nat :=
  a.routineTable.size + a.variableTable.size + a.typeDeclTable.size + a.typeTable.size + a.bodyTable.size +
    a.statementTable.size + a.expressionTable.size

/-! ### Single nodes -/

variable {family : Family}

/-- The node with an id, if there is one. -/
def get? (a : Arena) (id : NodeId family) : Option (Node family) := (a.table family)[id.index]?

/-- The node with an id. -/
def get (a : Arena) (id : NodeId family) : Except Fault (Node family) :=
  match a.get? id with
  | some node => .ok node
  | none => .error (.missing family id.index)

/-- The arena with a node added behind the others of its family, and the id of the node. -/
def add (a : Arena) (family : Family) (node : Node family) : NodeId family × Arena :=
  (⟨a.count family⟩, a.mapTable family fun nodes => nodes.push node)

/-- The arena with a node overwritten; nothing changes if there is no such node. -/
def put (a : Arena) (id : NodeId family) (node : Node family) : Arena :=
  a.mapTable family fun nodes => nodes.setIfInBounds id.index node

/-- The arena with an existing node changed. -/
def modify (a : Arena) (id : NodeId family) (f : Node family → Node family) : Except Fault Arena :=
  match a.get? id with
  | some node => .ok (a.put id (f node))
  | none => .error (.missing family id.index)

/-- The name of a declaration, and its span. -/
def declarationName (a : Arena) : Declaration → Except Fault (String × Span)
  | .routine id => do let node ← a.get id; pure (node.name, node.span)
  | .variable id => do let node ← a.get id; pure (node.name, node.span)
  | .type id => do let node ← a.get id; pure (node.name, node.span)

/-! ### What the operations do to the tables -/

theorem table_mapTable (a : Arena) (family : Family)
    (f : Array (Node family) → Array (Node family)) :
    (a.mapTable family f).table family = f (a.table family) := by
  cases family <;> rfl

theorem table_mapTable_of_ne (a : Arena) {family other : Family} (h : other ≠ family)
    (f : Array (Node family) → Array (Node family)) :
    (a.mapTable family f).table other = a.table other := by
  cases family <;> cases other <;> first | rfl | exact absurd rfl h

theorem table_add (a : Arena) (family : Family) (node : Node family) :
    (a.add family node).2.table family = (a.table family).push node :=
  table_mapTable a family _

theorem table_put (a : Arena) (id : NodeId family) (node : Node family) :
    (a.put id node).table family = (a.table family).setIfInBounds id.index node :=
  table_mapTable a family _

/-- A node that was just added is found under its id. -/
theorem get?_add (a : Arena) (family : Family) (node : Node family) :
    (a.add family node).2.get? (a.add family node).1 = some node := by
  rw [get?, table_add]
  exact Array.getElem?_push_size

/-- Adding a node keeps the nodes that there are. -/
theorem get?_add_of_get? (a : Arena) {id : NodeId family} {old node : Node family}
    (h : a.get? id = some old) : (a.add family node).2.get? id = some old := by
  obtain ⟨hlt, -⟩ := Array.getElem?_eq_some_iff.1 h
  simp only [get?, table_add, Array.getElem?_push, Nat.ne_of_lt hlt, if_false]
  exact h

end Arena

/-! ### Literals -/

namespace Expression

/-- An integer literal. Like every literal it is constant and has a shared type. -/
def integer (value : Int) (span : Span) : Expression :=
  ⟨span, true, some Arena.integer, .integer value⟩

/-- A real literal. -/
def real (value : Binary64) (span : Span) : Expression :=
  ⟨span, true, some Arena.real, .real value⟩

/-- A literal truth value. -/
def boolean (value : Bool) (span : Span) : Expression :=
  ⟨span, true, some Arena.boolean, .boolean value⟩

end Expression

end ProcLang
