import ProcLang.Journal
import ProcLang.Tree.Arena
import Mathlib.Data.List.Basic

/-!
# ProcLang.Proofs.Columns.Tree

**Trees with other columns.** `a.mapColumns f` is the tree `a` in which each column `c` of a place is
`f c`; lines stay what they are. Nothing but places changes: the nodes have the same ids, names and
links. With `noColumn` for `f` two trees become equal if they differ in columns only.
-/

namespace ProcLang

/-- The same column for all places, so that lines are all that is left of them. -/
def noColumn : Nat → Nat := fun _ => 0

variable (f : Nat → Nat)

/-! ### Places -/

/-- The place with another column. -/
def Position.mapColumn (p : Position) : Position := ⟨p.line, f p.column⟩

/-- The span with other columns. -/
def Span.mapColumns (s : Span) : Span := ⟨s.start.mapColumn f, s.stop.mapColumn f⟩

/-- The diagnostic with another column. -/
def Diagnostic.mapColumns (d : Diagnostic) : Diagnostic := ⟨d.cause, d.position.mapColumn f⟩

/-- The event with other columns. -/
def Event.mapColumns : Event → Event
  | commentSkipped place => commentSkipped (place.mapColumn f)
  | syntaxError d => syntaxError (d.mapColumns f)
  | bodyParsed place declarations statements => bodyParsed (place.mapColumn f) declarations statements
  | programParsed declarations errors => programParsed declarations errors
  | stageStarted stage => stageStarted stage
  | stageFinished stage errors => stageFinished stage errors
  | programEntered => programEntered
  | scopeEntered place => scopeEntered (place.mapColumn f)
  | scopeLeft place => scopeLeft (place.mapColumn f)
  | nameTurnedCall place name => nameTurnedCall (place.mapColumn f) name

/-! ### Nodes -/

/-- The node with other columns. -/
def Node.mapColumns : (family : Family) → Node family → Node family
  | .routine, node => { node with span := node.span.mapColumns f }
  | .variable, node => { node with span := node.span.mapColumns f }
  | .typeDecl, node => { node with span := node.span.mapColumns f }
  | .type, node => { node with span := node.span.mapColumns f }
  | .body, node => { node with span := node.span.mapColumns f }
  | .statement, node => { node with span := node.span.mapColumns f }
  | .expression, node => { node with span := node.span.mapColumns f }

namespace Node

@[simp] theorem mapColumns_routine (node : Routine) :
    mapColumns f .routine node = { node with span := node.span.mapColumns f } := rfl

@[simp] theorem mapColumns_variable (node : Variable) :
    mapColumns f .variable node = { node with span := node.span.mapColumns f } := rfl

@[simp] theorem mapColumns_typeDecl (node : TypeDecl) :
    mapColumns f .typeDecl node = { node with span := node.span.mapColumns f } := rfl

@[simp] theorem mapColumns_type (node : TypeNode) :
    mapColumns f .type node = { node with span := node.span.mapColumns f } := rfl

@[simp] theorem mapColumns_body (node : Body) :
    mapColumns f .body node = { node with span := node.span.mapColumns f } := rfl

@[simp] theorem mapColumns_statement (node : Statement) :
    mapColumns f .statement node = { node with span := node.span.mapColumns f } := rfl

@[simp] theorem mapColumns_expression (node : Expression) :
    mapColumns f .expression node = { node with span := node.span.mapColumns f } := rfl

end Node

namespace Arena

/-- The tree with other columns. -/
def mapColumns (a : Arena) : Arena where
  program := { a.program with span := a.program.span.mapColumns f }
  routineTable := a.routineTable.map (Node.mapColumns f .routine)
  variableTable := a.variableTable.map (Node.mapColumns f .variable)
  typeDeclTable := a.typeDeclTable.map (Node.mapColumns f .typeDecl)
  typeTable := a.typeTable.map (Node.mapColumns f .type)
  bodyTable := a.bodyTable.map (Node.mapColumns f .body)
  statementTable := a.statementTable.map (Node.mapColumns f .statement)
  expressionTable := a.expressionTable.map (Node.mapColumns f .expression)

variable (a : Arena) {family : Family}

theorem table_mapColumns (family : Family) :
    (a.mapColumns f).table family = (a.table family).map (Node.mapColumns f family) := by
  cases family <;> rfl

@[simp] theorem program_mapColumns :
    (a.mapColumns f).program.declarations = a.program.declarations := rfl

@[simp] theorem count_mapColumns (family : Family) :
    (a.mapColumns f).count family = a.count family := by
  rw [count, table_mapColumns, Array.size_map, count]

@[simp] theorem size_mapColumns : (a.mapColumns f).size = a.size := by
  simp [size, mapColumns]

theorem get?_mapColumns (id : NodeId family) :
    (a.mapColumns f).get? id = (a.get? id).map (Node.mapColumns f family) := by
  rw [get?, table_mapColumns, Array.getElem?_map, get?]

@[simp] theorem get_mapColumns (id : NodeId family) :
    (a.mapColumns f).get id = Node.mapColumns f family <$> a.get id := by
  rw [get, get?_mapColumns, get]
  cases a.get? id <;> rfl

theorem mapTable_mapColumns {g g' : Array (Node family) → Array (Node family)}
    (h : ∀ nodes, g' (nodes.map (Node.mapColumns f family)) = (g nodes).map (Node.mapColumns f family)) :
    (a.mapColumns f).mapTable family g' = (a.mapTable family g).mapColumns f := by
  cases family <;> simp only [mapTable, mapColumns, h]

theorem put_mapColumns (id : NodeId family) (node : Node family) :
    (a.mapColumns f).put id (Node.mapColumns f family node) = (a.put id node).mapColumns f :=
  a.mapTable_mapColumns f fun nodes => by simp

theorem add_mapColumns (family : Family) (node : Node family) :
    (a.mapColumns f).add family (Node.mapColumns f family node) =
      ((a.add family node).1, (a.add family node).2.mapColumns f) := by
  rw [add, add, count_mapColumns,
    a.mapTable_mapColumns f fun nodes => Array.map_push.symm]

theorem modify_mapColumns (id : NodeId family) {g g' : Node family → Node family}
    (h : ∀ node, g' (Node.mapColumns f family node) = Node.mapColumns f family (g node)) :
    (a.mapColumns f).modify id g' = mapColumns f <$> a.modify id g := by
  rw [modify, get?_mapColumns, modify]
  cases a.get? id with
  | none => rfl
  | some node =>
      simp only [Option.map_some, h, put_mapColumns]
      rfl

@[simp] theorem mapColumns_id : a.mapColumns id = a := by
  have hmap : ∀ (family : Family) (nodes : Array (Node family)),
      nodes.map (Node.mapColumns id family) = nodes := by
    intro family nodes
    rw [show Node.mapColumns id family = id by cases family <;> rfl, Array.map_id]
  simp only [mapColumns, hmap]
  rfl

end Arena

end ProcLang
