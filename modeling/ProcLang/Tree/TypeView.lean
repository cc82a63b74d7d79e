import ProcLang.Tree.Arena

/-!
# ProcLang.Tree.TypeView

Types seen through their names. `resolveType` follows named types to the type they stand for,
`sameType` compares two types by their structure, `typeName` is how a type is spelled in a message,
and `variableType` is the type of a variable as far as it is known.

Named types and array types may refer back to themselves. Following names is bounded by the number
of type declarations and comparing by the number of types, which is enough for every finite type;
types beyond the bounds have no resolution, and differ.
-/

namespace ProcLang

namespace Arena

/-- Follows a type through at most `hops` nodes to one that is no name. -/
def resolveWithin (a : Arena) : Nat → TypeId → Except Fault (Option TypeId)
  | 0, _ => .ok none
  | hops + 1, id => do
      match (← a.get id).kind with
      | .named _ none => return none
      | .named _ (some declaration) => a.resolveWithin hops (← a.get declaration).type
      | _ => return some id

/-- The type that a type stands for: itself, or what its name leads to. There is none if a name on
the way has no declaration, or if names lead in a circle. -/
def resolveType (a : Arena) (id : TypeId) : Except Fault (Option TypeId) :=
  a.resolveWithin (a.count .typeDecl + 1) id

/-- Compares two types through at most `layers` layers of arrays. -/
def sameWithin (a : Arena) : Nat → TypeId → TypeId → Except Fault Bool
  | 0, _, _ => .ok false
  | layers + 1, left, right => do
      match ← a.resolveType left, ← a.resolveType right with
      | some l, some r =>
          if l = r then return true
          else
            match (← a.get l).kind, (← a.get r).kind with
            | .integer, .integer | .real, .real | .boolean, .boolean => return true
            | .array _ x, .array _ y => a.sameWithin layers x y
            | _, _ => return false
      | _, _ => return false

/-- Two types are the same if, looking through names, they are one primitive type, or arrays of the
same type of elements, or one record. The lengths of arrays do not count. -/
def sameType (a : Arena) (left right : TypeId) : Except Fault Bool :=
  a.sameWithin (a.count .type + 1) left right

/-- The spelling of a type with at most `layers` layers of arrays. -/
def typeNameWithin (a : Arena) : Nat → TypeId → Except Fault String
  | 0, _ => .error .cyclic
  | layers + 1, id => do
      match (← a.get id).kind with
      | .named name _ => return name
      | .integer => return "integer"
      | .real => return "real"
      | .boolean => return "boolean"
      | .array _ element => return "array " ++ (← a.typeNameWithin layers element)
      | .record _ => return "record"

/-- How a type is spelled in a message: names as they are, arrays without lengths, records without
fields. -/
def typeName (a : Arena) (id : TypeId) : Except Fault String :=
  a.typeNameWithin (a.count .type + 1) id

/-- The type of a variable: the declared one, or else the one found for its initial value. -/
def variableType (a : Arena) (id : VariableId) : Except Fault (Option TypeId) := do
  let node ← a.get id
  match node.declaredType, node.initializer with
  | some type, _ => return some type
  | none, some initializer => return (← a.get initializer).type
  | none, none => return none

end Arena

end ProcLang
