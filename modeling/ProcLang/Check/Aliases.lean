import ProcLang.Tree.Arena

/-!
# ProcLang.Check.Aliases

Types that are defined by themselves. A type declaration leads to the declaration that its type
names, also if the name is that of the elements of an array; a record leads nowhere, since its
fields are looked up by name when they are used. A declaration that leads back to itself has no
finite type.

`cyclicAmong` finds each such circle among the given declarations once, at its first member.
Declarations that merely lead into a circle are not part of it.
-/

namespace ProcLang

namespace Arena

/-- The declaration that a type names, through at most `layers` layers of arrays. -/
def namedWithin (a : Arena) : Nat → TypeId → Except Fault (Option TypeDeclId)
  | 0, _ => .error .cyclic
  | layers + 1, id => do
      match (← a.get id).kind with
      | .named _ target => return target
      | .array _ element => a.namedWithin layers element
      | _ => return none

/-- The declaration that a type declaration leads to. -/
def leadsTo (a : Arena) (id : TypeDeclId) : Except Fault (Option TypeDeclId) := do
  a.namedWithin (a.count .type + 1) (← a.get id).type

/-- The circle through `start`, found in at most `hops` steps from `current`; `path` is what lies
between them, both included. -/
def circleWithin (a : Arena) (start : TypeDeclId) :
    Nat → List TypeDeclId → TypeDeclId → Except Fault (Option (List TypeDeclId))
  | 0, _, _ => .ok none
  | hops + 1, path, current => do
      match ← a.leadsTo current with
      | none => return none
      | some next =>
          if next = start then return some path
          else if next ∈ path then return none
          else a.circleWithin start hops (path ++ [next]) next

/-- The declarations on the circle through a declaration, if it leads back to itself. -/
def circle (a : Arena) (start : TypeDeclId) : Except Fault (Option (List TypeDeclId)) :=
  a.circleWithin start (a.count .typeDecl + 1) [start] start

/-- The first member of each circle, leaving out circles through the declarations in `seen`. -/
def cyclicFrom (a : Arena) :
    List TypeDeclId → List TypeDeclId → Except Fault (List TypeDeclId)
  | _, [] => .ok []
  | seen, id :: rest => do
      if id ∈ seen then a.cyclicFrom seen rest
      else
        match ← a.circle id with
        | some members => return id :: (← a.cyclicFrom (members ++ seen) rest)
        | none => a.cyclicFrom seen rest

/-- Of each circle that meets the given declarations, the first of them that lies on it. -/
def cyclicAmong (a : Arena) (declarations : List TypeDeclId) : Except Fault (List TypeDeclId) :=
  a.cyclicFrom [] declarations

end Arena

end ProcLang
