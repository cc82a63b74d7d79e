/-!
# ProcLang.PrefixTree

Maps from texts to values that can be walked character by character. The nodes of a `PrefixTree` stand
in an array, the root first. A node holds the value of the key that ends there, and the indices of the
nodes to which the next characters lead.

`add`, `find` and `ofList` treat the tree as a map. A `Cursor` is a place in the tree, or no place
at all once the characters fed to it are the beginning of no key. `longestKey` is the reading of a
tree that tokenizing needs: the longest key that a text begins with.
-/

namespace ProcLang

/-- A node of a prefix tree: the value of the key that ends there, and for each character that continues
a key the index of the node behind it. -/
structure PrefixNode (α : Type) where
  children : List (Char × Nat)
  value : Option α
  deriving DecidableEq, Repr

/-- A map from texts to values, arranged by the characters of the keys. The first node is the root. -/
structure PrefixTree (α : Type) where
  nodes : Array (PrefixNode α)
  deriving DecidableEq, Repr

namespace PrefixTree

variable {α : Type}

/-- The tree without keys. -/
def empty : PrefixTree α := ⟨#[⟨[], none⟩]⟩

/-- The node to which a character leads from a node. -/
def child (tree : PrefixTree α) (i : Nat) (c : Char) : Option Nat :=
  tree.nodes[i]?.bind fun node => node.children.lookup c

/-- The value of a node. -/
def valueAt (tree : PrefixTree α) (i : Nat) : Option α := tree.nodes[i]?.bind PrefixNode.value

/-! ### Adding keys -/

/-- Adds a node, to which a character leads from an old one. -/
def link (tree : PrefixTree α) (i : Nat) (c : Char) : PrefixTree α :=
  ⟨(tree.nodes.modify i fun node =>
    { node with children := (c, tree.nodes.size) :: node.children }).push ⟨[], none⟩⟩

/-- Follows a text from a node on and adds the nodes that are missing; with the last one of them. -/
def extend (tree : PrefixTree α) (i : Nat) : List Char → PrefixTree α × Nat
  | [] => (tree, i)
  | c :: rest =>
      match tree.child i c with
      | some j => tree.extend j rest
      | none => (tree.link i c).extend tree.nodes.size rest

/-- Gives a node a value, instead of any value it had. -/
def store (tree : PrefixTree α) (i : Nat) (value : α) : PrefixTree α :=
  ⟨tree.nodes.modify i fun node => { node with value := some value }⟩

/-- Maps a key to a value, instead of any value it had. -/
def addChars (tree : PrefixTree α) (key : List Char) (value : α) : PrefixTree α :=
  match tree.extend 0 key with
  | (grown, i) => grown.store i value

/-- Maps a key to a value, instead of any value it had. -/
def add (tree : PrefixTree α) (key : String) (value : α) : PrefixTree α :=
  tree.addChars key.toList value

/-- The tree of the given keys; of two values for one key the later one stays. -/
def ofList (entries : List (String × α)) : PrefixTree α :=
  entries.foldl (fun tree entry => tree.add entry.1 entry.2) empty

/-! ### Walking -/

/-- A place in a prefix tree, reached by feeding characters: a node, or `none` once no key begins with
them. -/
structure Cursor (α : Type) where
  tree : PrefixTree α
  node : Option Nat

namespace Cursor

/-- One character further. A cursor that has left the tree stays outside. -/
def next (cursor : Cursor α) (c : Char) : Cursor α :=
  { cursor with node := cursor.node.bind fun i => cursor.tree.child i c }

/-- Several characters further. -/
def feed (cursor : Cursor α) (cs : List Char) : Cursor α := cs.foldl next cursor

/-- The characters fed so far begin some key. -/
def valid (cursor : Cursor α) : Bool := cursor.node.isSome

/-- The value of the key that consists of the characters fed so far. -/
def value (cursor : Cursor α) : Option α := cursor.node.bind cursor.tree.valueAt

/-- The characters fed so far are a key. -/
def terminal (cursor : Cursor α) : Bool := cursor.value.isSome

/-- The value and the length of the longest key that a text begins with, given that `length`
characters have led the cursor here and that `best` is the longest key met on the way. -/
def longestFrom (cursor : Cursor α) (length : Nat) (best : Option (α × Nat)) :
    List Char → Option (α × Nat)
  | [] => best
  | c :: rest =>
      let further := cursor.next c
      if further.valid then
        further.longestFrom (length + 1)
          ((further.value.map fun value => (value, length + 1)) <|> best) rest
      else best

end Cursor

/-- The cursor before any character. -/
def head (tree : PrefixTree α) : Cursor α := ⟨tree, some 0⟩

/-- The value of exactly this key. -/
def findChars (tree : PrefixTree α) (key : List Char) : Option α := (tree.head.feed key).value

/-- The value of exactly this key. -/
def find (tree : PrefixTree α) (key : String) : Option α := tree.findChars key.toList

/-- The value and the length of the longest nonempty key that a text begins with. -/
def longestKey (tree : PrefixTree α) (cs : List Char) : Option (α × Nat) :=
  tree.head.longestFrom 0 none cs

/-! ### Small facts -/

theorem Cursor.feed_append (cursor : Cursor α) (xs ys : List Char) :
    cursor.feed (xs ++ ys) = (cursor.feed xs).feed ys := by
  simp [Cursor.feed]

@[simp] theorem Cursor.tree_feed (cursor : Cursor α) (cs : List Char) :
    (cursor.feed cs).tree = cursor.tree := by
  induction cs generalizing cursor with
  | nil => rfl
  | cons c rest ih => exact ih (cursor.next c)

end PrefixTree

end ProcLang
