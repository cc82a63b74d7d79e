import ProcLang.Proofs.Tree.Ownership
import ProcLang.Proofs.Tree.Slots

/-!
# ProcLang.Proofs.Rewriting.Turns

**The tree after some expressions had their turn.** A `Turn` is an expression that was visited and
the expression that was given to take its place, if any. What was given is added to the table of
expressions, so the turns so far say which expression stands in the place of which (`Arena.swap`)
and what the whole tree looks like (`Arena.rewritten`): the nodes that were there have other
expressions in their slots, and behind them come the expressions that were given.

Another turn does no more than to add the expression that it gives and to store it in the one slot
that held the visited one (`put_add_rewritten`).
-/

namespace ProcLang

namespace Visit

theorem isOwner_of {family : Family} (id : NodeId family) : (of id).IsOwner := by
  cases family <;> trivial

end Visit

/-- A visited expression, and what is given to take its place. -/
structure Turn where
  visited : ExpressionId
  given : Option Expression

namespace Turn

variable {next : Nat} {turns : List Turn} {t : Turn} {e : ExpressionId} {new : Expression}

/-- The expressions that are given in some turns. -/
def allGiven (turns : List Turn) : List Expression := turns.filterMap Turn.given

/-- The nodes of a family that are added in some turns. -/
def added (turns : List Turn) : (family : Family) → Array (Node family)
  | .expression => (allGiven turns).toArray
  | .routine | .variable | .typeDecl | .type | .body | .statement => #[]

theorem added_of_ne {family : Family} (h : family ≠ .expression) : added turns family = #[] := by
  cases family <;> first | rfl | exact absurd rfl h

/-- The expression in the place of a visited one; `next` is the index of the first expression that
is added. -/
def swap : Nat → List Turn → ExpressionId → ExpressionId
  | _, [], e => e
  | next, t :: rest, e =>
      match t.given with
      | none => swap next rest e
      | some _ => if e = t.visited then ⟨next⟩ else swap (next + 1) rest e

/-- An expression that had no turn stays. -/
theorem swap_of_not_mem (h : e ∉ turns.map visited) : swap next turns e = e := by
  induction turns generalizing next with
  | nil => rfl
  | cons t rest ih =>
      obtain ⟨hne, hrest⟩ := not_or.1 (mt List.mem_cons.2 h)
      unfold swap
      cases t.given with
      | none => exact ih hrest
      | some _ => exact (if_neg hne).trans (ih hrest)

/-- An expression for which nothing is given stays. -/
theorem swap_of_none (hnodup : (turns.map visited).Nodup) (hmem : t ∈ turns) (h : t.given = none) :
    swap next turns t.visited = t.visited := by
  induction turns generalizing next with
  | nil => nomatch hmem
  | cons u rest ih =>
      obtain ⟨hfirst, hrest⟩ := List.nodup_cons.1 hnodup
      rw [swap]
      rcases List.mem_cons.1 hmem with rfl | hmem
      · rw [h]
        exact swap_of_not_mem hfirst
      · have hne : t.visited ≠ u.visited := fun heq => hfirst (heq ▸ List.mem_map_of_mem hmem)
        cases u.given with
        | none => exact ih hrest hmem
        | some _ => exact (if_neg hne).trans (ih hrest hmem)

/-- What is given stands in the place of the visited expression. -/
theorem swap_of_some (next : Nat) (hnodup : (turns.map visited).Nodup) (hmem : t ∈ turns)
    (h : t.given = some new) :
    ∃ i, swap next turns t.visited = ⟨next + i⟩ ∧ (allGiven turns)[i]? = some new := by
  induction turns generalizing next with
  | nil => nomatch hmem
  | cons u rest ih =>
      obtain ⟨hfirst, hrest⟩ := List.nodup_cons.1 hnodup
      rw [swap]
      rcases List.mem_cons.1 hmem with rfl | hmem
      · rw [h]
        exact ⟨0, if_pos rfl, by simp [allGiven, h]⟩
      · have hne : t.visited ≠ u.visited := fun heq => hfirst (heq ▸ List.mem_map_of_mem hmem)
        cases hu : u.given with
        | none =>
            obtain ⟨i, hswap, hi⟩ := ih next hrest hmem
            exact ⟨i, hswap, by simpa [allGiven, hu] using hi⟩
        | some other =>
            obtain ⟨i, hswap, hi⟩ := ih (next + 1) hrest hmem
            refine ⟨i + 1, ?_, by simpa [allGiven, hu] using hi⟩
            rw [← Nat.add_right_comm] at hswap
            exact (if_neg hne).trans hswap

/-- A turn in which nothing is given changes nothing. -/
theorem swap_append_none (h : t.given = none) : swap next (turns ++ [t]) = swap next turns := by
  funext e
  induction turns generalizing next with
  | nil => simp [swap, h]
  | cons u rest ih =>
      rw [List.cons_append, swap, swap]
      cases u.given with
      | none => exact ih
      | some _ => simp only [ih]

/-- A turn in which an expression is given changes the place of the visited one. -/
theorem swap_append_some (h : t.given = some new) (hnot : t.visited ∉ turns.map visited) :
    swap next (turns ++ [t]) =
      Function.update (swap next turns) t.visited ⟨next + (allGiven turns).length⟩ := by
  funext e
  induction turns generalizing next with
  | nil =>
      by_cases he : e = t.visited
      · simp [swap, h, he, allGiven]
      · simp [swap, h, he]
  | cons u rest ih =>
      obtain ⟨hne, hrest⟩ := not_or.1 (mt List.mem_cons.2 hnot)
      rw [List.cons_append, swap]
      cases hgiven : u.given with
      | none =>
          simp only [ih hrest, allGiven, List.filterMap_cons, hgiven]
          by_cases he : e = t.visited
          · rw [he, Function.update_self, Function.update_self]
          · rw [Function.update_of_ne he, Function.update_of_ne he, swap, hgiven]
      | some other =>
          simp only [ih hrest, allGiven, List.filterMap_cons, hgiven, List.length_cons]
          by_cases he : e = t.visited
          · rw [he, if_neg hne, Function.update_self, Function.update_self]
            congr 1
            omega
          · rw [Function.update_of_ne he, Function.update_of_ne he, swap, hgiven]

end Turn

namespace Arena

variable {a : Arena} {turns : List Turn} {t : Turn} {family : Family}

/-- The expression in the place of an expression of a tree. -/
def swap (a : Arena) (turns : List Turn) : ExpressionId → ExpressionId :=
  Turn.swap (a.count .expression) turns

/-- The tree after some turns. -/
def rewritten (a : Arena) (turns : List Turn) : Arena where
  program := a.program
  routineTable := a.routineTable
  variableTable := a.variableTable.map (Node.mapExpressions (a.swap turns) .variable)
  typeDeclTable := a.typeDeclTable
  typeTable := a.typeTable.map (Node.mapExpressions (a.swap turns) .type)
  bodyTable := a.bodyTable
  statementTable := a.statementTable.map (Node.mapExpressions (a.swap turns) .statement)
  expressionTable :=
    a.expressionTable.map (Node.mapExpressions (a.swap turns) .expression) ++
      (Turn.allGiven turns).toArray

/-- **The nodes after some turns** are those that were there, with other expressions in their slots,
and behind them the given ones. -/
theorem table_rewritten (a : Arena) (turns : List Turn) (family : Family) :
    (a.rewritten turns).table family =
      (a.table family).map (Node.mapExpressions (a.swap turns) family) ++
        Turn.added turns family := by
  cases family with
  | «variable» | type | statement => exact Array.append_empty.symm
  | expression => rfl
  | routine | typeDecl | body =>
      have hsame : ∀ {α : Type} (nodes : Array α), nodes = nodes.map (fun node => node) ++ #[] := by
        simp
      exact hsame _

/-- A node that was there. -/
theorem get?_rewritten {id : NodeId family} {node : Node family} (h : a.get? id = some node) :
    (a.rewritten turns).get? id = some (Node.mapExpressions (a.swap turns) family node) := by
  have hlt : id.index < (a.table family).size := index_lt_of_get? h
  have hnode : (a.table family)[id.index]? = some node := h
  rw [get?, table_rewritten, Array.getElem?_append_left (by rwa [Array.size_map]),
    Array.getElem?_map, hnode, Option.map_some]

theorem count_rewritten (a : Arena) (turns : List Turn) :
    (a.rewritten turns).count .expression = a.count .expression + (Turn.allGiven turns).length := by
  simp [count, table_rewritten, Turn.added]

/-- **The slot of a visited expression** leads to the expression that was given in its turn. -/
theorem get?_swap {new : Expression} (hnodup : (turns.map Turn.visited).Nodup) (hmem : t ∈ turns)
    (hgiven : t.given = some new) :
    (a.rewritten turns).get? (a.swap turns t.visited) = some new := by
  obtain ⟨i, hswap, hi⟩ := Turn.swap_of_some (a.count .expression) hnodup hmem hgiven
  have hsize : ((a.table .expression).map
      (Node.mapExpressions (a.swap turns) .expression)).size = a.count .expression := Array.size_map
  rw [show a.swap turns t.visited = ⟨a.count .expression + i⟩ from hswap, get?, table_rewritten,
    Array.getElem?_append_right (hsize ▸ Nat.le_add_right _ _), hsize, Nat.add_sub_cancel_left]
  simpa [Turn.added] using hi

/-- The nodes that were given come behind the others. -/
theorem get?_added_behind {id : NodeId family} {new : Expression} (hgiven : t.given = some new)
    (hlate : a.count family ≤ id.index) :
    ((a.rewritten turns).add .expression new).2.get? id = (a.rewritten (turns ++ [t])).get? id := by
  have hbehind : ∀ {α : Type} (old old' added : Array α), old.size = old'.size →
      old.size ≤ id.index → (old ++ added)[id.index]? = (old' ++ added)[id.index]? := by
    intro α old old' added hsize hle
    rw [Array.getElem?_append_right hle, Array.getElem?_append_right (hsize ▸ hle), hsize]
  have hsize : ∀ f, ((a.table family).map (Node.mapExpressions f family)).size = a.count family :=
    fun f => Array.size_map
  have hle : ∀ f, ((a.table family).map (Node.mapExpressions f family)).size ≤ id.index :=
    fun f => Nat.le_trans (Nat.le_of_eq (hsize f)) hlate
  by_cases hfamily : family = .expression
  · subst hfamily
    have hall :
        Turn.added (turns ++ [t]) .expression = (Turn.added turns .expression).push new := by
      simp [Turn.added, Turn.allGiven, hgiven]
    rw [get?, table_add, table_rewritten, get?, table_rewritten, hall, ← Array.append_push]
    exact hbehind _ _ _ ((hsize _).trans (hsize _).symm) (hle _)
  · rw [get?, add, table_mapTable_of_ne _ hfamily, get?, table_rewritten, table_rewritten]
    rw [Turn.added_of_ne hfamily, Turn.added_of_ne hfamily]
    exact hbehind _ _ _ ((hsize _).trans (hsize _).symm) (hle _)

/-- No node stands below two others. -/
theorem Owned.parent_unique (howned : a.Owned) {other : Family} {id : NodeId family}
    {id' : NodeId other} {node : Node family} {node' : Node other} {u : Visit}
    (hget : a.get? id = some node) (hget' : a.get? id' = some node')
    (hchild : u ∈ Node.children family node) (hchild' : u ∈ Node.children other node') :
    Visit.of id = Visit.of id' := by
  rw [← children_of_get? hget] at hchild
  rw [← children_of_get? hget'] at hchild'
  obtain ⟨i, hi⟩ := List.getElem?_of_mem hchild
  obtain ⟨j, hj⟩ := List.getElem?_of_mem hchild'
  exact (howned.single _ _ u i j (Visit.isOwner_of id) (Visit.isOwner_of id') hi hj).1

theorem rewritten_nil (a : Arena) : a.rewritten [] = a := by
  have hmap : ∀ {family : Family} (nodes : Array (Node family)),
      nodes.map (Node.mapExpressions (a.swap []) family) = nodes := fun {family} nodes =>
    (Array.map_congr_left fun node _ => Node.mapExpressions_id family node).trans nodes.map_id
  rw [rewritten, hmap, hmap, hmap, hmap]
  exact congrArg (fun nodes => { a with expressionTable := nodes }) Array.append_empty

/-- A turn in which nothing is given leaves the tree as it is. -/
theorem rewritten_append_none (a : Arena) (h : t.given = none) :
    a.rewritten (turns ++ [t]) = a.rewritten turns := by
  have hswap : a.swap (turns ++ [t]) = a.swap turns := Turn.swap_append_none h
  have hall : Turn.allGiven (turns ++ [t]) = Turn.allGiven turns := by
    simp [Turn.allGiven, h]
  rw [rewritten, hswap, hall, rewritten]

/-- **What is given takes the place of what was visited**: it is added to the tree and stored in the
slot that held the visited expression. -/
theorem put_add_rewritten {owner : NodeId family} {node : Node family} {new : Expression}
    (howned : a.Owned) (hget : a.get? owner = some node)
    (hchild : .expression t.visited ∈ Node.children family node) (hgiven : t.given = some new)
    (hnot : t.visited ∉ turns.map Turn.visited) :
    ((a.rewritten turns).add .expression new).2.put owner
        (Node.mapExpressions (Function.update (a.swap turns) t.visited
          ((a.rewritten turns).add .expression new).1) family node) =
      a.rewritten (turns ++ [t]) := by
  have hswap : a.swap (turns ++ [t]) = Function.update (a.swap turns) t.visited
      ((a.rewritten turns).add .expression new).1 := by
    rw [add, count_rewritten]
    exact Turn.swap_append_some hgiven hnot
  rw [← hswap]
  have hext := (a.rewritten turns).extendedBy_add .expression new
  refine ext_get? ?_ fun other id => ?_
  · cases family <;> rfl
  rcases Nat.lt_or_ge id.index (a.count other) with hold | hlate
  · obtain ⟨old, hget'⟩ := exists_get?_of_lt hold
    rw [get?_rewritten hget']
    by_cases hsame : Visit.of id = Visit.of owner
    · obtain rfl : other = family := Visit.family_eq_of_eq hsame
      obtain rfl := Visit.of_injective hsame
      obtain rfl : node = old := Option.some.inj (hget.symm.trans hget')
      exact get?_put_self (hext _ _ _ (get?_rewritten hget)) _
    · rw [get?_put_of_ne _ hsame, hext _ _ _ (get?_rewritten hget'), hswap]
      refine congrArg some (Node.mapExpressions_congr fun e he => ?_)
      refine (Function.update_of_ne (fun heq => hsame ?_) _ _).symm
      rw [heq] at he
      exact howned.parent_unique hget' hget he hchild
  · have hne : Visit.of id ≠ Visit.of owner := by
      intro hsame
      obtain rfl : other = family := Visit.family_eq_of_eq hsame
      obtain rfl := Visit.of_injective hsame
      exact absurd (index_lt_of_get? hget) (Nat.not_lt.2 hlate)
    rw [get?_put_of_ne _ hne]
    exact get?_added_behind hgiven hlate

end Arena

end ProcLang
