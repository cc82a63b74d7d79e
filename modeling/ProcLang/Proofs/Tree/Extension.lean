import ProcLang.Tree.Arena

/-!
# ProcLang.Proofs.Tree.Extension

**Arenas that grow.** `a.ExtendedBy b` says that `b` has every node of `a` under the id that it has
in `a`. Adding a node extends an arena, so whatever is known about nodes that are there stays true
while a tree is built.
-/

namespace ProcLang

namespace Arena

/-- Every node of the first arena is in the second one, under the same id. -/
def ExtendedBy (a b : Arena) : Prop :=
  ∀ (family : Family) (id : NodeId family) (node : Node family),
    a.get? id = some node → b.get? id = some node

theorem ExtendedBy.refl (a : Arena) : a.ExtendedBy a := fun _ _ _ h => h

theorem ExtendedBy.trans {a b c : Arena} (hab : a.ExtendedBy b) (hbc : b.ExtendedBy c) :
    a.ExtendedBy c :=
  fun family id node h => hbc family id node (hab family id node h)

/-- Adding a node changes only the table of its family. -/
theorem table_add_of_ne (a : Arena) {family other : Family} (h : other ≠ family)
    (node : Node family) : (a.add family node).2.table other = a.table other :=
  table_mapTable_of_ne a h _

/-- Adding a node extends an arena. -/
theorem extendedBy_add (a : Arena) (family : Family) (node : Node family) :
    a.ExtendedBy (a.add family node).2 := by
  intro other id old h
  by_cases hfamily : other = family
  · subst hfamily
    exact a.get?_add_of_get? h
  · rw [get?, table_add_of_ne a hfamily]
    exact h

/-- A node that is there is within the table of its family. -/
theorem index_lt_of_get? {a : Arena} {family : Family} {id : NodeId family} {node : Node family}
    (h : a.get? id = some node) : id.index < a.count family :=
  (Array.getElem?_eq_some_iff.1 h).1

/-- An extended arena has at least as many nodes of each family. -/
theorem ExtendedBy.count_le {a b : Arena} (h : a.ExtendedBy b) (family : Family) :
    a.count family ≤ b.count family := by
  rcases Nat.eq_zero_or_pos (a.count family) with hzero | hpos
  · omega
  · have hlast : a.count family - 1 < (a.table family).size := Nat.sub_lt hpos Nat.zero_lt_one
    have hget : a.get? (⟨a.count family - 1⟩ : NodeId family) = some (a.table family)[a.count family - 1] :=
      Array.getElem?_eq_getElem hlast
    have := index_lt_of_get? (h family _ _ hget)
    simp only at this
    omega

end Arena

end ProcLang
