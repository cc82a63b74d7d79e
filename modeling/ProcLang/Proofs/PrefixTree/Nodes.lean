import Mathlib.Data.List.Induction
import ProcLang.PrefixTree

/-!
# ProcLang.Proofs.PrefixTree.Nodes

**The nodes of a prefix tree make up a tree** (`Linked`): a node leads to newer ones only, and each one
is reached from the root along one text. The tree without keys is linked, and so is every tree to which
a key was added (`Linked.addChars`).

The loop that adds a key follows it and links the nodes that are missing. A link makes one text more
lead somewhere, and where all others lead stays as it was (`Linked.walk_link`). So following the key makes
its beginnings valid and gives no key a value (`Extends`), and storing the value at the end gives a value
to this key alone (`Linked.findChars_addChars`), since no other text leads to its node.
-/

namespace ProcLang

namespace PrefixTree

variable {α : Type} {tree grown : PrefixTree α} {path cs : List Char} {i k : Nat} {c : Char} {value : α}

/-! ### Walking from the root -/

/-- The node to which a text leads from the root. -/
def walk (tree : PrefixTree α) (cs : List Char) : Option Nat := (tree.head.feed cs).node

@[simp] theorem walk_nil (tree : PrefixTree α) : tree.walk [] = some 0 := rfl

theorem walk_concat (tree : PrefixTree α) (cs : List Char) (c : Char) :
    tree.walk (cs ++ [c]) = (tree.walk cs).bind fun i => tree.child i c := by
  have htree : (tree.head.feed cs).tree = tree := Cursor.tree_feed _ _
  have hstep : ((tree.head.feed cs).feed [c]).node =
      (tree.head.feed cs).node.bind fun i => (tree.head.feed cs).tree.child i c := rfl
  rw [walk, Cursor.feed_append, hstep, htree, walk]

theorem findChars_eq (tree : PrefixTree α) (cs : List Char) :
    tree.findChars cs = (tree.walk cs).bind tree.valueAt := by
  rw [findChars, Cursor.value, Cursor.tree_feed]
  rfl

/-- The beginnings of a text that leads somewhere lead somewhere. -/
theorem isSome_walk_of_prefix {more : List Char} (hbegins : cs <+: more)
    (h : (tree.walk more).isSome = true) : (tree.walk cs).isSome = true := by
  obtain ⟨rest, rfl⟩ := hbegins
  induction rest using List.reverseRecOn with
  | nil => rwa [List.append_nil] at h
  | append_singleton front c ih =>
      rw [← List.append_assoc, walk_concat] at h
      refine ih ?_
      cases hwalk : tree.walk (cs ++ front) with
      | none => simp [hwalk] at h
      | some i => rfl

theorem walk_empty (cs : List Char) :
    (empty : PrefixTree α).walk cs = if cs = [] then some 0 else none := by
  induction cs using List.reverseRecOn with
  | nil => rfl
  | append_singleton front c ih =>
      have hchild : (empty : PrefixTree α).child 0 c = none := rfl
      rw [walk_concat, ih, if_neg (List.append_ne_nil_of_right_ne_nil front (List.cons_ne_nil c []))]
      split
      · exact hchild
      · rfl

/-! ### The tables of nodes -/

theorem child_of_size_le (hk : tree.nodes.size ≤ k) (c : Char) : tree.child k c = none := by
  simp [child, Array.getElem?_eq_none hk]

theorem size_link : (tree.link i c).nodes.size = tree.nodes.size + 1 := by
  simp [link]

/-- A link leads from its parent to the new node, and all other nodes lead to where they led. -/
theorem child_link (hi : i < tree.nodes.size) {d : Char} :
    (tree.link i c).child k d =
      if k = i ∧ d = c then some tree.nodes.size else tree.child k d := by
  simp only [child, link, Array.getElem?_push, Array.getElem?_modify, Array.size_modify]
  by_cases hsize : k = tree.nodes.size
  · subst hsize
    simp [(Nat.ne_of_lt hi).symm]
  · by_cases hk : i = k
    · subst hk
      by_cases hd : d = c
      · simp [hsize, hi, hd]
      · have hbeq : (d == c) = false := beq_eq_false_iff_ne.2 hd
        simp [hsize, hi, hd, List.lookup_cons, hbeq]
    · simp [hsize, hk, Ne.symm hk]

theorem valueAt_link : (tree.link i c).valueAt = tree.valueAt := by
  funext k
  simp only [valueAt, link, Array.getElem?_push, Array.getElem?_modify, Array.size_modify]
  by_cases hsize : k = tree.nodes.size
  · subst hsize
    simp
  · by_cases hk : i = k
    · subst hk
      cases tree.nodes[i]? <;> simp [hsize]
    · simp [hsize, hk]

theorem size_store : (tree.store i value).nodes.size = tree.nodes.size := by
  simp [store]

theorem child_store {d : Char} : (tree.store i value).child k d = tree.child k d := by
  simp only [child, store, Array.getElem?_modify]
  by_cases hk : i = k
  · subst hk
    cases tree.nodes[i]? <;> simp
  · simp [hk]

theorem valueAt_store (hi : i < tree.nodes.size) :
    (tree.store i value).valueAt k = if k = i then some value else tree.valueAt k := by
  simp only [valueAt, store, Array.getElem?_modify]
  by_cases hk : i = k
  · subst hk
    simp [hi]
  · simp [hk, Ne.symm hk]

theorem walk_store (cs : List Char) : (tree.store i value).walk cs = tree.walk cs := by
  induction cs using List.reverseRecOn with
  | nil => rfl
  | append_singleton front c ih => simp only [walk_concat, ih, child_store]

/-! ### Linked trees -/

/-- The nodes make up a tree. -/
structure Linked (tree : PrefixTree α) : Prop where
  root : 0 < tree.nodes.size
  /-- A node leads to newer nodes only, and they are there. -/
  newer : ∀ i c j, tree.child i c = some j → i < j ∧ j < tree.nodes.size
  /-- Each node is reached along one text. -/
  reached : ∀ i, i < tree.nodes.size → ∃! cs, tree.walk cs = some i

theorem linked_empty : (empty : PrefixTree α).Linked where
  root := Nat.one_pos
  newer i c j h := by
    have hnone : (empty : PrefixTree α).child i c = none := by
      cases i with
      | zero => rfl
      | succ i => exact child_of_size_le (Nat.succ_le_succ (Nat.zero_le i)) c
    cases hnone.symm.trans h
  reached i hi := by
    obtain rfl : i = 0 := Nat.lt_one_iff.1 hi
    refine ⟨[], rfl, fun cs (hcs : empty.walk cs = some 0) => ?_⟩
    by_contra hne
    rw [walk_empty, if_neg hne] at hcs
    cases hcs

namespace Linked

/-- A text leads to nodes that are there. -/
theorem inside (h : tree.Linked) (hcs : tree.walk cs = some i) : i < tree.nodes.size := by
  induction cs using List.reverseRecOn with
  | nil =>
      obtain rfl := Option.some.inj hcs
      exact h.root
  | append_singleton front c _ =>
      rw [walk_concat] at hcs
      obtain ⟨j, -, hchild⟩ := Option.bind_eq_some_iff.1 hcs
      exact (h.newer j c i hchild).2

theorem unique (h : tree.Linked) {ds : List Char} (hcs : tree.walk cs = some i)
    (hds : tree.walk ds = some i) : cs = ds :=
  (h.reached i (h.inside hcs)).unique hcs hds

/-- **One node more, one text more**: the new node is reached along the path to its parent and its
character, and all other texts lead to where they led before. -/
theorem walk_link (h : tree.Linked) (hpath : tree.walk path = some i) (hc : tree.child i c = none)
    (cs : List Char) :
    (tree.link i c).walk cs = if cs = path ++ [c] then some tree.nodes.size else tree.walk cs := by
  have hi := h.inside hpath
  induction cs using List.reverseRecOn with
  | nil => simp
  | append_singleton front d ih =>
      rw [walk_concat, ih, walk_concat]
      by_cases hfront : front = path ++ [c]
      · -- behind the new node there is nothing yet
        subst hfront
        have hsize := (Nat.ne_of_lt hi).symm
        simp [walk_concat, hpath, hc, child_link hi, hsize, child_of_size_le (Nat.le_refl _)]
      · rw [if_neg hfront]
        cases hwalk : tree.walk front with
        | none =>
            have hne : front ≠ path := by
              rintro rfl
              cases hwalk.symm.trans hpath
            simp [hne]
        | some k =>
            have hparent : k = i ↔ front = path := by
              constructor
              · rintro rfl
                exact h.unique hwalk hpath
              · rintro rfl
                exact Option.some.inj (hwalk.symm.trans hpath)
            simp [child_link hi, hparent]

/-- A tree stays linked when a missing node is added. -/
theorem link (h : tree.Linked) (hpath : tree.walk path = some i) (hc : tree.child i c = none) :
    (tree.link i c).Linked where
  root := size_link ▸ Nat.succ_pos _
  newer k d j hj := by
    have hi := h.inside hpath
    rw [child_link hi] at hj
    rw [size_link]
    split at hj
    · rename_i heq
      cases hj
      exact ⟨heq.1 ▸ hi, Nat.lt_succ_self _⟩
    · obtain ⟨hlt, hsize⟩ := h.newer k d j hj
      exact ⟨hlt, Nat.lt_succ_of_lt hsize⟩
  reached k hk := by
    have hnew : tree.walk (path ++ [c]) = none := by rw [walk_concat, hpath, Option.bind_some, hc]
    simp only [h.walk_link hpath hc]
    rcases Nat.lt_or_eq_of_le (Nat.le_of_lt_succ (size_link ▸ hk)) with hold | rfl
    · obtain ⟨cs, hcs, hunique⟩ := h.reached k hold
      have hne : cs ≠ path ++ [c] := by
        rintro rfl
        cases hnew.symm.trans hcs
      refine ⟨cs, (if_neg hne).trans hcs, fun ds hds => ?_⟩
      dsimp only at hds
      split at hds
      · exact absurd (Option.some.inj hds).symm (Nat.ne_of_lt hold)
      · exact hunique ds hds
    · refine ⟨path ++ [c], if_pos rfl, fun ds hds => ?_⟩
      by_contra hne
      exact absurd (h.inside ((if_neg hne).symm.trans hds)) (Nat.lt_irrefl _)

theorem store (h : tree.Linked) : (tree.store i value).Linked where
  root := by
    rw [size_store]
    exact h.root
  newer k d j hj := by
    rw [size_store]
    exact h.newer k d j (child_store.symm.trans hj)
  reached k hk := by
    simp only [walk_store]
    exact h.reached k (size_store ▸ hk)

end Linked

/-! ### Adding a key -/

/-- The nodes on a path to a node were added to a tree, as far as they were missing. -/
structure Extends (tree grown : PrefixTree α) (path : List Char) (i : Nat) : Prop where
  linked : grown.Linked
  leads : grown.walk path = some i
  /-- The beginnings of the path lead somewhere from then on. -/
  isSome_iff : ∀ cs, (grown.walk cs).isSome = true ↔ (tree.walk cs).isSome = true ∨ cs <+: path
  /-- No value changes. -/
  find : ∀ cs, grown.findChars cs = tree.findChars cs

theorem Extends.trans {between : PrefixTree α} {before : List Char} {j : Nat}
    (h : Extends tree between before j) (h' : Extends between grown path i) (hbegins : before <+: path) :
    Extends tree grown path i where
  linked := h'.linked
  leads := h'.leads
  isSome_iff cs := by
    rw [h'.isSome_iff, h.isSome_iff, or_assoc,
      or_iff_right_of_imp fun hcs : cs <+: before => hcs.trans hbegins]
  find cs := (h'.find cs).trans (h.find cs)

namespace Linked

/-- On a path that is there no node is missing. -/
theorem extends_self (h : tree.Linked) (hpath : tree.walk path = some i) :
    Extends tree tree path i where
  linked := h
  leads := hpath
  isSome_iff cs := by
    refine (or_iff_left_of_imp fun hbegins => isSome_walk_of_prefix hbegins ?_).symm
    rw [hpath]
    rfl
  find _ := rfl

/-- A missing node is added. -/
theorem extends_link (h : tree.Linked) (hpath : tree.walk path = some i)
    (hc : tree.child i c = none) : Extends tree (tree.link i c) (path ++ [c]) tree.nodes.size where
  linked := h.link hpath hc
  leads := by rw [h.walk_link hpath hc, if_pos rfl]
  isSome_iff cs := by
    have hbefore : cs <+: path → (tree.walk cs).isSome = true := fun hbegins =>
      isSome_walk_of_prefix hbegins (by rw [hpath]; rfl)
    rw [h.walk_link hpath hc, List.prefix_concat_iff]
    split
    · simp [*]
    · rename_i hne
      simp only [hne, false_or]
      exact (or_iff_left_of_imp hbefore).symm
  find cs := by
    rw [findChars_eq, findChars_eq, h.walk_link hpath hc, valueAt_link]
    split
    · rename_i heq
      simp [heq, walk_concat, hpath, hc, valueAt]
    · rfl

/-- **The loop that follows a key** adds the nodes that are missing. -/
theorem extends_extend (h : tree.Linked) (hpath : tree.walk path = some i) (key : List Char) :
    Extends tree (tree.extend i key).1 (path ++ key) (tree.extend i key).2 := by
  induction key generalizing tree path i with
  | nil =>
      rw [List.append_nil]
      exact h.extends_self hpath
  | cons c rest ih =>
      rw [List.append_cons, extend]
      cases hc : tree.child i c with
      | some j => exact ih h (by rw [walk_concat, hpath, Option.bind_some, hc])
      | none =>
          have hstep := h.extends_link hpath hc
          exact hstep.trans (ih hstep.linked hstep.leads) (List.prefix_append _ _)

/-- A tree stays linked when a key is added. -/
theorem addChars (h : tree.Linked) (key : List Char) (value : α) :
    (tree.addChars key value).Linked :=
  (h.extends_extend (walk_nil tree) key).linked.store

/-- **Adding a key makes its beginnings valid**, and no other texts. -/
theorem isSome_walk_addChars (h : tree.Linked) (key cs : List Char) (value : α) :
    ((tree.addChars key value).walk cs).isSome = true ↔
      (tree.walk cs).isSome = true ∨ cs <+: key := by
  have hextends := h.extends_extend (walk_nil tree) key
  rw [PrefixTree.addChars, walk_store, hextends.isSome_iff, List.nil_append]

/-- **Reading back what was added.** The added key has the new value, every other key the value it
had. -/
theorem findChars_addChars (h : tree.Linked) (key other : List Char) (value : α) :
    (tree.addChars key value).findChars other =
      if other = key then some value else tree.findChars other := by
  have hextends := h.extends_extend (walk_nil tree) key
  rw [List.nil_append] at hextends
  have hi := hextends.linked.inside hextends.leads
  rw [← hextends.find, findChars_eq, findChars_eq, PrefixTree.addChars, walk_store]
  cases hwalk : (tree.extend 0 key).1.walk other with
  | none =>
      have hne : other ≠ key := by
        rintro rfl
        cases hwalk.symm.trans hextends.leads
      simp [hne]
  | some k =>
      -- no other text leads to the node of the key
      have hkey : k = (tree.extend 0 key).2 ↔ other = key := by
        constructor
        · rintro rfl
          exact hextends.linked.unique hwalk hextends.leads
        · rintro rfl
          exact Option.some.inj (hwalk.symm.trans hextends.leads)
      simp [valueAt_store hi, hkey]

end Linked

end PrefixTree

end ProcLang
