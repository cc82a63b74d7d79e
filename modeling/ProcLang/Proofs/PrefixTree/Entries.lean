import ProcLang.Proofs.PrefixTree.Lookup

/-!
# ProcLang.Proofs.PrefixTree.Entries

**A prefix tree is a faithful map, and walking in it follows the beginnings of its keys**
(`ofList_faithful`). Each entry makes the beginnings of its key valid and no other texts
(`Linked.isSome_walk_addChars`), and it changes the value of its key alone
(`Linked.findChars_addChars`). So all that a cursor says is determined by the entries that were added, in
whatever order their keys overlap.
-/

namespace ProcLang

namespace PrefixTree

variable {α : Type}

/-! ### Places -/

/-- **A text leads somewhere exactly if it is empty or begins some key.** -/
theorem valid_ofList (entries : List (String × α)) (cs : List Char) :
    ((ofList entries).head.feed cs).valid = true ↔
      cs = [] ∨ ∃ entry ∈ entries, cs <+: entry.1.toList := by
  rw [Cursor.valid, ← walk]
  induction entries using List.reverseRecOn with
  | nil =>
      have hempty : ofList ([] : List (String × α)) = empty := rfl
      rw [hempty, walk_empty]
      split <;> simp [*]
  | append_singleton front entry ih =>
      rw [ofList_append_singleton, (linked_ofList front).isSome_walk_addChars, ih, or_assoc]
      simp

/-! ### Keys -/

/-- **The last entry of a key counts.** -/
theorem find_ofList_eq_some_iff (entries : List (String × α)) (key : String) (value : α) :
    (ofList entries).find key = some value ↔ ∃ before behind,
      entries = before ++ (key, value) :: behind ∧ ∀ entry ∈ behind, entry.1 ≠ key := by
  rw [find, findChars_ofList, String.ofList_toList, List.lookup_eq_some_iff]
  constructor
  · rintro ⟨behind, before, heq, hbehind⟩
    refine ⟨before.reverse, behind.reverse, ?_, fun entry hentry => ?_⟩
    · simpa using congrArg List.reverse heq
    · exact (bne_iff_ne.1 (hbehind entry (List.mem_reverse.1 hentry))).symm
  · rintro ⟨before, behind, rfl, hbehind⟩
    refine ⟨behind.reverse, before.reverse, by simp, fun entry hentry => ?_⟩
    exact bne_iff_ne.2 (hbehind entry (List.mem_reverse.1 hentry)).symm

/-- Nothing is found for what is no key. -/
theorem find_ofList_eq_none_iff (entries : List (String × α)) (key : String) :
    (ofList entries).find key = none ↔ ∀ entry ∈ entries, entry.1 ≠ key := by
  rw [find, findChars_ofList, String.ofList_toList, List.lookup_eq_none_iff]
  simp only [List.mem_reverse, bne_iff_ne, ne_comm]

/-- **A prefix tree is a faithful map, with walking along the beginnings of its keys.** Take the tree to
which any entries were added one after the other. Looking up a text finds the value of the last entry
with this key, and nothing if there is none. A cursor that starts at the head and is fed the text is valid
if and only if the text is empty or begins some key, it is terminal if and only if the text is a key, and
its value is what looking up the text finds. A cursor that is not valid stays so. -/
theorem ofList_faithful (entries : List (String × α)) (text : String) :
    let tree := ofList entries
    let cursor := tree.head.feed text.toList
    (∀ value, tree.find text = some value ↔ ∃ before behind,
      entries = before ++ (text, value) :: behind ∧ ∀ entry ∈ behind, entry.1 ≠ text) ∧
    (tree.find text = none ↔ ∀ entry ∈ entries, entry.1 ≠ text) ∧
    (cursor.valid = true ↔ text = "" ∨ ∃ entry ∈ entries, text.toList <+: entry.1.toList) ∧
    (cursor.terminal = true ↔ ∃ entry ∈ entries, entry.1 = text) ∧
    cursor.value = tree.find text ∧
    ∀ more, cursor.valid = false → (cursor.feed more).valid = false := by
  intro tree cursor
  have hvalue : cursor.value = tree.find text := rfl
  refine ⟨find_ofList_eq_some_iff entries text, find_ofList_eq_none_iff entries text, ?_, ?_, hvalue,
    fun more hinvalid => ?_⟩
  · have hempty : text.toList = [] ↔ text = "" := by simp
    rw [← hempty]
    exact valid_ofList entries text.toList
  · rw [Cursor.terminal, hvalue, Option.isSome_iff_ne_none, Ne, find_ofList_eq_none_iff]
    push Not
    rfl
  · exact Cursor.feed_of_invalid hinvalid more

/-- Keys that begin each other, one of them added twice. -/
example : let tree := ofList [("for", 1), ("form", 2), ("", 3), ("for", 4)]
    tree.find "for" = some 4 ∧ tree.find "fo" = none ∧ tree.find "" = some 3 ∧
      (tree.head.feed "fo".toList).valid = true ∧ (tree.head.feed "fox".toList).valid = false := by
  decide +kernel

end PrefixTree

end ProcLang
