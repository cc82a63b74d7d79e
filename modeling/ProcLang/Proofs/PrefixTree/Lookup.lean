import Mathlib.Data.List.Nodup
import ProcLang.Proofs.PrefixTree.Nodes

/-!
# ProcLang.Proofs.PrefixTree.Lookup

**A prefix tree is the map that its keys and values say it is.** Reading a key back gives the value
that was added for it last (`findChars_ofList`), and `longestKey` finds the longest nonempty key that a
text begins with (`longestKey_cases`).
-/

namespace ProcLang

namespace PrefixTree

variable {α : Type}

/-! ### Reading a key back -/

/-- The last entry is added to the tree of the others. -/
theorem ofList_append_singleton (front : List (String × α)) (entry : String × α) :
    ofList (front ++ [entry]) = (ofList front).addChars entry.1.toList entry.2 := by
  simp [ofList, add]

/-- **The tree of any entries is linked.** -/
theorem linked_ofList (entries : List (String × α)) : (ofList entries).Linked := by
  induction entries using List.reverseRecOn with
  | nil => exact linked_empty
  | append_singleton front entry ih =>
      rw [ofList_append_singleton]
      exact ih.addChars _ _

theorem findChars_empty (key : List Char) : (empty : PrefixTree α).findChars key = none := by
  rw [findChars_eq, walk_empty]
  split <;> rfl

/-- **A tree of entries finds the last entry of a key.** -/
theorem findChars_ofList (entries : List (String × α)) (key : List Char) :
    (ofList entries).findChars key = entries.reverse.lookup (String.ofList key) := by
  induction entries using List.reverseRecOn with
  | nil => exact findChars_empty key
  | append_singleton front entry ih =>
      rw [ofList_append_singleton, (linked_ofList front).findChars_addChars, ih, List.reverse_append,
        List.reverse_singleton, List.singleton_append, List.lookup_cons]
      by_cases h : key = entry.1.toList
      · simp [h]
      · have hne : (String.ofList key == entry.1) = false := by
          rw [beq_eq_false_iff_ne]
          intro heq
          exact h (by rw [← heq, String.toList_ofList])
        simp [h, hne]

/-- Among entries with different keys, looking a key up finds its entry. -/
theorem lookup_eq_some_iff_mem {entries : List (String × α)} (distinct : (entries.map (·.1)).Nodup)
    (key : String) (value : α) : entries.lookup key = some value ↔ (key, value) ∈ entries := by
  induction entries with
  | nil => simp
  | cons entry rest ih =>
      rw [List.map_cons, List.nodup_cons] at distinct
      rw [List.lookup_cons, List.mem_cons]
      by_cases h : key = entry.1
      · subst h
        have absent : (entry.1, value) ∉ rest := fun hmem =>
          distinct.1 (List.mem_map.2 ⟨_, hmem, rfl⟩)
        simp [absent, Prod.ext_iff, eq_comm]
      · have hne : (key == entry.1) = false := by simpa using h
        rw [hne, ih distinct.2]
        simp [Prod.ext_iff, h]

/-- With different keys, a tree of entries finds exactly its entries. -/
theorem findChars_ofList_eq_some_iff {entries : List (String × α)}
    (distinct : (entries.map (·.1)).Nodup) (key : List Char) (value : α) :
    (ofList entries).findChars key = some value ↔ (String.ofList key, value) ∈ entries := by
  have reversed : (entries.reverse.map (·.1)).Nodup := by
    rw [List.map_reverse]
    exact List.nodup_reverse.2 distinct
  rw [findChars_ofList, lookup_eq_some_iff_mem reversed, List.mem_reverse]

/-! ### The longest key -/

/-- A nonempty key of a tree that a text begins with, and its value. -/
def IsKeyAt (tree : PrefixTree α) (cs key : List Char) (value : α) : Prop :=
  key ≠ [] ∧ key <+: cs ∧ tree.findChars key = some value

namespace Cursor

variable {cursor : Cursor α}

/-- A cursor that has left the tree finds nothing. -/
theorem feed_of_invalid (h : cursor.valid = false) (cs : List Char) :
    (cursor.feed cs).valid = false := by
  induction cs generalizing cursor with
  | nil => exact h
  | cons c rest ih =>
      refine ih (?_ : (cursor.next c).valid = false)
      rw [valid, Option.isSome_eq_false_iff, Option.isNone_iff_eq_none] at h ⊢
      rw [next, h, Option.bind_none]

theorem value_of_invalid (h : cursor.valid = false) : cursor.value = none := by
  rw [valid, Option.isSome_eq_false_iff, Option.isNone_iff_eq_none] at h
  rw [value, h, Option.bind_none]

/-- A nonempty text that leads from a cursor to a value and that another text begins with. -/
def IsKeyAt (cursor : Cursor α) (cs key : List Char) (value : α) : Prop :=
  key ≠ [] ∧ key <+: cs ∧ (cursor.feed key).value = some value

/-- Behind its first character, such a text is empty or leads on from the next place. -/
theorem isKeyAt_cons_iff {c : Char} {rest key : List Char} {value : α} :
    cursor.IsKeyAt (c :: rest) key value ↔ ∃ more, key = c :: more ∧
      (more = [] ∧ (cursor.next c).value = some value ∨
        (cursor.next c).IsKeyAt rest more value) := by
  constructor
  · rintro ⟨hne, hprefix, hfind⟩
    obtain ⟨d, more, rfl⟩ := List.exists_cons_of_ne_nil hne
    obtain ⟨rfl, hmore⟩ := List.cons_prefix_cons.1 hprefix
    refine ⟨more, rfl, ?_⟩
    cases more with
    | nil => exact Or.inl ⟨rfl, hfind⟩
    | cons e more => exact Or.inr ⟨List.cons_ne_nil e more, hmore, hfind⟩
  · rintro ⟨more, rfl, ⟨rfl, hvalue⟩ | ⟨-, hmore, hvalue⟩⟩
    · exact ⟨List.cons_ne_nil c [], by simp, hvalue⟩
    · exact ⟨List.cons_ne_nil c more, List.cons_prefix_cons.2 ⟨rfl, hmore⟩, hvalue⟩

/-- The walk finds the longest key further on, or keeps the best one of before. -/
theorem longestFrom_cases (cursor : Cursor α) (length : Nat) (best : Option (α × Nat))
    (cs : List Char) :
    (∃ key value, cursor.IsKeyAt cs key value ∧
        (∀ other v, cursor.IsKeyAt cs other v → other.length ≤ key.length) ∧
        cursor.longestFrom length best cs = some (value, length + key.length)) ∨
      ((∀ key value, ¬ cursor.IsKeyAt cs key value) ∧ cursor.longestFrom length best cs = best) := by
  induction cs generalizing cursor length best with
  | nil =>
      refine Or.inr ⟨?_, rfl⟩
      rintro key value ⟨hne, hprefix, -⟩
      exact hne (List.prefix_nil.1 hprefix)
  | cons c rest ih =>
      rw [longestFrom]
      cases hvalid : (cursor.next c).valid with
      | false =>
          refine Or.inr ⟨fun key value hkey => ?_, rfl⟩
          obtain ⟨more, rfl, ⟨rfl, hv⟩ | ⟨-, -, hv⟩⟩ := isKeyAt_cons_iff.1 hkey
          · cases (value_of_invalid hvalid).symm.trans hv
          · cases (value_of_invalid (feed_of_invalid hvalid more)).symm.trans hv
      | true =>
          rw [if_pos rfl]
          rcases ih (cursor.next c) (length + 1)
              (((cursor.next c).value.map fun value => (value, length + 1)) <|> best) with
            ⟨key, value, hkey, hlongest, hresult⟩ | ⟨hnone, hresult⟩
          · refine Or.inl ⟨c :: key, value, isKeyAt_cons_iff.2 ⟨key, rfl, Or.inr hkey⟩, ?_, ?_⟩
            · intro other v hother
              obtain ⟨more, rfl, ⟨rfl, -⟩ | hmore⟩ := isKeyAt_cons_iff.1 hother
              · simp
              · simpa using hlongest more v hmore
            · rw [hresult, List.length_cons]
              congr 2
              omega
          · cases hvalue : (cursor.next c).value with
            | none =>
                refine Or.inr ⟨fun key value hkey => ?_, by rw [hvalue] at hresult; exact hresult⟩
                obtain ⟨more, -, ⟨-, hv⟩ | hmore⟩ := isKeyAt_cons_iff.1 hkey
                · cases hvalue.symm.trans hv
                · exact hnone more value hmore
            | some value =>
                refine Or.inl ⟨[c], value, isKeyAt_cons_iff.2 ⟨[], rfl, Or.inl ⟨rfl, hvalue⟩⟩, ?_,
                  by rw [hvalue] at hresult; exact hresult⟩
                intro other v hother
                obtain ⟨more, rfl, ⟨rfl, -⟩ | hmore⟩ := isKeyAt_cons_iff.1 hother
                · simp
                · exact absurd hmore (hnone more v)

end Cursor

/-- **`longestKey` is maximal munch**: it gives the longest nonempty key that the text begins with,
and nothing only if the text begins with none. -/
theorem longestKey_cases (tree : PrefixTree α) (cs : List Char) :
    (∃ key value, tree.IsKeyAt cs key value ∧
        (∀ other v, tree.IsKeyAt cs other v → other.length ≤ key.length) ∧
        tree.longestKey cs = some (value, key.length)) ∨
      ((∀ key value, ¬ tree.IsKeyAt cs key value) ∧ tree.longestKey cs = none) := by
  have hcases := tree.head.longestFrom_cases 0 none cs
  simp only [Nat.zero_add] at hcases
  exact hcases

end PrefixTree

end ProcLang
