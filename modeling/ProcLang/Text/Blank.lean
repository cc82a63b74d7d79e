/-!
# ProcLang.Text.Blank

The blank characters of Unicode (property `White_Space`), and removing them from the end of a
text. The set is the one of the standard; it has 25 members, of which six are ASCII.
-/

namespace ProcLang.Text

/-- The ranges of code points, ends included, with the property `White_Space`. -/
def blankRanges : List (Nat × Nat) :=
  [(0x09, 0x0D), (0x20, 0x20), (0x85, 0x85), (0xA0, 0xA0), (0x1680, 0x1680), (0x2000, 0x200A),
   (0x2028, 0x2029), (0x202F, 0x202F), (0x205F, 0x205F), (0x3000, 0x3000)]

/-- A character with the property `White_Space`. -/
def isBlank (c : Char) : Bool :=
  blankRanges.any fun r => r.1 ≤ c.toNat && c.toNat ≤ r.2

/-- A text without the blanks at its end. -/
def trimEnd (cs : List Char) : List Char :=
  (cs.reverse.dropWhile isBlank).reverse

/-- A text keeps what it begins with when its end is trimmed. -/
theorem trimEnd_isPrefix (cs : List Char) : (trimEnd cs).IsPrefix cs := by
  refine ⟨(cs.reverse.takeWhile isBlank).reverse, ?_⟩
  rw [trimEnd, ← List.reverse_append, List.takeWhile_append_dropWhile, List.reverse_reverse]

end ProcLang.Text
