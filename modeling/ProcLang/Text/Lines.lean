/-!
# ProcLang.Text.Lines

The lines of a text. A line ends at a line feed; a carriage return just before the line feed
belongs to the line's end and not to the line. Text after the last line feed is a line of its own
unless it is empty.
-/

namespace ProcLang.Text

/-- The lines of a text, without their ends. -/
def lines : List Char → List (List Char)
  | [] => []
  | '\n' :: rest => [] :: lines rest
  | '\r' :: '\n' :: rest => [] :: lines rest
  | c :: rest =>
      match lines rest with
      | [] => [[c]]
      | line :: more => (c :: line) :: more

/-- The line with the given number, counted from one; a number past the last line is an empty
line. -/
def lineAt (number : Nat) (cs : List Char) : List Char :=
  ((lines cs)[number - 1]?).getD []

/-- No line holds a line feed. -/
theorem newline_notMem_of_mem_lines {cs line : List Char} (h : line ∈ lines cs) :
    '\n' ∉ line := by
  fun_induction lines cs generalizing line <;> simp_all
  case case2 ih => rcases h with rfl | h <;> simp_all
  case case3 ih => rcases h with rfl | h <;> simp_all
  case case4 hn _ _ => exact fun h => hn h.symm
  case case5 hn _ _ _ _ ih => rcases h with rfl | h <;> simp_all [eq_comm]

end ProcLang.Text
