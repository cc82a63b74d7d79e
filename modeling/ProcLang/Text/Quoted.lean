import ProcLang.Text.Unprintable

/-!
# ProcLang.Text.Quoted

Names quoted in messages. A quoted text stands between double quotes, so that blanks and odd
characters in it can be seen: a double quote and a backslash are written behind a backslash, the
tabulator, the line ends and the null character have letters of their own, and any other
unprintable character is written as its code point in hexadecimal digits between braces. A single
quote is written as it is.
-/

namespace ProcLang.Text

/-- The hexadecimal digits of a code point, in lower case and without leading zeros. -/
def hexDigits (n : Nat) : List Char := Nat.toDigits 16 n

/-- How one character is written in a quoted text. -/
def escape (c : Char) : List Char :=
  if c = '\"' then ['\\', '\"']
  else if c = '\\' then ['\\', '\\']
  else if c = '\n' then ['\\', 'n']
  else if c = '\r' then ['\\', 'r']
  else if c = '\t' then ['\\', 't']
  else if c.toNat = 0 then ['\\', '0']
  else if isUnprintable c then ['\\', 'u', '\x7b'] ++ hexDigits c.toNat ++ ['\x7d']
  else [c]

/-- A text between double quotes. -/
def quote (s : String) : String :=
  "\"" ++ String.ofList (s.toList.flatMap escape) ++ "\""

/-- Letters, digits and the underscore are written as they are, so a quoted identifier is the
identifier between quotes. -/
theorem escape_of_isAlphanum {c : Char} (h : c.isAlphanum = true ∨ c = '_') :
    escape c = [c] := by
  have hc : 48 ≤ c.toNat ∧ c.toNat ≤ 122 ∧ c.toNat ≠ 92 := by
    rcases h with h | rfl
    · have hranges : ((decide (c.val ≥ 65 ∧ c.val ≤ 90) ||
          (decide (c.val ≥ 97) && decide (c.val ≤ 122))) ||
            (decide (c.val ≥ 48) && decide (c.val ≤ 57))) = true := h
      simp [UInt32.le_iff_toNat_le, ← Char.toNat_val] at hranges ⊢
      omega
    · decide
  have ne : ∀ d : Char, d.toNat < 48 ∨ d.toNat = 92 → c ≠ d := by
    rintro d hd rfl; omega
  have h0 : c.toNat ≠ 0 := by omega
  have hu : isUnprintable c = false := by
    have h1 : c.toNat < 128 := by omega
    have h2 : ¬ c.toNat < 32 := by omega
    have h3 : c.toNat ≠ 127 := by omega
    simp [isUnprintable, h1, h2, h3]
  simp [escape, hu, h0, ne '\"' (by decide), ne '\\' (by decide), ne '\n' (by decide),
    ne '\r' (by decide), ne '\t' (by decide)]

end ProcLang.Text
