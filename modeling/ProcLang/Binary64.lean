/-!
# ProcLang.Binary64

Real literals as binary64 words. A literal is a decimal fraction; its value is the double nearest
to it, with ties going to the even neighbour. A fraction beyond the largest finite double becomes
infinity, and one below half of the smallest positive double becomes zero.

Everything is exact arithmetic on `Nat`: the grid of doubles around the fraction has the spacing
`2 ^ (step - 1074)` for a step `step`, and with `q` the fraction counted in that spacing and
rounded, the word of the double is `step * 2 ^ 52 + q`. The hidden bit of a normal number is the
carry of `q` into the exponent field, so subnormal and normal numbers need no separate cases, and
neither does a mantissa that is rounded up to the next power of two.
-/

namespace ProcLang

/-- A double, given by the 64 bits of its interchange format. -/
structure Binary64 where
  bits : UInt64
  deriving DecidableEq, Repr

namespace Binary64

/-- The quotient of two numbers rounded to the nearest number; a quotient halfway between two
numbers goes to the even one. -/
def divRound (num den : Nat) : Nat :=
  let q := num / den
  let r := num % den
  if 2 * r < den then q else if den < 2 * r then q + 1 else q + q % 2

/-- The number of binary digits of a number; zero has none. -/
def bitLength (n : Nat) : Nat := if n = 0 then 0 else n.log2 + 1

/-- The word of positive infinity: the exponent field is all ones and the mantissa zero. -/
def infinityWord : Nat := 0x7FF * Nat.pow 2 52

/-- The word of the double nearest to `num / den`. -/
def wordOfRatio (num den : Nat) : Nat :=
  let scaled := num * Nat.pow 2 1074
  let step := bitLength (scaled / den) - 53
  min (step * Nat.pow 2 52 + divRound scaled (den * Nat.pow 2 step)) infinityWord

/-- The double nearest to `num / den`. -/
def ofRatio (num den : Nat) : Binary64 := ⟨UInt64.ofNat (wordOfRatio num den)⟩

/-- The number that decimal digits denote. -/
def digitsValue (digits : List Char) : Nat :=
  digits.foldl (fun n c => 10 * n + (c.toNat - '0'.toNat)) 0

/-- The double nearest to the decimal fraction with the given digits before and after the
point. -/
def ofDecimal (whole fraction : List Char) : Binary64 :=
  ofRatio (digitsValue (whole ++ fraction)) (Nat.pow 10 fraction.length)

theorem wordOfRatio_le (num den : Nat) : wordOfRatio num den ≤ infinityWord :=
  Nat.min_le_right _ _

end Binary64

end ProcLang
