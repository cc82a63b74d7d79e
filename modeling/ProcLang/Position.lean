/-!
# ProcLang.Position

Places in a source text. A `Position` is a line and a column, both counted from one; a column
counts code points. A `Span` is a pair of positions, from the first character of a construct to
just past its last one. Positions are ordered by line and then by column.
-/

namespace ProcLang

/-- A line and a column of the source text, both counted from one. -/
structure Position where
  line : Nat
  column : Nat
  deriving DecidableEq, Repr

namespace Position

/-- The place before the first character of a text. -/
def origin : Position := ⟨1, 1⟩

instance : Inhabited Position := ⟨origin⟩

/-- The place `n` characters further on the same line. -/
def right (p : Position) (n : Nat) : Position := ⟨p.line, p.column + n⟩

/-- The first place of the line below. -/
def below (p : Position) : Position := ⟨p.line + 1, 1⟩

/-- Earlier lines come first; on one line, smaller columns do. -/
def order (a b : Position) : Ordering :=
  (compare a.line b.line).then (compare a.column b.column)

instance : Ord Position := ⟨order⟩

instance : LE Position :=
  ⟨fun a b => a.line < b.line ∨ (a.line = b.line ∧ a.column ≤ b.column)⟩

instance : LT Position :=
  ⟨fun a b => a.line < b.line ∨ (a.line = b.line ∧ a.column < b.column)⟩

instance (a b : Position) : Decidable (a ≤ b) :=
  inferInstanceAs (Decidable (a.line < b.line ∨ (a.line = b.line ∧ a.column ≤ b.column)))

instance (a b : Position) : Decidable (a < b) :=
  inferInstanceAs (Decidable (a.line < b.line ∨ (a.line = b.line ∧ a.column < b.column)))

/-- A position is written `line:column`. -/
def text (p : Position) : String := toString p.line ++ ":" ++ toString p.column

instance : ToString Position := ⟨text⟩

@[simp] theorem right_zero (p : Position) : p.right 0 = p := rfl

@[simp] theorem right_right (p : Position) (m n : Nat) : (p.right m).right n = p.right (m + n) := by
  simp [right, Nat.add_assoc]

theorem le_right (p : Position) (n : Nat) : p ≤ p.right n :=
  Or.inr ⟨rfl, Nat.le_add_right _ _⟩

end Position

/-- The stretch of text from `start` to just before `stop`. -/
structure Span where
  start : Position
  stop : Position
  deriving DecidableEq, Repr

namespace Span

/-- The empty span at a place. -/
def point (p : Position) : Span := ⟨p, p⟩

/-- The empty span at the beginning of the text, used for what has no text of its own. -/
def origin : Span := point Position.origin

instance : Inhabited Span := ⟨origin⟩

end Span

end ProcLang
