import ProcLang.Proofs.Expression.Completeness
import ProcLang.Proofs.Expression.Soundness

/-!
# ProcLang.Proofs.Expression.Correctness

**The expression parser accepts exactly the operator grammar**, at every place of every source text
and for every binding power below that of member access (`expression_correct`).
-/

namespace ProcLang

namespace Parser

theorem State.ofSource_at (source : String) : (State.ofSource source).At source where
  unread := by
    simp only [State.ofSource, State.noteComment_unread]
    exact List.suffix_rfl
  ending := by
    rw [State.ofSource, State.noteComment_ending]

/-- **Correctness.** What the parser returns is the tree of a derivation of the tokens it took, from
the level just above the binding power, and no tighter operator follows. Conversely, such a phrase
is taken and its tree returned if no tighter operator follows, no name at its end is called, and its
integer literals are signed numbers of 64 bits. -/
theorem expression_correct {source : String} {s : State} (hs : s.At source) {power : BindingPower}
    (hpower : power ≠ .member) :
    (∀ placed s', Yields (expression Grammar.standard power) s placed s' →
      ∃ w tree, s.unread = w ++ s'.unread ∧ Derives (.level power.levelAbove) w [tree] ∧
        Stands s'.arena tree placed.id ∧ ¬ ContinuesAbove power.level s'.current.kind) ∧
    (∀ w rest tree, s.unread = w ++ rest → Derives (.level power.levelAbove) w [tree] →
      ¬ ContinuesAbove power.level (kindAt s.ending rest) →
      (∀ token, w.getLast? = some token → token.kind = .identifier →
        kindAt s.ending rest ≠ .openParen) →
      LiteralsFit w →
      ∃ placed s', Yields (expression Grammar.standard power) s placed s' ∧ s'.unread = rest ∧
        Stands s'.arena tree placed.id) := by
  constructor
  · intro placed s' h
    obtain ⟨w, tree, hread, hderives, hstops⟩ := expression_sound hpower hs.ending_kind h
    exact ⟨w, tree, hread.reads.unread, hderives, hread.stands, hstops⟩
  · intro w rest tree hunread hderives hstops hapart hfits
    have hahead : Ahead s w rest := ⟨hunread, hs.ending_kind, hfits, hapart⟩
    obtain ⟨placed, s', hyields, hread⟩ := expression_complete hpower hahead hderives hstops
    exact ⟨placed, s', hyields, hahead.rest_of_reads hread.reads, hread.stands⟩

theorem derives_subtraction {a b c minus₁ minus₂ : Token} (ha : a.kind = .identifier)
    (hb : b.kind = .integerLiteral) (hc : c.kind = .identifier) (h₁ : minus₁.kind = .minus)
    (h₂ : minus₂.kind = .minus) :
    Derives (.level 1) [a, minus₁, b, minus₂, c]
      [.binary .subtract (.binary .subtract (.name a.text)
        (.integer (Binary64.digitsValue b.text.toList))) (.name c.text)] := by
  have hleft : Derives (.level 5) [a] [.name a.text] :=
    Derives.level_of_postfixed (by decide) (by decide) (.primary (.name ha))
  have hmiddle : Derives (.level 6) [b] [.integer (Binary64.digitsValue b.text.toList)] :=
    Derives.level_of_postfixed (by decide) (by decide) (.primary (.literal (.integer hb)))
  have hright : Derives (.level 6) [c] [.name c.text] :=
    Derives.level_of_postfixed (by decide) (by decide) (.primary (.name hc))
  have table : (TokenKind.minus, 5, BinaryOperator.subtract) ∈ infixOperators := by decide
  have hinner := Derives.infixed (h₁ ▸ table) hleft hmiddle
  have houter := Derives.infixed (h₂ ▸ table) hinner hright
  exact houter.loosen (by decide) (r := 5) (by decide) (by decide)

/-- Subtraction groups to the left. -/
theorem expression_correct_subtraction :
    (State.ofSource "a-1-b").At "a-1-b" ∧ BindingPower.loosest ≠ .member ∧
      ∃ placed s', Yields (expression Grammar.standard .loosest) (State.ofSource "a-1-b") placed s' ∧
        s'.unread = [] ∧ Stands s'.arena
          (.binary .subtract (.binary .subtract (.name "a") (.integer 1)) (.name "b")) placed.id := by
  have hat := State.ofSource_at "a-1-b"
  have hpower : BindingPower.loosest ≠ .member := by decide
  have hunread : (State.ofSource "a-1-b").unread =
      [⟨.identifier, "a", ⟨1, 1⟩, none⟩, ⟨.minus, "-", ⟨1, 2⟩, none⟩,
        ⟨.integerLiteral, "1", ⟨1, 3⟩, none⟩, ⟨.minus, "-", ⟨1, 4⟩, none⟩,
        ⟨.identifier, "b", ⟨1, 5⟩, none⟩] ++ [] := by decide +kernel
  have hnext : kindAt (State.ofSource "a-1-b").ending [] = .endOfFile := by
    rw [kindAt, List.headD_nil]
    exact hat.ending_kind
  refine ⟨hat, hpower, (expression_correct hat hpower).2 _ [] _ hunread
    (derives_subtraction rfl rfl rfl rfl rfl) ?_ ?_ ?_⟩
  · rw [hnext, continuesAbove_iff]
    intro h
    obtain ⟨_, _, htail, -⟩ := h
    cases htail
  · intro token _ _
    rw [hnext]
    rintro ⟨⟩
  · unfold LiteralsFit
    decide +kernel

end Parser

end ProcLang
