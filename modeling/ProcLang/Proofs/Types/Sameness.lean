import ProcLang.Proofs.Passes.Ownership
import ProcLang.Proofs.Types.Layers

/-!
# ProcLang.Proofs.Types.Sameness

**Being the same type is a partial equivalence, in any arena without ids that lead nowhere**
(`sameType_partialEquivalence`). Names may lead in circles or nowhere, and arrays may hold themselves: a
type is the same as itself exactly if it stands for something. Two comparisons that came to their ends at
different layers are put together at the later one of the two (`Meets.trans`).
-/

namespace ProcLang

open Arena

/-- **Being the same type is a partial equivalence.** In an arena in which no id leads nowhere, comparing
types always gives an answer. A type is the same as itself if and only if it stands for a type; the order
of two types does not count; and of three types, the first and the last are the same if both are the same
as the one between them. -/
theorem sameType_partialEquivalence (a : Arena) (hclosed : a.Closed) :
    (∀ t : TypeId, a.Has (.type t) → ∃ found, a.resolveType t = .ok found ∧
      a.sameType t t = .ok found.isSome) ∧
    (∀ t u : TypeId, a.Has (.type t) → a.Has (.type u) → ∃ same, a.sameType t u = .ok same ∧
      a.sameType u t = .ok same) ∧
    ∀ t u x : TypeId, a.Has (.type t) → a.Has (.type u) → a.Has (.type x) →
      a.sameType t u = .ok true → a.sameType u x = .ok true → a.sameType t x = .ok true := by
  refine ⟨fun t ht => ?_, fun t u ht hu => ?_, fun t u x _ _ _ htu hux => ?_⟩
  · obtain ⟨found, hfound⟩ := hclosed.exists_resolveType ht
    refine ⟨found, hfound, ?_⟩
    cases found <;> simp [sameType, sameWithin, hfound, bind, Except.bind, pure, Except.pure]
  · obtain ⟨same, hsame⟩ := hclosed.exists_sameType ht hu
    obtain ⟨same', hsame'⟩ := hclosed.exists_sameType hu ht
    have hboth : same = true ↔ same' = true :=
      calc same = true
        _ ↔ a.sameType t u = .ok true := by rw [hsame, Except.ok.injEq]
        _ ↔ ∃ n, a.Meets t u n := sameType_eq_true_iff
        _ ↔ ∃ n, a.Meets u t n := exists_congr fun n => ⟨Meets.symm, Meets.symm⟩
        _ ↔ a.sameType u t = .ok true := sameType_eq_true_iff.symm
        _ ↔ same' = true := by rw [hsame', Except.ok.injEq]
    exact ⟨same, hsame, by rw [hsame', Bool.eq_iff_iff.2 hboth]⟩
  · obtain ⟨m, hm⟩ := sameType_eq_true_iff.1 htu
    obtain ⟨n, hn⟩ := sameType_eq_true_iff.1 hux
    exact sameType_eq_true_iff.2 (hm.trans hn)

/-- An array that holds itself is the same as the arrays of it. A name that leads back to itself, and one
that is declared nowhere, stand for no type, and arrays that hold each other are not the same. -/
theorem sameType_partialEquivalence_circles :
    let source := "type a is array [1] a\ntype b is array [2] c\ntype c is array [3] b\n" ++
      "type d is d\nvar x: a\nvar y: array [4] a\nvar z: array [5] array [6] a\nvar u: e\n"
    ∃ names, nameResolution.run (parse source).arena = .ok names ∧ names.arena.Closed ∧
      names.arena.resolveType ⟨9⟩ = .ok none ∧ names.arena.resolveType ⟨16⟩ = .ok none ∧
      names.arena.sameType ⟨9⟩ ⟨9⟩ = .ok false ∧ names.arena.sameType ⟨16⟩ ⟨16⟩ = .ok false ∧
      names.arena.sameType ⟨8⟩ ⟨6⟩ = .ok false ∧ names.arena.sameType ⟨6⟩ ⟨8⟩ = .ok false ∧
      names.arena.sameType ⟨10⟩ ⟨12⟩ = .ok true ∧ names.arena.sameType ⟨12⟩ ⟨15⟩ = .ok true ∧
      names.arena.sameType ⟨10⟩ ⟨15⟩ = .ok true := by
  intro source
  have hrun : (parse source).errors = [] ∧
      (nameResolution.run (parse source).arena).map (fun names => decide (
        names.arena.count .type = 17 ∧ names.arena.resolveType ⟨9⟩ = .ok none ∧
        names.arena.resolveType ⟨16⟩ = .ok none ∧ names.arena.sameType ⟨8⟩ ⟨6⟩ = .ok false ∧
        names.arena.sameType ⟨10⟩ ⟨12⟩ = .ok true ∧ names.arena.sameType ⟨12⟩ ⟨15⟩ = .ok true)) =
          .ok true := by
    decide +kernel
  obtain ⟨hparse, hrun⟩ := hrun
  obtain ⟨nodes, htree⟩ := Parser.parse_isTree source hparse
  obtain ⟨names, hnames, hsettles⟩ := htree.exists_settles
  have hclosed : names.arena.Closed := (hsettles.reshapes htree).closed htree
  rw [hnames] at hrun
  obtain ⟨hcount, hcircle, hunknown, hdiffer, hfirst, hsecond⟩ := of_decide_eq_true (Except.ok.inj hrun)
  have hhas : ∀ i, i < 17 → names.arena.Has (.type ⟨i⟩) := fun i hi =>
    show names.arena.Has (Visit.of (⟨i⟩ : TypeId)) from has_of.2 (hcount ▸ hi)
  obtain ⟨hself, hsymmetric, htransitive⟩ := sameType_partialEquivalence names.arena hclosed
  obtain ⟨found, hfound, hnine⟩ := hself ⟨9⟩ (hhas 9 (by decide))
  obtain rfl := Except.ok.inj (hfound.symm.trans hcircle)
  obtain ⟨found, hfound, hsixteen⟩ := hself ⟨16⟩ (hhas 16 (by decide))
  obtain rfl := Except.ok.inj (hfound.symm.trans hunknown)
  obtain ⟨same, hsame, hback⟩ := hsymmetric ⟨8⟩ ⟨6⟩ (hhas 8 (by decide)) (hhas 6 (by decide))
  obtain rfl := Except.ok.inj (hsame.symm.trans hdiffer)
  exact ⟨names, hnames, hclosed, hcircle, hunknown, hnine, hsixteen, hdiffer, hback, hfirst, hsecond,
    htransitive _ _ _ (hhas 10 (by decide)) (hhas 12 (by decide)) (hhas 15 (by decide)) hfirst hsecond⟩

end ProcLang
