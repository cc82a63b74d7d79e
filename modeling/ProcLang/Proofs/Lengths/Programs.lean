import ProcLang.Proofs.Passes.Completion

/-!
# ProcLang.Proofs.Lengths.Programs

**The check of lengths is exact** (`arrayLengths_exact`). In every tree of a program whose names are
resolved, each array type without a length is reported once, but for the types that parameters have
themselves. Such a type is the child of its parameter and of no other node, and so the exception
reaches neither the types inside of it nor the types of any other variable.
-/

namespace ProcLang

open Arena

variable {a : Arena} {nodes : List Visit}

namespace Arena.IsForest

/-- A parameter belongs to its routine alone. -/
theorem parent_of_parameter (hforest : a.IsForest nodes) {v : Visit} {x : VariableId}
    (hx : a.Parameter x) (hreaches : a.Reaches .program v) (hchild : .variable x ∈ a.children v) :
    ∃ r, v = .routine r := by
  by_contra hno
  exact not_parameter hforest hreaches (fun r heq => hno ⟨r, heq⟩) hchild hx

/-- The type of a parameter belongs to the parameter alone. -/
theorem parent_of_parameterType (hforest : a.IsForest nodes) {v : Visit} {t : TypeId}
    (ht : a.ParameterType t) (hreaches : a.Reaches .program v) (hchild : .type t ∈ a.children v) :
    ∃ x, v = .variable x ∧ a.Parameter x := by
  obtain ⟨x, hx, hxreaches, hmem⟩ := ht.exists_child
  exact ⟨x, hforest.parent_eq (hforest.mem_of_reaches hreaches) (hforest.mem_of_reaches hxreaches) hchild
    hmem, hx⟩

/-- **Arrays without a length** are reported once each, where they need one. -/
theorem exists_lengthsReported (hforest : a.IsForest nodes) :
    ∃ outcome ids, arrayLengths.run a = .ok outcome ∧ outcome.arena = a ∧
      a.OnceReported (fun t : TypeId => a.MissingLength (.type t)) ids outcome.diagnostics := by
  obtain ⟨outcome, hrun, harena, hfindings⟩ := exists_lengths hforest (.refl a)
  have htype : ∀ v d, a.MissingLength v d ∨ NoFault v d → ∃ t : TypeId, v = Visit.of t := by
    intro v d hd
    obtain ⟨t, node, element, rfl, -⟩ := hd.resolve_right id
    exact ⟨t, rfl⟩
  obtain ⟨ids, hids⟩ := hforest.exists_onceReported hfindings (fun _ _ _ _ => id) htype
  exact ⟨outcome, ids, hrun, harena,
    hids.congr (fun _ => Iff.rfl) fun t d _ => (or_iff_left id).symm⟩

end Arena.IsForest

/-- **The check of lengths is exact.** Of the names of a source text nothing is reported, and any passes
may have run behind name resolution. Then the check comes to its end and leaves the tree as it is. It
reports each array type of the program that has no length once, where the type begins, unless the type is
the one that a parameter of a routine has itself; and it reports nothing else. The type of a parameter
stands at no other place of the program: what has it as a child is a variable that is a parameter, and
what has this variable as a child is a routine. -/
theorem arrayLengths_exact (source : String) (hparse : (parse source).errors = [])
    (names : PassOutcome) (hnames : nameResolution.run (parse source).arena = .ok names)
    (hsilent : names.diagnostics = []) (passes : List Pass) (hpasses : passes ⊆ laterPasses)
    (a : Arena) (hafter : names.arena.after passes = .ok a) :
    (∃ outcome ids, arrayLengths.run a = .ok outcome ∧ outcome.arena = a ∧
      a.OnceReported (fun t : TypeId => a.MissingLength (.type t)) ids outcome.diagnostics) ∧
    (∀ t v, a.ParameterType t → a.Reaches .program v → .type t ∈ a.children v →
      ∃ x, v = .variable x ∧ a.Parameter x) ∧
    ∀ x v, a.Parameter x → a.Reaches .program v → .variable x ∈ a.children v → ∃ r, v = .routine r := by
  obtain ⟨nodes, htree⟩ := Parser.parse_isTree source hparse
  have hresolves := resolves_of_silent htree hnames hsilent
  obtain ⟨forest, hforest⟩ := hresolves.exists_forest htree
  obtain ⟨a', hafter', hgrown⟩ := exists_after hforest hpasses ⟨.refl _, hresolves.sound htree⟩
  obtain rfl := Except.ok.inj (hafter'.symm.trans hafter)
  have hforest' := hgrown.refined.isForest hforest
  exact ⟨hforest'.exists_lengthsReported, fun t v => hforest'.parent_of_parameterType,
    fun x v => hforest'.parent_of_parameter⟩

/-- Two parameters, one with an array of arrays and one with a record, behind which the result type and a
local variable have no lengths either. -/
theorem arrayLengths_exact_parameters :
    let source := "routine f(x: array array integer, y: record\n  var z: array real\nend): array real is\n" ++
      "  var v: array boolean\nend\n"
    ∃ names, nameResolution.run (parse source).arena = .ok names ∧
      (∃ outcome ids, arrayLengths.run names.arena = .ok outcome ∧ outcome.arena = names.arena ∧
        names.arena.OnceReported (fun t : TypeId => names.arena.MissingLength (.type t)) ids
          outcome.diagnostics ∧
        outcome.diagnostics.map Diagnostic.position = [⟨1, 20⟩, ⟨2, 10⟩, ⟨3, 7⟩, ⟨4, 10⟩]) ∧
      (∀ t v, names.arena.ParameterType t → names.arena.Reaches .program v →
        .type t ∈ names.arena.children v → ∃ x, v = .variable x ∧ names.arena.Parameter x) ∧
      ∀ x v, names.arena.Parameter x → names.arena.Reaches .program v →
        .variable x ∈ names.arena.children v → ∃ r, v = .routine r := by
  intro source
  obtain ⟨hparse, hrun⟩ : (parse source).errors = [] ∧
      (do
        let names ← nameResolution.run (parse source).arena
        let lengths ← arrayLengths.run names.arena
        return (names.diagnostics, lengths.diagnostics.map Diagnostic.position)) =
          .ok ([], [⟨1, 20⟩, ⟨2, 10⟩, ⟨3, 7⟩, ⟨4, 10⟩]) := by
    decide +kernel
  cases hnames : nameResolution.run (parse source).arena with
  | error fault =>
      rw [hnames] at hrun
      nomatch hrun
  | ok names =>
      rw [hnames] at hrun
      cases hlengths : arrayLengths.run names.arena with
      | error fault =>
          simp only [bind, Except.bind, hlengths] at hrun
          nomatch hrun
      | ok lengths =>
          simp only [bind, Except.bind, hlengths] at hrun
          obtain ⟨hsilent, hplaces⟩ := Prod.mk.inj (Except.ok.inj hrun)
          obtain ⟨⟨outcome, ids, hexact, harena, hreported⟩, hparents⟩ := arrayLengths_exact source
            hparse names hnames hsilent [] (List.nil_subset _) names.arena rfl
          obtain rfl := Except.ok.inj (hlengths.symm.trans hexact)
          exact ⟨names, rfl, ⟨lengths, ids, hlengths, harena, hreported, hplaces⟩, hparents⟩

end ProcLang
