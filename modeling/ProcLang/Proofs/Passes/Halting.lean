import ProcLang.Proofs.Passes.External

/-!
# ProcLang.Proofs.Passes.Halting

**Stopping at the first error only cuts the list short** (`compile_halting`). The passes behind name
resolution work on one tree, one after the other, and each of them finds the same in both ways of
running them until one has something to report. What each of them finds if all of them run is
`Arena.findings`: going on gives all of it (`runPasses_goOn`), and stopping gives the first part of it
that is not empty (`runPasses_stop`).
-/

namespace ProcLang

open Arena

/-- What each of some passes finds if they run one after the other on a tree, and the tree that they
leave. -/
def Arena.findings : List Pass → Arena → Except Fault (List (Stage × List Diagnostic) × Arena)
  | [], a => .ok ([], a)
  | pass :: rest, a => do
      let outcome ← pass.run a
      let (others, last) ← findings rest outcome.arena
      return ((pass.stage, outcome.diagnostics) :: others, last)

/-- The diagnostics of all passes. -/
abbrev allFound (findings : List (Stage × List Diagnostic)) : List Diagnostic :=
  findings.flatMap Prod.snd

/-- The first pass that reports anything, with what it reports. -/
abbrev firstFound (findings : List (Stage × List Diagnostic)) : Option (Stage × List Diagnostic) :=
  findings.find? fun found => !found.2.isEmpty

/-- What was found before a pass, and what the pass finds. -/
def Analysis.joined (found : Analysis) (outcome : PassOutcome) : Analysis :=
  ⟨outcome.arena, found.diagnostics ++ outcome.diagnostics, none, found.journal ++ outcome.journal⟩

section

variable {passes : List Pass} {a last : Arena} {findings : List (Stage × List Diagnostic)}
  {found : Analysis}

/-- A pass has run, and the others behind it. -/
theorem findings_cons {pass : Pass} {rest : List Pass}
    (h : a.findings (pass :: rest) = .ok (findings, last)) :
    ∃ outcome others, pass.run a = .ok outcome ∧
      outcome.arena.findings rest = .ok (others, last) ∧
      findings = (pass.stage, outcome.diagnostics) :: others := by
  unfold Arena.findings at h
  cases hrun : pass.run a with
  | error fault => simp [hrun, bind, Except.bind] at h
  | ok outcome =>
      cases hrest : outcome.arena.findings rest with
      | error fault => simp [hrun, hrest, bind, Except.bind] at h
      | ok p =>
          simp only [hrun, hrest, bind, Except.bind, pure, Except.pure, Except.ok.injEq,
            Prod.mk.injEq] at h
          exact ⟨outcome, p.1, rfl, by rw [hrest, ← h.2], h.1.symm⟩

/-- What is found belongs to the passes, in their order. -/
theorem stages_findings (h : a.findings passes = .ok (findings, last)) :
    findings.map Prod.fst = passes.map Pass.stage := by
  induction passes generalizing a findings with
  | nil =>
      obtain ⟨rfl, rfl⟩ := Prod.mk.inj (Except.ok.inj h)
      rfl
  | cons pass rest ih =>
      obtain ⟨outcome, others, -, hrest, rfl⟩ := findings_cons h
      rw [List.map_cons, List.map_cons, ih hrest]

/-- Nothing was reported if no pass did. -/
theorem firstFound_eq_none : firstFound findings = none ↔ allFound findings = [] := by
  simp [firstFound, allFound]

/-- What the first pass that reports anything reports comes first. -/
theorem prefix_of_firstFound {stage : Stage} {ds : List Diagnostic}
    (h : firstFound findings = some (stage, ds)) : ds <+: allFound findings ∧ ds ≠ [] := by
  induction findings with
  | nil => nomatch h
  | cons found rest ih =>
      obtain ⟨first, found⟩ := found
      cases found with
      | nil => exact ih h
      | cons d ds' =>
          cases h
          exact ⟨List.prefix_append .., List.cons_ne_nil _ _⟩

/-- **Going on** gives all that the passes find. -/
theorem runPasses_goOn (h : found.arena.findings passes = .ok (findings, last))
    (hhalted : found.haltedAt = none) :
    ∃ journal, runPasses false passes found =
      .ok ⟨last, found.diagnostics ++ allFound findings, none, journal⟩ := by
  induction passes generalizing found findings with
  | nil =>
      obtain ⟨rfl, rfl⟩ := Prod.mk.inj (Except.ok.inj h)
      refine ⟨found.journal, ?_⟩
      rw [runPasses, allFound, List.flatMap_nil, List.append_nil, ← hhalted]
  | cons pass rest ih =>
      obtain ⟨outcome, others, hrun, hrest, rfl⟩ := findings_cons h
      have hnext : (found.joined outcome).arena.findings rest = .ok (others, last) := hrest
      obtain ⟨journal, hgoes⟩ := ih hnext rfl
      refine ⟨journal, ?_⟩
      simp only [runPasses, hrun, bind, Except.bind, Bool.false_and, Bool.false_eq_true, if_false]
      refine hgoes.trans ?_
      rw [Analysis.joined, List.append_assoc]
      rfl

/-- If no pass finds anything, then **stopping** makes no difference. -/
theorem runPasses_eq_of_silent (h : found.arena.findings passes = .ok (findings, last))
    (hsilent : firstFound findings = none) :
    runPasses true passes found = runPasses false passes found := by
  induction passes generalizing found findings with
  | nil => rfl
  | cons pass rest ih =>
      obtain ⟨outcome, others, hrun, hrest, rfl⟩ := findings_cons h
      obtain ⟨hnone, hothers⟩ : outcome.diagnostics = [] ∧ firstFound others = none := by
        simpa [firstFound] using hsilent
      simp only [runPasses, hrun, hnone, bind, Except.bind, Bool.false_and, Bool.true_and,
        List.isEmpty_nil, Bool.not_true, Bool.false_eq_true, if_false]
      exact ih hrest hothers

/-- Otherwise **stopping** gives what the first pass that reports anything finds. -/
theorem runPasses_stop (h : found.arena.findings passes = .ok (findings, last))
    {stage : Stage} {ds : List Diagnostic} (hfirst : firstFound findings = some (stage, ds)) :
    ∃ b journal, runPasses true passes found =
      .ok ⟨b, found.diagnostics ++ ds, some stage, journal⟩ := by
  induction passes generalizing found findings with
  | nil =>
      obtain ⟨rfl, -⟩ := Prod.mk.inj (Except.ok.inj h)
      nomatch hfirst
  | cons pass rest ih =>
      obtain ⟨outcome, others, hrun, hrest, rfl⟩ := findings_cons h
      simp only [runPasses, hrun, bind, Except.bind, Bool.true_and]
      cases hfound : outcome.diagnostics with
      | nil =>
          rw [hfound] at hfirst
          have hnext : (found.joined outcome).arena.findings rest = .ok (others, last) := hrest
          obtain ⟨b, journal, hstops⟩ := ih hnext hfirst
          rw [Analysis.joined, hfound] at hstops
          refine ⟨b, journal, hstops.trans ?_⟩
          rw [List.append_nil]
      | cons d others' =>
          rw [hfound] at hfirst
          cases hfirst
          exact ⟨_, _, rfl⟩

end

/-! ### Whole programs -/

/-- The passes behind name resolution find something, each of them, and come to their end. -/
theorem exists_findings {b : Arena} {nodes : List Visit} (hforest : b.IsForest nodes)
    {passes : List Pass} (hpasses : passes ⊆ laterPasses) {a : Arena} (hgrown : b.Grown a) :
    ∃ findings last, a.findings passes = .ok (findings, last) := by
  induction passes generalizing a with
  | nil => exact ⟨[], a, rfl⟩
  | cons pass rest ih =>
      obtain ⟨hpass, hrest⟩ := List.cons_subset.1 hpasses
      obtain ⟨outcome, hrun, hextends⟩ := completes_laterPasses pass hpass a nodes
        (hgrown.refined.isForest hforest) hgrown.sound.toCoherent
      obtain ⟨findings, last, hfound⟩ := ih hrest (hgrown.extend hextends)
      refine ⟨(pass.stage, outcome.diagnostics) :: findings, last, ?_⟩
      simp only [Arena.findings, hrun, hfound, bind, Except.bind]
      rfl

/-- **The two ways of running passes.** Either no pass reports anything and they give the same, or
stopping gives what the first pass that reports anything finds. -/
theorem exists_runPasses_both {passes : List Pass} {a last : Arena}
    {findings : List (Stage × List Diagnostic)} (h : a.findings passes = .ok (findings, last))
    (journal : Journal) :
    ∃ stopped full, runPasses true passes ⟨a, [], none, journal⟩ = .ok stopped ∧
      runPasses false passes ⟨a, [], none, journal⟩ = .ok full ∧ full.arena = last ∧
      full.diagnostics = allFound findings ∧ full.haltedAt = none ∧
      (allFound findings = [] ∧ stopped = full ∨
        ∃ stage, firstFound findings = some (stage, stopped.diagnostics) ∧
          stopped.haltedAt = some stage) := by
  have hfound : (⟨a, [], none, journal⟩ : Analysis).arena.findings passes = .ok (findings, last) := h
  obtain ⟨_, hfull⟩ := runPasses_goOn hfound rfl
  rw [List.nil_append] at hfull
  cases hfirst : firstFound findings with
  | none =>
      exact ⟨_, _, (runPasses_eq_of_silent hfound hfirst).trans hfull, hfull, rfl, rfl, rfl,
        Or.inl ⟨firstFound_eq_none.1 hfirst, rfl⟩⟩
  | some first =>
      obtain ⟨b, stopped, hstopped⟩ := runPasses_stop hfound hfirst
      rw [List.nil_append] at hstopped
      exact ⟨_, _, hstopped, hfull, rfl, rfl, rfl, Or.inr ⟨first.1, rfl, rfl⟩⟩

/-- Analysing a tree whose names are resolved is running the passes behind name resolution. -/
theorem analyze_of_silent {a : Arena} {names : PassOutcome} (hrun : nameResolution.run a = .ok names)
    (hsilent : names.diagnostics = []) (haltOnError : Bool) :
    analyze a haltOnError =
      runPasses haltOnError laterPasses ⟨names.arena, [], none, names.journal⟩ := by
  simp [analyze, hrun, hsilent, bind, Except.bind]

/-- If names cannot be resolved, then no other pass runs. -/
theorem analyze_of_reported {a : Arena} {names : PassOutcome}
    (hrun : nameResolution.run a = .ok names) (hreported : names.diagnostics ≠ [])
    (haltOnError : Bool) :
    analyze a haltOnError =
      .ok ⟨names.arena, names.diagnostics, some .nameResolution, names.journal⟩ := by
  simp only [analyze, hrun, bind, Except.bind]
  rw [if_neg fun hempty => hreported (List.isEmpty_iff.1 hempty)]
  rfl

/-- A text that reads without errors is analysed. -/
theorem compile_of_parsed {source : String} {haltOnError : Bool} {analysis : Analysis}
    (hparse : (parse source).errors = [])
    (hanalysis : analyze (parse source).arena haltOnError = .ok analysis) :
    compile source haltOnError = .ok { analysis with
      journal := (parse source).journal.push (.stageFinished .parsing 0) ++ analysis.journal } := by
  simp only [compile, hparse, List.isEmpty_nil, if_true, hanalysis, bind, Except.bind]
  rfl

/-- A text that does not read is not analysed. -/
theorem compile_of_errors {source : String} (haltOnError : Bool)
    (herrors : (parse source).errors ≠ []) :
    compile source haltOnError = .ok ⟨(parse source).arena, (parse source).errors, some .parsing,
      (parse source).journal.push (.stageFinished .parsing (parse source).errors.length)⟩ := by
  simp only [compile]
  rw [if_neg fun hempty => herrors (List.isEmpty_iff.1 hempty)]
  rfl

/-- **Stopping at the first error only cuts the list short.** If reading the text or resolving its
names fails, then stopping and going on give the same. Otherwise going on collects what all the
passes find, and stopping gives what the first pass that finds anything does. -/
theorem compile_halting (source : String) :
    ∃ stopped full, compile source true = .ok stopped ∧ compile source false = .ok full ∧
      stopped.diagnostics <+: full.diagnostics ∧
      stopped.isGeneratable = full.isGeneratable ∧
      (stopped.isGeneratable = true →
        stopped.arena = full.arena ∧ stopped.haltedAt = none ∧ full.haltedAt = none) ∧
      ((parse source).errors ≠ [] → stopped = full ∧ stopped.haltedAt = some .parsing) ∧
      ((parse source).errors = [] →
        ∃ names, nameResolution.run (parse source).arena = .ok names ∧
          (names.diagnostics ≠ [] → stopped = full ∧ stopped.haltedAt = some .nameResolution) ∧
          (names.diagnostics = [] → ∃ findings last,
            names.arena.findings laterPasses = .ok (findings, last) ∧
            findings.map Prod.fst = laterPasses.map Pass.stage ∧
            full.diagnostics = allFound findings ∧ full.arena = last ∧ full.haltedAt = none ∧
            (stopped.diagnostics ≠ [] → ∃ stage,
              firstFound findings = some (stage, stopped.diagnostics) ∧
              stopped.haltedAt = some stage))) := by
  by_cases hparse : (parse source).errors = []
  case neg =>
    refine ⟨_, _, compile_of_errors true hparse, compile_of_errors false hparse,
      List.prefix_refl _, rfl, fun hsilent => ?_, fun _ => ⟨rfl, rfl⟩, fun h => absurd h hparse⟩
    exact absurd (List.isEmpty_iff.1 hsilent) hparse
  obtain ⟨nodes, htree⟩ := Parser.parse_isTree source hparse
  obtain ⟨names, hrun, -⟩ := htree.exists_settles
  by_cases hnames : names.diagnostics = []
  case neg =>
    refine ⟨_, _, compile_of_parsed hparse (analyze_of_reported hrun hnames true),
      compile_of_parsed hparse (analyze_of_reported hrun hnames false), List.prefix_refl _, rfl,
      fun hsilent => ?_, fun h => absurd hparse h, fun _ => ⟨names, hrun, fun _ => ⟨rfl, rfl⟩,
      fun h => absurd h hnames⟩⟩
    exact absurd (List.isEmpty_iff.1 hsilent) hnames
  have hresolves := resolves_of_silent htree hrun hnames
  obtain ⟨forest, hforest⟩ := hresolves.exists_forest htree
  obtain ⟨findings, last, hfindings⟩ := exists_findings hforest (List.Subset.refl laterPasses)
    ⟨.refl _, hresolves.sound htree⟩
  obtain ⟨stopped, full, hstopped, hfull, hlast, hall, hhalted, hcases⟩ :=
    exists_runPasses_both hfindings names.journal
  rw [← analyze_of_silent hrun hnames] at hstopped hfull
  have hprefix : stopped.diagnostics <+: full.diagnostics ∧
      (stopped.diagnostics = [] → stopped = full) ∧
      (full.diagnostics = [] → stopped.diagnostics = []) := by
    rcases hcases with ⟨-, rfl⟩ | ⟨stage, hfirst, -⟩
    · exact ⟨List.prefix_refl _, fun _ => rfl, id⟩
    · obtain ⟨hfront, hsome⟩ := prefix_of_firstFound hfirst
      rw [hall]
      exact ⟨hfront, fun hnil => absurd hnil hsome,
        fun hnil => List.eq_nil_of_prefix_nil (hnil ▸ hfront)⟩
  obtain ⟨hfront, hsame, hsilent⟩ := hprefix
  refine ⟨_, _, compile_of_parsed hparse hstopped, compile_of_parsed hparse hfull, hfront, ?_,
    fun hgeneratable => ?_, fun h => absurd hparse h, fun _ => ⟨names, hrun, fun h => absurd hnames h,
      fun _ => ⟨findings, last, hfindings, stages_findings hfindings, hall, hlast, hhalted,
        fun hreported => ?_⟩⟩⟩
  · rw [Bool.eq_iff_iff]
    simp only [Analysis.isGeneratable, List.isEmpty_iff]
    exact ⟨fun hnil => hsame hnil ▸ hnil, hsilent⟩
  · obtain rfl := hsame (List.isEmpty_iff.1 hgeneratable)
    exact ⟨rfl, hhalted, hhalted⟩
  · rcases hcases with ⟨hnil, rfl⟩ | hfirst
    · exact absurd (hall.trans hnil) hreported
    · exact hfirst

/-- A program with a wrong call and a missing result: the check of calls stops it, and the check of
return paths is not reached. -/
theorem compile_halting_calls :
    let source := "routine f(a : integer) : integer is\n  f()\nend\n"
    ∃ stopped full names findings last, compile source true = .ok stopped ∧
      compile source false = .ok full ∧ nameResolution.run (parse source).arena = .ok names ∧
      names.arena.findings laterPasses = .ok (findings, last) ∧
      full.diagnostics = allFound findings ∧ full.haltedAt = none ∧ stopped.diagnostics ≠ [] ∧
      ∃ stage, firstFound findings = some (stage, stopped.diagnostics) ∧
        stopped.haltedAt = some stage := by
  intro source
  obtain ⟨hparse, hrun, hstop⟩ : (parse source).errors = [] ∧
      (nameResolution.run (parse source).arena).map
        (fun outcome => decide (outcome.diagnostics = [])) = .ok true ∧
      (compile source true).map (fun c => decide (c.diagnostics ≠ [])) = .ok true := by
    decide +kernel
  obtain ⟨stopped, full, hstopped, hfull, -, -, -, -, hresolved⟩ := compile_halting source
  obtain ⟨names, hnames, -, hlater⟩ := hresolved hparse
  rw [hnames] at hrun
  have hsilent : names.diagnostics = [] := of_decide_eq_true (Except.ok.inj hrun)
  rw [hstopped] at hstop
  have hreported : stopped.diagnostics ≠ [] := of_decide_eq_true (Except.ok.inj hstop)
  obtain ⟨findings, last, hfindings, -, hall, -, hhalted, hfirst⟩ := hlater hsilent
  exact ⟨stopped, full, names, findings, last, hstopped, hfull, hnames, hfindings, hall, hhalted,
    hreported, hfirst hreported⟩

end ProcLang
