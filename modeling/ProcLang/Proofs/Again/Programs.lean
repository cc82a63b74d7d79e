import ProcLang.Proofs.Again.Nodes

/-!
# ProcLang.Proofs.Again.Programs

**Name resolution is idempotent.** A second name resolution, of the tree that the first one left, whether
or not that one reported anything, reports the same and changes nothing (`nameResolution_again`). Both
tell the account of the parsed tree, and there is one such account only.
-/

namespace ProcLang

open Arena WalkM

variable {a : Arena} {nodes : List Visit} {outcome : PassOutcome}

/-- A remark is reported in one way. -/
theorem Arena.Reports.unique {r : Remark} {d d' : Diagnostic} (h : a.Reports r d) (h' : a.Reports r d') :
    d = d' := by
  cases h with
  | @intro family id node hget =>
      obtain ⟨node', hget', rfl⟩ := h'.exists_node
      rw [Option.some.inj (hget.symm.trans hget')]

theorem reports_unique {remarks : List Remark} {ds ds' : List Diagnostic}
    (h : List.Forall₂ a.Reports remarks ds) (h' : List.Forall₂ a.Reports remarks ds') : ds = ds' := by
  induction h generalizing ds' with
  | nil =>
      cases h'
      rfl
  | cons hfirst _ ih =>
      cases h' with
      | cons hfirst' hothers' => rw [hfirst.unique hfirst', ih hothers']

/-- The walk over a program begins with its declarations. -/
theorem walkProgram_of_resolveProgram {b : Arena} {s' : WalkState Routines}
    (hrun : Runs (resolveProgram (visitWithin resolver (2 * b.size + 1))) Scope.empty ⟨b, #[], #[], []⟩
      () s') : b.walkProgram resolver Scope.empty [] = .ok s' :=
  walkProgram_eq_ok.2 ⟨none, runs_arena_bind.2 (runs_bind.2 ⟨(), s', hrun, runs_pure.2 ⟨rfl, rfl⟩⟩)⟩

section

variable (htree : a.IsTree nodes) (h : a.Settles nodes outcome)

include htree h

/-- A program that declares a name twice is left alone again. -/
theorem Arena.Settles.exists_again_of_repeated
    (hrepeated : ¬ (a.program.declarations.map a.nameOf).Nodup) :
    ∃ s, outcome.arena.walkProgram resolver Scope.empty [] = .ok s ∧ s.arena = outcome.arena ∧
      Recount a [] [a.top] [] ⟨outcome.arena, #[], #[], []⟩ s := by
  have hhas := htree.has_of_scope (.here _) _ List.mem_cons_self
  obtain ⟨s₁, hdeclare, hremarks, -⟩ := @exists_runs_declareScope_repeated a []
    a.program.declarations [] (WalkState.noted ⟨outcome.arena, #[], #[], []⟩ .programEntered) h.evolves
    hrepeated hhas
  obtain ⟨harena, htold, -⟩ := declareScope_told [] [] hdeclare h.evolves hhas
  refine ⟨_, walkProgram_of_resolveProgram (runs_arena_bind.2 (runs_note_bind.2 ?_)), harena, _,
    .repeated rfl (fun hnone => hrepeated ((repeated_eq_nil_iff hhas).1 hnone)) .nil, ?_⟩
  · rw [h.evolves.program]
    exact runs_bind.2 ⟨none, _, hdeclare, runs_pure.2 ⟨rfl, rfl⟩⟩
  · rw [List.append_nil]
    exact (Told.noted _ _).trans htold

/-- The declarations of a program with distinct names are visited again. -/
theorem Arena.Settles.exists_again_of_nodup
    (hnodup : (a.program.declarations.map a.nameOf).Nodup) :
    ∃ s, outcome.arena.walkProgram resolver Scope.empty [] = .ok s ∧ s.arena = outcome.arena ∧
      Recount a [] [a.top] [] ⟨outcome.arena, #[], #[], []⟩ s := by
  have hhas := htree.has_of_scope (.here _) _ List.mem_cons_self
  -- the state behind the declarations, by name: the walk goes on from any such state
  obtain ⟨s₀, hs₀⟩ : ∃ s₀ : WalkState Routines, s₀ = ⟨outcome.arena, #[], #[.programEntered],
    routinesOf (a.entries a.program.declarations)⟩ := ⟨_, rfl⟩
  have hdeclare : Runs (declareScope [] a.program.declarations) Scope.empty
      (WalkState.noted ⟨outcome.arena, #[], #[], []⟩ .programEntered)
      (some (a.scopeOf a.top.scopes)) s₀ :=
    hs₀ ▸ runs_declareScope [] h.evolves hnodup hhas
  obtain ⟨all, hforest⟩ := (h.reshapes htree).exists_forest htree
  have hready := (proceedsAgain htree h).readyWhere hforest.within
  have hinside : ∀ d ∈ a.program.declarations,
      (⟨a.top.scopes, d.visit⟩ : Site) ∈ a.inside a.top := fun d hd =>
    List.mem_map_of_mem (List.mem_map_of_mem hd)
  have hcontains : ∀ d ∈ a.program.declarations, outcome.arena.Contains .program d.visit := by
    intro d hd
    refine .single ?_
    rw [Arena.children, h.evolves.program]
    exact List.mem_map_of_mem hd
  obtain ⟨s', types, heads, others, hrun, hs', htypes, hheads, hothers, htold⟩ :=
    exists_retold_declarations htree h (.here a.top) (List.forall_mem_singleton.2 hnodup) hinside
      (fun d hd => hd) hready hcontains (s := s₀) ⟨by rw [hs₀], by rw [hs₀]⟩
  refine ⟨s', walkProgram_of_resolveProgram (runs_arena_bind.2 (runs_note_bind.2 ?_)), hs'.arena,
    types ++ heads.map a.cyclic ++ others, ?_, ?_⟩
  · rw [h.evolves.program]
    exact runs_bind.2 ⟨_, _, hdeclare, runs_inContext.2 hrun⟩
  · have haccount : a.Account [a.top] (types ++ heads.map a.cyclic ++ others ++ []) := by
      refine .scope rfl ((repeated_eq_nil_iff hhas).2 hnodup) ?_ hheads ?_ .nil
      · exact (filter_declaresType a.top.scopes a.program.declarations) ▸ htypes
      · exact (filter_not_declaresType a.top.scopes a.program.declarations) ▸ hothers
    rwa [List.append_nil] at haccount
  · have hbegin : Told a [] [] [] ⟨outcome.arena, #[], #[], []⟩ s₀ := by
      rw [hs₀]
      exact .quiet rfl (.refl outcome.arena)
    exact hbegin.trans htold

end

/-- **A second name resolution** of a tree that was just read reports the same, and changes nothing. -/
theorem Arena.IsTree.exists_again (htree : a.IsTree nodes) (hrun : nameResolution.run a = .ok outcome) :
    ∃ second, nameResolution.run outcome.arena = .ok second ∧
      second.diagnostics = outcome.diagnostics ∧ second.arena = outcome.arena := by
  have h := htree.settles hrun
  obtain ⟨s, hwalk, harena, remarks, haccount, htold⟩ : ∃ s,
      outcome.arena.walkProgram resolver Scope.empty [] = .ok s ∧ s.arena = outcome.arena ∧
        Recount a [] [a.top] [] ⟨outcome.arena, #[], #[], []⟩ s := by
    by_cases hnodup : (a.program.declarations.map a.nameOf).Nodup
    · exact h.exists_again_of_nodup htree hnodup
    · exact h.exists_again_of_repeated htree hnodup
  -- both runs tell an account of the parsed tree, and there is only one
  obtain ⟨remarks', haccount', hreports'⟩ := htree.exists_account hrun
  obtain ⟨ds, hds, hreports⟩ := htold.reported
  obtain rfl := haccount.unique haccount'
  refine ⟨_, run_ofVisitor.2 ⟨s, hwalk, rfl⟩, ?_, harena⟩
  exact (hds.trans (List.nil_append ds)).trans (reports_unique hreports hreports')

/-- **Name resolution is idempotent**: after a first one, whatever it reported, a second one reports
exactly the same and leaves the tree as it is. -/
theorem nameResolution_again (source : String) (hparse : (parse source).errors = []) :
    ∃ first second, nameResolution.run (parse source).arena = .ok first ∧
      nameResolution.run first.arena = .ok second ∧ second.diagnostics = first.diagnostics ∧
      second.arena = first.arena := by
  obtain ⟨nodes, htree⟩ := Parser.parse_isTree source hparse
  obtain ⟨first, hfirst, -⟩ := htree.exists_settles
  obtain ⟨second, hsecond, hdiagnostics, harena⟩ := htree.exists_again hfirst
  exact ⟨first, second, hfirst, hsecond, hdiagnostics, harena⟩

/-- A bare name that became a call, a circle of types, a name that nothing has, and a body that declares
a name twice. -/
theorem nameResolution_again_reported :
    let source := "type t is array [2] t\nroutine f() : integer is\nvar x is 1\nvar x is y\nend\nvar z is f + w\n"
    (parse source).errors = [] ∧
      ∃ first second, nameResolution.run (parse source).arena = .ok first ∧
        nameResolution.run first.arena = .ok second ∧ second.diagnostics = first.diagnostics ∧
        second.arena = first.arena := by
  intro source
  have hparse : (parse source).errors = [] := by decide +kernel
  exact ⟨hparse, nameResolution_again source hparse⟩

end ProcLang
