import ProcLang.Proofs.Account.Expressions

/-!
# ProcLang.Proofs.Account.Programs

**The reports of name resolution are the account of the tree.** For every tree that was read without
errors, name resolution reports what there is to say of the nodes, in the order of the account, and
nothing else (`IsTree.exists_account`).
-/

namespace ProcLang

open Arena WalkM

variable {a : Arena} {nodes : List Visit}

section

variable (htree : a.IsTree nodes)

include htree

/-- In a tree that was just read no type is linked. -/
theorem Arena.IsTree.not_targets (t : TypeId) (e : TypeDeclId) : ¬ a.Targets t e := by
  rintro ⟨node, name, hget, hkind⟩
  nomatch htree.named_unlinked hget hkind

/-- A program that declares a name twice is told: its repetitions are all there is to say. -/
theorem Arena.IsTree.exists_account_of_repeated {s : WalkState Routines}
    (hrepeated : a.repeated a.program.declarations ≠ [])
    (hrun : Runs (resolveProgram (visitWithin resolver (2 * a.size + 1))) Scope.empty ⟨a, #[], #[], []⟩
      () s) :
    ∃ remarks, a.Account [a.top] remarks ∧
      Told a a.top.scopes nodes remarks ⟨a, #[], #[], []⟩ s := by
  obtain ⟨r, s₁, hdeclare, hmore⟩ := runs_bind.1 (runs_note_bind.1 (runs_arena_bind.1 hrun))
  obtain ⟨-, htold, hnone⟩ := declareScope_told a.top.scopes nodes hdeclare (.refl a a)
    (htree.has_of_scope (.here _) _ List.mem_cons_self)
  obtain rfl := hnone hrepeated
  obtain ⟨-, rfl⟩ := runs_pure.1 hmore
  refine ⟨_, .repeated rfl hrepeated .nil, ?_⟩
  rw [List.append_nil]
  exact (Told.noted _ _).trans htold

/-- A program with distinct names is told: its types, the circles among them, and its other
declarations. -/
theorem Arena.IsTree.exists_account_of_distinct {s : WalkState Routines}
    (hdistinct : a.repeated a.program.declarations = [])
    (hrun : Runs (resolveProgram (visitWithin resolver (2 * a.size + 1))) Scope.empty ⟨a, #[], #[], []⟩
      () s) :
    ∃ remarks, a.Account [a.top] remarks ∧
      Told a a.top.scopes nodes remarks ⟨a, #[], #[], []⟩ s := by
  have hhas := htree.has_of_scope (.here _) _ List.mem_cons_self
  have hnodup := (repeated_eq_nil_iff hhas).1 hdistinct
  obtain ⟨r, t, hdeclare, hmore⟩ := runs_bind.1 (runs_note_bind.1 (runs_arena_bind.1 hrun))
  obtain ⟨rfl, rfl⟩ := (runs_declareProgram hnodup hhas).unique hdeclare
  have hfacing : Facing a (routinesOf (a.entries a.program.declarations)) nodes a.top.scopes
      (nodes ++ []) a.programOpened := by
    rw [List.append_nil]
    refine ⟨ready_programOpened _, List.Subset.refl _, htree.nodup,
      List.forall_mem_singleton.2 hnodup, fun y ys hspans hys e he hmem => ?_⟩
    rcases he with ⟨t, ht⟩ | ⟨scope, hscope, hd⟩
    · exact htree.not_targets t e ht
    · -- what the program declares is in no body
      rw [List.mem_singleton.1 hscope] at hd
      obtain ⟨v, hv, hchild⟩ := hspans.exists_parent hmem nofun
      exact htree.spans.root_not_child htree.nodup
        (List.mem_map_of_mem (f := Declaration.visit) hd) (hys hv) hchild
  obtain ⟨types, heads, others, htypes, hheads, hothers, htold, -, -⟩ :=
    resolveDeclarations_recounts htree.setting (visitWithin_recounts htree.setting (2 * a.size + 1))
      (N := fun _ => True) (fun d hd => .inside (List.mem_map_of_mem (List.mem_map_of_mem hd)) (.here _))
      (fun _ => Iff.rfl) htree.spans htree.layers_le (htree.progress_programOpened hnodup)
      (fun _ _ _ _ => ⟨fun _ _ => trivial, nofun, fun _ _ hout => absurd trivial hout⟩) hfacing
      (runs_inContext.1 hmore)
  refine ⟨types ++ heads.map a.cyclic ++ others, ?_, ?_⟩
  · have haccount : a.Account [a.top] (types ++ heads.map a.cyclic ++ others ++ []) := by
      refine .scope rfl hdistinct ?_ hheads ?_ .nil
      · exact (filter_declaresType a.top.scopes a.program.declarations) ▸ htypes
      · exact (filter_not_declaresType a.top.scopes a.program.declarations) ▸ hothers
    rwa [List.append_nil] at haccount
  · have hbegin : Told a a.top.scopes nodes [] ⟨a, #[], #[], []⟩ a.programOpened :=
      .quiet rfl (.refl a)
    exact hbegin.trans htold

/-- **The walk over a program** tells the account of the tree. -/
theorem Arena.IsTree.exists_told {s : WalkState Routines}
    (hwalk : a.walkProgram resolver Scope.empty [] = .ok s) : ∃ remarks, a.Account [a.top] remarks ∧
      Told a a.top.scopes nodes remarks ⟨a, #[], #[], []⟩ s := by
  obtain ⟨r, hvisit⟩ := walkProgram_eq_ok.1 hwalk
  obtain ⟨⟨⟩, s', hprogram, hlast⟩ := runs_bind.1 (runs_arena_bind.1 hvisit)
  obtain ⟨-, rfl⟩ := runs_pure.1 hlast
  by_cases hrepeated : a.repeated a.program.declarations = []
  · exact htree.exists_account_of_distinct hrepeated hprogram
  · exact htree.exists_account_of_repeated hrepeated hprogram

/-- **The reports of name resolution are the account of the tree.** -/
theorem Arena.IsTree.exists_account {outcome : PassOutcome} (hrun : nameResolution.run a = .ok outcome) :
    ∃ remarks, a.Account [a.top] remarks ∧ List.Forall₂ a.Reports remarks outcome.diagnostics := by
  obtain ⟨s, hwalk, rfl⟩ := run_ofVisitor.1 hrun
  obtain ⟨remarks, haccount, htold⟩ := htree.exists_told hwalk
  obtain ⟨ds, hds, hreports⟩ := htold.reported
  exact ⟨remarks, haccount, (hds.trans (List.nil_append ds)).symm ▸ hreports⟩

/-- **A call is linked to the routine of its name** or to none. -/
theorem Arena.IsTree.routineNamed_of_calls {outcome : PassOutcome}
    (hrun : nameResolution.run a = .ok outcome) {e : ExpressionId} {name : String} {r : RoutineId}
    (hcall : outcome.arena.Calls e name r) : a.routineNamed name = some r := by
  obtain ⟨s, hwalk, rfl⟩ := run_ofVisitor.1 hrun
  obtain ⟨remarks, -, htold⟩ := htree.exists_told hwalk
  refine (htold.called e name r hcall).resolve_left ?_
  -- no call is linked in a tree that was just read
  rintro ⟨node, arguments, hget, hkind⟩
  have hraw := (htree.raw hget).2
  rw [Node.Raw, hkind] at hraw
  rw [hraw] at hkind
  cases hkind

/-- **An identifier is linked to the variable of its name** or to none. -/
theorem Arena.IsTree.declares_of_identifies {outcome : PassOutcome}
    (hrun : nameResolution.run a = .ok outcome) {e : ExpressionId} {x : VariableId}
    (hidentifier : outcome.arena.Identifies e x) : a.Declares e x := by
  obtain ⟨s, hwalk, rfl⟩ := run_ofVisitor.1 hrun
  obtain ⟨remarks, -, htold⟩ := htree.exists_told hwalk
  refine (htold.identified e x hidentifier).resolve_left ?_
  -- nor is an identifier
  rintro ⟨node, name, hget, hkind⟩
  have hraw := (htree.raw hget).2
  rw [Node.Raw, hkind] at hraw
  rw [hraw] at hkind
  cases hkind

end

end ProcLang
