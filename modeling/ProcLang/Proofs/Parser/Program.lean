import ProcLang.Proofs.Parser.Tree

/-!
# ProcLang.Proofs.Parser.Program

**The trees of a source text.** Whatever a text is, the arena holds a forest and the shared types,
and nothing else: every node is there once, no later stage has touched it, and no two names begin at
the same place (`parse_holdsForest`). The trees of the forest are the declarations of the program,
and those that were lost after an error. If reading a text finds no error, nothing was lost: the
arena holds the one tree below the program (`parse_isTree`).

The reading of a program always comes to its end: after an error it goes on, and each round of the
loop over the declarations takes a token. So all errors that it finds are errors of the text.
-/

namespace ProcLang

/-- An arena that holds a forest and the shared types, as the parser makes them; `all` are the nodes
of the forest. -/
structure Arena.HoldsForest (a : Arena) (roots all : List Visit) : Prop where
  spans : Spans a roots all
  nodup : all.Nodup
  covers : ∀ (family : Family) (id : NodeId family) node, a.get? id = some node →
    empty.Has (Visit.of id) ∨ (Visit.of id ∈ all ∧ Node.Raw family node)
  fresh : ∀ v ∈ all, ¬ empty.Has v
  shared : empty.ExtendedBy a
  starts : (a.starts all).Nodup
  descends : a.Descends
  counted : a.Counted

/-- An arena that holds one tree; `all` are its nodes. -/
abbrev Arena.IsTree (a : Arena) (all : List Visit) : Prop :=
  a.HoldsForest (a.children .program) all

section

variable {a : Arena} {all : List Visit} {id : ExpressionId} {node : Expression}

theorem Arena.IsTree.ordered (h : a.IsTree all) : a.Ordered := h.descends.ordered

/-- No expression is shared: all of them are in the tree, as they were read. -/
theorem Arena.IsTree.raw (h : a.IsTree all) (hget : a.get? id = some node) :
    .expression id ∈ all ∧ Node.Raw .expression node := by
  rcases h.covers .expression id node hget with hshared | hmem
  · obtain ⟨family, index, haddress, hlt⟩ := hshared
    cases haddress
    exact absurd hlt (Nat.not_lt_zero _)
  · exact hmem

/-- The names in a tree that was just read have no links. -/
theorem Arena.IsTree.unlinked (h : a.IsTree all) (hget : a.get? id = some node) {name : String}
    {target : Option VariableId} (hkind : node.kind = .identifier name target) :
    node.kind = .identifier name none := by
  have hraw := (h.raw hget).2
  rw [Node.Raw, hkind] at hraw
  rw [hraw, Expression.plain]

end

namespace Parser

open State

/-! ### Coming to an end -/

/-- A round of the loop over the declarations does not fail. -/
theorem not_fails_declarationsRound {found : List Declaration} {s s' : State} {d : Diagnostic} :
    ¬ Fails (declarationsRound found) s d s' := by
  intro h
  have hcurrent : ¬ Fails current s d s' := by
    intro h
    rcases fails_bind.1 h with h | ⟨_, _, -, h⟩
    · exact fails_get h
    · exact fails_pure h
  have hskip : ∀ {s}, ¬ Fails skip s d s' := by
    intro s h
    change Fails ((fun _ => PUnit.unit) <$> advance) s d s' at h
    rw [← bind_pure_comp] at h
    rcases fails_bind.1 h with h | ⟨_, _, -, h⟩
    · exact fails_modifyGet h
    · exact fails_pure h
  rcases fails_bind.1 h with h | ⟨token, s₁, -, h⟩
  · exact hcurrent h
  split at h
  · exact fails_pure h
  · rcases fails_bind.1 h with h | ⟨_, _, -, h⟩
    · exact hskip h
    · exact fails_pure h
  · rcases fails_bind.1 h with h | ⟨_, _, -, h⟩
    · exact hskip h
    · exact fails_pure h
  · rcases fails_bind.1 h with h | ⟨_, _, -, h⟩
    · exact not_fails_recovering h
    · exact fails_pure h

/-- The declarations of a program are read to the end of the text. Only the bound of the loop could
make them fail, and it is not met. -/
theorem exists_yields_declarations {s : State} (hsane : Sane s) :
    ∃ found s', Yields (declarations Grammar.standard) s found s' := by
  rcases yields_or_fails (declarations Grammar.standard) s with hyields | ⟨d, s', hfails⟩
  · exact hyields
  have hexternal := ((declarations_constructs s hsane).fails
    ⟨.refl s, Nat.lt_succ_self _, nofun, nofun⟩ hfails).1
  rw [declarations_eq] at hfails
  have hinternal := isInternal_of_fails_loop (fun _ _ _ _ => not_fails_declarationsRound) hfails
  rw [hexternal] at hinternal
  nomatch hinternal

/-! ### Programs -/

/-- The state before the first token. -/
theorem sane_ofSource (source : String) : Sane (ofSource source) where
  ending := by
    rw [ofSource, noteComment_ending]
    exact Token.tokenStream_ending_kind source
  distinct := by
    rw [ofSource, noteComment_unread]
    exact Token.tokenStream_starts_nodup source

end Parser

namespace Arena

theorem get?_program (a : Arena) (program : Program) {family : Family} (id : NodeId family) :
    ({ a with program } : Arena).get? id = a.get? id := by
  cases family <;> rfl

theorem extendedBy_program (a : Arena) (program : Program) : a.ExtendedBy { a with program } :=
  fun _ id _ h => (a.get?_program program id).trans h

/-- The shared types own nothing. -/
theorem empty_children {family : Family} {id : NodeId family} {node : Node family}
    (h : empty.get? id = some node) : Node.children family node = [] := by
  have hmem := Array.mem_of_getElem? h
  cases family with
  | type =>
      simp only [table, empty, List.mem_toArray, List.mem_cons, List.not_mem_nil, or_false] at hmem
      rcases hmem with rfl | rfl | rfl <;> rfl
  | _ => simp [table, empty] at hmem

theorem empty_descends : empty.Descends := by
  intro family id child node hget hchild
  rw [empty_children hget] at hchild
  nomatch hchild

/-- A node with something below it belongs to the forest. -/
theorem HoldsForest.mem_of_child {a : Arena} {roots all : List Visit} (h : a.HoldsForest roots all)
    {family : Family} {id : NodeId family} {node : Node family} (hget : a.get? id = some node)
    {w : Visit} (hw : w ∈ Node.children family node) : Visit.of id ∈ all := by
  rcases h.covers family id node hget with hshared | ⟨hmem, -⟩
  · obtain ⟨node', hget'⟩ := hshared.exists_get?
    obtain rfl : node' = node := Option.some.inj ((h.shared family id node' hget').symm.trans hget)
    rw [empty_children hget'] at hw
    nomatch hw
  · exact hmem

theorem empty_counted : empty.Counted := by
  intro id node x hget
  rw [get?, show empty.table .statement = #[] from rfl, Array.getElem?_empty] at hget
  cases hget

end Arena

namespace Parser

/-- Reading a program is reading its declarations, which become the root of the arena. -/
theorem exists_yields_program (source : String) : ∃ found s program,
    Yields (declarations Grammar.standard) (.ofSource source) found s ∧
      program.declarations = found ∧
      (∃ s', Yields (Parser.program Grammar.standard) (.ofSource source) () s' ∧
        s'.unread = s.unread ∧ s'.arena = (parse source).arena ∧
        s'.errors.toList = (parse source).errors) ∧
      (parse source).arena = { s.arena with program } ∧
      (parse source).errors = s.errors.toList := by
  obtain ⟨found, s, hfound⟩ := exists_yields_declarations (sane_ofSource source)
  have hrun : ∃ program s', program.declarations = found ∧
      Yields (Parser.program Grammar.standard) (.ofSource source) () s' ∧
      s'.unread = s.unread ∧ s'.errors = s.errors ∧ s'.arena = { s.arena with program } :=
    ⟨_, _, rfl, yields_current_bind.2 (yields_bind.2 ⟨found, s, hfound, yields_spanFrom_bind.2
      (yields_modify_bind.2 (yields_get_bind.2 (yields_note.2 rfl)))⟩), rfl, rfl, rfl⟩
  obtain ⟨program, s', hdeclarations, hrun, hunread, herrors, harena⟩ := hrun
  have hparse : parse source = ⟨s'.arena, s'.errors.toList, s'.journal⟩ := by
    have hrun' : (Parser.program Grammar.standard).run (.ofSource source) = (.ok (), s') := hrun
    rw [parse, hrun']
  rw [hparse]
  exact ⟨found, s, program, hfound, hdeclarations, ⟨s', hrun, hunread, rfl, rfl⟩, harena,
    congrArg Array.toList herrors⟩

/-- **The trees of a text.** -/
theorem parse_holdsForest (source : String) : ∃ lost all,
    (parse source).arena.HoldsForest ((parse source).arena.children .program ++ lost) all ∧
      ((parse source).errors = [] → lost = []) ∧
      ∀ d ∈ (parse source).errors, d.isInternal = false := by
  have hsane := sane_ofSource source
  obtain ⟨found, s, program, hfound, hdeclarations, -, harena, herrors⟩ :=
    exists_yields_program source
  have hempty : (State.ofSource source).arena = Arena.empty := State.noteComment_arena _
  have hnone : (State.ofSource source).errors = #[] := by
    rw [State.ofSource, State.noteComment_errors]
  obtain ⟨w, all, lost, hbuilt, hlost⟩ := ((declarations_constructs _ hsane).yields
    ⟨.refl _, Nat.lt_succ_self _, nofun, nofun⟩ hfound).built
  have hext := s.arena.extendedBy_program program
  have hstarts := hext.starts_eq fun v hv => hbuilt.spans.has_of_mem hv
  have hget : ∀ {family : Family} (id : NodeId family),
      (parse source).arena.get? id = s.arena.get? id := by
    intro family id
    rw [harena]
    exact s.arena.get?_program program id
  refine ⟨lost, all, ⟨?_, hbuilt.nodup, ?_, ?_, ?_, ?_, ?_, ?_⟩, fun h => hlost ?_, ?_⟩
  · rw [harena, Arena.children, hdeclarations]
    exact hbuilt.spans.extend hext
  · intro family id node hnode
    rw [hget] at hnode
    rw [← hempty]
    exact hbuilt.covers family id node hnode
  · intro v hv
    rw [← hempty]
    exact hbuilt.fresh v hv
  · intro family id node hnode
    rw [hget]
    exact hbuilt.reads.arena family id node (hempty.symm ▸ hnode)
  · rw [harena, hstarts]
    have hnodup := hbuilt.starts
    rwa [List.append_nil] at hnodup
  · intro family id child node hnode
    rw [hget] at hnode
    exact hbuilt.descends (hempty.symm ▸ Arena.empty_descends) family id child node hnode
  · intro id node x hnode hx
    rw [hget] at hnode
    have hcounter := hbuilt.counted (hempty.symm ▸ Arena.empty_counted) id node x hnode hx
    exact harena ▸ hcounter.extend hext
  · rw [herrors, Array.toList_eq_nil_iff] at h
    rw [h, hnone]
  · intro d hd
    rw [herrors, Array.mem_toList_iff] at hd
    exact (hbuilt.external d hd).resolve_left fun hold => by simp [hnone] at hold

/-- **The tree of a text that reads without errors.** -/
theorem parse_isTree (source : String) (h : (parse source).errors = []) :
    ∃ all, (parse source).arena.IsTree all := by
  obtain ⟨lost, all, hforest, hlost, -⟩ := parse_holdsForest source
  rw [hlost h, List.append_nil] at hforest
  exact ⟨all, hforest⟩

end Parser

end ProcLang
