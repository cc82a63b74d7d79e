import ProcLang.Proofs.Names.Expressions
import Mathlib.Data.List.Perm.Subperm

/-!
# ProcLang.Proofs.Names.Lexical

**Name resolution implements lexical scoping.** For every source text that reads without errors and
whose scopes have distinct names, name resolution has no fault, and at every site of the tree the
names are resolved as the scopes around the site say (`nameResolution_lexical`).

The bound on the layers of a walk is never met: a tree has no more nodes than the arena, and at most
two layers for each of them.
-/

namespace ProcLang

open Arena WalkM

variable {a : Arena} {nodes : List Visit}

/-! ### The size of a tree -/

namespace Arena

/-- The visits of all nodes of a family. -/
def nodesOf (a : Arena) (family : Family) : List Visit :=
  (List.range (a.count family)).map fun index => Visit.of (⟨index⟩ : NodeId family)

/-- The visits of all nodes. -/
def allNodes (a : Arena) : List Visit :=
  a.nodesOf .routine ++ a.nodesOf .variable ++ a.nodesOf .typeDecl ++ a.nodesOf .type ++
    a.nodesOf .body ++ a.nodesOf .statement ++ a.nodesOf .expression

theorem length_allNodes (a : Arena) : a.allNodes.length = a.size := by
  simp [allNodes, nodesOf, size, count, table, Nat.add_assoc]

theorem Has.mem_allNodes {v : Visit} (h : a.Has v) : v ∈ a.allNodes := by
  obtain ⟨family, id, rfl⟩ := h.exists_of
  have hmem : Visit.of id ∈ a.nodesOf family :=
    List.mem_map.2 ⟨id.index, List.mem_range.2 (has_of.1 h), rfl⟩
  cases family <;> simp [allNodes, hmem]

/-- A tree has fewer nodes than the arena, since the shared types are not part of it. -/
theorem IsTree.length_lt (htree : a.IsTree nodes) : nodes.length < a.size := by
  have hshared : empty.Has (.type integer) := ⟨.type, 0, rfl, Nat.zero_lt_succ 2⟩
  have hnodup : (Visit.type integer :: nodes).Nodup :=
    List.nodup_cons.2 ⟨fun hmem => htree.fresh _ hmem hshared, htree.nodup⟩
  have hhas : ∀ v ∈ Visit.type integer :: nodes, v ∈ a.allNodes := by
    intro v hv
    rcases List.mem_cons.1 hv with rfl | hv
    · exact (hshared.extend htree.shared).mem_allNodes
    · exact (htree.spans.has_of_mem hv).mem_allNodes
  rw [← length_allNodes]
  exact (List.subperm_of_subset hnodup hhas).length_le

end Arena

/-! ### Programs -/

namespace Arena

theorem Below.mem_of_closed {sites : List Site} (hclosed : ∀ s ∈ sites, ∀ c ∈ a.inside s, c ∈ sites)
    {root site : Site} (hroot : root ∈ sites) (h : a.Below root site) : site ∈ sites := by
  induction h with
  | here => exact hroot
  | inside hchild _ ih => exact ih (hclosed _ hroot _ hchild)

/-- That names are distinct can be seen from a list of all sites. -/
theorem distinctNames_of_closed {sites : List Site} (htop : a.top ∈ sites)
    (hclosed : ∀ s ∈ sites, ∀ c ∈ a.inside s, c ∈ sites)
    (hdistinct : ∀ s ∈ sites, ∀ scope ∈ s.scopes, (scope.map a.nameOf).Nodup) : a.DistinctNames :=
  fun site hbelow => hdistinct site (hbelow.mem_of_closed hclosed htop)

end Arena


/-- What name resolution leaves of the tree `a`: links and added calls. Every site is settled, and
every call that was added stands in a slot. -/
structure Arena.Settles (a : Arena) (nodes : List Visit) (outcome : PassOutcome) : Prop where
  evolves : Evolves a a outcome.arena
  settled : ∀ site, a.Below a.top site → site.Settled a outcome.arena outcome.diagnostics
  checked : outcome.diagnostics = [] → ∀ site, a.Below a.top site →
    a.DistinctScopes site.scopes ∧ a.Checked site
  hidden : ∀ (family : Family) (id : NodeId family) node, a.Hidden (Visit.of id) →
    a.get? id = some node → outcome.arena.get? id = some node
  stored : ∀ c : ExpressionId, a.count .expression ≤ c.index →
    outcome.arena.Has (.expression c) → ∃ v ∈ nodes, c ∈ outcome.arena.slots v

/-- The walk in the scope that the declarations of the program open. -/
def Arena.programOpened (a : Arena) : WalkState Routines :=
  ⟨a, #[], #[.programEntered], routinesOf (a.entries a.program.declarations)⟩

section

variable (htree : a.IsTree nodes)

include htree

/-- A program that declares a name twice is left alone: nothing in it is changed. -/
theorem Arena.IsTree.exists_visited_of_repeated
    (hrepeated : ¬ (a.program.declarations.map a.nameOf).Nodup) :
    ∃ s₀ s, a.walkProgram resolver Scope.empty [] = .ok s ∧ s₀.arena = a ∧
      Visited a a.top (.program :: nodes) none s₀ s := by
  have hhas := htree.has_of_scope (.here _) _ List.mem_cons_self
  obtain ⟨s₁, hdeclare, hremarks, hreported⟩ := @exists_runs_declareScope_repeated a []
    a.program.declarations [] (WalkState.noted ⟨a, #[], #[], []⟩ .programEntered) (.refl a a)
    hrepeated hhas
  obtain ⟨s, hs⟩ : ∃ s : WalkState Routines, s =
    { s₁ with own := s₁.own ++ routinesOf (firstsAfter [] (a.entries a.program.declarations)) } :=
    ⟨_, rfl⟩
  have harena : s.arena = a := by
    rw [hs]
    exact hremarks.arena
  have hdeclare : Runs (declareScope [] a.program.declarations) Scope.empty
      (WalkState.noted ⟨a, #[], #[], []⟩ .programEntered) none s := by
    rw [hs]
    exact hdeclare
  refine ⟨s, s, ?_, harena, (Effect.refl a s).mono (List.nil_subset _), fun inner hbelow => ?_, ?_,
    .of_count rfl⟩
  · have hprogram : Runs (visit resolver .program) Scope.empty ⟨a, #[], #[], []⟩ none s := by
      refine runs_arena_bind.2 (runs_bind.2 ⟨(), s, ?_, runs_pure.2 ⟨rfl, rfl⟩⟩)
      refine runs_arena_bind.2 (runs_note_bind.2 (runs_bind.2 ⟨none, s, hdeclare, ?_⟩))
      exact runs_pure.2 ⟨rfl, rfl⟩
    exact walkProgram_eq_ok.2 ⟨none, hprogram⟩
  · refine ⟨fun hdistinct => absurd ?_ hrepeated, fun _ family id _ => by rw [harena]⟩
    exact hdistinct _ (hbelow.scopes_subset List.mem_cons_self)
  · intro hsilent
    rw [hs] at hsilent
    exact absurd hsilent hreported

omit htree in
/-- The declarations of a program with distinct names open its scope. -/
theorem runs_declareProgram (hnodup : (a.program.declarations.map a.nameOf).Nodup)
    (hhas : ∀ d ∈ a.program.declarations, a.Has d.visit) :
    Runs (declareScope [] a.program.declarations) Scope.empty
      (WalkState.noted ⟨a, #[], #[], []⟩ .programEntered)
      (some (a.scopeOf [a.program.declarations])) a.programOpened :=
  runs_declareScope [] (.refl a a) hnodup hhas

/-- The routines of the program are those that its declarations name. -/
theorem Arena.IsTree.setting : Setting a (routinesOf (a.entries a.program.declarations)) nodes := by
  refine ⟨htree, lookup_routines, fun name r hname => ?_⟩
  refine htree.has_of_innermost (fun d other hd => ?_) (Below.here a.top) hname
  cases d with
  | routine _ =>
      cases hd
      rfl
  | type | «variable» => nomatch hd

omit htree in
theorem ready_programOpened (outside : List Visit) :
    Ready a (routinesOf (a.entries a.program.declarations)) outside a.programOpened :=
  ⟨.refl a a, fun _ _ _ => rfl, fun _ _ => rfl, rfl⟩

/-- The walk over the declarations of the program begins. -/
theorem Arena.IsTree.progress_programOpened (hnodup : (a.program.declarations.map a.nameOf).Nodup) :
    Progress a (routinesOf (a.entries a.program.declarations)) nodes a.top [] (nodes ++ []) [] []
      a.programOpened a.programOpened := by
  have houtside : (.program :: nodes).Nodup :=
    List.nodup_cons.2 ⟨htree.spans.program_not_mem, htree.nodup⟩
  rw [List.append_nil]
  exact .start (ready_programOpened _) houtside (List.Subset.refl _) (.here _)
    (List.forall_mem_singleton.2 hnodup)

/-- The walk goes through fewer layers than it may. -/
theorem Arena.IsTree.layers_le : 2 * nodes.length + 1 ≤ 2 * a.size + 1 := by
  have hlt := htree.length_lt
  omega

/-- A program with distinct names is resolved in the scope that its declarations open. -/
theorem Arena.IsTree.exists_visited_of_nodup
    (hnodup : (a.program.declarations.map a.nameOf).Nodup) :
    ∃ s₀ s, a.walkProgram resolver Scope.empty [] = .ok s ∧ s₀.arena = a ∧
      Visited a a.top (.program :: nodes) none s₀ s := by
  have hhas := htree.has_of_scope (.here _) _ List.mem_cons_self
  obtain ⟨s₂, xs, hrun, hdone, heffect, -, hcircles⟩ := resolveDeclarations_resolves htree.setting
    (visitWithin_handles htree.setting (2 * a.size + 1))
    (fun d hd => .inside (List.mem_map_of_mem (List.mem_map_of_mem hd)) (.here _))
    htree.spans htree.layers_le (htree.progress_programOpened hnodup)
  have hinside : ∀ child ∈ a.inside a.top,
      child ∈ [] ++ a.program.declarations.map fun d => (⟨a.top.scopes, d.visit⟩ : Site) := by
    intro child hchild
    obtain ⟨v, hv, rfl⟩ := List.mem_map.1 hchild
    obtain ⟨d, hd, rfl⟩ := List.mem_map.1 hv
    exact List.mem_map_of_mem hd
  have hvisited : Visited a a.top (.program :: nodes) none a.programOpened s₂ :=
    hdone.finish (List.Subset.refl _) hinside nofun ⟨.nil, nofun, nofun⟩
      fun hsilent => hcircles hsilent fun _ hd => hd
  refine ⟨a.programOpened, s₂, ?_, rfl, hvisited⟩
  have hprogram : Runs (visit resolver .program) Scope.empty ⟨a, #[], #[], []⟩ none s₂ := by
    refine runs_arena_bind.2 (runs_bind.2 ⟨(), s₂, ?_, runs_pure.2 ⟨rfl, rfl⟩⟩)
    exact runs_arena_bind.2 (runs_note_bind.2
      (runs_bind.2 ⟨_, _, runs_declareProgram hnodup hhas, runs_inContext.2 hrun⟩))
  exact walkProgram_eq_ok.2 ⟨none, hprogram⟩

/-- **The walk over a program** visits every site of it. -/
theorem Arena.IsTree.exists_visited :
    ∃ s₀ s, a.walkProgram resolver Scope.empty [] = .ok s ∧ s₀.arena = a ∧
      Visited a a.top (.program :: nodes) none s₀ s := by
  by_cases hnodup : (a.program.declarations.map a.nameOf).Nodup
  · exact htree.exists_visited_of_nodup hnodup
  · exact htree.exists_visited_of_repeated hnodup

/-- **Name resolution has no fault**, whatever the names are, and it settles every site. -/
theorem Arena.IsTree.exists_settles :
    ∃ outcome, nameResolution.run a = .ok outcome ∧ a.Settles nodes outcome := by
  obtain ⟨s₀, s, hwalk, rfl, hvisited⟩ := htree.exists_visited
  refine ⟨_, run_ofVisitor.2 ⟨s, hwalk, rfl⟩, hvisited.effect.evolves, hvisited.settled,
    fun hsilent => hvisited.checked (Array.toList_eq_nil_iff.1 hsilent), hvisited.effect.hidden,
    fun c hle hhas => ?_⟩
  obtain ⟨v, hv, hslot⟩ := (hvisited.stored c hle hhas).resolve_left List.not_mem_nil
  refine ⟨v, (List.mem_cons.1 hv).resolve_left fun heq => ?_, hslot⟩
  rw [heq] at hslot
  nomatch hslot

theorem Arena.IsTree.settles {outcome : PassOutcome} (hrun : nameResolution.run a = .ok outcome) :
    a.Settles nodes outcome := by
  obtain ⟨other, hother, hsettles⟩ := htree.exists_settles
  obtain rfl := Except.ok.inj (hother.symm.trans hrun)
  exact hsettles

/-- **The walk over a program** resolves every site of it. -/
theorem Arena.IsTree.exists_walkProgram (hdistinct : a.DistinctNames) :
    ∃ s, a.walkProgram resolver Scope.empty [] = .ok s ∧
      Evolves a a s.arena ∧
      ∀ site, a.Below a.top site → NamesResolved a s.arena s.diagnostics.toList site := by
  obtain ⟨outcome, hrun, hsettles⟩ := htree.exists_settles
  obtain ⟨s, hwalk, rfl⟩ := run_ofVisitor.1 hrun
  exact ⟨s, hwalk, hsettles.evolves, fun site hbelow =>
    (hsettles.settled site hbelow).resolved (hdistinct site hbelow)⟩

end

/-- **Name resolution implements lexical scoping.** -/
theorem nameResolution_lexical (source : String) (hparse : (parse source).errors = [])
    (hdistinct : (parse source).arena.DistinctNames) :
    ∃ outcome, nameResolution.run (parse source).arena = .ok outcome ∧
      ∀ site, (parse source).arena.Below (parse source).arena.top site →
        NamesResolved (parse source).arena outcome.arena outcome.diagnostics site := by
  obtain ⟨nodes, htree⟩ := Parser.parse_isTree source hparse
  obtain ⟨s, hrun, -, hresolved⟩ := htree.exists_walkProgram hdistinct
  exact ⟨_, run_ofVisitor.2 ⟨s, hrun, rfl⟩, hresolved⟩

/-- A parameter hides a variable, and a bare name that no variable has is a call. -/
theorem nameResolution_lexical_shadowing :
    let source := "var x : integer\nroutine f(x : boolean) is\nx := g\nend\nroutine g() : boolean is\nend\n"
    (parse source).errors = [] ∧ (parse source).arena.DistinctNames ∧
      ∃ outcome, nameResolution.run (parse source).arena = .ok outcome ∧
        ∀ site, (parse source).arena.Below (parse source).arena.top site →
          NamesResolved (parse source).arena outcome.arena outcome.diagnostics site := by
  intro source
  let program : List Declaration := [.variable ⟨0⟩, .routine ⟨0⟩, .routine ⟨1⟩]
  let sites : List Site := [⟨[program], .program⟩, ⟨[program], .variable ⟨0⟩⟩,
    ⟨[program], .type ⟨3⟩⟩, ⟨[program], .routine ⟨0⟩⟩, ⟨[program], .variable ⟨1⟩⟩,
    ⟨[program], .type ⟨4⟩⟩, ⟨[[.variable ⟨1⟩], program], .body ⟨0⟩⟩,
    ⟨[[.variable ⟨1⟩], program], .statement ⟨0⟩⟩, ⟨[[.variable ⟨1⟩], program], .expression ⟨0⟩⟩,
    ⟨[[.variable ⟨1⟩], program], .expression ⟨1⟩⟩, ⟨[program], .routine ⟨1⟩⟩,
    ⟨[program], .type ⟨5⟩⟩, ⟨[[], program], .body ⟨1⟩⟩]
  obtain ⟨hparse, htop, hclosed, hnodup⟩ : (parse source).errors = [] ∧
      (parse source).arena.top ∈ sites ∧
      (∀ s ∈ sites, ∀ c ∈ (parse source).arena.inside s, c ∈ sites) ∧
      ∀ s ∈ sites, ∀ scope ∈ s.scopes, (scope.map (parse source).arena.nameOf).Nodup := by
    decide +kernel
  have hdistinct : (parse source).arena.DistinctNames := distinctNames_of_closed htop hclosed hnodup
  exact ⟨hparse, hdistinct, nameResolution_lexical source hparse hdistinct⟩

end ProcLang
