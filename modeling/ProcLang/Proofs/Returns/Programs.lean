import ProcLang.Proofs.Passes.Ownership

/-!
# ProcLang.Proofs.Returns.Programs

**The check of return paths is exact** (`returnPaths_exact`). A body gives back on every path exactly
if no path leads behind it, in any arena. In the trees of a program, be they as they were read or as
some passes left them, every routine is one of the declarations of the program, and stands there once;
so each routine that lacks a return is reported once.

**Paths through accepted programs** (`compile_returns`). Whatever path is taken through a routine with
a result, if it comes to an end then at a statement that ends the routine. The statement need not
carry a value (`compile_returns_bare`): the check asks for a statement, and no other pass compares what
it carries with the result.
-/

namespace ProcLang

open Arena

section

variable {a b : Arena} {nodes : List Visit}

/-! ### The routines of a program -/

/-- Every routine is one of the declarations of the program. -/
def Arena.DeclaresRoutines (a : Arena) : Prop :=
  ∀ r : RoutineId, a.Has (.routine r) → r ∈ a.program.routineIds

/-- What declares a routine is the program or a body. -/
theorem Node.routine_not_mem_children {family : Family} {node : Node family} (hfamily : family ≠ .body)
    (r : RoutineId) : Visit.routine r ∉ Node.children family node := by
  cases family with
  | body => exact absurd rfl hfamily
  | type =>
      rw [Node.children]
      split <;> simp
  | routine | «variable» | typeDecl | statement | expression => simp [Node.children]

theorem Arena.mem_routineIds {r : RoutineId} :
    r ∈ a.program.routineIds ↔ .routine r ∈ a.children .program := by
  rw [Program.routineIds_eq, List.mem_filterMap, Arena.children, List.mem_map]
  refine exists_congr fun d => and_congr_right fun _ => ?_
  cases d <;> simp [Declaration.routine?, Declaration.visit]

/-- **In a tree that was just read all routines are declarations of the program**: bodies declare
none. -/
theorem Arena.IsTree.declaresRoutines (htree : a.IsTree nodes) : a.DeclaresRoutines := by
  intro r hhas
  obtain ⟨node, hget⟩ := exists_of_has r hhas
  have hmem : .routine r ∈ nodes := by
    rcases htree.covers .routine r node hget with hshared | ⟨hmem, -⟩
    · exact absurd (has_of.1 hshared) (Nat.not_lt_zero _)
    · exact hmem
  obtain ⟨root, hroot, hreaches⟩ := htree.spans.exists_reaches hmem
  rcases Relation.ReflTransGen.cases_tail hreaches with rfl | ⟨v, hv, hchild⟩
  · exact mem_routineIds.2 hroot
  · exfalso
    have hvhas := htree.spans.has_of_mem
      (htree.spans.mem_of_reaches (htree.spans.mem_of_root hroot) hv)
    obtain ⟨family, id, rfl⟩ := hvhas.exists_of
    obtain ⟨parent, hparent⟩ := hvhas.exists_get?
    rw [children_of_get? hparent] at hchild
    by_cases hfamily : family = .body
    · subst hfamily
      refine routine_not_mem_bodySite htree hparent [] r (List.mem_append_right _ ?_)
      rcases List.mem_append.1 hchild with hchild | hchild
      · obtain ⟨d, hd, heq⟩ := List.mem_map.1 hchild
        cases d <;> cases heq
        exact hd
      · obtain ⟨st, -, heq⟩ := List.mem_map.1 hchild
        nomatch heq
    · exact Node.routine_not_mem_children hfamily r hchild

/-- Name resolution adds no routines. -/
theorem Arena.DeclaresRoutines.evolve (h : a.DeclaresRoutines) (hevolves : Evolves a a b) :
    b.DeclaresRoutines := by
  intro r hhas
  obtain ⟨node, hget⟩ := exists_of_has r hhas
  rw [hevolves.program]
  exact h r ((hevolves.added .routine r node hget).resolve_right id)

theorem Arena.DeclaresRoutines.refine (h : a.DeclaresRoutines) (hrefined : a.RefinedBy b) :
    b.DeclaresRoutines := by
  intro r hhas
  rw [hrefined.program]
  exact h r (hrefined.has_iff.1 hhas)

/-- In a tree no routine is declared twice. -/
theorem Arena.IsForest.routineIds_nodup (hforest : a.IsForest nodes) :
    a.program.routineIds.Nodup := by
  have hroots : (a.program.declarations.map Declaration.visit).Nodup :=
    hforest.spans.roots_nodup hforest.nodup
  rw [Program.routineIds_eq]
  refine hroots.of_map.filterMap fun d d' r hd hd' => ?_
  cases d <;> cases hd
  cases d' <;> cases hd'
  rfl

/-! ### The trees of a source text -/

/-- The trees of a source text: the one that is read, and those that name resolution and any passes
behind it leave, whatever was reported. -/
inductive TreeOf (source : String) : Arena → Prop
  | parsed : TreeOf source (parse source).arena
  | passed {names : PassOutcome} {passes : List Pass} {b : Arena}
      (hnames : nameResolution.run (parse source).arena = .ok names) (hpasses : passes ⊆ laterPasses)
      (hafter : names.arena.after passes = .ok b) : TreeOf source b

/-- All of them are trees whose routines are declarations of the program. -/
theorem TreeOf.exists_forest {source : String} (hparse : (parse source).errors = [])
    (h : TreeOf source b) : b.DeclaresRoutines ∧ ∃ nodes, b.IsForest nodes := by
  obtain ⟨nodes, htree⟩ := Parser.parse_isTree source hparse
  have hdeclares := htree.declaresRoutines
  cases h with
  | parsed => exact ⟨hdeclares, nodes, htree.isForest⟩
  | passed hnames hpasses hafter =>
      have hreshapes := (htree.settles hnames).reshapes htree
      obtain ⟨forest, hforest⟩ := hreshapes.exists_forest htree
      obtain ⟨b', hafter', hextends⟩ :=
        exists_after_of_coherent hforest hpasses (hreshapes.coherent htree)
      obtain rfl := Except.ok.inj (hafter'.symm.trans hafter)
      exact ⟨(hdeclares.evolve hreshapes.evolves).refine hextends.refined, forest,
        hextends.refined.isForest hforest⟩

end

/-! ### Reports -/

/-- **The check of return paths is exact.** A body gives back on every path if and only if no path
leads behind it, and where no node owns itself there is always an answer. For each tree of a program
the pass reports the routines that have a result and a path behind their bodies, each one once and
where it begins, and nothing else. -/
theorem returnPaths_exact :
    (∀ (a : Arena) (id : BodyId) returns, a.bodyReturns id = .ok returns →
      (returns = true ↔ ¬ a.Path (.body id) .behind)) ∧
    (∀ (a : Arena) (id : BodyId), (∀ v, ¬ Relation.TransGen (fun v w => w ∈ a.children v) v v) →
      (∀ w, a.Reaches (.body id) w → a.Has w) → ∃ returns, a.bodyReturns id = .ok returns) ∧
    ∀ source, (parse source).errors = [] → ∀ b, TreeOf source b →
      ∃ outcome ids, returnPaths.run b = .ok outcome ∧ ids.Nodup ∧
        (∀ r, r ∈ ids ↔ b.LacksReturn r) ∧ List.Forall₂ b.MissingReturn ids outcome.diagnostics := by
  refine ⟨fun a id returns => bodyReturns_iff, fun a id hacyclic hhas => ?_,
    fun source hparse b htree => ?_⟩
  · refine exists_bodyReturns hhas fun w _ => ?_
    rintro ⟨child, hchild, hback⟩
    exact hacyclic w (.head' hchild hback)
  · obtain ⟨hdeclares, nodes, hforest⟩ := htree.exists_forest hparse
    obtain ⟨outcome, hrun, -, hexamined⟩ := exists_returnPaths hforest
    obtain ⟨ids, hsub, hmem, hreports⟩ := hexamined.exists_ids
    refine ⟨outcome, ids, hrun, hsub.nodup hforest.routineIds_nodup, fun r => ?_, hreports⟩
    rw [hmem, and_iff_right_iff_imp]
    rintro ⟨node, hget, -⟩
    exact hdeclares r (has_of_get? hget)

/-- A routine that gives back in one branch of two, and one that does so in both. -/
theorem returnPaths_exact_branches :
    let source := "routine f(): integer is\n  if true then\n    return 1\n  end\nend\n" ++
      "routine g(): integer is\n  if true then\n    return 1\n  else\n    return 2\n  end\nend\n"
    let a := (parse source).arena
    (parse source).errors = [] ∧ (∀ v, ¬ Relation.TransGen (fun v w => w ∈ a.children v) v v) ∧
    (∀ w, a.Reaches (.body ⟨1⟩) w → a.Has w) ∧ (∃ returns, a.bodyReturns ⟨1⟩ = .ok returns) ∧
    (∀ returns, a.bodyReturns ⟨1⟩ = .ok returns →
      (returns = true ↔ ¬ a.Path (.body ⟨1⟩) .behind)) ∧
    ∃ outcome ids, returnPaths.run a = .ok outcome ∧ ids.Nodup ∧ (∀ r, r ∈ ids ↔ a.LacksReturn r) ∧
      List.Forall₂ a.MissingReturn ids outcome.diagnostics := by
  intro source a
  obtain ⟨hparse, hcount⟩ : (parse source).errors = [] ∧ 1 < a.count .body := by decide +kernel
  obtain ⟨nodes, htree⟩ := Parser.parse_isTree source hparse
  have hbody : a.Has (.body ⟨1⟩) := ⟨.body, 1, rfl, hcount⟩
  have hbelow : ∀ w, a.Reaches (.body ⟨1⟩) w → a.Has w := fun w hw =>
    htree.owned.closed.has_of_reaches hbody hw
  obtain ⟨hexact, hanswer, hreports⟩ := returnPaths_exact
  exact ⟨hparse, htree.owned.acyclic, hbelow, hanswer a ⟨1⟩ htree.owned.acyclic hbelow,
    fun returns => hexact a ⟨1⟩ returns, hreports source hparse a .parsed⟩

/-! ### Accepted programs -/

/-- The tree of an accepted program is one of its trees, and looking for returns in it reports
nothing. -/
theorem compile_examined {source : String} {haltOnError : Bool} {c : Compilation}
    (hcompile : compile source haltOnError = .ok c) (hsilent : c.diagnostics = []) :
    (parse source).errors = [] ∧ TreeOf source c.arena ∧
      ∃ returns, returnPaths.run c.arena = .ok returns ∧ returns.diagnostics = [] := by
  obtain ⟨hparse, names, found, last, hnames, hresolved, hfound, hrun, hlast, harena⟩ :=
    compile_resolved hcompile hsilent
  obtain ⟨typed, htyped, hrun⟩ :=
    runPasses_append [callValidation, arrayLengths, constants, typing] hrun hlast
  obtain ⟨returns, final, hreturns, hclean, hfinal, hrun⟩ := runPasses_silent hrun hlast
  obtain rfl : final = last := Except.ok.inj hrun
  have hsame : c.arena = typed.arena := by
    rw [← harena, hfinal, arena_returnPaths hreturns]
  rw [hsame]
  rw [hfound] at htyped
  exact ⟨hparse, .passed hnames (by simp [laterPasses]) htyped, returns, hreturns, hclean⟩

/-- **Paths through the routines of accepted programs.** Each path through a routine with a result
that comes to an end does so at a statement that ends the routine. -/
theorem compile_returns (source : String) (haltOnError : Bool) (c : Compilation)
    (hcompile : compile source haltOnError = .ok c) (hsilent : c.diagnostics = [])
    (r : RoutineId) (routine : Routine) (hget : c.arena.get? r = some routine)
    (hresult : routine.returnType.isSome = true) (e : PathEnd)
    (hpath : c.arena.Path (.body routine.body) e) :
    ∃ st statement value, e = .returned st ∧ c.arena.get? st = some statement ∧
      statement.kind = .returning value := by
  obtain ⟨hparse, htree, returns, hreturns, hclean⟩ := compile_examined hcompile hsilent
  obtain ⟨hdeclares, nodes, hforest⟩ := htree.exists_forest hparse
  obtain ⟨outcome, hrun, -, hexamined⟩ := exists_returnPaths hforest
  obtain rfl := Except.ok.inj (hrun.symm.trans hreturns)
  have hgives := hexamined.not_lacksReturn hclean r (hdeclares r (has_of_get? hget))
  cases e with
  | behind => exact absurd ⟨routine, hget, hresult, hpath⟩ hgives
  | returned st =>
      obtain ⟨statement, value, hstatement, hkind⟩ := hpath.exists_returning rfl
      exact ⟨st, statement, value, rfl, hstatement, hkind⟩

/-- The path around the branch of a conditional statement. -/
theorem compile_returns_around :
    let source := "routine f(b: boolean): integer is\n  if b then\n    return 1\n  end\n" ++
      "  return 2\nend\n"
    ∃ (c : Compilation) (routine : Routine), compile source true = .ok c ∧ c.diagnostics = [] ∧
      c.arena.get? (⟨0⟩ : RoutineId) = some routine ∧ routine.returnType.isSome = true ∧
      c.arena.Path (.body routine.body) (.returned ⟨2⟩) ∧
      ∃ st statement value, PathEnd.returned ⟨2⟩ = .returned st ∧
        c.arena.get? st = some statement ∧ statement.kind = .returning value := by
  intro source
  have hrun : (compile source true).map (fun c => decide (c.diagnostics = [] ∧
      (c.arena.get? (⟨0⟩ : RoutineId)).map (fun routine =>
        (routine.returnType.isSome, routine.body)) = some (true, ⟨1⟩) ∧
      (c.arena.get? (⟨1⟩ : BodyId)).map (·.statements) = some [⟨1⟩, ⟨2⟩] ∧
      (c.arena.get? (⟨1⟩ : StatementId)).map (·.kind) = some (.branch ⟨0⟩ ⟨0⟩ none) ∧
      (c.arena.get? (⟨2⟩ : StatementId)).map (·.kind) = some (.returning (some ⟨2⟩)))) =
        .ok true := by decide +kernel
  cases hcompile : compile source true with
  | error fault =>
      rw [hcompile] at hrun
      nomatch hrun
  | ok c =>
      rw [hcompile] at hrun
      obtain ⟨hsilent, hroutine, hbody, hbranch, hreturning⟩ :=
        of_decide_eq_true (Except.ok.inj hrun)
      obtain ⟨routine, hget, hroutine⟩ := Option.map_eq_some_iff.1 hroutine
      obtain ⟨hresult, hroutineBody⟩ := Prod.mk.inj hroutine
      obtain ⟨body, hbodyGet, hstatements⟩ := Option.map_eq_some_iff.1 hbody
      obtain ⟨branch, hbranchGet, hbranch⟩ := Option.map_eq_some_iff.1 hbranch
      obtain ⟨returning, hreturningGet, hreturning⟩ := Option.map_eq_some_iff.1 hreturning
      have hpath : c.arena.Path (.body routine.body) (.returned ⟨2⟩) := by
        rw [hroutineBody]
        refine .body hbodyGet ?_
        rw [hstatements]
        exact .next (.skipped hbranchGet hbranch) (.stop (.returning hreturningGet hreturning))
      exact ⟨c, routine, rfl, hsilent, hget, hresult, hpath,
        compile_returns source true c hcompile hsilent ⟨0⟩ routine hget hresult _ hpath⟩

/-- **What ends a routine with a result need not carry a value.** -/
theorem compile_returns_bare : ¬ ∀ (source : String) (haltOnError : Bool) (c : Compilation),
    compile source haltOnError = .ok c → c.diagnostics = [] →
      ∀ (r : RoutineId) (routine : Routine), c.arena.get? r = some routine →
        routine.returnType.isSome = true → ∀ e, c.arena.Path (.body routine.body) e →
          ∃ st statement value, e = .returned st ∧ c.arena.get? st = some statement ∧
            statement.kind = .returning (some value) := by
  intro hall
  let source := "routine r(): integer is\n  return\nend\n"
  have hrun : (compile source true).map (fun c => decide (c.diagnostics = [] ∧
      (c.arena.get? (⟨0⟩ : RoutineId)).map (fun routine =>
        (routine.returnType.isSome, routine.body)) = some (true, ⟨0⟩) ∧
      (c.arena.get? (⟨0⟩ : BodyId)).map (·.statements) = some [⟨0⟩] ∧
      (c.arena.get? (⟨0⟩ : StatementId)).map (·.kind) = some (.returning none))) =
        .ok true := by decide +kernel
  cases hcompile : compile source true with
  | error fault =>
      rw [hcompile] at hrun
      nomatch hrun
  | ok c =>
      rw [hcompile] at hrun
      obtain ⟨hsilent, hroutine, hbody, hreturning⟩ := of_decide_eq_true (Except.ok.inj hrun)
      obtain ⟨routine, hget, hroutine⟩ := Option.map_eq_some_iff.1 hroutine
      obtain ⟨hresult, hroutineBody⟩ := Prod.mk.inj hroutine
      obtain ⟨body, hbodyGet, hstatements⟩ := Option.map_eq_some_iff.1 hbody
      obtain ⟨returning, hreturningGet, hreturning⟩ := Option.map_eq_some_iff.1 hreturning
      have hpath : c.arena.Path (.body routine.body) (.returned ⟨0⟩) := by
        rw [hroutineBody]
        refine .body hbodyGet ?_
        rw [hstatements]
        exact .stop (.returning hreturningGet hreturning)
      obtain ⟨st, statement, value, heq, hstatement, hkind⟩ :=
        hall source true c hcompile hsilent ⟨0⟩ routine hget hresult _ hpath
      cases heq
      obtain rfl := Option.some.inj (hreturningGet.symm.trans hstatement)
      nomatch hreturning.symm.trans hkind

end ProcLang
