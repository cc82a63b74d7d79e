import ProcLang.Proofs.Columns.Compile
import ProcLang.Proofs.Passes.Halting
import ProcLang.Proofs.SpelledOut.Parser
import ProcLang.Proofs.SpelledOut.Passes
import ProcLang.Proofs.SpelledOut.Resolved

/-!
# ProcLang.Proofs.SpelledOut.Programs

**A bare routine name and an empty call mean the same** (`compile_spellOut`). Name resolution adds a call for
each bare name that stands for a routine, so the places of the added expressions are those of the names that
were turned into calls (`Settles.addedAt_iff`). With `()` behind each of them, the parser makes these calls,
name resolution has none to add, and the passes behind it find the same tree with other ids.
-/

namespace ProcLang

open Arena

variable {a b : Arena} {nodes : List Visit} {first second : PassOutcome}

/-! ### Where names were turned into calls -/

/-- An expression that was added to a tree begins at the place. -/
def Arena.addedAt (a b : Arena) (p : Position) : Bool :=
  (b.expressionTable.toList.drop (a.count .expression)).any fun e => e.span.start = p

theorem Arena.addedAt_eq_true {p : Position} : a.addedAt b p = true ↔
    ∃ (e : ExpressionId) (node : Expression),
      a.count .expression ≤ e.index ∧ b.get? e = some node ∧ node.span.start = p := by
  rw [addedAt, List.any_eq_true]
  constructor
  · rintro ⟨node, hmem, hstart⟩
    obtain ⟨n, hn⟩ := List.mem_iff_getElem?.1 hmem
    rw [List.getElem?_drop, Array.getElem?_toList] at hn
    exact ⟨⟨a.count .expression + n⟩, node, Nat.le_add_right _ _, hn, of_decide_eq_true hstart⟩
  · rintro ⟨e, node, hle, hget, hstart⟩
    refine ⟨node, List.mem_iff_getElem?.2 ⟨e.index - a.count .expression, ?_⟩, decide_eq_true hstart⟩
    rw [List.getElem?_drop, Array.getElem?_toList, Nat.add_sub_cancel' hle]
    exact hget

/-- **Calls were added** where names were turned into calls, and nothing was added elsewhere. -/
theorem Arena.Settles.addedAt_iff (h : a.Settles nodes first) (htree : a.IsTree nodes) {p : Position} :
    a.addedAt first.arena p = true ↔ ∃ (e : ExpressionId) (name : String) (r : RoutineId) (node : Expression),
      a.CallAt e name r ∧ a.get? e = some node ∧ node.span.start = p := by
  obtain ⟨f, hturned, hslots⟩ := h.exists_turned htree
  have hreshapes := h.reshapes htree
  rw [addedAt_eq_true]
  constructor
  · rintro ⟨c, added, hfresh, hadded, hstart⟩
    have hnew : ¬ a.Has (.expression c) := fun hhas =>
      Nat.not_lt.2 hfresh (has_of.1 (show a.Has (Visit.of c) from hhas))
    -- the added expression stands in a slot, in place of something that was read
    obtain ⟨v, hv, hslot⟩ := h.stored c hfresh (show first.arena.Has (Visit.of c) from has_of_get? hadded)
    have hchild := slots_subset hslot (h.evolves.has (htree.spans.has_of_mem hv))
    rw [hslots v (htree.spans.has_of_mem hv)] at hchild
    obtain ⟨w, hw, hrename⟩ := List.mem_map.1 hchild
    have hhas := htree.spans.has_of_mem (htree.spans.child_mem hv hw)
    cases w with
    | expression e =>
        obtain rfl := Visit.expression.inj hrename
        have hbecomes := hturned.becomes e hhas
        generalize hc : f e = c at hbecomes hadded hnew
        cases hbecomes with
        | kept => exact absurd hhas hnew
        | called hat hcall =>
            obtain ⟨node, hget⟩ := (show a.Has (Visit.of e) from hhas).exists_get?
            subst hc
            obtain ⟨-, hcall⟩ := hturned.get?_call hreshapes hat hget
            obtain rfl := Option.some.inj (hadded.symm.trans hcall)
            exact ⟨e, _, _, node, hat, hget, hstart⟩
    | program | declaration | routine | «variable» | typeDecl | type | body | statement => nomatch hrename
  · rintro ⟨e, name, r, node, hat, hget, hstart⟩
    obtain ⟨hfresh, hcall⟩ := hturned.get?_call hreshapes hat hget
    exact ⟨f e, _, hfresh, hcall, hstart⟩

/-- A name that becomes a call is a bare name of the tree. -/
theorem Arena.IsTree.nameAt_of_callAt (htree : a.IsTree nodes) {e : ExpressionId} {node : Expression}
    {name : String} {r : RoutineId} (hat : a.CallAt e name r) (hget : a.get? e = some node) :
    a.NameAt node.span.start := by
  obtain ⟨-, -, hfound, hkind, -, -⟩ := hat
  obtain rfl := Option.some.inj (hfound.symm.trans hget)
  refine ⟨.expression, e, _, hget, ?_⟩
  rw [Node.bare?, htree.unlinked hget hkind]
  rfl

/-- No other name begins where one does that becomes a call. -/
theorem Arena.IsTree.callAt_of_start (htree : a.IsTree nodes) {e e' : ExpressionId} {node node' : Expression}
    {name name' : String} {target : Option VariableId} {r : RoutineId} (hat : a.CallAt e' name' r)
    (hget : a.get? e = some node) (hkind : node.kind = .identifier name target)
    (hget' : a.get? e' = some node') (hstart : node'.span.start = node.span.start) : a.CallAt e name r := by
  obtain ⟨-, -, hfound, hkind', -, -⟩ := id hat
  obtain rfl := Option.some.inj (hfound.symm.trans hget')
  have hsame : Visit.expression e' = Visit.expression e := by
    by_contra hne
    refine htree.start?_ne (htree.raw hget').1 (htree.raw hget).1 hne (start?_of_identifier hget' hkind') ?_
    rw [hstart]
    exact start?_of_identifier hget hkind
  obtain rfl := Visit.expression.inj hsame
  obtain rfl := Option.some.inj (hget.symm.trans hget')
  obtain ⟨rfl, -⟩ := ExpressionKind.identifier.inj (hkind'.symm.trans hkind)
  exact hat

/-! ### Both texts -/

/-- **The text with the calls is read and resolved without a report**, as the same tree with other ids. -/
theorem resolves_spellOut {source : String} (hparse : (parse source).errors = [])
    (hrun : nameResolution.run (parse source).arena = .ok first) (hsilent : first.diagnostics = []) :
    (parse (Token.spellOut ((parse source).arena.addedAt first.arena) source)).errors = [] ∧
      ∃ second, nameResolution.run
          (parse (Token.spellOut ((parse source).arena.addedAt first.arena) source)).arena = .ok second ∧
        second.diagnostics = [] ∧
        ∃ f, (second.arena.mapColumns noColumn).Renamed f (first.arena.mapColumns noColumn) := by
  obtain ⟨nodes, htree⟩ := Parser.parse_isTree source hparse
  have hadded := fun p => (htree.settles hrun).addedAt_iff (p := p) htree
  generalize hchosen : (parse source).arena.addedAt first.arena = chosen at hadded ⊢
  obtain ⟨hparse', hspelled⟩ := @parse_spellOut chosen source hparse fun p hp => by
    obtain ⟨e, name, r, node, hat, hget, rfl⟩ := (hadded p).1 hp
    exact htree.nameAt_of_callAt hat hget
  obtain ⟨nodes', htree'⟩ := Parser.parse_isTree _ hparse'
  obtain ⟨second, hrun', -⟩ := htree'.exists_settles
  have hexplicit : (parse source).arena.Explicit chosen (parse (Token.spellOut chosen source)).arena
      nodes nodes' := by
    refine ⟨hspelled, htree, htree', (htree.silent_iff hrun).1 hsilent, ?_⟩
    intro e node name target hget hkind
    rw [hadded]
    constructor
    · rintro ⟨e', name', r, node', hat, hget', hstart⟩
      exact ⟨r, htree.callAt_of_start hat hget hkind hget' hstart⟩
    · rintro ⟨r, hat⟩
      exact ⟨e, name, r, node, hat, hget, rfl⟩
  exact ⟨hparse', second, hrun', hexplicit.silent hrun', hexplicit.exists_renamed hrun hrun'⟩

/-- Trees that differ in ids and columns only are checked alike. -/
theorem runPasses_alike {haltOnError : Bool} {f : ExpressionId → ExpressionId}
    (hrenamed : (second.arena.mapColumns noColumn).Renamed f (first.arena.mapColumns noColumn))
    {last last' : Analysis}
    (hrun : runPasses haltOnError laterPasses ⟨first.arena, [], none, first.journal⟩ = .ok last)
    (hrun' : runPasses haltOnError laterPasses ⟨second.arena, [], none, second.journal⟩ = .ok last') :
    last.haltedAt = last'.haltedAt ∧ last.diagnostics.map (Diagnostic.mapColumns noColumn) =
      last'.diagnostics.map (Diagnostic.mapColumns noColumn) := by
  have hlines := runPasses_mapColumns (f := noColumn) tracks_laterPasses hrun
  have hlines' := runPasses_mapColumns (f := noColumn) tracks_laterPasses hrun'
  obtain ⟨final, hfinal, hdiagnostics, hhaltedAt⟩ := @runPasses_renamed f haltOnError laterPasses
    repeats_laterPasses (Analysis.mapColumns noColumn ⟨second.arena, [], none, second.journal⟩)
    (Analysis.mapColumns noColumn ⟨first.arena, [], none, first.journal⟩) _ hrenamed rfl rfl hlines'
  obtain rfl := Except.ok.inj (hfinal.symm.trans hlines)
  exact ⟨hhaltedAt, hdiagnostics⟩

/-- The second text is read and resolved without a report. Its resolved tree is the one that is left of
the first text, but for columns and the ids of expressions. Both compilations stop at the same stage and
report the same, with the same messages on the same lines. -/
structure CompiledAlike (source source' : String) (first : PassOutcome) : Prop where
  parses : (parse source').errors = []
  resolves : ∃ second, nameResolution.run (parse source').arena = .ok second ∧ second.diagnostics = [] ∧
    ∃ f, (second.arena.mapColumns noColumn).Renamed f (first.arena.mapColumns noColumn)
  compiles : ∀ haltOnError, ∃ c c', compile source haltOnError = .ok c ∧
    compile source' haltOnError = .ok c' ∧ c.haltedAt = c'.haltedAt ∧
    List.Forall₂ (fun d d' => d.name = d'.name ∧ d.message = d'.message ∧
      d.position.line = d'.position.line) c.diagnostics c'.diagnostics

/-- **A bare routine name and an empty call mean the same.** In a source text whose names are resolved without
a report, put `()` behind each identifier that name resolution turned into a call: an identifier that begins
where an expression was added. Then the new text is compiled like the first one. -/
theorem compile_spellOut (source : String) (first : PassOutcome) (hparse : (parse source).errors = [])
    (hrun : nameResolution.run (parse source).arena = .ok first) (hsilent : first.diagnostics = []) :
    CompiledAlike source (Token.spellOut ((parse source).arena.addedAt first.arena) source) first := by
  obtain ⟨hparse', second, hrun', hsilent', f, hrenamed⟩ := resolves_spellOut hparse hrun hsilent
  refine ⟨hparse', ⟨second, hrun', hsilent', f, hrenamed⟩, fun haltOnError => ?_⟩
  obtain ⟨c, hc, -, -⟩ := exists_compile source haltOnError
  obtain ⟨c', hc', -, -⟩ := exists_compile
    (Token.spellOut ((parse source).arena.addedAt first.arena) source) haltOnError
  refine ⟨c, c', hc, hc', ?_⟩
  obtain ⟨-, last, hlast, hhaltedAt, hdiagnostics, -⟩ := (compile_cases hc).resolve_left fun h => h.1 hparse
  obtain ⟨-, last', hlast', hhaltedAt', hdiagnostics', -⟩ :=
    (compile_cases hc').resolve_left fun h => h.1 hparse'
  rw [analyze_of_silent hrun hsilent] at hlast
  rw [analyze_of_silent hrun' hsilent'] at hlast'
  obtain ⟨hstages, hreports⟩ := runPasses_alike hrenamed hlast hlast'
  rw [hhaltedAt, hhaltedAt', hdiagnostics, hdiagnostics']
  refine ⟨hstages, (forall₂_of_noColumn hreports).imp fun d d' ⟨hcause, hline⟩ => ?_⟩
  exact ⟨congrArg Cause.name hcause, congrArg Cause.message hcause, hline⟩

/-- A routine name as a length, a value, a statement, a bound, an argument and an operand. Where a parameter
has the same name it stays a name. The length is reported in both texts, since it is no constant. -/
theorem compile_spellOut_positions :
    let source := "routine f() : integer is\nreturn 3\nend\nvar u : array [f] integer is f\n" ++
      "routine g(f : integer) : integer is\nreturn f\nend\n" ++
      "routine h() is\nf\nfor i in f .. u loop\nu := g(f) + f\nend\nend\n"
    let source' := "routine f() : integer is\nreturn 3\nend\nvar u : array [f()] integer is f()\n" ++
      "routine g(f : integer) : integer is\nreturn f\nend\n" ++
      "routine h() is\nf()\nfor i in f() .. u loop\nu := g(f()) + f()\nend\nend\n"
    ∃ first, (parse source).errors = [] ∧ nameResolution.run (parse source).arena = .ok first ∧
      first.diagnostics = [] ∧
      Token.spellOut ((parse source).arena.addedAt first.arena) source = source' ∧
      CompiledAlike source source' first := by
  intro source source'
  obtain ⟨hparse, hresult⟩ : (parse source).errors = [] ∧
      (nameResolution.run (parse source).arena).toOption.map (fun first =>
        (first.diagnostics, Token.spellOut ((parse source).arena.addedAt first.arena) source)) =
        some ([], source') := by
    decide +kernel
  cases hrun : nameResolution.run (parse source).arena with
  | error fault =>
      rw [hrun] at hresult
      nomatch hresult
  | ok first =>
      rw [hrun] at hresult
      obtain ⟨hsilent, htext⟩ := Prod.mk.inj (Option.some.inj hresult)
      have halike := compile_spellOut source first hparse hrun hsilent
      exact ⟨first, hparse, rfl, hsilent, htext, htext ▸ halike⟩

end ProcLang
