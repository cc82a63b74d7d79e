import ProcLang.Proofs.Account.Programs
import ProcLang.Proofs.Passes.External
import ProcLang.Proofs.Passes.Halting
import ProcLang.Proofs.Places.Parser

/-!
# ProcLang.Proofs.Places.Passes

**Every diagnostic points at a token** (`compile_located`). All nodes that the parser makes begin at
tokens, the calls that name resolution adds begin where the names stood that they replace, and what a
pass reports is reported where a node begins. Only the shared types begin nowhere in the text; none of
them is a name or an array, so none of them is ever reported.
-/

namespace ProcLang

open Arena

variable {P : Position → Prop} {a b : Arena} {nodes : List Visit} {σ : Type}

/-! ### The shared types -/

/-- What is not shared begins at one of the places. -/
theorem Arena.Located.place (h : a.Located P) {family : Family} {id : NodeId family}
    {node : Node family} (hget : a.get? id = some node) (hshared : ¬ empty.Has (Visit.of id)) :
    P (Node.span family node).start :=
  (h family id node hget).resolve_left hshared

/-! ### Name resolution -/

theorem not_shared_of_mem_repeatedAfter {seen : List (String × Nat)} {entries : List ScopeEntry}
    {r : Remark} (hr : r ∈ repeatedAfter seen entries) : ¬ empty.Has r.visit := by
  induction entries generalizing seen with
  | nil => cases hr
  | cons entry rest ih =>
      rw [repeatedAfter] at hr
      split at hr
      · rcases List.mem_cons.1 hr with rfl | hr
        · cases hd : entry.declaration with
          | routine id => exact not_empty_has .routine (by simp) id
          | «variable» id => exact not_empty_has .variable (by simp) id
          | type id => exact not_empty_has .typeDecl (by simp) id
        · exact ih hr
      · exact ih hr

section

variable (htree : a.IsTree nodes)

include htree

theorem Arena.IsTree.not_shared_of_mem_ahead {site : Site} {r : Remark} (hr : r ∈ a.ahead site) :
    ¬ empty.Has r.visit := by
  obtain ⟨scopes, v⟩ := site
  cases v with
  | type id =>
      cases hget : a.get? id with
      | none => simp [ahead, ofNode, hget] at hr
      | some node =>
          simp only [ahead, ofNode, hget, Option.elim_some, aheadNode] at hr
          split at hr
          · rename_i name target hkind
            split at hr
            · cases hr
            · -- a name is no shared type
              obtain rfl := List.mem_singleton.1 hr
              exact htree.fresh _ (htree.mem_of_named hget hkind)
          · exact not_shared_of_mem_repeatedAfter hr
          · cases hr
  | expression id =>
      cases hget : a.get? id with
      | none => simp [ahead, ofNode, hget] at hr
      | some node =>
          simp only [ahead, ofNode, hget, Option.elim_some, aheadNode] at hr
          split at hr
          · split at hr
            · obtain rfl := List.mem_singleton.1 hr
              exact not_empty_has .expression (by simp) id
            · cases hr
          · cases hr
  | program | declaration => cases hr
  | routine id | «variable» id | typeDecl id | body id | statement id =>
      cases hget : a.get? id <;> simp [ahead, ofNode, hget, aheadNode] at hr

omit htree in
theorem not_shared_of_mem_behind {site : Site} {r : Remark} (hr : r ∈ a.behind site) :
    ¬ empty.Has r.visit := by
  obtain ⟨scopes, v⟩ := site
  cases v with
  | statement id =>
      cases hget : a.get? id with
      | none => simp [behind, ofNode, hget] at hr
      | some node =>
          simp only [behind, ofNode, hget, Option.elim_some, behindNode] at hr
          split at hr
          · split at hr
            · obtain rfl := List.mem_singleton.1 hr
              exact not_empty_has .statement (by simp) id
            · cases hr
          · cases hr
  | expression id =>
      cases hget : a.get? id with
      | none => simp [behind, ofNode, hget] at hr
      | some node =>
          simp only [behind, ofNode, hget, Option.elim_some, behindNode] at hr
          split at hr
          · split at hr
            · cases hr
            · obtain rfl := List.mem_singleton.1 hr
              exact not_empty_has .expression (by simp) id
          · rename_i field _
            split at hr
            · cases hr
            · obtain rfl := List.mem_singleton.1 hr
              exact not_empty_has .expression (by simp) field
          · cases hr
  | program | declaration => cases hr
  | routine id | «variable» id | typeDecl id | type id | body id =>
      cases hget : a.get? id <;> simp [behind, ofNode, hget, behindNode] at hr

/-- Nothing is said of a shared type. -/
theorem Arena.Account.not_shared {sites : List Site} {remarks : List Remark}
    (h : a.Account sites remarks) : ∀ r ∈ remarks, ¬ empty.Has r.visit := by
  induction h with
  | nil => nofun
  | node _ _ _ ihInside ihBeside =>
      intro r hr
      simp only [List.mem_append] at hr
      rcases hr with ((hr | hr) | hr) | hr
      · exact htree.not_shared_of_mem_ahead hr
      · exact ihInside r hr
      · exact not_shared_of_mem_behind hr
      · exact ihBeside r hr
  | scope _ _ _ _ _ _ ihTypes ihOthers ihBeside =>
      intro r hr
      simp only [List.mem_append] at hr
      rcases hr with ((hr | hr) | hr) | hr
      · exact ihTypes r hr
      · obtain ⟨d, -, rfl⟩ := List.mem_map.1 hr
        exact not_empty_has .typeDecl nofun d
      · exact ihOthers r hr
      · exact ihBeside r hr
  | «repeated» _ _ _ ihBeside =>
      intro r hr
      rcases List.mem_append.1 hr with hr | hr
      · exact not_shared_of_mem_repeatedAfter hr
      · exact ihBeside r hr

/-- **What name resolution reports** is where a node begins. -/
theorem Arena.IsTree.located_reports (hlocated : a.Located P) {outcome : PassOutcome}
    (hrun : nameResolution.run a = .ok outcome) : ∀ d ∈ outcome.diagnostics, P d.position := by
  intro d hd
  obtain ⟨remarks, haccount, hreports⟩ := htree.exists_account hrun
  obtain ⟨r, hr, hreport⟩ := exists_of_forall₂ hreports hd
  obtain ⟨hget, cause⟩ := hreport
  exact hlocated.place hget (haccount.not_shared htree _ hr)

/-- An added call begins where the name stood that it replaces. -/
theorem Arena.Settles.exists_replaced {outcome : PassOutcome} (h : a.Settles nodes outcome)
    {call : ExpressionId} (hfresh : a.count .expression ≤ call.index)
    (hhas : outcome.arena.Has (.expression call)) : ∃ (e : ExpressionId) (node : Expression) (name : String)
      (r : RoutineId), a.get? e = some node ∧
        outcome.arena.get? call = some (.plain (.call name (some r) []) node.span) := by
  have hreshapes := h.reshapes htree
  obtain ⟨v, hv, hslot⟩ := h.stored call hfresh hhas
  have hold := htree.spans.has_of_mem hv
  obtain ⟨i, hi⟩ := List.getElem?_of_mem (slots_subset hslot (h.evolves.has hold))
  obtain ⟨u, -, hreplaces⟩ := hreshapes.exists_old hold hi
  generalize hw : Visit.expression call = w at hreplaces
  cases hreplaces with
  | same hwas =>
      subst hw
      exact absurd (has_of.1 hwas) (Nat.not_lt.2 hfresh)
  | @called e _ node name target r hnode hkind hfresh hcall =>
      cases hw
      exact ⟨e, node, name, r, hnode, hcall⟩

/-- **The nodes of a resolved tree** begin where those of the parsed tree do. -/
theorem Arena.IsTree.located_names (hlocated : a.Located P) {outcome : PassOutcome}
    (hrun : nameResolution.run a = .ok outcome) : outcome.arena.Located P := by
  have hsettles := htree.settles hrun
  intro family id node hget
  by_cases hold : a.Has (Visit.of id)
  · obtain ⟨old, hget₀⟩ := hold.exists_get?
    obtain ⟨found, hfound, hchanges⟩ := hsettles.evolves.changed family id old hget₀
    obtain rfl := Option.some.inj (hfound.symm.trans hget)
    rw [Node.Changes.span_eq hchanges]
    exact hlocated family id old hget₀
  · have hadded := (hsettles.evolves.added family id node hget).resolve_left hold
    cases family with
    | expression =>
        have hfresh : a.count .expression ≤ id.index := Nat.not_lt.1 fun hlt => hold (has_of.2 hlt)
        obtain ⟨e, replaced, name, r, he, hcall⟩ :=
          hsettles.exists_replaced htree hfresh (has_of_get? hget)
        obtain rfl := Option.some.inj (hcall.symm.trans hget)
        have hplace := hlocated.place he (not_empty_has .expression nofun e)
        exact Or.inr hplace
    | _ => exact hadded.elim

end

/-! ### The passes behind name resolution -/

/-- The nodes begin at the places, and so does what was reported. -/
structure WalkState.Located (P : Position → Prop) (s : WalkState σ) : Prop where
  nodes : s.arena.Located P
  shared : ∀ (t : TypeId) node, empty.get? t = some node → s.arena.get? t = some node
  reports : ∀ d ∈ s.diagnostics, P d.position

theorem WalkState.Located.put {s : WalkState σ} (h : s.Located P) {id : ExpressionId}
    {node node' : Expression} (hget : s.arena.get? id = some node) (hspan : node'.span = node.span) :
    (s.put id node').Located P := by
  refine ⟨fun family other found hfound => ?_, fun t found hfound => ?_, h.reports⟩
  · by_cases hsame : Visit.of other = Visit.of id
    · obtain rfl : family = .expression := Visit.family_eq_of_eq (hsame.trans (Visit.expression_eq id))
      obtain rfl := Visit.of_injective hsame
      obtain rfl := Option.some.inj ((get?_put_self hget node').symm.trans hfound)
      rw [show Node.span .expression node' = node.span from hspan]
      exact h.nodes .expression other node hget
    · exact h.nodes family other found ((get?_put_of_ne s.arena hsame node').symm.trans hfound)
  · have hother : Visit.of t ≠ Visit.of id := nofun
    exact (get?_put_of_ne s.arena hother node').trans (h.shared t found hfound)

/-- Whatever a pass looks at is not shared. -/
theorem WalkState.Located.place {s : WalkState σ} (h : s.Located P) {p : Position}
    (hbegins : s.arena.Begins p) : P p := by
  cases hbegins with
  | @routine r _ hget => exact h.nodes.place hget (not_empty_has .routine nofun r)
  | @expression e _ hget => exact h.nodes.place hget (not_empty_has .expression nofun e)
  | @array t node length element hget hkind =>
      refine h.nodes.place hget fun hshared => ?_
      obtain ⟨found, hfound⟩ := exists_of_has t hshared
      obtain rfl := Option.some.inj ((h.shared t found hfound).symm.trans hget)
      -- no shared type is an array
      rcases kind_of_shared hfound with hbase | hbase | hbase <;> nomatch hbase.symm.trans hkind

/-- No step of a pass moves a node, and what is reported is where one begins. -/
theorem PassStep.located {written : Option Annotation} {s s' : WalkState σ}
    (h : PassStep written s s') (hs : s.Located P) : s'.Located P := by
  cases h with
  | typed hget | marked hget | bound hget => exact hs.put hget rfl
  | reported hcause hplace =>
      refine ⟨hs.nodes, hs.shared, fun d hd => ?_⟩
      rcases Array.mem_push.1 hd with hd | rfl
      · exact hs.reports d hd
      · exact hs.place hplace

theorem PassSteps.located {written : Option Annotation} {s s' : WalkState σ}
    (h : PassSteps written s s') (hs : s.Located P) : s'.Located P := by
  induction h with
  | refl => exact hs
  | tail _ hstep ih => exact hstep.located ih

/-- **The passes behind name resolution** report where nodes begin. -/
theorem located_runPasses {haltOnError : Bool} {passes : List Pass} (hpasses : passes ⊆ laterPasses)
    {found last : Analysis} (hrun : runPasses haltOnError passes found = .ok last)
    (hnodes : found.arena.Located P)
    (hshared : ∀ (t : TypeId) node, empty.get? t = some node → found.arena.get? t = some node)
    (hreports : ∀ d ∈ found.diagnostics, P d.position) : ∀ d ∈ last.diagnostics, P d.position := by
  induction passes generalizing found with
  | nil =>
      obtain rfl := Except.ok.inj hrun
      exact hreports
  | cons pass rest ih =>
      obtain ⟨hpass, hrest⟩ := List.cons_subset.1 hpasses
      cases hpassed : pass.run found.arena with
      | error fault => simp [runPasses, hpassed, bind, Except.bind] at hrun
      | ok outcome =>
          obtain ⟨s, hsteps, harena, hdiagnostics⟩ :=
            steps_laterPasses pass hpass found.arena outcome hpassed
          have hlocated : s.Located P := hsteps.located ⟨hnodes, hshared, by simp⟩
          have hall : ∀ d ∈ found.diagnostics ++ outcome.diagnostics, P d.position := by
            refine List.forall_mem_append.2 ⟨hreports, fun d hd => ?_⟩
            rw [hdiagnostics] at hd
            exact hlocated.reports d (Array.mem_toList_iff.1 hd)
          simp only [runPasses, hpassed, bind, Except.bind] at hrun
          split at hrun
          · obtain rfl := Except.ok.inj hrun
            exact hall
          · rw [harena] at hrun
            exact ih hrest hrun hlocated.nodes hlocated.shared hall

/-! ### Compiling -/

/-- **Analysing a tree** whose nodes begin at tokens reports at tokens. -/
theorem Arena.IsTree.located_analyze (htree : a.IsTree nodes) (hlocated : a.Located P)
    {haltOnError : Bool} {analysis : Analysis} (hrun : analyze a haltOnError = .ok analysis) :
    ∀ d ∈ analysis.diagnostics, P d.position := by
  obtain ⟨names, hnames, -⟩ := htree.exists_settles
  simp only [analyze, hnames, bind, Except.bind] at hrun
  split at hrun
  · rename_i hsilent
    have hresolves := resolves_of_silent htree hnames (List.isEmpty_iff.1 hsilent)
    exact located_runPasses (List.Subset.refl _) hrun (htree.located_names hlocated hnames)
      (hresolves.sound htree).shared (by simp)
  · obtain rfl := Except.ok.inj hrun
    exact htree.located_reports hlocated hnames

/-- **Every diagnostic points at a token.** Whatever the text is, and whether or not errors stop it,
compiling comes to its end, and each diagnostic is placed where some token of the text begins, the end
of the text included. The syntax errors are in the order of the text. -/
theorem compile_located (source : String) (haltOnError : Bool) :
    ∃ c, compile source haltOnError = .ok c ∧
      (∀ d ∈ c.diagnostics, ∃ token ∈ Token.tokenize source, d.position = token.start) ∧
      (parse source).errors.Pairwise fun d e => d.position ≤ e.position := by
  obtain ⟨c, hcompile, -, -⟩ := exists_compile source haltOnError
  obtain ⟨hlocated, herrors, hsorted⟩ := parse_located source
  refine ⟨c, hcompile, ?_, hsorted⟩
  by_cases hparse : (parse source).errors = []
  · obtain ⟨nodes, htree⟩ := Parser.parse_isTree source hparse
    obtain ⟨analysis, hanalysis, -, -⟩ := exists_analyze htree haltOnError
    obtain rfl := Except.ok.inj ((compile_of_parsed hparse hanalysis).symm.trans hcompile)
    have hreports := htree.located_analyze hlocated hanalysis
    exact hreports
  · obtain rfl := Except.ok.inj ((compile_of_errors haltOnError hparse).symm.trans hcompile)
    exact herrors

end ProcLang
