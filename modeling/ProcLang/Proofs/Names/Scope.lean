import ProcLang.Proofs.Names.Progress

/-!
# ProcLang.Proofs.Names.Scope

**The scopes of name resolution mirror those of the source.** The scope in which name resolution
works at a site is made from the declarations of the scopes around it (`scopeOf`). Looking a name up
in it gives the declaration in the innermost scope that has one (`lookup_variableNames`), and opening
a scope whose names are distinct leads from one such scope to the next (`runs_declareScope`).
-/

namespace ProcLang

open Arena WalkM

variable {a b : Arena}

/-! ### Names do not change -/

/-- A node that no change is about stays what it is. -/
theorem Node.Changes.eq_of_none {family : Family} {node node' : Node family}
    (h : Node.Changes a family node node')
    (hnone : ∀ old new, ¬ Node.Change a family old new) : node' = node := by
  induction h with
  | refl => rfl
  | tail _ hchange _ => exact absurd hchange (hnone _ _)

theorem Node.Changes.routine_eq {node node' : Routine} (h : Node.Changes a .routine node node') :
    node' = node :=
  h.eq_of_none nofun

theorem Node.Changes.typeDecl_eq {node node' : TypeDecl}
    (h : Node.Changes a .typeDecl node node') : node' = node :=
  h.eq_of_none nofun

theorem Node.Changes.body_eq {node node' : Body} (h : Node.Changes a .body node node') :
    node' = node :=
  h.eq_of_none nofun

/-- Of a variable only the initial value changes. -/
theorem Node.Changes.variable_eq {node node' : Variable}
    (h : Node.Changes a .variable node node') :
    node' = { node with initializer := node'.initializer } := by
  induction h with
  | refl => rfl
  | tail _ hchange ih =>
      cases hchange with
      | initializer middle hold hfresh => rw [ih]

theorem Arena.Evolves.declarationName (h : Evolves a a b) {d : Declaration}
    (hhas : a.Has d.visit) : ∃ name span, a.declarationName d = .ok (name, span) ∧
      b.declarationName d = .ok (name, span) := by
  cases d with
  | routine id =>
      obtain ⟨node, hget⟩ := exists_of_has id hhas
      obtain ⟨node', hget', hchanges⟩ := h.changed .routine id node hget
      obtain rfl := hchanges.routine_eq
      exact ⟨node'.name, node'.span, by simp [Arena.declarationName, get, hget],
        by simp [Arena.declarationName, get, hget']⟩
  | «variable» id =>
      obtain ⟨node, hget⟩ := exists_of_has id hhas
      obtain ⟨node', hget', hchanges⟩ := h.changed .variable id node hget
      refine ⟨node.name, node.span, by simp [Arena.declarationName, get, hget], ?_⟩
      rw [hchanges.variable_eq] at hget'
      simp [Arena.declarationName, get, hget']
  | type id =>
      obtain ⟨node, hget⟩ := exists_of_has id hhas
      obtain ⟨node', hget', hchanges⟩ := h.changed .typeDecl id node hget
      obtain rfl := hchanges.typeDecl_eq
      exact ⟨node'.name, node'.span, by simp [Arena.declarationName, get, hget],
        by simp [Arena.declarationName, get, hget']⟩

/-! ### Entries and lookups -/

namespace Arena

/-- The entries that declarations make in a scope. -/
def entries (a : Arena) (scope : List Declaration) : List ScopeEntry :=
  scope.filterMap fun d =>
    match a.declarationName d with
    | .ok (name, span) => some ⟨d, name, span.start⟩
    | .error _ => none

/-- The scope in which name resolution works inside of given scopes. -/
def scopeOf (a : Arena) : List (List Declaration) → Scope
  | [] => .empty
  | scope :: outer => (a.scopeOf outer).extend (a.entries scope)

end Arena

/-- The names of the entries that `select` picks. -/
def selected {α : Type} (select : Declaration → Option α) (entries : List ScopeEntry) :
    List (String × α) :=
  entries.filterMap fun entry => (select entry.declaration).map (entry.name, ·)

theorem variablesOf_eq (entries : List ScopeEntry) :
    variablesOf entries = selected Declaration.variable? entries :=
  List.filterMap_congr fun entry _ => by cases h : entry.declaration <;> rfl

theorem typesOf_eq (entries : List ScopeEntry) :
    typesOf entries = selected Declaration.type? entries :=
  List.filterMap_congr fun entry _ => by cases h : entry.declaration <;> rfl

theorem routinesOf_eq (entries : List ScopeEntry) :
    routinesOf entries = selected Declaration.routine? entries :=
  List.filterMap_congr fun entry _ => by cases h : entry.declaration <;> rfl

/-- Looking a name up among the entries of a scope finds its declaration in the scope. -/
theorem lookup_selected {α : Type} (select : Declaration → Option α) (name : String)
    (scope : List Declaration) : (selected select (a.entries scope)).lookup name =
      scope.findSome? fun d => if a.nameOf d = some name then select d else none := by
  induction scope with
  | nil => rfl
  | cons d rest ih =>
      rw [List.findSome?_cons, ← ih]
      cases hd : a.declarationName d with
      | error fault => simp [entries, selected, nameOf, hd]
      | ok pair =>
          obtain ⟨other, span⟩ := pair
          cases hselect : select d with
          | none => simp [entries, selected, nameOf, hd, hselect]
          | some x =>
              by_cases hname : other = name
              · simp [entries, selected, nameOf, hd, hselect, hname]
              · have hne : (name == other) = false := beq_eq_false_iff_ne.2 (Ne.symm hname)
                simp [entries, selected, nameOf, hd, hselect, hname, List.lookup_cons, hne]

theorem innermost_cons {α : Type} (select : Declaration → Option α) (name : String)
    (scope : List Declaration) (outer : List (List Declaration)) :
    a.innermost select name (scope :: outer) =
      (scope.findSome? fun d => if a.nameOf d = some name then select d else none).or
        (a.innermost select name outer) := by
  rw [innermost, List.findSome?_cons]
  split
  · rename_i x hscope
    rw [hscope, Option.some_or]
  · rename_i hscope
    rw [hscope, Option.none_or, innermost]

/-- **Variables are looked up from the innermost scope outwards.** -/
theorem lookup_variableNames (name : String) (scopes : List (List Declaration)) :
    (a.scopeOf scopes).variableNames.lookup name =
      a.innermost Declaration.variable? name scopes := by
  induction scopes with
  | nil => rfl
  | cons scope outer ih =>
      rw [scopeOf, Scope.extend, List.lookup_append, variablesOf_eq, lookup_selected, ih,
        innermost_cons]

/-- **Types are looked up from the innermost scope outwards.** -/
theorem lookup_typeNames (name : String) (scopes : List (List Declaration)) :
    (a.scopeOf scopes).typeNames.lookup name = a.innermost Declaration.type? name scopes := by
  induction scopes with
  | nil => rfl
  | cons scope outer ih =>
      rw [scopeOf, Scope.extend, List.lookup_append, typesOf_eq, lookup_selected, ih,
        innermost_cons]

/-- Routines are looked up among those of the program. -/
theorem lookup_routines (name : String) :
    (routinesOf (a.entries a.program.declarations)).lookup name = a.routineNamed name := by
  rw [routinesOf_eq, lookup_selected, routineNamed, innermost_cons]
  exact (Option.or_none).symm

/-! ### Opening a scope -/

theorem map_nameOf {scope : List Declaration} (hhas : ∀ d ∈ scope, a.Has d.visit) :
    scope.map a.nameOf = (a.entries scope).map fun entry => some entry.name := by
  induction scope with
  | nil => rfl
  | cons d rest ih =>
      obtain ⟨name, span, hname, -⟩ :=
        (Evolves.refl a a).declarationName (hhas d List.mem_cons_self)
      have hrest := ih fun d hd => hhas d (List.mem_cons_of_mem _ hd)
      simp [entries, nameOf, hname, hrest]

theorem names_nodup_iff {scope : List Declaration} (hhas : ∀ d ∈ scope, a.Has d.visit) :
    ((a.entries scope).map fun entry => entry.name).Nodup ↔ (scope.map a.nameOf).Nodup := by
  have hsome : scope.map a.nameOf = ((a.entries scope).map fun entry => entry.name).map some := by
    rw [map_nameOf hhas, List.map_map]
    rfl
  rw [hsome, List.nodup_map_iff fun _ _ => Option.some.inj]

/-- Distinct names are not repeated. -/
theorem repetitionsAfter_eq_nil {seen : List (String × Nat)} {names : List (String × Position)}
    (hnodup : (names.map (·.1)).Nodup) (hseen : ∀ p ∈ names, seen.lookup p.1 = none) :
    repetitionsAfter seen names = [] := by
  induction names generalizing seen with
  | nil => rfl
  | cons p rest ih =>
      rw [List.map_cons, List.nodup_cons] at hnodup
      rw [repetitionsAfter, hseen p List.mem_cons_self]
      refine ih hnodup.2 fun q hq => ?_
      have hne : (q.1 == p.1) = false := beq_eq_false_iff_ne.2 fun heq =>
        hnodup.1 (heq ▸ List.mem_map_of_mem hq)
      rw [List.lookup_cons, hne]
      exact hseen q (List.mem_cons_of_mem _ hq)

/-- What is not repeated is distinct. -/
theorem nodup_of_repetitionsAfter {seen : List (String × Nat)} {names : List (String × Position)}
    (h : repetitionsAfter seen names = []) :
    (names.map (·.1)).Nodup ∧ ∀ p ∈ names, seen.lookup p.1 = none := by
  induction names generalizing seen with
  | nil => exact ⟨List.nodup_nil, nofun⟩
  | cons p rest ih =>
      obtain ⟨name, start⟩ := p
      rw [repetitionsAfter] at h
      cases hseen : seen.lookup name with
      | some line =>
          rw [hseen] at h
          nomatch h
      | none =>
          rw [hseen] at h
          obtain ⟨hnodup, hrest⟩ := ih h
          -- a later repetition of the first name would have been found
          have hfirst : ∀ q ∈ rest, q.1 ≠ name ∧ seen.lookup q.1 = none := by
            intro q hq
            have hlookup := hrest q hq
            rw [List.lookup_cons] at hlookup
            by_cases heq : q.1 = name
            · simp [heq] at hlookup
            · rw [beq_eq_false_iff_ne.2 heq] at hlookup
              exact ⟨heq, hlookup⟩
          refine ⟨?_, fun q hq => ?_⟩
          · rw [List.map_cons, List.nodup_cons]
            refine ⟨fun hmem => ?_, hnodup⟩
            obtain ⟨q, hq, heq⟩ := List.mem_map.1 hmem
            exact (hfirst q hq).1 heq
          · rcases List.mem_cons.1 hq with rfl | hq
            · exact hseen
            · exact (hfirst q hq).2

theorem firstsAfter_eq {seen : List String} {entries : List ScopeEntry}
    (hnodup : (entries.map fun entry => entry.name).Nodup)
    (hseen : ∀ entry ∈ entries, entry.name ∉ seen) : firstsAfter seen entries = entries := by
  induction entries generalizing seen with
  | nil => rfl
  | cons entry rest ih =>
      rw [List.map_cons, List.nodup_cons] at hnodup
      rw [firstsAfter, if_neg (hseen entry List.mem_cons_self), ih hnodup.2]
      intro other hother hmem
      rcases List.mem_cons.1 hmem with heq | hmem
      · exact hnodup.1 (heq ▸ List.mem_map_of_mem hother)
      · exact hseen other (List.mem_cons_of_mem _ hother) hmem

theorem firstsAfter_subset (seen : List String) (entries : List ScopeEntry) :
    firstsAfter seen entries ⊆ entries := by
  induction entries generalizing seen with
  | nil => exact List.Subset.refl _
  | cons entry rest ih =>
      rw [firstsAfter]
      split
      · exact List.subset_cons_of_subset _ (ih seen)
      · exact List.cons_subset_cons _ (ih _)

theorem runs_scopeEntries {seeds : List VariableId} {declarations : List Declaration} {c : Scope}
    {s : WalkState Routines} (hevolves : Evolves a a s.arena)
    (hhas : ∀ d ∈ seeds.map Declaration.variable ++ declarations, a.Has d.visit) :
    Runs (scopeEntries seeds declarations) c s
      (a.entries (seeds.map Declaration.variable ++ declarations)) s := by
  rw [scopeEntries]
  generalize seeds.map Declaration.variable ++ declarations = scope at hhas
  induction scope with
  | nil => exact runs_pure.2 ⟨rfl, rfl⟩
  | cons d rest ih =>
      obtain ⟨name, span, hname, hname'⟩ := hevolves.declarationName (hhas d List.mem_cons_self)
      have hrest := ih fun d hd => hhas d (List.mem_cons_of_mem _ hd)
      rw [List.mapM_cons]
      have hall : a.entries (d :: rest) = ⟨d, name, span.start⟩ :: a.entries rest := by
        simp [entries, hname]
      rw [hall]
      refine runs_bind.2 ⟨⟨d, name, span.start⟩, s, ?_,
        runs_bind.2 ⟨_, s, hrest, runs_pure.2 ⟨rfl, rfl⟩⟩⟩
      exact runs_inspect_bind.2 ⟨(name, span), hname', runs_pure.2 ⟨rfl, rfl⟩⟩

theorem runs_reportAll_nil {c : Scope} {s : WalkState Routines} :
    Runs (reportAll []) c s () s := runs_forM_nil.2 rfl

/-- The reports about repeated names are not about undeclared ones. -/
theorem repetitionsAfter_declared (seen : List (String × Nat)) (names : List (String × Position)) :
    ∀ d ∈ repetitionsAfter seen names, d.cause.isUndeclared = false := by
  induction names generalizing seen with
  | nil => nofun
  | cons p rest ih =>
      intro d hd
      rw [repetitionsAfter] at hd
      split at hd
      · rcases List.mem_cons.1 hd with rfl | hd
        · rfl
        · exact ih _ d hd
      · exact ih _ d hd

theorem exists_runs_reportAll (a : Arena) (c : Scope) (s : WalkState Routines)
    {ds : List Diagnostic} (h : ∀ d ∈ ds, d.cause.isUndeclared = false) :
    ∃ s', Runs (reportAll ds) c s () s' ∧ Remarks a s s' ∧ (s'.diagnostics = #[] → ds = []) := by
  induction ds generalizing s with
  | nil => exact ⟨s, runs_reportAll_nil, .refl a s, fun _ => rfl⟩
  | cons d rest ih =>
      obtain ⟨s', hrun, hremarks, -⟩ := ih (s.reported d.cause d.position)
        fun other hother => h other (List.mem_cons_of_mem _ hother)
      exact ⟨s', runs_forM_cons.2 ⟨_, runs_report.2 rfl, hrun⟩,
        (Remarks.reported a s (h d List.mem_cons_self) d.position).trans hremarks,
        fun hsilent => absurd (hremarks.effect.silent hsilent) (Effect.reported_ne s _ _)⟩


/-- **Opening a scope** whose names are distinct. -/
theorem runs_declareScope {seeds : List VariableId} {declarations : List Declaration}
    (outer : List (List Declaration)) {s : WalkState Routines} (hevolves : Evolves a a s.arena)
    (hnodup : ((seeds.map Declaration.variable ++ declarations).map a.nameOf).Nodup)
    (hhas : ∀ d ∈ seeds.map Declaration.variable ++ declarations, a.Has d.visit) :
    Runs (declareScope seeds declarations) (a.scopeOf outer) s
      (some (a.scopeOf ((seeds.map Declaration.variable ++ declarations) :: outer)))
      { s with own := s.own ++
          routinesOf (a.entries (seeds.map Declaration.variable ++ declarations)) } := by
  have hnames := (names_nodup_iff hhas).2 hnodup
  have hrepeated : repetitions ((a.entries (seeds.map Declaration.variable ++ declarations)).map
      fun entry => (entry.name, entry.start)) = [] := by
    refine repetitionsAfter_eq_nil ?_ fun _ _ => rfl
    rw [List.map_map]
    exact hnames
  have hfirsts : firstsAfter [] _ = _ := firstsAfter_eq hnames fun _ _ => List.not_mem_nil
  rw [declareScope]
  refine runs_bind.2 ⟨_, s, runs_scopeEntries hevolves hhas, ?_⟩
  simp only [hrepeated, hfirsts]
  refine runs_bind.2 ⟨(), s, runs_reportAll_nil, ?_⟩
  simp only [runs_updateOwn_bind, List.isEmpty_nil, if_true, runs_read_bind]
  exact runs_pure.2 ⟨rfl, rfl⟩

/-- **A scope with a repeated name is not opened**; that is reported. -/
theorem exists_runs_declareScope_repeated {seeds : List VariableId}
    {declarations : List Declaration} (outer : List (List Declaration)) {s : WalkState Routines}
    (hevolves : Evolves a a s.arena)
    (hrepeated : ¬ ((seeds.map Declaration.variable ++ declarations).map a.nameOf).Nodup)
    (hhas : ∀ d ∈ seeds.map Declaration.variable ++ declarations, a.Has d.visit) :
    ∃ s', Runs (declareScope seeds declarations) (a.scopeOf outer) s none
        { s' with
          own := s'.own ++ routinesOf (firstsAfter []
            (a.entries (seeds.map Declaration.variable ++ declarations))) } ∧
      Remarks a s s' ∧ s'.diagnostics ≠ #[] := by
  obtain ⟨repeated, hsame⟩ : ∃ repeated, repeated = repetitions
      ((a.entries (seeds.map Declaration.variable ++ declarations)).map
        fun entry => (entry.name, entry.start)) := ⟨_, rfl⟩
  have hfound : repeated ≠ [] := by
    intro hnone
    refine hrepeated ((names_nodup_iff hhas).1 ?_)
    have hnodup := (nodup_of_repetitionsAfter (hsame.symm.trans hnone)).1
    rwa [List.map_map] at hnodup
  have hdeclared : ∀ d ∈ repeated, d.cause.isUndeclared = false :=
    hsame ▸ repetitionsAfter_declared [] _
  obtain ⟨s', hrun, hremarks, hsilent⟩ := exists_runs_reportAll a (a.scopeOf outer) s hdeclared
  refine ⟨s', ?_, hremarks, fun hnone => hfound (hsilent hnone)⟩
  rw [declareScope]
  refine runs_bind.2 ⟨_, s, runs_scopeEntries hevolves hhas, ?_⟩
  simp only [← hsame]
  refine runs_bind.2 ⟨(), s', hrun, ?_⟩
  simp only [runs_updateOwn_bind, List.isEmpty_eq_false_iff.2 hfound, Bool.false_eq_true, if_false]
  exact runs_pure.2 ⟨rfl, rfl⟩

end ProcLang
