import ProcLang.Proofs.Passes.Completion

/-!
# ProcLang.Proofs.Passes.Accepted

**The names of an accepted program are bound.** In the tree of a program that may be handed to a code
generator each name stands for the innermost variable of its name, and a name behind a point for the
field of the record in front of the point (`compile_names`).

The type of what is in front of a point may be unknown, and is nothing to complain about then; such a
name is not bound (`compile_names_unknown`).
-/

namespace ProcLang

open Arena

/-- **The tree of an accepted program** was typed in silence, as a tree whose names were resolved. -/
theorem compile_grown {source : String} {haltOnError : Bool} {c : Compilation}
    (hcompile : compile source haltOnError = .ok c) (hsilent : c.diagnostics = []) :
    ∃ nodes all b before, (parse source).arena.IsTree nodes ∧ (parse source).arena.Resolves b ∧
      b.IsForest all ∧ b.Grown before ∧ b.Grown c.arena ∧
      ∀ e, b.Reaches .program (.expression e) → ¬ b.IsField e → before.Typed c.arena e := by
  obtain ⟨hparse, names, before, typed, hnames, hresolved, hbefore, htyped, hclean, harena⟩ :=
    compile_typed hcompile hsilent
  obtain ⟨nodes, htree⟩ := Parser.parse_isTree source hparse
  have hresolves := resolves_of_silent htree hnames hresolved
  obtain ⟨all, hforest⟩ := hresolves.exists_forest htree
  have hpasses : [callValidation, arrayLengths, constants] ⊆ laterPasses := by simp [laterPasses]
  obtain ⟨before', hafter, hgrown⟩ := exists_after hforest hpasses
    ⟨.refl names.arena, hresolves.sound htree⟩
  obtain rfl := Except.ok.inj (hafter.symm.trans hbefore)
  obtain ⟨outcome, hrun, hlast, hcases⟩ := exists_typing hforest hgrown
  obtain rfl := Except.ok.inj (hrun.symm.trans htyped)
  rw [harena]
  refine ⟨nodes, all, names.arena, before', htree, hresolves, hforest, hgrown, hlast, ?_⟩
  rcases hcases with ⟨-, htyped⟩ | ⟨hloud, -⟩
  · exact htyped
  · exact absurd hclean hloud

section

variable {a : Arena}

/-- A variable that is looked up has the name that is looked up. -/
theorem exists_of_innermost {scopes : List (List Declaration)} {name : String} {x : VariableId}
    (h : a.innermost Declaration.variable? name scopes = some x) :
    ∃ v, a.get? x = some v ∧ v.name = name := by
  obtain ⟨scope, -, d, -, hname, hselect⟩ := innermost_mem h
  cases d with
  | «variable» y =>
      cases hselect
      cases hx : a.get? x with
      | none => simp [nameOf, declarationName, Arena.get, hx, bind, Except.bind] at hname
      | some v =>
          simp [nameOf, declarationName, Arena.get, hx, bind, Except.bind, pure, Except.pure] at hname
          exact ⟨v, rfl, hname⟩
  | routine | type => cases hselect

end

/-- **The names of an accepted program are bound**: each one to the innermost variable of its name, and
a name behind a point to the field of the record, if the type of the record is known. -/
theorem compile_names (source : String) (haltOnError : Bool) (c : Compilation)
    (hcompile : compile source haltOnError = .ok c) (hgeneratable : c.isGeneratable = true)
    (e : ExpressionId) (node : Expression) (name : String) (target : Option VariableId)
    (hreaches : c.arena.Reaches .program (.expression e)) (hget : c.arena.get? e = some node)
    (hkind : node.kind = .identifier name target) :
    (¬ c.arena.IsField e → ∃ scopes x v,
      (parse source).arena.Below (parse source).arena.top ⟨scopes, .expression e⟩ ∧
      (parse source).arena.innermost Declaration.variable? name scopes = some x ∧ target = some x ∧
      c.arena.get? x = some v ∧ v.name = name) ∧
    ∀ (access : ExpressionId) member left record t, c.arena.get? access = some member →
      member.kind = .binary .member left e → c.arena.get? left = some record →
      record.type = some t → ∃ fields x v, c.arena.kindOf (some t) = .ok (some (.record fields)) ∧
        target = some x ∧ x ∈ fields ∧ c.arena.get? x = some v ∧ v.name = name := by
  obtain ⟨nodes, all, b, before, htree, hresolves, hforest, hbefore, hlast, htyped⟩ :=
    compile_grown hcompile (List.isEmpty_iff.1 hgeneratable)
  rw [hlast.refined.reaches_eq] at hreaches
  obtain ⟨old, hold, hsame⟩ := hlast.refined.exists_get? hget
  constructor
  · intro hfield
    rw [hlast.refined.isField_iff] at hfield
    have hkind' := (hsame.kind.resolve_right fun h => hfield h.1).symm.trans hkind
    obtain ⟨scopes, x, hbelow, hname, htarget⟩ :=
      (hresolves.identifier_linked htree hreaches hold hkind').resolve_left hfield
    obtain ⟨v, hv, hvname⟩ := exists_of_innermost hname
    obtain ⟨v', hv', hchanges⟩ := hresolves.evolves.changed .variable x v hv
    refine ⟨scopes, x, v', hbelow, hname, htarget,
      (hlast.refined.get?_eq .variable nofun x).trans hv', ?_⟩
    rw [hchanges.variable_eq]
    exact hvname
  · intro access member left record t hmember hmkind hrecord ht
    obtain ⟨member₀, hmember₀, hmkind₀⟩ := hlast.refined.exists_member hmember hmkind
    have haccess := hresolves.reaches_access htree hreaches hmember₀ hmkind₀
    have hnot := hbefore.not_isField_of_kind hmember₀ (by rw [hmkind₀]; nofun)
    obtain ⟨a, a', d, -, ha, hstores, hafter, hslots, hkept⟩ :=
      (htyped access haccess hnot).exists_stores hforest hbefore.refined haccess hmember₀
    obtain ⟨member₁, hmember₁, hsame₁⟩ := ha.refined.expressions access member₀ hmember₀
    have hmkind₁ := (hsame₁.kind_eq (by rw [hmkind₀]; nofun)).trans hmkind₀
    -- when the access was typed, the record had the type that it has in the end
    have hrecord₁ : a.get? left = some record := by
      refine (hslots left ?_).symm.trans hrecord
      rw [Node.slots, hmkind₀]
      exact List.mem_cons_self
    obtain ⟨name', x, fields, field, hrecordOf, hfound, -, hfield, hname, -⟩ :=
      hstores.exists_bound ha.sound hmember₁ hmkind₁ hrecord₁ ht
    have hbelow : b.Reaches (.expression access) (.expression e) := by
      refine .single ?_
      rw [Visit.expression_eq access, children_of_get? hmember₀, Node.children, hmkind₀]
      exact List.mem_cons_of_mem _ List.mem_cons_self
    obtain rfl := Option.some.inj (hfield.symm.trans ((hkept e hbelow).symm.trans hget))
    cases hname.symm.trans hkind
    have hlast' := hstores.refined.trans hafter
    obtain ⟨hmem, v, hv, hvname⟩ := findField_ok hfound
    exact ⟨fields, x, v, (hlast'.kindOf_eq _).trans hrecordOf, rfl, hmem,
      (hlast'.get?_eq .variable nofun x).trans hv, hvname⟩

/-- A name behind a point in an assignment. -/
theorem compile_names_field :
    let source := "type p is record\n  var a: integer\nend\nroutine main() is\n  var q: p\n  q.a := 1\nend\n"
    ∃ (c : Compilation) (node : Expression) (target : Option VariableId),
      compile source true = .ok c ∧ c.isGeneratable = true ∧
      c.arena.Reaches .program (.expression ⟨1⟩) ∧ c.arena.get? (⟨1⟩ : ExpressionId) = some node ∧
      node.kind = .identifier "a" target ∧
      ∀ (access : ExpressionId) member left record t, c.arena.get? access = some member →
        member.kind = .binary .member left ⟨1⟩ → c.arena.get? left = some record →
        record.type = some t → ∃ fields x v, c.arena.kindOf (some t) = .ok (some (.record fields)) ∧
          target = some x ∧ x ∈ fields ∧ c.arena.get? x = some v ∧ v.name = "a" := by
  intro source
  have hrun : (compile source true).map (fun c => decide (c.isGeneratable = true ∧
      .routine ⟨0⟩ ∈ c.arena.children .program ∧ .body ⟨0⟩ ∈ c.arena.children (.routine ⟨0⟩) ∧
      .statement ⟨0⟩ ∈ c.arena.children (.body ⟨0⟩) ∧
      .expression ⟨2⟩ ∈ c.arena.children (.statement ⟨0⟩) ∧
      .expression ⟨1⟩ ∈ c.arena.children (.expression ⟨2⟩) ∧
      (c.arena.get? (⟨1⟩ : ExpressionId)).map (·.kind) = some (.identifier "a" (some ⟨0⟩)))) =
        .ok true := by decide +kernel
  cases hcompile : compile source true with
  | error fault =>
      rw [hcompile] at hrun
      nomatch hrun
  | ok c =>
      rw [hcompile] at hrun
      obtain ⟨hgeneratable, hroutine, hbody, hstatement, haccess, hfield, hkind⟩ :=
        of_decide_eq_true (Except.ok.inj hrun)
      obtain ⟨node, hget, hkind⟩ := Option.map_eq_some_iff.1 hkind
      have hreaches : c.arena.Reaches .program (.expression ⟨1⟩) :=
        ((((Relation.ReflTransGen.single hroutine).tail hbody).tail hstatement).tail haccess).tail hfield
      exact ⟨c, node, some ⟨0⟩, rfl, hgeneratable, hreaches, hget, hkind,
        (compile_names source true c hcompile hgeneratable _ node "a" _ hreaches hget hkind).2⟩

/-- **A name behind a point need not be bound**: here the routine in front of the point gives nothing
back, so there is no record to look at. -/
theorem compile_names_unknown : ¬ ∀ (source : String) (haltOnError : Bool) (c : Compilation),
    compile source haltOnError = .ok c → c.isGeneratable = true →
      ∀ (e : ExpressionId) node name target, c.arena.Reaches .program (.expression e) →
        c.arena.get? e = some node → node.kind = .identifier name target →
        ∃ x v, target = some x ∧ c.arena.get? x = some v ∧ v.name = name := by
  intro hall
  let source := "routine r() is\nend\nroutine main() is\n  var x is r().f\nend\n"
  have hrun : (compile source true).map (fun c => decide (c.isGeneratable = true ∧
      .routine ⟨1⟩ ∈ c.arena.children .program ∧ .body ⟨1⟩ ∈ c.arena.children (.routine ⟨1⟩) ∧
      .variable ⟨0⟩ ∈ c.arena.children (.body ⟨1⟩) ∧
      .expression ⟨2⟩ ∈ c.arena.children (.variable ⟨0⟩) ∧
      .expression ⟨1⟩ ∈ c.arena.children (.expression ⟨2⟩) ∧
      (c.arena.get? (⟨1⟩ : ExpressionId)).map (·.kind) = some (.identifier "f" none))) =
        .ok true := by decide +kernel
  cases hcompile : compile source true with
  | error fault =>
      rw [hcompile] at hrun
      nomatch hrun
  | ok c =>
      rw [hcompile] at hrun
      obtain ⟨hgeneratable, hroutine, hbody, hvariable, haccess, hfield, hkind⟩ :=
        of_decide_eq_true (Except.ok.inj hrun)
      obtain ⟨node, hget, hkind⟩ := Option.map_eq_some_iff.1 hkind
      have hreaches : c.arena.Reaches .program (.expression ⟨1⟩) :=
        ((((Relation.ReflTransGen.single hroutine).tail hbody).tail hvariable).tail haccess).tail hfield
      obtain ⟨x, v, hnone, -⟩ :=
        hall source true c hcompile hgeneratable _ node "f" _ hreaches hget hkind
      nomatch hnone

end ProcLang
