import ProcLang.Proofs.Passes.Completion
import ProcLang.Proofs.Typing.Decision

/-!
# ProcLang.Proofs.Typing.WellTyped

**The typing pass decides well-typedness.** In a program whose variables all have declared types and
whose called routines all have results, expressions are typed from the leaves up, and each one gets
the type that the rules give it (`exists_judged`). So the pass is silent exactly when each expression
of the program has a type by the rules, and what it stores are these types (`typing_decides`).
-/

namespace ProcLang

open Arena Judgement

variable {a b : Arena}

/-! ### The pass -/

section

variable {nodes : List Visit} {first last : Arena} {e : ExpressionId}

/-- When an expression was typed, its operands carried the types that they carry in the end. -/
theorem Arena.Typed.exists_finds (h : first.Typed last e) (hforest : b.IsForest nodes)
    (hannotated : b.Annotated) (hfirst : b.RefinedBy first)
    (hreaches : b.Reaches .program (.expression e)) (hfield : ¬ b.IsField e) {node : Expression}
    (hget : b.get? e = some node)
    (hoperands : ∀ o ∈ Node.slots .expression node, ∃ t, b.Judged last o t) :
    ∃ a a' d, b.Grown a ∧ a.Stores a' e d ∧ Finds (a.deriveType e) (b.HasType e) ∧
      (∀ o ∈ Node.slots .expression node, ∃ t, b.Judged a o t) ∧
      ∀ o, b.Reaches (.expression e) (.expression o) → last.get? o = a'.get? o := by
  obtain ⟨a, a', d, -, hgrown, hstores, -, hslots, hkept⟩ :=
    h.exists_stores hforest hfirst hreaches hget
  have hjudged : ∀ o ∈ Node.slots .expression node, ∃ t, b.Judged a o t := by
    intro o ho
    obtain ⟨t, hstored, hunique⟩ := hoperands o ho
    exact ⟨t, hslots o ho ▸ hstored, hunique⟩
  exact ⟨a, a', d, hgrown, hstores, hgrown.finds_hasType hannotated hreaches hfield hget hjudged, hjudged,
    hkept⟩

/-- **Expressions that were typed carry the types that the rules give them.** -/
theorem exists_judged (hforest : b.IsForest nodes) (hannotated : b.Annotated)
    (hfirst : b.RefinedBy first) (hreaches : b.Reaches .program (.expression e))
    (hfield : ¬ b.IsField e) (htyped : ∀ o, b.Reaches (.expression e) (.expression o) →
      ¬ b.IsField o → first.Typed last o) : ∃ t, b.Judged last e t := by
  have hwithin : ∃ n, b.Within n (.expression e) := by
    obtain ⟨v, hv, hbelow⟩ := (reaches_iff.1 hreaches).resolve_left nofun
    exact ⟨b.size, (hforest.within v hv).of_reaches hbelow⟩
  obtain ⟨n, hwithin⟩ := hwithin
  induction n generalizing e with
  | zero => exact hwithin.elim
  | succ n ih =>
      obtain ⟨node, hget⟩ := exists_of_has e hwithin.has
      have htyped₀ := htyped e .refl hfield
      obtain ⟨a₀, -, -, ha₀, hsound₀, -⟩ := htyped₀
      have hgrown : b.Grown a₀ := ⟨hfirst.trans ha₀, hsound₀⟩
      have hoperands : ∀ o ∈ Node.slots .expression node, ∃ t, b.Judged last o t := by
        intro o ho
        have hchild : Visit.expression o ∈ b.children (.expression e) := by
          rw [Visit.expression_eq e, children_of_get? hget]
          exact Node.slots_subset .expression node ho
        exact ih (hreaches.tail hchild) (hgrown.not_isField hget ho)
          (fun o' ho' => htyped o' (.head hchild ho')) (hwithin.child hchild)
      obtain ⟨a, a', d, ha, hstores, hfinds, -, hkept⟩ :=
        (htyped e .refl hfield).exists_finds hforest hannotated hfirst hreaches hfield hget hoperands
      obtain ⟨t, ht, hrule⟩ := hfinds.sound d hstores.gives
      obtain ⟨node', hget', htype⟩ := hstores.type (ha.refined.isField_iff.not.2 hfield)
      refine ⟨t, ⟨node', (hkept e .refl).trans hget', htype.trans ht⟩, fun u => ⟨fun hu => ?_, ?_⟩⟩
      · exact hfinds.unique hu hrule
      · rintro rfl
        exact hrule

/-! ### Programs -/

/-- Each expression of the program has a type by the rules. The names behind points have none of their
own. -/
def Arena.WellTyped (a : Arena) : Prop :=
  ∀ e, a.Reaches .program (.expression e) → ¬ a.IsField e → ∃ t, a.HasType e t

/-- The tree `a` has the types on the expressions of the tree `b` that the rules give them, and the
names behind points stand for the fields of the records. -/
structure Arena.TypedBy (b a : Arena) : Prop where
  stored : ∀ e, b.Reaches .program (.expression e) → ¬ b.IsField e → ∃ node t, a.get? e = some node ∧
    node.type = some t ∧ b.HasType e t ∧ ∀ u, b.HasType e u → b.sameType t u = .ok true
  bound : ∀ (e : ExpressionId) member left f, b.Reaches .program (.expression e) →
    b.get? e = some member → member.kind = .binary .member left f →
    ∃ node name x u fields t, a.get? f = some node ∧ node.kind = .identifier name (some x) ∧
      b.HasType left u ∧ b.Means u (.record fields) ∧ b.findField name fields = .ok (some x) ∧
      b.HasType e t ∧ node.type = some t

/-- A type is the same as itself. -/
theorem Arena.Sound.sameType_self (h : a.Sound) {t : TypeId} (hhas : a.Has (.type t)) :
    a.sameType t t = .ok true := by
  obtain ⟨r, node, hr, -⟩ := h.resolved t hhas
  simp [sameType, sameWithin, hr, bind, Except.bind, pure, Except.pure]

section

variable {nodes : List Visit} {outcome : PassOutcome}

/-- A complaint is about an expression that no rule gives a type. -/
theorem Arena.Complains.not_hasType {e : ExpressionId} (h : a.Complains e) (hforest : b.IsForest nodes)
    (hannotated : b.Annotated) (ha : b.RefinedBy a) (hreaches : b.Reaches .program (.expression e)) :
    ¬ b.IsField e ∧ ∀ t, ¬ b.HasType e t := by
  obtain ⟨a', cause, ha', hsound, herror, hbelow⟩ := h
  have hgrown : b.Grown a' := ⟨ha.trans ha', hsound⟩
  have hnone : ∀ d, ¬ Gives (a'.deriveType e) d := fun d hd => nomatch herror.symm.trans hd
  obtain ⟨node, hget⟩ := exists_of_has e (hforest.has_of_reaches hreaches nofun)
  have hfield : ¬ b.IsField e := by
    intro hfield
    obtain ⟨field, name, target, hf, hname⟩ :=
      hsound.bound.named e (hgrown.refined.isField_iff.2 hfield)
    cases target with
    | none =>
        refine hnone (.plain field.type) ((gives_get hf).2 ?_)
        rw [hname]
        exact gives_pure.2 rfl
    | some x =>
        obtain ⟨type, htype⟩ := hsound.closed.exists_variableType (hsound.closed.variable hf hname)
        refine hnone (.plain type) ((gives_get hf).2 ?_)
        rw [hname]
        exact (gives_read htype).2 (gives_pure.2 rfl)
  refine ⟨hfield, fun t ht => ?_⟩
  have hjudged : ∀ o ∈ Node.slots .expression node, ∃ t, b.Judged a' o t := by
    intro o ho
    have hchild : Visit.expression o ∈ b.children (.expression e) := by
      rw [Visit.expression_eq e, children_of_get? hget]
      exact Node.slots_subset .expression node ho
    refine exists_judged hforest hannotated ha (hreaches.tail hchild) (hgrown.not_isField hget ho) ?_
    intro o' ho' hnot
    refine hbelow o' ?_ (ha.isField_iff.not.2 hnot)
    rw [ha.children_eq, Under, ha.reaches_eq]
    exact ⟨_, hchild, ho'⟩
  obtain ⟨d, hd, -⟩ :=
    (hgrown.finds_hasType hannotated hreaches hfield hget hjudged).complete t ht
  exact hnone d hd

/-- A name behind a point is bound to the field that the rule of the access names. -/
theorem exists_bound (hforest : b.IsForest nodes) (hannotated : b.Annotated) (ha : b.Grown a)
    {last : Arena} (htyped : ∀ e, b.Reaches .program (.expression e) → ¬ b.IsField e → a.Typed last e)
    {e left f : ExpressionId} (hreaches : b.Reaches .program (.expression e)) {member : Expression}
    (hget : b.get? e = some member) (hkind : member.kind = .binary .member left f) :
    ∃ node name x u fields t, last.get? f = some node ∧ node.kind = .identifier name (some x) ∧
      b.HasType left u ∧ b.Means u (.record fields) ∧ b.findField name fields = .ok (some x) ∧
      b.HasType e t ∧ node.type = some t := by
  have hbelow : ∀ o ∈ member.kind.operands, b.Reaches (.expression e) (.expression o) := by
    intro o ho
    refine .single ?_
    rw [Visit.expression_eq e, children_of_get? hget]
    exact List.mem_map_of_mem ho
  rw [hkind] at hbelow
  have hleft : left ∈ Node.slots .expression member := by
    rw [Node.slots, hkind]
    exact List.mem_cons_self
  have hoperands : ∀ o ∈ Node.slots .expression member, ∃ t, b.Judged last o t := by
    intro o ho
    obtain rfl : o = left := by
      rw [Node.slots, hkind] at ho
      exact List.mem_singleton.1 ho
    have hreaches' := hreaches.trans (hbelow o List.mem_cons_self)
    exact exists_judged hforest hannotated ha.refined hreaches' (ha.not_isField hget ho)
      fun o' ho' hnot => htyped o' (hreaches'.trans ho') hnot
  have hfield : ¬ b.IsField e := ha.not_isField_of_kind hget (by rw [hkind]; rintro _ _ ⟨⟩)
  obtain ⟨a₁, a₂, d, ha₁, hstores, hfinds, hjudged, hkept⟩ :=
    (htyped e hreaches hfield).exists_finds hforest hannotated ha.refined hreaches hfield hget hoperands
  obtain ⟨t, ht, hrule⟩ := hfinds.sound d hstores.gives
  obtain ⟨operand, u, hl, hu, hunique⟩ := exists_operand hjudged hleft
  obtain ⟨member₁, hget₁, hsame⟩ := ha₁.refined.expressions e member hget
  have hkind₁ := (hsame.kind_eq (by rw [hkind]; rintro _ _ ⟨⟩)).trans hkind
  obtain ⟨name, x, fields, node, hrecord, hfound, -, hnode, hname, htype⟩ :=
    hstores.exists_bound ha₁.sound hget₁ hkind₁ hl hu
  have hmeans := (ha₁.sound.kindOf_iff (ha₁.sound.closed.type hl hu)).1 hrecord
  rw [ha₁.refined.findField_eq] at hfound
  exact ⟨node, name, x, u, fields, t, (hkept f (hbelow f (List.mem_cons_of_mem _ List.mem_cons_self))).trans
    hnode, hname, (hunique u).2 rfl, ha₁.refined.means_iff.1 hmeans, hfound, hrule, htype.trans ht⟩

/-- **Typing a program whose names lead to declared types** is silent if and only if each expression
has a type by the rules, and then stores these types. -/
theorem typing_iff (hforest : b.IsForest nodes) (hannotated : b.Annotated) (ha : b.Grown a)
    (hrun : typing.run a = .ok outcome) :
    (outcome.diagnostics = [] ↔ b.WellTyped) ∧ (outcome.diagnostics = [] → b.TypedBy outcome.arena) := by
  obtain ⟨outcome', hrun', hgrown, hcases⟩ := exists_typing hforest ha
  obtain rfl := Except.ok.inj (hrun'.symm.trans hrun)
  rcases hcases with ⟨hsilent, htyped⟩ | ⟨hloud, e, hreaches, hcomplains⟩
  · have hjudged : ∀ e, b.Reaches .program (.expression e) → ¬ b.IsField e →
        ∃ t, b.Judged outcome'.arena e t := fun e hreaches hfield =>
      exists_judged hforest hannotated ha.refined hreaches hfield
        fun o ho hnot => htyped o (hreaches.trans ho) hnot
    refine ⟨iff_of_true hsilent fun e hreaches hfield => ?_, fun _ => ⟨fun e hreaches hfield => ?_,
      fun e member left f hreaches hget hkind => ?_⟩⟩
    · obtain ⟨t, -, hunique⟩ := hjudged e hreaches hfield
      exact ⟨t, (hunique t).2 rfl⟩
    · obtain ⟨t, ⟨node, hget, ht⟩, hunique⟩ := hjudged e hreaches hfield
      refine ⟨node, t, hget, ht, (hunique t).2 rfl, fun u hu => ?_⟩
      obtain rfl := (hunique u).1 hu
      rw [← hgrown.refined.sameType_eq]
      exact hgrown.sound.sameType_self (hgrown.sound.closed.type hget ht)
    · exact exists_bound hforest hannotated ha htyped hreaches hget hkind
  · obtain ⟨hfield, hnone⟩ := hcomplains.not_hasType hforest hannotated ha.refined hreaches
    refine ⟨iff_of_false hloud fun h => ?_, fun h => absurd h hloud⟩
    obtain ⟨t, ht⟩ := h e hreaches hfield
    exact hnone t ht

end

end

/-- In a resolved program with declared types, every name that is reached leads to a declared type. -/
theorem Arena.Resolves.annotated {nodes : List Visit} (h : a.Resolves b) (htree : a.IsTree nodes)
    (hdeclared : ∀ (x : VariableId) v, b.get? x = some v → v.declaredType ≠ none)
    (hresults : ∀ (e : ExpressionId) node name r arguments routine, b.Reaches .program (.expression e) →
      b.get? e = some node → node.kind = .call name (some r) arguments → b.get? r = some routine →
      routine.returnType ≠ none) : b.Annotated where
  declared x v hx := Option.ne_none_iff_exists'.1 (hdeclared x v hx)
  names e node name target hreaches hfield hget hkind := by
    obtain ⟨scopes, x, -, -, htarget⟩ :=
      (h.identifier_linked htree hreaches hget hkind).resolve_left hfield
    exact ⟨x, htarget⟩
  calls e node name target arguments hreaches hget hkind := by
    obtain ⟨r, rfl⟩ := h.call_linked htree hget hkind
    obtain ⟨routine, hr⟩ := exists_of_has r ((h.closed htree).routine hget hkind)
    obtain ⟨t, ht⟩ := Option.ne_none_iff_exists'.1
      (hresults e node name r arguments routine hreaches hget hkind hr)
    exact ⟨r, routine, t, rfl, hr, ht⟩

/-- **The typing pass decides well-typedness.** Take a source text whose names are resolved without a
report, in which each variable has a declared type and each called routine has a result. Wherever the
pass runs among the passes behind name resolution, it comes to its end; it is silent if and only if
each expression of the program has a type by the rules, and then it leaves these types in the tree. -/
theorem typing_decides (source : String) (hparse : (parse source).errors = []) (names : PassOutcome)
    (hnames : nameResolution.run (parse source).arena = .ok names) (hsilent : names.diagnostics = [])
    (hdeclared : ∀ (x : VariableId) v, names.arena.get? x = some v → v.declaredType ≠ none)
    (hresults : ∀ (e : ExpressionId) node name r arguments routine,
      names.arena.Reaches .program (.expression e) → names.arena.get? e = some node →
      node.kind = .call name (some r) arguments → names.arena.get? r = some routine →
      routine.returnType ≠ none)
    (passes : List Pass) (hpasses : passes ⊆ laterPasses) :
    ∃ before outcome, names.arena.after passes = .ok before ∧ typing.run before = .ok outcome ∧
      (outcome.diagnostics = [] ↔ names.arena.WellTyped) ∧
      (outcome.diagnostics = [] → names.arena.TypedBy outcome.arena) := by
  obtain ⟨nodes, htree⟩ := Parser.parse_isTree source hparse
  have hresolves := resolves_of_silent htree hnames hsilent
  have hannotated := hresolves.annotated htree hdeclared hresults
  obtain ⟨all, hforest⟩ := hresolves.exists_forest htree
  obtain ⟨before, hafter, hbefore⟩ :=
    exists_after hforest hpasses (a := names.arena) ⟨.refl _, hresolves.sound htree⟩
  obtain ⟨outcome, hrun, -⟩ := exists_typing hforest hbefore
  obtain ⟨hdecides, htyped⟩ := typing_iff hforest hannotated hbefore hrun
  exact ⟨before, outcome, hafter, hrun, hdecides, htyped⟩

/-- A program with a record, a call and an access to a field. -/
theorem typing_decides_record :
    let source := "type p is record\n  var a: integer\nend\nroutine f(): integer is\n  return 1\nend\n" ++
      "routine main(): integer is\n  var q: p\n  q.a := f() + 1\n  return q.a\nend\n"
    ∃ names before outcome, nameResolution.run (parse source).arena = .ok names ∧
      names.arena.after [callValidation, arrayLengths, constants] = .ok before ∧
      typing.run before = .ok outcome ∧ (outcome.diagnostics = [] ↔ names.arena.WellTyped) ∧
      (outcome.diagnostics = [] → names.arena.TypedBy outcome.arena) := by
  intro source
  obtain ⟨hparse, hrun⟩ : (parse source).errors = [] ∧
      (nameResolution.run (parse source).arena).map (fun names => decide (
        names.diagnostics = [] ∧ (∀ v ∈ names.arena.variableTable.toList, v.declaredType ≠ none) ∧
        ∀ routine ∈ names.arena.routineTable.toList, routine.returnType ≠ none)) = .ok true := by
    decide +kernel
  cases hnames : nameResolution.run (parse source).arena with
  | error fault =>
      rw [hnames] at hrun
      nomatch hrun
  | ok names =>
      rw [hnames] at hrun
      obtain ⟨hsilent, hdeclared, hresults⟩ := of_decide_eq_true (Except.ok.inj hrun)
      obtain ⟨before, outcome, hdone⟩ := typing_decides source hparse names hnames hsilent
        (fun x v hx => hdeclared v (Array.mem_toList_iff.2 (Array.mem_of_getElem? hx)))
        (fun e node name r arguments routine _ _ _ hr =>
          hresults routine (Array.mem_toList_iff.2 (Array.mem_of_getElem? hr)))
        [callValidation, arrayLengths, constants] (by simp [laterPasses])
      exact ⟨names, before, outcome, rfl, hdone⟩

end ProcLang
