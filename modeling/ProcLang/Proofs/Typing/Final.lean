import ProcLang.Proofs.Passes.Accepted

/-!
# ProcLang.Proofs.Typing.Final

**When the types of an accepted program are final.** Typing an accepted program once more never
replaces a type. It changes nothing, and has nothing to complain about, exactly if each name carries
the type of its variable (`typing_again`): of all expressions only names depend on what lies elsewhere
in the program.

A name need not carry the type of its variable. The passes go through a program in the order in which
it is written, and a chain of variables without declared types, each initialised with the next one, is
typed from its end. A chain that is long enough still has untyped names when the last pass is over,
and typing the program again may even find it to be wrong (`typing_again_complains`).
-/

namespace ProcLang

open Arena WalkM Judgement

variable {κ σ : Type} {a b c : Arena} {e f : ExpressionId} {d : Derivation}

/-- Each name of the program carries the type of its variable. -/
def Arena.NamesTyped (a : Arena) : Prop :=
  ∀ (e : ExpressionId) node name x, a.Reaches .program (.expression e) → a.get? e = some node →
    node.kind = .identifier name (some x) → a.variableType x = .ok node.type

/-! ### Expressions that are typed already -/

/-- Typing an expression finds what is stored. -/
structure Arena.Stable (a : Arena) (e : ExpressionId) (d : Derivation) : Prop where
  gives : Gives (a.deriveType e) d
  type : ∃ node, a.get? e = some node ∧ ∀ t, d.type = some t → node.type = some t
  field : ∀ f x, d.field = some (f, x) → ∃ node name, a.get? f = some node ∧
    node.kind = .identifier name (some x) ∧ node.type = d.type

theorem Arena.Stable.bindField_eq (h : a.Stable e d) : a.bindField d = .ok a := by
  unfold bindField
  cases hf : d.field with
  | none => rfl
  | some p =>
      obtain ⟨f, x⟩ := p
      obtain ⟨node, name, hget, hname, htype⟩ := h.field f x hf
      have hsame : { node with kind := node.kind.setVariable x, type := d.type } = node := by
        rw [hname, ← htype]
        show { node with kind := .identifier name (some x) } = node
        rw [← hname]
      simp only [modify, hget, hsame, put_of_get? hget]

/-- Typing such an expression changes nothing. -/
theorem Arena.Stable.runs {s : WalkState σ} (h : s.arena.Stable e d) (reporting : Bool) (k : κ) :
    Runs (typeExpression reporting e) k s () s := by
  have hsettle : s.arena.settleType e = .ok (.ok d.type, s.arena) := by
    have hgives : (s.arena.deriveType e).run = .ok (.ok d) := h.gives
    simp [settleType, hgives, h.bindField_eq, bind, Except.bind, pure, Except.pure]
  refine runs_inspect_bind.2 ⟨_, hsettle, runs_modify_bind.2 ?_⟩
  obtain ⟨node, hget, htype⟩ := h.type
  cases ht : d.type with
  | none => exact runs_pure.2 ⟨rfl, rfl⟩
  | some t =>
      refine runs_update.2 ⟨node, hget, ?_⟩
      have hsame : { node with type := some t } = node := by rw [← htype t ht]
      show s = s.put e { node with type := some t }
      rw [hsame, WalkState.put, put_of_get? hget]

/-- Typing changes nothing in a program whose expressions are typed already. -/
theorem typing_of_stable {nodes : List Visit} (hforest : b.IsForest nodes) (hrefined : b.RefinedBy c)
    (hstable : ∀ e, b.Reaches .program (.expression e) → ∃ d, c.Stable e d) :
    ∃ outcome, typing.run c = .ok outcome ∧ outcome.diagnostics = [] ∧ outcome.arena = c := by
  have hgoes : GoesOn b (fun s : WalkState Unit => s.arena = c ∧ s.diagnostics = #[])
      (fun _ _ _ => True) (typingVisitor true : Visitor Unit Unit) := by
    refine ⟨fun hs => hs.1 ▸ hrefined, fun _ _ => rfl, fun n v hreaches hv hready k s hs => ?_⟩
    cases v with
    | expression id =>
        obtain ⟨s', hwalk, hs', -⟩ := hready.exists_walk (c := k) hv hs
        obtain ⟨d, hd⟩ := hstable id hreaches
        rw [← hs'.1] at hd
        exact ⟨s', runs_bind.2 ⟨(), s', hwalk, runs_bind.2 ⟨(), s', hd.runs true k,
          runs_pure.2 ⟨rfl, rfl⟩⟩⟩, hs', trivial⟩
    | program | declaration | routine | «variable» | typeDecl | type | body | statement =>
        exact visits_walkThrough hready hv k s hs
  obtain ⟨s, hwalk, ⟨harena, hsilent⟩, -⟩ :=
    hgoes.exists_walkProgram hforest.within () c () ⟨rfl, rfl⟩
  exact ⟨_, run_ofVisitor.2 ⟨s, hwalk, rfl⟩, congrArg Array.toList hsilent, harena⟩

/-! ### The same operands -/

namespace Arena.RefinedBy

variable {o o' : ExpressionId}

theorem expressionKindOf_eq (h : a.RefinedBy c) (ho : c.get? o = a.get? o) :
    c.expressionKindOf o = a.expressionKindOf o := by
  simp only [expressionKindOf, Arena.get, ho, h.kindOf_eq]

theorem deriveUnary_eq (h : a.RefinedBy c) (ho : c.get? o = a.get? o) (operator : UnaryOperator) :
    c.deriveUnary operator o = a.deriveUnary operator o := by
  simp only [deriveUnary, Arena.get, ho, h.kindOf_eq]

theorem deriveBinary_eq (h : a.RefinedBy c) (ho : c.get? o = a.get? o) (ho' : c.get? o' = a.get? o')
    (operator : BinaryOperator) : c.deriveBinary operator o o' = a.deriveBinary operator o o' := by
  have hsame : c.sameTypes = a.sameTypes := by
    funext left right
    cases left with
    | none => rfl
    | some l =>
        cases right with
        | none => rfl
        | some r => exact h.sameType_eq l r
  have hknown : c.deriveKnown = a.deriveKnown := by
    funext operator l r u w
    simp only [deriveKnown, hsame]
  simp only [deriveBinary, Arena.get, ho, ho', h.kindOf_eq, hknown]

theorem deriveIndex_eq (h : a.RefinedBy c) (ho : c.get? o = a.get? o) (ho' : c.get? o' = a.get? o') :
    c.deriveIndex o o' = a.deriveIndex o o' := by
  simp only [deriveIndex, h.expressionKindOf_eq ho, h.expressionKindOf_eq ho']

/-- A member access whose record is the same, and whose field has the same type. -/
theorem gives_deriveMember (h : a.RefinedBy c) (ho : c.get? o = a.get? o)
    (hd : Gives (a.deriveMember o f) d)
    (hvariable : ∀ x, d.field = some (f, x) → c.variableType x = .ok d.type) :
    Gives (c.deriveMember o f) d := by
  obtain ⟨node, hf, hcases⟩ := deriveMember_gives hd
  obtain ⟨node', hf', hrefined⟩ := h.expressions f node hf
  refine (gives_get hf').2 ?_
  rcases hcases with ⟨hother, rfl⟩ | ⟨name, target, owner, kind, hname, howner, hkind, hcases⟩
  · rw [hrefined.kind_eq hother]
    cases hkind : node.kind with
    | identifier name target => exact absurd hkind (hother name target)
    | unary | binary | integer | real | boolean | call => exact gives_pure.2 rfl
  · obtain ⟨target', hname'⟩ := hrefined.exists_identifier hname
    rw [hname']
    have hrecord := (h.expressionKindOf_eq ho).trans (expressionKindOf_eq_ok.2 ⟨owner, howner, hkind⟩)
    refine (gives_read hrecord).2 ?_
    rcases hcases with ⟨rfl, rfl⟩ | ⟨fields, x, type, rfl, hfound, -, rfl⟩
    · exact gives_pure.2 rfl
    · exact (gives_read ((h.findField_eq _ _).trans hfound)).2
        ((gives_read (hvariable x rfl)).2 (gives_pure.2 rfl))

end Arena.RefinedBy

/-- **What is found for an expression other than a name** depends on its operands, and on the type of
the field that it gives. -/
theorem gives_of_slots (h : a.RefinedBy c) {node : Expression} (hget : a.get? e = some node)
    (hname : ∀ name target, node.kind ≠ .identifier name target)
    (hslots : ∀ o ∈ Node.slots .expression node, c.get? o = a.get? o) (hd : Gives (a.deriveType e) d)
    (hvariable : ∀ f x, d.field = some (f, x) → c.variableType x = .ok d.type) :
    Gives (c.deriveType e) d := by
  obtain ⟨node', hget', hrefined⟩ := h.expressions e node hget
  have hd := (gives_get hget).1 hd
  refine (gives_get hget').2 ?_
  rw [hrefined.kind_eq hname]
  cases hkind : node.kind with
  | integer | real | boolean =>
      rw [hkind] at hd
      exact hd
  | identifier name target => exact absurd hkind (hname name target)
  | call name target arguments =>
      rw [hkind] at hd
      cases target with
      | none => exact hd
      | some r =>
          obtain ⟨routine, hr, hd⟩ := gives_node_bind.1 hd
          exact (gives_get ((h.get?_eq .routine nofun r).trans hr)).2 hd
  | unary operator operand =>
      rw [hkind] at hd
      rw [Node.slots, hkind] at hslots
      show Gives (c.deriveUnary operator operand) d
      rw [h.deriveUnary_eq (hslots operand List.mem_cons_self)]
      exact hd
  | binary operator left right =>
      rw [hkind] at hd
      rw [Node.slots, hkind] at hslots
      cases operator with
      | member =>
          exact h.gives_deriveMember (hslots left List.mem_cons_self) hd fun x => hvariable right x
      | index =>
          show Gives (c.deriveIndex left right) d
          rw [h.deriveIndex_eq (hslots left List.mem_cons_self)
            (hslots right (List.mem_cons_of_mem _ List.mem_cons_self))]
          exact hd
      | or | xor | and | equal | notEqual | less | lessEqual | greater | greaterEqual | add
      | subtract | multiply | divide | modulo =>
          show Gives (c.deriveBinary _ left right) d
          rw [h.deriveBinary_eq (hslots left List.mem_cons_self)
            (hslots right (List.mem_cons_of_mem _ List.mem_cons_self))]
          exact hd

/-! ### Names -/

section

variable {nodes : List Visit} {before : Arena}

theorem stable_of_namesTyped (hforest : b.IsForest nodes) (hbefore : b.Grown before) (hlast : b.Grown c)
    (htyped : ∀ e, b.Reaches .program (.expression e) → ¬ b.IsField e → before.Typed c e)
    (hnames : c.NamesTyped) (hreaches : b.Reaches .program (.expression e)) : ∃ d, c.Stable e d := by
  obtain ⟨old, hold⟩ := exists_of_has e (hforest.has_of_reaches hreaches nofun)
  obtain ⟨node, hget, hsame⟩ := hlast.refined.expressions e old hold
  by_cases hname : ∃ name target, node.kind = .identifier name target
  · obtain ⟨name, target, hname⟩ := hname
    refine ⟨.plain node.type, ?_, ⟨node, hget, fun _ ht => ht⟩, nofun⟩
    refine (gives_get hget).2 ?_
    rw [hname]
    cases target with
    | none => exact gives_pure.2 rfl
    | some x =>
        rw [← hlast.refined.reaches_eq] at hreaches
        exact (gives_read (hnames e node name x hreaches hget hname)).2 (gives_pure.2 rfl)
  · have hother : ∀ name target, old.kind ≠ .identifier name target := by
      intro name target heq
      obtain ⟨target', hname'⟩ := hsame.exists_identifier heq
      exact hname ⟨name, target', hname'⟩
    have hfield := hlast.not_isField_of_kind hold hother
    obtain ⟨a, a', d, -, ha, hstores, hafter, hslots, hkept⟩ :=
      (htyped e hreaches hfield).exists_stores hforest hbefore.refined hreaches hold
    obtain ⟨node₁, hget₁, hsame₁⟩ := ha.refined.expressions e old hold
    rw [← hsame₁.slots] at hslots
    have hkind₁ := hsame₁.kind_eq hother
    have hbelow : ∀ f x, d.field = some (f, x) → b.Reaches (.expression e) (.expression f) :=
      fun f x hf => .single (field_mem_children ha.refined hstores.gives hf)
    -- a field was bound, and stays bound
    have hbound : ∀ f x, d.field = some (f, x) → ∃ field name, c.get? f = some field ∧
        field.kind = .identifier name (some x) ∧ field.type = d.type := by
      intro f x hf
      obtain ⟨field, name, hfield, hname, htype⟩ := hstores.field f x hf
      exact ⟨field, name, (hkept f (hbelow f x hf)).trans hfield, hname, htype⟩
    refine ⟨d, ?_, ?_, hbound⟩
    · refine gives_of_slots (hstores.refined.trans hafter) hget₁ (hkind₁ ▸ hother) hslots
        hstores.gives fun f x hf => ?_
      obtain ⟨field, name, hfield, hname, htype⟩ := hbound f x hf
      rw [← htype]
      refine hnames f field name x ?_ hfield hname
      rw [hlast.refined.reaches_eq]
      exact hreaches.trans (hbelow f x hf)
    · obtain ⟨stored, hstored, htype⟩ := hstores.type (ha.refined.isField_iff.not.2 hfield)
      exact ⟨stored, (hkept e .refl).trans hstored, fun t ht => htype.trans ht⟩

/-- A variable has the same type in two trees each of which refines the other. -/
theorem variableType_of_refined (hca : c.RefinedBy a) (hac : a.RefinedBy c) (hc : c.Sound) (ha : a.Sound)
    {x : VariableId} {type : Option TypeId} (hx : a.variableType x = .ok type) :
    c.variableType x = .ok type := by
  obtain ⟨v, hv, -⟩ := variableType_ok hx
  obtain ⟨type', hx'⟩ := hc.closed.exists_variableType
    (show c.Has (Visit.of x) from hac.has_iff.2 (has_of_get? hv))
  rw [hx']
  cases type with
  | some t => rw [hac.variableType_eq ha.consistent.separate hx hx']
  | none =>
      cases type' with
      | none => rfl
      | some t => nomatch hca.variableType_eq hc.consistent.separate hx' hx

theorem namesTyped_of_unchanged (hforest : b.IsForest nodes) (hlast : b.Grown c)
    (htyped : ∀ e, b.Reaches .program (.expression e) → ¬ b.IsField e → c.Typed c e)
    (haccess : ∀ {access left f : ExpressionId} {member : Expression},
      b.Reaches .program (.expression f) → b.get? access = some member →
      member.kind = .binary .member left f → b.Reaches .program (.expression access)) :
    c.NamesTyped := by
  intro e node name x hreaches hget hkind
  rw [hlast.refined.reaches_eq] at hreaches
  obtain ⟨old, hold, hsame⟩ := hlast.refined.exists_get? hget
  by_cases hfield : b.IsField e
  · obtain ⟨access, member, left, hmember, hmkind⟩ := hfield
    have hreaches' := haccess hreaches hmember hmkind
    have hother : ∀ name target, member.kind ≠ .identifier name target := by
      rw [hmkind]
      nofun
    obtain ⟨a, a', d, hca, ha, hstores, hac, hslots, hkept⟩ :=
      (htyped access hreaches' (hlast.not_isField_of_kind hmember hother)).exists_stores hforest
        hlast.refined hreaches' hmember
    -- the record is known, since the name behind the point is bound
    obtain ⟨member', hmember', hsame'⟩ := hlast.refined.expressions access member hmember
    have hmkind' := (hsame'.kind_eq hother).trans hmkind
    obtain ⟨record, fields, hrecord, hknown, -⟩ :=
      hlast.sound.bound.linked access member' left e node name x hmember' hmkind' hget hkind
    obtain ⟨t, ht⟩ : ∃ t, record.type = some t := by
      cases ht : record.type with
      | none =>
          rw [ht] at hknown
          nomatch hknown
      | some t => exact ⟨t, rfl⟩
    have hrecord' : a.get? left = some record := by
      refine (hslots left ?_).symm.trans hrecord
      rw [Node.slots, hmkind]
      exact List.mem_cons_self
    obtain ⟨member₁, hmember₁, hsame₁⟩ := ha.refined.expressions access member hmember
    obtain ⟨name', x', fields', field, -, -, htype, hfield, hname, hstored⟩ :=
      hstores.exists_bound ha.sound hmember₁ ((hsame₁.kind_eq hother).trans hmkind) hrecord' ht
    have hbelow : b.Reaches (.expression access) (.expression e) := by
      refine .single ?_
      rw [Visit.expression_eq access, children_of_get? hmember, Node.children, hmkind]
      exact List.mem_cons_of_mem _ List.mem_cons_self
    obtain rfl := Option.some.inj (hfield.symm.trans ((hkept e hbelow).symm.trans hget))
    cases hname.symm.trans hkind
    rw [hstored]
    exact variableType_of_refined hca (hstores.refined.trans hac) hlast.sound ha.sound htype
  · obtain ⟨a, a', d, hca, ha, hstores, hac, hslots, hkept⟩ :=
      (htyped e hreaches hfield).exists_stores hforest hlast.refined hreaches hold
    obtain ⟨node', hget', htype⟩ := hstores.type (ha.refined.isField_iff.not.2 hfield)
    obtain rfl := Option.some.inj (hget'.symm.trans ((hkept e .refl).symm.trans hget))
    obtain ⟨node₁, hget₁, hgives⟩ := gives_node_bind.1 hstores.gives
    rw [ha.refined.kind_eq hfield hold hget₁, ← hlast.refined.kind_eq hfield hold hget, hkind] at hgives
    obtain ⟨found, hfound, hgives⟩ := gives_lift_bind.1 hgives
    rw [gives_pure.1 hgives] at htype
    rw [htype]
    exact variableType_of_refined hca (hstores.refined.trans hac) hlast.sound ha.sound hfound

end

/-- **Typing an accepted program once more** replaces no type; it is silent and changes nothing if and
only if each name carries the type of its variable. -/
theorem typing_again (source : String) (haltOnError : Bool) (c : Compilation)
    (hcompile : compile source haltOnError = .ok c) (hsilent : c.diagnostics = []) :
    ∃ outcome, typing.run c.arena = .ok outcome ∧ c.arena.RefinedBy outcome.arena ∧
      (outcome.diagnostics = [] ∧ outcome.arena = c.arena ↔ c.arena.NamesTyped) := by
  obtain ⟨nodes, all, b, before, htree, hresolves, hforest, hbefore, hlast, htyped⟩ :=
    compile_grown hcompile hsilent
  obtain ⟨outcome, hrun, -, hcases⟩ := exists_typing hforest hlast
  refine ⟨outcome, hrun, ?_, ?_⟩
  · exact (refining_laterPasses typing (by simp) _ outcome hrun hlast.sound.consistent).2
  · constructor
    · rintro ⟨hclean, hsame⟩
      rcases hcases with ⟨-, hagain⟩ | ⟨hloud, -⟩
      · exact namesTyped_of_unchanged hforest hlast (hsame ▸ hagain) (hresolves.reaches_access htree)
      · exact absurd hclean hloud
    · intro hnames
      obtain ⟨outcome', hrun', hclean, hsame⟩ := typing_of_stable hforest hlast.refined fun e hreaches =>
        stable_of_namesTyped hforest hbefore hlast htyped hnames hreaches
      obtain rfl := Except.ok.inj (hrun'.symm.trans hrun)
      exact ⟨hclean, hsame⟩

/-- A chain of variables without declared types that the passes come to the end of. -/
theorem typing_again_chain :
    let source := "var a is b\nvar b is c\nvar c is true\n"
    ∃ c : Compilation, compile source true = .ok c ∧ c.diagnostics = [] ∧
      ∃ outcome, typing.run c.arena = .ok outcome ∧ c.arena.RefinedBy outcome.arena ∧
        (outcome.diagnostics = [] ∧ outcome.arena = c.arena ↔ c.arena.NamesTyped) := by
  intro source
  have hrun : (compile source true).map Analysis.diagnostics = .ok [] := by decide +kernel
  cases hcompile : compile source true with
  | error fault =>
      rw [hcompile] at hrun
      nomatch hrun
  | ok c =>
      rw [hcompile] at hrun
      have hsilent : c.diagnostics = [] := Except.ok.inj hrun
      exact ⟨c, rfl, hsilent, typing_again source true c hcompile hsilent⟩

/-- **The types of an accepted program need not be final**: here the sum is found to be wrong when the
program is typed once more, since only then the type of its first operand is known. -/
theorem typing_again_complains : ¬ ∀ (source : String) (haltOnError : Bool) (c : Compilation),
    compile source haltOnError = .ok c → c.diagnostics = [] →
      ∃ outcome, typing.run c.arena = .ok outcome ∧ outcome.diagnostics = [] := by
  intro hall
  let source := "var a is b + 1\nvar b is c\nvar c is d\nvar d is true\n"
  have hrun : (do
      let c ← compile source true
      let outcome ← typing.run c.arena
      return decide (c.diagnostics = [] ∧ outcome.diagnostics ≠ []) : Except Fault Bool) = .ok true := by
    decide +kernel
  cases hcompile : compile source true with
  | error fault =>
      rw [hcompile] at hrun
      nomatch hrun
  | ok c =>
      cases htyping : typing.run c.arena with
      | error fault =>
          rw [hcompile] at hrun
          simp only [bind, Except.bind, htyping] at hrun
          nomatch hrun
      | ok outcome =>
          rw [hcompile] at hrun
          simp only [bind, Except.bind, htyping] at hrun
          obtain ⟨hsilent, hloud⟩ := of_decide_eq_true (Except.ok.inj hrun)
          obtain ⟨outcome', hrun', hclean⟩ := hall source true c hcompile hsilent
          obtain rfl := Except.ok.inj (hrun'.symm.trans htyping)
          exact hloud hclean

end ProcLang
