import ProcLang.Proofs.Typing.Sound
import ProcLang.Proofs.Walk.Total

/-!
# ProcLang.Proofs.Typing.Pass

**What typing does to a tree.** Typing one expression stores what was found and changes nothing else,
or finds a cause to complain (`Coherent.exists_typeExpression`). So typing comes to its end on all
coherent trees (`exists_typing_of_coherent`).

In a resolved tree more is known. An expression is typed behind its operands, and what is below it is
not touched again; so at the end of the pass it still has the type that was found for it then (`Typed`),
and the first complaint is about an expression whose operands were all typed (`Complains`).
-/

namespace ProcLang

open Arena WalkM Judgement

variable {κ σ : Type} {a a' b first last : Arena} {id : ExpressionId} {d : Derivation}
  {c : κ} {s s₁ s' : WalkState σ}

/-! ### One expression -/

/-- From the tree `a` to the tree `a'`, what was found for an expression was stored, and nothing
else. -/
structure Arena.Stores (a a' : Arena) (id : ExpressionId) (d : Derivation) : Prop where
  gives : Gives (a.deriveType id) d
  refined : a.RefinedBy a'
  others : ∀ e : ExpressionId, e ≠ id → (∀ x, d.field ≠ some (e, x)) → a'.get? e = a.get? e
  type : ¬ a.IsField id → ∃ node, a'.get? id = some node ∧ node.type = d.type
  field : ∀ f x, d.field = some (f, x) → ∃ node name, a'.get? f = some node ∧
    node.kind = .identifier name (some x) ∧ node.type = d.type

namespace Arena.Coherent

/-- The field that was found can be bound. -/
theorem exists_bindField (h : a.Coherent) (hd : Gives (a.deriveType id) d) :
    ∃ a', a.bindField d = .ok a' ∧ a.Extends a' ∧
      (∀ e : ExpressionId, (∀ x, d.field ≠ some (e, x)) → a'.get? e = a.get? e) ∧
      ∀ f x, d.field = some (f, x) → ∃ node name, a'.get? f = some node ∧
        node.kind = .identifier name (some x) ∧ node.type = d.type := by
  unfold bindField
  cases hf : d.field with
  | none => exact ⟨a, rfl, .refl h, fun _ _ => rfl, nofun⟩
  | some p =>
      obtain ⟨f, x⟩ := p
      obtain ⟨member, left, node, name, target, owner, fields, hmember, hkind, hget, hname, howner,
        hrecord, hfound, -⟩ := member_of_gives hd hf
      have hfield : a.IsField f := ⟨id, member, left, hmember, hkind⟩
      have hbound : node.kind.setVariable x = .identifier name (some x) := by
        rw [hname]
        rfl
      have hrefined : node.RefinedBy (a.IsField f)
          { node with kind := node.kind.setVariable x, type := d.type } :=
        ⟨rfl, Or.inr ⟨hfield, name, target, some x, hname, hbound⟩, Or.inl hfield⟩
      refine ⟨a.put f { node with kind := node.kind.setVariable x, type := d.type }, ?_, ?_,
        fun e he => ?_, fun f' x' hf' => ?_⟩
      · simp only [modify, hget]
      · refine h.put hget hrefined (absurd hfield) (Or.inr fun hsound => ?_) fun v hv => ?_
        · -- a name is behind one point only, so it is the field of this record
          intro e other left' name' x' hother hkind' hname'
          obtain rfl := hsound.bound.owned e id other member left' left f hother hkind' hmember hkind
          obtain rfl := Option.some.inj (hother.symm.trans hmember)
          cases hkind'.symm.trans hkind
          cases hbound.symm.trans hname'
          exact ⟨owner, fields, howner, hrecord, hfound⟩
        · obtain ⟨htype, hvariable⟩ := h.has_of_gives hd
          rcases List.mem_append.1 hv with hv | hv
          · obtain ⟨t, ht, rfl⟩ := List.mem_map.1 hv
            exact htype t (Option.mem_toList.1 ht)
          · rw [hbound] at hv
            rw [List.mem_singleton.1 hv]
            exact hvariable f x hf
      · have hne : e ≠ f := fun heq => he x (by rw [heq])
        exact get?_put_of_id_ne a hne _
      · cases hf'
        exact ⟨_, name, get?_put_self hget _, hbound, rfl⟩

/-- When the field is bound, the type that was found can be stored. -/
theorem exists_stores (h : a.Coherent) {node : Expression} (hget : a.get? id = some node)
    (hd : Gives (a.deriveType id) d) :
    ∃ a', a.bindField d = .ok a' ∧ a'.get? id = some node ∧
      (d.type = none → a.Extends a' ∧ a.Stores a' id d) ∧
      ∀ t, d.type = some t → a.Extends (a'.put id { node with type := some t }) ∧
        a.Stores (a'.put id { node with type := some t }) id d := by
  obtain ⟨a', hbind, hextends, hothers, hfield⟩ := h.exists_bindField hd
  have hrefined := hextends.refined
  -- the expression is no name behind a point
  have hown : ∀ x, d.field ≠ some (id, x) := by
    intro x hf
    obtain ⟨member, left, field, name, target, owner, fields, hmember, hkind, hnode, hname, -⟩ :=
      member_of_gives hd hf
    obtain rfl := Option.some.inj (hmember.symm.trans hnode)
    nomatch hkind.symm.trans hname
  have hget' : a'.get? id = some node := (hothers id hown).trans hget
  -- a type that was stored before is the one that was found now
  have hkept : ¬ a.IsField id → ∀ t, node.type = some t → d.type = some t := fun hnot t ht =>
    h.consistent.settled id node t hnot hget ht _ (.refl _) d hd
  refine ⟨a', hbind, hget', fun ht => ⟨hextends, hd, hrefined, fun e _ => hothers e, fun hnot => ?_,
    hfield⟩, fun t ht => ?_⟩
  · refine ⟨node, hget', ?_⟩
    cases hstored : node.type with
    | none => exact ht.symm
    | some t => exact (hkept hnot t hstored).symm
  · have hstore : node.RefinedBy (a'.IsField id) { node with type := some t } := by
      refine ⟨rfl, Or.inl rfl, or_iff_not_imp_left.2 fun hnot t' ht' => ?_⟩
      rw [hrefined.isField_iff] at hnot
      exact ht.symm.trans (hkept hnot t' ht')
    have hsettled : ¬ a'.IsField id → ∀ t', some t = some t' → a'.Settled id t' := by
      intro hnot t' ht'
      rw [hrefined.isField_iff] at hnot
      exact (h.consistent.settled_of_gives hnot hd (ht.trans ht')).refine hrefined
    have hput : a'.Extends (a'.put id { node with type := some t }) := by
      refine hextends.coherent.put hget' hstore hsettled (Or.inl rfl) fun v hv => ?_
      rcases List.mem_append.1 hv with hv | hv
      · obtain ⟨t', ht', rfl⟩ := List.mem_map.1 hv
        exact hrefined.has_iff.2 ((h.has_of_gives hd).1 t' (ht.trans (Option.mem_toList.1 ht')))
      · exact hextends.coherent.closed .expression id node hget' v
          (List.mem_append_right _ (List.mem_append_right _ hv))
    refine ⟨hextends.trans hput, hd, hrefined.trans hput.refined, fun e hne he => ?_,
      fun _ => ⟨_, get?_put_self hget' _, ht.symm⟩, fun f x hf => ?_⟩
    · exact (get?_put_of_id_ne a' hne _).trans (hothers e he)
    · obtain ⟨field, name, hfield, hname⟩ := hfield f x hf
      have hne : f ≠ id := fun heq => hown x (by rw [hf, heq])
      exact ⟨field, name, (get?_put_of_id_ne a' hne _).trans hfield, hname⟩

/-- **Typing an expression** stores what was found, or finds a cause to complain. -/
theorem exists_typeExpression (h : s.arena.Coherent) {node : Expression}
    (hget : s.arena.get? id = some node) (reporting : Bool) (c : κ) :
    ∃ s', Runs (typeExpression reporting id) c s () s' ∧ s.arena.Extends s'.arena ∧
      ((∃ d, s.arena.Stores s'.arena id d ∧ s'.diagnostics = s.diagnostics) ∨
        ∃ cause, (s.arena.deriveType id).run = .ok (.error cause) ∧ s'.arena = s.arena ∧
          s'.diagnostics = if reporting then s.diagnostics.push ⟨cause, node.span.start⟩
            else s.diagnostics) := by
  obtain ⟨outcome, houtcome⟩ := h.closed.decides_deriveType hget
  cases outcome with
  | error cause =>
      have hsettle : s.arena.settleType id = .ok (.error cause, s.arena) := by
        simp [settleType, houtcome, bind, Except.bind, pure, Except.pure]
      cases reporting with
      | true =>
          refine ⟨s.reported cause node.span.start, ?_, .refl h, Or.inr ⟨cause, houtcome, rfl, rfl⟩⟩
          exact runs_inspect_bind.2 ⟨_, hsettle, runs_modify_bind.2
            (runs_node_bind.2 ⟨node, hget, runs_report.2 rfl⟩)⟩
      | false =>
          refine ⟨s, ?_, .refl h, Or.inr ⟨cause, houtcome, rfl, rfl⟩⟩
          exact runs_inspect_bind.2 ⟨_, hsettle, runs_modify_bind.2 (runs_pure.2 ⟨rfl, rfl⟩)⟩
  | ok d =>
      obtain ⟨a', hbind, hget', hnone, hsome⟩ := h.exists_stores hget houtcome
      have hsettle : s.arena.settleType id = .ok (.ok d.type, a') := by
        simp [settleType, houtcome, hbind, bind, Except.bind, pure, Except.pure]
      cases ht : d.type with
      | none =>
          obtain ⟨hextends, hstores⟩ := hnone ht
          refine ⟨{ s with arena := a' }, ?_, hextends, Or.inl ⟨d, hstores, rfl⟩⟩
          refine runs_inspect_bind.2 ⟨_, hsettle, runs_modify_bind.2 ?_⟩
          rw [ht]
          exact runs_pure.2 ⟨rfl, rfl⟩
      | some t =>
          obtain ⟨hextends, hstores⟩ := hsome t ht
          refine ⟨{ s with arena := a'.put id { node with type := some t } }, ?_, hextends,
            Or.inl ⟨d, hstores, rfl⟩⟩
          refine runs_inspect_bind.2 ⟨_, hsettle, runs_modify_bind.2 ?_⟩
          rw [ht]
          exact runs_update.2 ⟨node, hget', rfl⟩

end Arena.Coherent

/-- **A member access whose record is known binds the name behind its point** to the field of this
name, and gives it the type of the field. -/
theorem Arena.Stores.exists_bound (h : a.Stores a' id d) (hsound : a.Sound) {member : Expression}
    {left f : ExpressionId} (hget : a.get? id = some member)
    (hkind : member.kind = .binary .member left f) {record : Expression} {t : TypeId}
    (hleft : a.get? left = some record) (ht : record.type = some t) :
    ∃ name x fields node, a.kindOf (some t) = .ok (some (.record fields)) ∧
      a.findField name fields = .ok (some x) ∧ a.variableType x = .ok d.type ∧
      a'.get? f = some node ∧ node.kind = .identifier name (some x) ∧ node.type = d.type := by
  obtain ⟨member', hget', hgives⟩ := gives_node_bind.1 h.gives
  obtain rfl := Option.some.inj (hget.symm.trans hget')
  rw [hkind] at hgives
  obtain ⟨field, hf, hcases⟩ := deriveMember_gives hgives
  obtain ⟨field', name, target, hf', hname⟩ := hsound.bound.named f ⟨id, member, left, hget, hkind⟩
  obtain rfl := Option.some.inj (hf.symm.trans hf')
  rcases hcases with ⟨hother, -⟩ | ⟨name', target', owner, kind, hname', howner, hkindOf, hcases⟩
  · exact absurd hname (hother name target)
  cases hname.symm.trans hname'
  obtain rfl := Option.some.inj (hleft.symm.trans howner)
  rw [ht] at hkindOf
  rcases hcases with ⟨rfl, -⟩ | ⟨fields, x, type, rfl, hfound, htype, rfl⟩
  · obtain ⟨r, node, -, hknown, -⟩ := hsound.kindOf_some (hsound.closed.type hleft ht)
    nomatch hkindOf.symm.trans hknown
  obtain ⟨node, name', hnode, hname', hfield⟩ := h.field f x rfl
  -- binding a name does not change it
  obtain ⟨node', hnode', hrefined⟩ := h.refined.expressions f field hf
  obtain rfl := Option.some.inj (hnode'.symm.trans hnode)
  obtain ⟨target', hname''⟩ := hrefined.exists_identifier hname
  cases hname''.symm.trans hname'
  exact ⟨name, x, fields, node', hkindOf, hfound, htype, hnode, hname', hfield⟩

/-- A field is bound at a name right below the access. -/
theorem field_mem_children (hrefined : b.RefinedBy a) (hd : Gives (a.deriveType id) d) {f : ExpressionId}
    {x : VariableId} (hf : d.field = some (f, x)) : .expression f ∈ b.children (.expression id) := by
  obtain ⟨member, left, -, -, -, -, -, hmember, hkind, -⟩ := member_of_gives hd hf
  rw [← hrefined.children_eq, Visit.expression_eq id, children_of_get? hmember,
    Node.children, hkind]
  exact List.mem_cons_of_mem _ List.mem_cons_self

/-! ### What stays of it -/

/-- An expression was typed on the way from one tree to another, and what is below it is still as it
was then. -/
def Arena.Typed (first last : Arena) (e : ExpressionId) : Prop :=
  ∃ a a' d, first.RefinedBy a ∧ a.Sound ∧ a.Stores a' e d ∧ a'.RefinedBy last ∧
    ∀ o, first.Reaches (.expression e) (.expression o) → last.get? o = a'.get? o

/-- When an expression was typed, its operands were as they are in the end. -/
theorem Arena.Typed.exists_stores {nodes : List Visit} {e : ExpressionId} (h : first.Typed last e)
    (hforest : b.IsForest nodes) (hfirst : b.RefinedBy first)
    (hreaches : b.Reaches .program (.expression e)) {node : Expression} (hget : b.get? e = some node) :
    ∃ a a' d, first.RefinedBy a ∧ b.Grown a ∧ a.Stores a' e d ∧ a'.RefinedBy last ∧
      (∀ o ∈ Node.slots .expression node, last.get? o = a.get? o) ∧
      ∀ o, b.Reaches (.expression e) (.expression o) → last.get? o = a'.get? o := by
  obtain ⟨a, a', d, ha, hsound, hstores, hlast, hkept⟩ := h
  have hgrown : b.Grown a := ⟨hfirst.trans ha, hsound⟩
  rw [hfirst.reaches_eq] at hkept
  refine ⟨a, a', d, ha, hgrown, hstores, hlast, fun o ho => ?_, hkept⟩
  have hchild : Visit.expression o ∈ b.children (.expression e) := by
    rw [Visit.expression_eq e, children_of_get? hget]
    exact Node.slots_subset .expression node ho
  have hother : o ≠ e := by
    rintro rfl
    exact hforest.not_under_children hreaches ⟨_, hchild, .refl⟩
  refine (hkept o (.single hchild)).trans (hstores.others o hother fun x hx => ?_)
  exact hgrown.not_isField hget ho (hgrown.refined.isField_iff.1 (isField_of_gives hstores.gives hx))

/-- On the way a cause was found to complain about an expression, when all below it was typed. -/
def Arena.Complains (first : Arena) (e : ExpressionId) : Prop :=
  ∃ a cause, first.RefinedBy a ∧ a.Sound ∧ (a.deriveType e).run = .ok (.error cause) ∧
    ∀ o, first.Under (first.children (.expression e)) (.expression o) → ¬ first.IsField o →
      first.Typed a o

/-- What begins later is a part of the way. -/
theorem Arena.Typed.earlier {e : ExpressionId} (h : a.Typed last e) (hrefined : first.RefinedBy a) :
    first.Typed last e := by
  obtain ⟨a₁, a', d, ha, hsound, hstores, hlast, hkept⟩ := h
  exact ⟨a₁, a', d, hrefined.trans ha, hsound, hstores, hlast, fun o ho =>
    hkept o (by rwa [hrefined.reaches_eq])⟩

theorem Arena.Typed.later {e : ExpressionId} (h : first.Typed a e) (hrefined : a.RefinedBy last)
    (hkept : ∀ o, first.Reaches (.expression e) (.expression o) → last.get? o = a.get? o) :
    first.Typed last e := by
  obtain ⟨a₁, a', d, ha, hsound, hstores, hlast, hbelow⟩ := h
  exact ⟨a₁, a', d, ha, hsound, hstores, hlast.trans hrefined, fun o ho =>
    (hkept o ho).trans (hbelow o ho)⟩

theorem Arena.Complains.earlier {e : ExpressionId} (h : a.Complains e)
    (hrefined : first.RefinedBy a) : first.Complains e := by
  obtain ⟨a₁, cause, ha, hsound, herror, hbelow⟩ := h
  refine ⟨a₁, cause, hrefined.trans ha, hsound, herror, fun o ho hfield => ?_⟩
  refine Typed.earlier (hbelow o ?_ (hrefined.isField_iff.not.2 hfield)) hrefined
  rwa [hrefined.children_eq, Under, hrefined.reaches_eq]

/-! ### The pass -/

/-- Between two states all expressions at or below some nodes were typed, one after the other: without
a complaint, or up to one. -/
structure TypesAll (b : Arena) (ws : List Visit) (s s' : WalkState σ) : Prop where
  base : b.RefinedBy s.arena
  refined : s.arena.RefinedBy s'.arena
  frame : ∀ e, ¬ b.Under ws (.expression e) → s'.arena.get? e = s.arena.get? e
  outcome : (s'.diagnostics = s.diagnostics ∧
      ∀ e, b.Under ws (.expression e) → ¬ b.IsField e → s.arena.Typed s'.arena e) ∨
    (s.diagnostics.size < s'.diagnostics.size ∧
      ∃ e, b.Under ws (.expression e) ∧ s.arena.Complains e)

namespace TypesAll

variable {ws all : List Visit} {v w : Visit}

theorem size_le (h : TypesAll b ws s s') : s.diagnostics.size ≤ s'.diagnostics.size := by
  rcases h.outcome with ⟨hsame, -⟩ | ⟨hlt, -⟩
  · exact Nat.le_of_eq (by rw [hsame])
  · exact Nat.le_of_lt hlt

theorem nil (hbase : b.RefinedBy s.arena) : TypesAll b [] s s :=
  ⟨hbase, .refl _, fun _ _ => rfl, Or.inl ⟨rfl, fun _ ⟨_, hmem, _⟩ => nomatch hmem⟩⟩

/-- One tree after another. -/
theorem cons (h₁ : TypesAll b [w] s s₁) (h₂ : TypesAll b ws s₁ s')
    (hspans : Spans b (w :: ws) all) (hnodup : all.Nodup) : TypesAll b (w :: ws) s s' where
  base := h₁.base
  refined := h₁.refined.trans h₂.refined
  frame e he := by
    rw [under_cons, not_or] at he
    refine (h₂.frame e he.2).trans (h₁.frame e ?_)
    rintro ⟨v, hv, hreaches⟩
    exact he.1 (List.mem_singleton.1 hv ▸ hreaches)
  outcome := by
    have hfirst : ∀ e, b.Reaches w (.expression e) → b.Under [w] (.expression e) :=
      fun e he => ⟨w, List.mem_singleton_self w, he⟩
    rcases h₁.outcome with ⟨hsilent, htyped⟩ | ⟨hlt, e, ⟨v, hv, he⟩, hcomplains⟩
    · rcases h₂.outcome with ⟨hsilent', htyped'⟩ | ⟨hlt, e, he, hcomplains⟩
      · refine Or.inl ⟨hsilent'.trans hsilent, fun e he hfield => ?_⟩
        rcases under_cons.1 he with he | he
        · refine (htyped e (hfirst e he) hfield).later h₂.refined fun o ho => h₂.frame o ?_
          rw [h₁.base.reaches_eq] at ho
          exact not_under_of_reaches hspans hnodup (he.trans ho)
        · exact (htyped' e he hfield).earlier h₁.refined
      · exact Or.inr ⟨hsilent ▸ hlt, e, under_cons.2 (Or.inr he), hcomplains.earlier h₁.refined⟩
    · rw [List.mem_singleton.1 hv] at he
      exact Or.inr ⟨Nat.lt_of_lt_of_le hlt h₂.size_le, e, under_cons.2 (Or.inl he), hcomplains⟩

/-- All trees of a forest. -/
theorem of_inTurn (h : InTurn (fun w => TypesAll b [w]) ws s s') (hbase : b.RefinedBy s.arena)
    (hspans : Spans b ws all) (hnodup : all.Nodup) : TypesAll b ws s s' := by
  induction h generalizing all with
  | nil => exact .nil hbase
  | cons first _ ih =>
      obtain ⟨xs, ys, rfl, hxs, hys⟩ := hspans.cons_inv
      exact first.cons (ih (hbase.trans first.refined) hys (List.nodup_append.1 hnodup).2.1)
        hspans hnodup

/-- A node that is no expression. -/
theorem of_children (h : TypesAll b (b.children v) s s') (hv : ∀ e, v ≠ .expression e) :
    TypesAll b [v] s s' := by
  have hunder : ∀ e, b.Under [v] (.expression e) ↔ b.Under (b.children v) (.expression e) := by
    intro e
    rw [under_cons, reaches_iff]
    constructor
    · rintro ((heq | h) | ⟨_, hmem, -⟩)
      · exact absurd heq (hv e)
      · exact h
      · nomatch hmem
    · exact fun h => Or.inl (Or.inr h)
  refine ⟨h.base, h.refined, fun e he => h.frame e ((hunder e).not.1 he), h.outcome.imp ?_ ?_⟩
  · exact And.imp_right fun htyped e he => htyped e ((hunder e).1 he)
  · exact And.imp_right fun ⟨e, he, hcomplains⟩ => ⟨e, (hunder e).2 he, hcomplains⟩

/-- An expression is typed behind its operands. -/
theorem expression (h : TypesAll b (b.children (.expression id)) s s₁)
    {below : List Visit} (hspans : Spans b (b.children (.expression id)) below)
    (hhas : b.Has (.expression id)) (hnodup : (.expression id :: below).Nodup)
    (hsound : s₁.arena.Sound) (hrefined : s₁.arena.RefinedBy s'.arena)
    (hstep : (∃ d, s₁.arena.Stores s'.arena id d ∧ s'.diagnostics = s₁.diagnostics) ∨
      ∃ cause, (s₁.arena.deriveType id).run = .ok (.error cause) ∧ s'.arena = s₁.arena ∧
        s₁.diagnostics.size < s'.diagnostics.size) : TypesAll b [.expression id] s s' := by
  have hbase₁ := h.base.trans h.refined
  have hunder : ∀ e, b.Under [.expression id] (.expression e) ↔
      e = id ∨ b.Under (b.children (.expression id)) (.expression e) := by
    intro e
    rw [under_cons, reaches_iff]
    constructor
    · rintro ((heq | h) | ⟨_, hmem, -⟩)
      · cases heq
        exact Or.inl rfl
      · exact Or.inr h
      · nomatch hmem
    · rintro (rfl | h)
      · exact Or.inl (Or.inl rfl)
      · exact Or.inl (Or.inr h)
  have hself : ∀ e, b.Under (b.children (.expression id)) (.expression e) → e ≠ id := by
    rintro e he rfl
    exact (List.nodup_cons.1 hnodup).1 (he.mem hspans)
  refine ⟨h.base, h.refined.trans hrefined, fun e he => ?_, ?_⟩
  · rw [hunder, not_or] at he
    refine Eq.trans ?_ (h.frame e he.2)
    rcases hstep with ⟨d, hstores, -⟩ | ⟨cause, -, hsame, -⟩
    · refine hstores.others e he.1 fun x hf => he.2 ?_
      exact ⟨_, field_mem_children hbase₁ hstores.gives hf, .refl⟩
    · rw [hsame]
  · rcases h.outcome with ⟨hsilent, htyped⟩ | ⟨hlt, e, he, hcomplains⟩
    · rcases hstep with ⟨d, hstores, hsame⟩ | ⟨cause, herror, -, hlt⟩
      · refine Or.inl ⟨hsame.trans hsilent, fun e he hfield => ?_⟩
        rcases (hunder e).1 he with rfl | he
        · exact ⟨s₁.arena, s'.arena, d, h.refined, hsound, hstores, .refl _, fun _ _ => rfl⟩
        · refine (htyped e he hfield).later hrefined fun o ho => ?_
          rw [h.base.reaches_eq] at ho
          obtain ⟨child, hchild, hreaches⟩ := he
          refine hstores.others o (hself o ⟨child, hchild, hreaches.trans ho⟩) fun x hf => ?_
          -- a name behind a point is below its access only
          have hof := field_mem_children hbase₁ hstores.gives hf
          have hisField := isField_of_gives hstores.gives hf
          rcases Relation.ReflTransGen.cases_tail ho with heq | ⟨p, hp, hop⟩
          · cases heq
            exact hfield (hbase₁.isField_iff.1 hisField)
          · have hmem : p ∈ below := Under.mem ⟨child, hchild, hreaches.trans hp⟩ hspans
            have hsame := (Spans.singleton hhas hspans).parent_unique hnodup
              (List.mem_cons_of_mem _ hmem) List.mem_cons_self hop hof
            exact (List.nodup_cons.1 hnodup).1 (hsame ▸ hmem)
      · refine Or.inr ⟨hsilent ▸ hlt, id, (hunder id).2 (Or.inl rfl), s₁.arena, cause, h.refined,
          hsound, herror, fun o ho hfield => ?_⟩
        rw [h.base.children_eq, Under, h.base.reaches_eq] at ho
        exact htyped o ho (h.base.isField_iff.not.1 hfield)
    · have hle : s₁.diagnostics.size ≤ s'.diagnostics.size := by
        rcases hstep with ⟨d, -, hsame⟩ | ⟨cause, -, -, hlt'⟩
        · exact Nat.le_of_eq (by rw [hsame])
        · exact Nat.le_of_lt hlt'
      exact Or.inr ⟨Nat.lt_of_lt_of_le hlt hle, e, (hunder e).2 (Or.inr he), hcomplains⟩

end TypesAll

/-- One layer of typing, behind the walk over the children. -/
theorem exists_typingLayer (reporting : Bool) {below : Visit → WalkM κ σ (Option ExpressionId)}
    {v : Visit} (hwalk : Runs (walk below v) c s () s₁) (hs₁ : s₁.arena.Coherent)
    (hv : v = .program ∨ s₁.arena.Has v) :
    ∃ s', Runs (typingVisitor reporting below v) c s none s' ∧ s₁.arena.Extends s'.arena ∧
      ((∀ e, v ≠ .expression e) ∧ s' = s₁ ∨ ∃ id, v = .expression id ∧
        ((∃ d, s₁.arena.Stores s'.arena id d ∧ s'.diagnostics = s₁.diagnostics) ∨
          ∃ cause place, (s₁.arena.deriveType id).run = .ok (.error cause) ∧ s'.arena = s₁.arena ∧
            s'.diagnostics = if reporting then s₁.diagnostics.push ⟨cause, place⟩
              else s₁.diagnostics)) := by
  by_cases hexpression : ∃ e, v = .expression e
  · obtain ⟨id, rfl⟩ := hexpression
    obtain ⟨node, hget⟩ := exists_of_has id (hv.resolve_left nofun)
    obtain ⟨s', htype, hextends, hstep⟩ := hs₁.exists_typeExpression hget reporting c
    refine ⟨s', runs_bind.2 ⟨(), s₁, hwalk, runs_bind.2 ⟨(), s', htype, runs_pure.2 ⟨rfl, rfl⟩⟩⟩,
      hextends, Or.inr ⟨id, rfl, hstep.imp_right ?_⟩⟩
    exact fun ⟨cause, herror, hsame, hreport⟩ => ⟨cause, node.span.start, herror, hsame, hreport⟩
  · have hother : ∀ e, v ≠ .expression e := fun e heq => hexpression ⟨e, heq⟩
    have hvisit : typingVisitor reporting below v = walkThrough below v := by
      cases v with
      | expression id => exact absurd rfl (hother id)
      | program | declaration | routine | «variable» | typeDecl | type | body | statement => rfl
    rw [hvisit]
    exact ⟨s₁, runs_bind.2 ⟨(), s₁, hwalk, runs_pure.2 ⟨rfl, rfl⟩⟩, .refl hs₁, Or.inl ⟨hother, rfl⟩⟩

/-- **Typing goes on at each node**, up to the end of the program. -/
theorem goesOn_typing {nodes : List Visit} (hforest : b.IsForest nodes) :
    GoesOn b (fun s : WalkState σ => b.Grown s.arena) (fun w => TypesAll b [w])
      (typingVisitor true : Visitor κ σ) := by
  refine ⟨fun hs => hs.refined, fun _ _ => rfl, fun n v hreaches hv hready c s hs => ?_⟩
  obtain ⟨below, hspans, hnodup⟩ := hforest.exists_below hreaches
  obtain ⟨s₁, hwalk, hs₁, hturns⟩ := hready.exists_walk (c := c) hv hs
  have hall := TypesAll.of_inTurn hturns hs.refined hspans (List.nodup_cons.1 hnodup).2
  obtain ⟨s', hrun, hextends, ⟨hother, rfl⟩ | ⟨id, rfl, hstep⟩⟩ :=
    exists_typingLayer true hwalk hs₁.sound.toCoherent (hv.imp_right hs₁.refined.has_iff.2)
  · exact ⟨s', hrun, hs₁, hall.of_children hother⟩
  · refine ⟨s', hrun, hs₁.extend hextends, hall.expression hspans (hv.resolve_left nofun) hnodup
      hs₁.sound hextends.refined (hstep.imp_right ?_)⟩
    rintro ⟨cause, place, herror, hsame, hreport⟩
    refine ⟨cause, herror, hsame, ?_⟩
    rw [hreport, if_pos rfl, Array.size_push]
    exact Nat.lt_succ_self _

/-- **The typing pass comes to its end.** It is silent and types each expression of the program, or it
complains about one. -/
theorem exists_typing {nodes : List Visit} (hforest : b.IsForest nodes) (ha : b.Grown a) :
    ∃ outcome, typing.run a = .ok outcome ∧ b.Grown outcome.arena ∧
      (outcome.diagnostics = [] ∧ (∀ e, b.Reaches .program (.expression e) → ¬ b.IsField e →
          a.Typed outcome.arena e) ∨
        outcome.diagnostics ≠ [] ∧ ∃ e, b.Reaches .program (.expression e) ∧ a.Complains e) := by
  obtain ⟨s, hwalk, hs, htypes⟩ := (goesOn_typing hforest).exists_walkProgram hforest.within () a () ha
  have hunder : ∀ e, b.Under [.program] (.expression e) ↔ b.Reaches .program (.expression e) := by
    simp [Under]
  simp only [← hunder]
  refine ⟨_, run_ofVisitor.2 ⟨s, hwalk, rfl⟩, hs, htypes.outcome.imp ?_ ?_⟩
  · exact And.imp_left fun hsilent => congrArg Array.toList hsilent
  · refine And.imp_left fun hlt hnone => ?_
    have hnone : s.diagnostics = #[] := Array.toList_eq_nil_iff.1 hnone
    rw [hnone] at hlt
    exact absurd hlt (Nat.not_lt_zero _)

/-- **Whatever was reported of the names**, typing goes on at each node. Without reports it adds none. -/
theorem goesOn_typing_of_coherent (reporting : Bool) :
    GoesOn b (fun s : WalkState σ => b.Extends s.arena)
      (fun _ s s' => reporting = false → s'.diagnostics = s.diagnostics)
      (typingVisitor reporting : Visitor κ σ) := by
  refine ⟨fun hs => hs.refined, fun _ _ => rfl, fun n v _ hv hready c s hs => ?_⟩
  obtain ⟨s₁, hwalk, hs₁, hturns⟩ := hready.exists_walk (c := c) hv hs
  have hbelow : ∀ {ws : List Visit} {s s' : WalkState σ},
      InTurn (fun _ s s' => reporting = false → s'.diagnostics = s.diagnostics) ws s s' →
      reporting = false → s'.diagnostics = s.diagnostics := by
    intro ws s s' h hsilent
    induction h with
    | nil => rfl
    | cons first _ ih => exact ih.trans (first hsilent)
  obtain ⟨s', hrun, hextends, hstep⟩ :=
    exists_typingLayer reporting hwalk hs₁.coherent (hv.imp_right hs₁.refined.has_iff.2)
  refine ⟨s', hrun, hs₁.trans hextends, fun hsilent => Eq.trans ?_ (hbelow hturns hsilent)⟩
  obtain ⟨-, rfl⟩ | ⟨id, -, ⟨d, -, hsame⟩ | ⟨cause, place, -, -, hreport⟩⟩ := hstep
  · rfl
  · exact hsame
  · rw [hreport, hsilent]
    rfl

/-- So the typing pass comes to its end. -/
theorem exists_typing_of_coherent {nodes : List Visit} (hforest : a.IsForest nodes)
    (hcoherent : a.Coherent) :
    ∃ outcome, typing.run a = .ok outcome ∧ a.Extends outcome.arena := by
  have hgoes : GoesOn a _ _ (typingVisitor true : Visitor Unit Unit) := goesOn_typing_of_coherent true
  obtain ⟨s, hwalk, hs, -⟩ := hgoes.exists_walkProgram hforest.within () a () (.refl hcoherent)
  exact ⟨_, run_ofVisitor.2 ⟨s, hwalk, rfl⟩, hs⟩

end ProcLang
