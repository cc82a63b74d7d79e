import ProcLang.Proofs.Typing.Derive
import ProcLang.Proofs.Walk.Steps

/-!
# ProcLang.Proofs.Typing.Consistency

**No stored type is ever replaced by another one.** In a consistent tree each type that is stored on
an expression is the one that typing finds for it, now and in every tree that more is known of
(`Settled`). Typing, and with it the passes behind name resolution, keep a tree consistent and only
refine it (`steady_typing`).
-/

namespace ProcLang

open Arena WalkM Judgement

variable {κ σ : Type} {a b : Arena}

/-! ### Settled types -/

/-- Whenever typing finds a type for an expression, it is this one. -/
def Arena.Settled (a : Arena) (id : ExpressionId) (t : TypeId) : Prop :=
  ∀ b, a.RefinedBy b → ∀ d, Gives (b.deriveType id) d → d.type = some t

/-- Each stored type is the one that typing finds. -/
structure Arena.Consistent (a : Arena) : Prop where
  separate : a.Separate
  settled : ∀ (id : ExpressionId) node t, ¬ a.IsField id → a.get? id = some node →
    node.type = some t → a.Settled id t

theorem Arena.Settled.refine {id : ExpressionId} {t : TypeId} (h : a.Settled id t)
    (hrefined : a.RefinedBy b) : b.Settled id t :=
  fun c hc => h c (hrefined.trans hc)

/-- The type that was found is settled. -/
theorem Arena.Consistent.settled_of_gives (h : a.Consistent) {id : ExpressionId}
    (hfield : ¬ a.IsField id) {d : Derivation} {t : TypeId} (hd : Gives (a.deriveType id) d)
    (ht : d.type = some t) : a.Settled id t :=
  fun _ hrefined _ hd' => hrefined.derives_eq h.separate hfield hd ht hd'

/-- A tree stays consistent when more becomes known, if the types in it are settled. -/
theorem Arena.Consistent.refine (h : a.Consistent) (hrefined : a.RefinedBy b)
    (hsettled : ∀ (id : ExpressionId) node t, ¬ a.IsField id → b.get? id = some node →
      node.type = some t → a.Settled id t) : b.Consistent where
  separate := hrefined.separate h.separate
  settled id node t hfield hget ht :=
    (hsettled id node t (hrefined.isField_iff.not.1 hfield) hget ht).refine hrefined

/-- A tree stays consistent if a node is refined by a type that is settled. -/
theorem Arena.Consistent.put (h : a.Consistent) {id : ExpressionId} {node node' : Expression}
    (hget : a.get? id = some node) (hrefined : node.RefinedBy (a.IsField id) node')
    (hsettled : ¬ a.IsField id → ∀ t, node'.type = some t → a.Settled id t) :
    (a.put id node').Consistent := by
  refine h.refine (.put hget hrefined) fun other found t hfield hfound ht => ?_
  by_cases hsame : other = id
  · subst hsame
    rw [get?_put_self hget] at hfound
    obtain rfl := Option.some.inj hfound
    exact hsettled hfield t ht
  · rw [get?_put_of_id_ne a hsame] at hfound
    exact h.settled other found t hfield hfound ht

/-! ### Runs that refine -/

/-- Between two states a consistent tree was refined and stayed consistent, and what was reported
stayed reported. The state of the visitor's own changed as `O` says. -/
structure Refines (O : σ → σ → Prop) (s s' : WalkState σ) : Prop where
  refined : s.arena.Consistent → s'.arena.Consistent ∧ s.arena.RefinedBy s'.arena
  silent : s'.diagnostics = #[] → s.diagnostics = #[]
  own : O s.own s'.own

namespace Refines

variable {O : σ → σ → Prop} {s s₁ s' : WalkState σ}

theorem refl (hO : ∀ x, O x x) (s : WalkState σ) : Refines O s s :=
  ⟨fun h => ⟨h, .refl _⟩, id, hO _⟩

theorem trans (hO : ∀ {x y z}, O x y → O y z → O x z) (h₁ : Refines O s s₁)
    (h₂ : Refines O s₁ s') : Refines O s s' where
  refined h := by
    obtain ⟨hconsistent, hrefined⟩ := h₁.refined h
    obtain ⟨hconsistent', hrefined'⟩ := h₂.refined hconsistent
    exact ⟨hconsistent', hrefined.trans hrefined'⟩
  silent h := h₁.silent (h₂.silent h)
  own := hO h₁.own h₂.own

/-- Where the own state does not change, it may as well change as `O` says. -/
theorem weaken (hO : ∀ x, O x x) (h : Refines Eq s s') : Refines O s s' :=
  ⟨h.refined, h.silent, h.own ▸ hO _⟩

theorem reported (s : WalkState σ) (cause : Cause) (place : Position) :
    Refines Eq s (s.reported cause place) :=
  ⟨fun h => ⟨h, .refl _⟩, fun h => by simp [WalkState.reported] at h, rfl⟩

theorem put {id : ExpressionId} {node node' : Expression} (hget : s.arena.get? id = some node)
    (hnode : s.arena.Consistent → node.RefinedBy (s.arena.IsField id) node' ∧
      (¬ s.arena.IsField id → ∀ t, node'.type = some t → s.arena.Settled id t)) :
    Refines Eq s (s.put id node') where
  refined h := by
    obtain ⟨hrefined, hsettled⟩ := hnode h
    exact ⟨h.put hget hrefined hsettled, .put hget hrefined⟩
  silent h := h
  own := rfl

end Refines

/-- A visitor that replaces nothing refines, if each of its layers does. -/
theorem steady_of_refines {O : σ → σ → Prop} (hrefl : ∀ x, O x x)
    (htrans : ∀ {x y z}, O x y → O y z → O x z) {visitor : Visitor κ σ}
    (hlayer : ∀ below : Visit → WalkM κ σ (Option ExpressionId), Steady (Refines O) below →
      ∀ v c s r s', Runs (visitor below v) c s r s' → r = none ∧ Refines O s s') (n : Nat) :
    Steady (Refines O) (visitWithin visitor n) :=
  .visitWithin_of_none (.refl hrefl) (.trans htrans) hlayer n

/-! ### Typing one expression -/

/-- Only a member access binds a field. What it binds is the name behind its point, to the field of
that name, and the type that it gives is the one of the field. -/
theorem member_of_gives {id : ExpressionId} {d : Derivation} {f : ExpressionId} {x : VariableId}
    (h : Gives (a.deriveType id) d) (hf : d.field = some (f, x)) :
    ∃ member left node name target owner fields, a.get? id = some member ∧
      member.kind = .binary .member left f ∧ a.get? f = some node ∧
      node.kind = .identifier name target ∧ a.get? left = some owner ∧
      a.kindOf owner.type = .ok (some (.record fields)) ∧
      a.findField name fields = .ok (some x) ∧ a.variableType x = .ok d.type := by
  obtain ⟨node, hnode, h⟩ := gives_node_bind.1 h
  cases hkind : node.kind with
  | integer | real | boolean =>
      rw [hkind] at h
      rw [gives_pure.1 h] at hf
      nomatch hf
  | identifier name target =>
      rw [hkind] at h
      cases target with
      | none =>
          rw [gives_pure.1 h] at hf
          nomatch hf
      | some y =>
          obtain ⟨type, -, h⟩ := gives_lift_bind.1 h
          rw [gives_pure.1 h] at hf
          nomatch hf
  | call name target arguments =>
      rw [hkind] at h
      cases target with
      | none =>
          rw [gives_pure.1 h] at hf
          nomatch hf
      | some r =>
          obtain ⟨routine, -, h⟩ := gives_node_bind.1 h
          rw [gives_pure.1 h] at hf
          nomatch hf
  | unary operator operand =>
      rw [hkind] at h
      obtain ⟨o, -, rfl⟩ := deriveUnary_gives h
      nomatch hf
  | binary operator left right =>
      rw [hkind] at h
      cases operator with
      | member =>
          obtain ⟨field, hfield, h⟩ := deriveMember_gives h
          rcases h with ⟨-, rfl⟩ | ⟨name, target, owner, kind, hname, howner, hkind', h⟩
          · nomatch hf
          rcases h with ⟨-, rfl⟩ | ⟨fields, y, type, rfl, hfound, htype, rfl⟩
          · nomatch hf
          cases hf
          exact ⟨node, left, field, name, target, owner, fields, hnode, hkind, hfield, hname, howner,
            hkind', hfound, htype⟩
      | index =>
          obtain ⟨n, kind, -, -, rfl⟩ := deriveIndex_gives h
          nomatch hf
      | or | xor | and | equal | notEqual | less | lessEqual | greater | greaterEqual | add
      | subtract | multiply | divide | modulo =>
          obtain ⟨l, r, kindL, kindR, -, -, -, -, rfl⟩ := deriveBinary_gives h
          nomatch hf

theorem isField_of_gives {id : ExpressionId} {d : Derivation} {f : ExpressionId} {x : VariableId}
    (h : Gives (a.deriveType id) d) (hf : d.field = some (f, x)) : a.IsField f := by
  obtain ⟨member, left, -, -, -, -, -, hmember, hkind, -⟩ := member_of_gives h hf
  exact ⟨id, member, left, hmember, hkind⟩

theorem setVariable_cases (kind : ExpressionKind) (x : VariableId) :
    kind.setVariable x = kind ∨ ∃ name target target',
      kind = .identifier name target ∧ kind.setVariable x = .identifier name target' := by
  cases kind with
  | identifier name target => exact Or.inr ⟨name, target, some x, rfl, rfl⟩
  | unary | binary | integer | real | boolean | call => exact Or.inl rfl

theorem settleType_ok {id : ExpressionId} {outcome : Except Cause (Option TypeId)} {a' : Arena}
    (h : a.settleType id = .ok (outcome, a')) :
    (∃ cause, (a.deriveType id).run = .ok (.error cause) ∧ outcome = .error cause ∧ a' = a) ∨
      ∃ d, Gives (a.deriveType id) d ∧ outcome = .ok d.type ∧ a.bindField d = .ok a' := by
  unfold settleType at h
  cases hd : (a.deriveType id).run with
  | error fault => simp [hd, bind, Except.bind] at h
  | ok result =>
      cases result with
      | error cause =>
          simp only [hd, bind, Except.bind, pure, Except.pure, Except.ok.injEq, Prod.mk.injEq] at h
          exact Or.inl ⟨cause, rfl, h.1.symm, h.2.symm⟩
      | ok d =>
          cases hbind : a.bindField d with
          | error fault => simp [hd, hbind, bind, Except.bind] at h
          | ok b =>
              simp only [hd, hbind, bind, Except.bind, pure, Except.pure, Except.ok.injEq,
                Prod.mk.injEq] at h
              exact Or.inr ⟨d, hd, h.1.symm, h.2 ▸ hbind⟩

/-- Binding a field changes nothing but a name behind a point. -/
theorem bindField_ok {d : Derivation} {a' : Arena} (h : a.bindField d = .ok a') :
    a' = a ∨ ∃ f x node, d.field = some (f, x) ∧ a.get? f = some node ∧
      a' = a.put f { node with kind := node.kind.setVariable x, type := d.type } := by
  unfold bindField at h
  cases hf : d.field with
  | none =>
      rw [hf] at h
      injection h with h
      exact Or.inl h.symm
  | some p =>
      obtain ⟨f, x⟩ := p
      simp only [hf, Arena.modify] at h
      split at h
      · rename_i node hnode
        injection h with h
        exact Or.inr ⟨f, x, node, rfl, hnode, h.symm⟩
      · cases h

/-- **Typing one expression.** -/
theorem refines_typeExpression {reporting : Bool} {id : ExpressionId} {c : κ}
    {s s' : WalkState σ} {u : Unit} (hrun : Runs (typeExpression reporting id) c s u s') :
    Refines Eq s s' := by
  obtain ⟨⟨outcome, settled⟩, hsettle, hrun⟩ := runs_inspect_bind.1 hrun
  rw [runs_modify_bind] at hrun
  rcases settleType_ok hsettle with ⟨cause, -, rfl, rfl⟩ | ⟨d, hd, rfl, hbind⟩
  · dsimp only at hrun
    split at hrun
    · obtain ⟨node, -, hrun⟩ := runs_node_bind.1 hrun
      obtain rfl := runs_report.1 hrun
      exact .reported s _ _
    · obtain ⟨-, rfl⟩ := runs_pure.1 hrun
      exact .refl (fun _ => rfl) s
  · -- first the field of a member access is bound
    have hfield : Refines Eq s { s with arena := settled } ∧ ∀ node, ¬ s.arena.IsField id →
        settled.get? id = some node → s.arena.get? id = some node := by
      rcases bindField_ok hbind with rfl | ⟨f, x, node, hf, hnode, rfl⟩
      · exact ⟨.refl (fun _ => rfl) s, fun _ _ h => h⟩
      · have hisField := isField_of_gives hd hf
        refine ⟨.put hnode fun _ => ⟨⟨rfl, ?_, Or.inl hisField⟩, absurd hisField⟩, ?_⟩
        · exact (setVariable_cases node.kind x).imp_right fun h => ⟨hisField, h⟩
        · intro other hnot hget
          have hne : id ≠ f := fun heq => hnot (heq ▸ hisField)
          rwa [get?_put_of_id_ne _ hne] at hget
    obtain ⟨hrefines, hkept⟩ := hfield
    cases ht : d.type with
    | none =>
        rw [ht] at hrun
        obtain ⟨-, rfl⟩ := runs_pure.1 hrun
        exact hrefines
    | some t =>
        rw [ht] at hrun
        obtain ⟨node, hnode, rfl⟩ := runs_update.1 hrun
        refine ⟨fun h => ?_, hrefines.silent, rfl⟩
        obtain ⟨hconsistent, hrefined⟩ := hrefines.refined h
        rw [WalkState.put]
        -- a type that was stored before is the one that was found now
        have hstore : node.RefinedBy (settled.IsField id) { node with type := some t } := by
          refine ⟨rfl, Or.inl rfl, or_iff_not_imp_left.2 fun hnot t' ht' => ?_⟩
          rw [hrefined.isField_iff] at hnot
          have hold := h.settled id node t' hnot (hkept node hnot hnode) ht' s.arena (.refl _) d hd
          exact ht.symm.trans hold
        have hsettled : ¬ settled.IsField id → ∀ t', some t = some t' → settled.Settled id t' := by
          intro hnot t' ht'
          rw [hrefined.isField_iff] at hnot
          exact (h.settled_of_gives hnot hd (ht.trans ht')).refine hrefined
        exact ⟨hconsistent.put hnode hstore hsettled, hrefined.trans (.put hnode hstore)⟩

/-! ### The passes -/

section

variable {c : κ} {s s' : WalkState σ} {u : Unit} {n : Nat}

/-- A visitor whose layers keep `R` on a tree without replacements. -/
theorem steady_typing (reporting : Bool) (n : Nat) :
    Steady (Refines Eq) (visitWithin (typingVisitor reporting : Visitor κ σ) n) := by
  refine steady_of_refines (fun _ => rfl) (fun h₁ h₂ => h₁.trans h₂) ?_ n
  intro below h v c s r s' hrun
  cases v with
  | expression id =>
      obtain ⟨_, s₁, hwalk, hrun⟩ := runs_bind.1 hrun
      obtain ⟨_, s₂, htype, hrun⟩ := runs_bind.1 hrun
      obtain ⟨rfl, rfl⟩ := runs_pure.1 hrun
      obtain ⟨-, -, hfirst, -⟩ := h.walkExpression hwalk
      exact ⟨rfl, h.trans hfirst (refines_typeExpression htype)⟩
  | program | declaration | routine | «variable» | typeDecl | type | body | statement =>
      exact h.walkThrough hrun

theorem refines_typeQuietly {id : ExpressionId} (hrun : Runs (typeQuietly id) c s u s') :
    Refines Eq s s' := by
  obtain ⟨r, hrun⟩ := runs_discard.1 hrun
  rw [visit, runs_arena_bind] at hrun
  exact (steady_typing false _).visit hrun

end

/-- What a whole walk over a program does to its tree. -/
theorem refines_walkProgram {visitor : Visitor κ σ} {O : σ → σ → Prop}
    (hsteady : ∀ n, Steady (Refines O) (visitWithin visitor n)) {context : κ} {own : σ}
    {s : WalkState σ} (hrun : a.walkProgram visitor context own = .ok s) :
    Refines O ⟨a, #[], #[], own⟩ s := by
  obtain ⟨r, hvisit⟩ := walkProgram_eq_ok.1 hrun
  rw [visit, runs_arena_bind] at hvisit
  exact (hsteady _).visit hvisit

end ProcLang
