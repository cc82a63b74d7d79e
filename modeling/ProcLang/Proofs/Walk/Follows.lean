import ProcLang.Check.Calls
import ProcLang.Proofs.Columns.View
import ProcLang.Proofs.Walk.Runs

/-!
# ProcLang.Proofs.Walk.Follows

**Walks that run side by side.** `Follows S e m m'` says that from states in the relation `S`, whatever
the part `m` of a walk does, `m'` does as well: if `m` gives `x`, then `m'` gives `e x`, and the states
behind are in the relation `S` again. There is one rule for each way of building a walk.

The rules for steps that read or change the tree are those of a `Likeness`: the second tree is the
first one with other columns, and all else that `S` says of two states stays true when the tree is
exchanged or a diagnostic is added.
-/

namespace ProcLang

namespace WalkM

variable {κ σ τ α β γ δ : Type} {family : Family}

/-- Whatever the first part of a walk does, the second one does as well. -/
def Follows (S : WalkState σ → WalkState τ → Prop) (e : α → β) (m : WalkM κ σ α) (m' : WalkM κ τ β) :
    Prop :=
  ∀ c s x s' t, Runs m c s x s' → S s t → ∃ t', Runs m' c t (e x) t' ∧ S s' t'

/-- States of walks over one tree, but for the columns, which are other ones in the second tree. -/
structure Likeness (f : Nat → Nat) (S : WalkState σ → WalkState τ → Prop) : Prop where
  arena : ∀ {s t}, S s t → t.arena = s.arena.mapColumns f
  exchange : ∀ {s t}, S s t → ∀ a : Arena,
    S { s with arena := a } { t with arena := a.mapColumns f }
  reported : ∀ {s t}, S s t → ∀ cause place,
    S (s.reported cause place) (t.reported cause (place.mapColumn f))

namespace Follows

variable {S : WalkState σ → WalkState τ → Prop} {e : α → β} {e' : γ → δ} {m : WalkM κ σ α}
  {m' : WalkM κ τ β}

/-! ### Sequences and lists -/

theorem pure (x : α) : Follows S e (pure x : WalkM κ σ α) (pure (e x)) := by
  intro c s y s' t hrun hS
  obtain ⟨rfl, rfl⟩ := runs_pure.1 hrun
  exact ⟨t, runs_pure.2 ⟨rfl, rfl⟩, hS⟩

theorem bind {g : α → WalkM κ σ γ} {g' : β → WalkM κ τ δ} (hm : Follows S e m m')
    (hg : ∀ x, Follows S e' (g x) (g' (e x))) : Follows S e' (m >>= g) (m' >>= g') := by
  intro c s y s' t hrun hS
  obtain ⟨x, s₁, hfirst, hrest⟩ := runs_bind.1 hrun
  obtain ⟨t₁, hfirst', hS₁⟩ := hm _ _ _ _ _ hfirst hS
  obtain ⟨t', hrest', hS'⟩ := hg x _ _ _ _ _ hrest hS₁
  exact ⟨t', runs_bind.2 ⟨e x, t₁, hfirst', hrest'⟩, hS'⟩

theorem throw (fault : Fault) :
    Follows S e (throw fault : WalkM κ σ α) (throw fault : WalkM κ τ β) :=
  fun _ _ _ _ _ hrun => (runs_throw hrun).elim

/-- Two parts that give the same, one before the other. -/
theorem seq {m : WalkM κ σ α} {m' : WalkM κ τ α} {g : α → WalkM κ σ γ} {g' : α → WalkM κ τ δ}
    (hm : Follows S id m m') (hg : ∀ x, Follows S e' (g x) (g' x)) :
    Follows S e' (m >>= g) (m' >>= g') :=
  bind hm hg

theorem map {g : α → γ} {g' : β → δ} (hm : Follows S e m m') (hg : ∀ x, g' (e x) = e' (g x)) :
    Follows S e' (g <$> m) (g' <$> m') := by
  rw [← bind_pure_comp, ← bind_pure_comp]
  refine bind hm fun x => ?_
  rw [hg]
  exact pure (g x)

theorem discard (hm : Follows S e m m') : Follows S id (discard m) (discard m') := by
  intro c s u s' t hrun hS
  obtain ⟨x, hrun⟩ := runs_discard.1 hrun
  obtain ⟨t', hrun', hS'⟩ := hm _ _ _ _ _ hrun hS
  exact ⟨t', runs_discard.2 ⟨e x, hrun'⟩, hS'⟩

theorem inContext (hm : Follows S e m m') (c : κ) : Follows S e (inContext c m) (inContext c m') :=
  fun _ => hm c

theorem forM {xs : List α} {g : α → WalkM κ σ PUnit} {g' : α → WalkM κ τ PUnit}
    (hg : ∀ x, Follows S id (g x) (g' x)) : Follows S id (xs.forM g) (xs.forM g') := by
  induction xs with
  | nil => exact pure _
  | cons x rest ih => exact bind (hg x) fun _ => ih

theorem mapM {xs : List γ} {g : γ → WalkM κ σ α} {g' : γ → WalkM κ τ β}
    (hg : ∀ x, Follows S e (g x) (g' x)) : Follows S (List.map e) (xs.mapM g) (xs.mapM g') := by
  induction xs with
  | nil => exact pure _
  | cons x rest ih =>
      rw [List.mapM_cons, List.mapM_cons]
      exact bind (hg x) fun y => bind ih fun ys => pure (y :: ys)

theorem read : Follows S id (read : WalkM κ σ κ) (read : WalkM κ τ κ) := by
  intro c s x s' t hrun hS
  obtain ⟨rfl, rfl⟩ := Prod.mk.inj (Except.ok.inj hrun)
  exact ⟨t, rfl, hS⟩

/-! ### Trees -/

section

variable {f : Nat → Nat} (h : Likeness f S)

include h

theorem inspect {g : Arena → Except Fault α} {g' : Arena → Except Fault β}
    (hg : ∀ a : Arena, g' (a.mapColumns f) = e <$> g a) :
    Follows S e (inspect g : WalkM κ σ α) (inspect g' : WalkM κ τ β) := by
  intro c s x s' t hrun hS
  obtain ⟨hx, rfl⟩ := runs_inspect.1 hrun
  refine ⟨t, runs_inspect.2 ⟨?_, rfl⟩, hS⟩
  rw [h.arena hS, hg, hx]
  rfl

theorem node (i : NodeId family) : Follows S (Node.mapColumns f family)
    (node i : WalkM κ σ (Node family)) (WalkM.node i : WalkM κ τ (Node family)) :=
  inspect h fun a => a.get_mapColumns f i

theorem arena : Follows S (Arena.mapColumns f) (arena : WalkM κ σ Arena)
    (WalkM.arena : WalkM κ τ Arena) := by
  have hgives : ∀ a : Arena,
      (.ok (a.mapColumns f) : Except Fault Arena) = Arena.mapColumns f <$> .ok a := fun _ => rfl
  exact inspect h hgives

theorem exchange (a : Arena) :
    Follows S id (modify fun s => { s with arena := a } : WalkM κ σ PUnit)
      (modify fun t => { t with arena := a.mapColumns f } : WalkM κ τ PUnit) := by
  intro c s u s' t hrun hS
  obtain ⟨-, rfl⟩ := Prod.mk.inj (Except.ok.inj hrun)
  exact ⟨_, rfl, h.exchange hS a⟩

theorem update (i : NodeId family) {g g' : Node family → Node family}
    (hg : ∀ node, g' (Node.mapColumns f family node) = Node.mapColumns f family (g node)) :
    Follows S id (update i g : WalkM κ σ Unit) (update i g' : WalkM κ τ Unit) :=
  bind (inspect h fun a => a.modify_mapColumns f i hg) fun a => exchange h a

theorem report (cause : Cause) (place : Position) :
    Follows S id (report cause place : WalkM κ σ Unit)
      (report cause (place.mapColumn f) : WalkM κ τ Unit) := by
  intro c s u s' t hrun hS
  obtain rfl := runs_report.1 hrun
  exact ⟨_, runs_report.2 rfl, h.reported hS cause place⟩

end

/-! ### The walk -/

section

variable {below : Visit → WalkM κ σ (Option ExpressionId)}
  {below' : Visit → WalkM κ τ (Option ExpressionId)}
  (hbelow : ∀ v, Follows S id (below v) (below' v))

include hbelow

theorem visitOnly (v : Visit) : Follows S id (visitOnly below v) (visitOnly below' v) :=
  discard (hbelow v)

theorem visitOptional (g : γ → Visit) (x : Option γ) :
    Follows S id (visitOptional below g x) (visitOptional below' g x) := by
  cases x with
  | none => exact pure _
  | some y => exact visitOnly hbelow (g y)

theorem visitEach (g : γ → Visit) (xs : List γ) :
    Follows S id (visitEach below g xs) (visitEach below' g xs) :=
  forM fun x => visitOnly hbelow (g x)

theorem visitSlot (i : ExpressionId) {store : ExpressionId → WalkM κ σ Unit}
    {store' : ExpressionId → WalkM κ τ Unit} (hstore : ∀ i, Follows S id (store i) (store' i)) :
    Follows S id (visitSlot below i store) (visitSlot below' i store') := by
  refine bind (hbelow (.expression i)) fun r => ?_
  cases r with
  | none => exact pure _
  | some replacement => exact hstore replacement

variable {f : Nat → Nat} (h : Likeness f S)

include h

theorem visitOperand (parent : ExpressionId) (index : Nat) (operand : ExpressionId) :
    Follows S id (visitOperand below parent index operand)
      (visitOperand below' parent index operand) :=
  visitSlot hbelow operand fun _ => update h parent fun _ => rfl

theorem walkRoutine (i : RoutineId) : Follows S id (walkRoutine below i) (walkRoutine below' i) :=
  bind (node h i) fun _ => bind (visitEach hbelow _ _) fun _ =>
    bind (visitOptional hbelow _ _) fun _ => visitOnly hbelow _

theorem walkVariable (i : VariableId) :
    Follows S id (walkVariable below i) (walkVariable below' i) := by
  refine bind (node h i) fun _ => bind (visitOptional hbelow _ _) fun _ => bind (node h i) fun x => ?_
  obtain ⟨span, name, declaredType, initializer⟩ := x
  cases initializer with
  | none => exact pure _
  | some e => exact visitSlot hbelow e fun _ => update h i fun _ => rfl

theorem walkType (i : TypeId) : Follows S id (walkType below i) (walkType below' i) := by
  refine bind (node h i) fun ⟨span, kind⟩ => ?_
  cases kind with
  | array length element =>
      cases length with
      | none => exact visitOnly hbelow _
      | some e =>
          exact bind (visitSlot hbelow e fun _ => update h i fun _ => rfl) fun _ => visitOnly hbelow _
  | record fields => exact visitEach hbelow _ _
  | named | integer | real | boolean => exact pure _

theorem walkBody (i : BodyId) : Follows S id (walkBody below i) (walkBody below' i) :=
  bind (node h i) fun _ => bind (visitEach hbelow _ _) fun _ => visitEach hbelow _ _

theorem walkStatementExpressions (i : StatementId) :
    Follows S id (walkStatementExpressions below i) (walkStatementExpressions below' i) :=
  bind (node h i) fun _ => forM fun p => visitSlot hbelow p.1 fun _ => update h i fun _ => rfl

theorem walkStatement (i : StatementId) :
    Follows S id (walkStatement below i) (walkStatement below' i) :=
  bind (walkStatementExpressions hbelow h i) fun _ => bind (node h i) fun _ =>
    bind (visitOptional hbelow _ _) fun _ => visitEach hbelow _ _

theorem walkExpression (i : ExpressionId) :
    Follows S id (walkExpression below i) (walkExpression below' i) :=
  bind (node h i) fun _ => forM fun p => visitOperand hbelow h i p.2 p.1

/-- **The default walk follows itself.** -/
theorem walk (v : Visit) : Follows S id (walk below v) (walk below' v) := by
  cases v with
  | program => exact bind (arena h) fun _ => visitEach hbelow _ _
  | declaration d => cases d <;> exact visitOnly hbelow _
  | routine i => exact walkRoutine hbelow h i
  | «variable» i => exact walkVariable hbelow h i
  | typeDecl i => exact bind (node h i) fun _ => visitOnly hbelow _
  | type i => exact walkType hbelow h i
  | body i => exact walkBody hbelow h i
  | statement i => exact walkStatement hbelow h i
  | expression i => exact walkExpression hbelow h i

theorem walkThrough (v : Visit) : Follows S id (walkThrough below v) (walkThrough below' v) :=
  bind (walk hbelow h v) fun _ => pure _

end

section

variable {visitor : Visitor κ σ} {visitor' : Visitor κ τ}
  (hlayer : ∀ below below', (∀ v, Follows S id (below v) (below' v)) → ∀ v,
    Follows S id (visitor below v) (visitor' below' v))

include hlayer

theorem visitWithin (n : Nat) (v : Visit) :
    Follows S id (visitWithin visitor n v) (visitWithin visitor' n v) := by
  induction n generalizing v with
  | zero => exact throw _
  | succ n ih => exact hlayer _ _ ih v

theorem visit {f : Nat → Nat} (h : Likeness f S) (v : Visit) :
    Follows S id (visit visitor v) (visit visitor' v) := by
  refine bind (arena h) fun a => ?_
  have hbound : (a.mapColumns f).depthBound = a.depthBound := by
    rw [Arena.depthBound, Arena.size_mapColumns, Arena.depthBound]
  rw [hbound]
  exact visitWithin hlayer _ v

/-- **Visitors that follow one another** do so on a whole program. -/
theorem walkProgram {f : Nat → Nat} (h : Likeness f S) {a : Arena} {context : κ} {own : σ} {own' : τ}
    {s : WalkState σ} (hrun : a.walkProgram visitor context own = .ok s)
    (hbegin : S ⟨a, #[], #[], own⟩ ⟨a.mapColumns f, #[], #[], own'⟩) :
    ∃ t, (a.mapColumns f).walkProgram visitor' context own' = .ok t ∧ S s t := by
  obtain ⟨r, hvisit⟩ := walkProgram_eq_ok.1 hrun
  obtain ⟨t, hvisit', hS⟩ := visit hlayer h .program _ _ _ _ _ hvisit hbegin
  exact ⟨t, walkProgram_eq_ok.2 ⟨r, hvisit'⟩, hS⟩

end

/-! ### Typing -/

section

variable {f : Nat → Nat} (h : Likeness f S)

include h

theorem typeExpression (reporting : Bool) (i : ExpressionId) :
    Follows S id (typeExpression reporting i : WalkM κ σ Unit)
      (ProcLang.typeExpression reporting i : WalkM κ τ Unit) := by
  refine bind (inspect h fun a => a.settleType_mapColumns f i) fun ⟨outcome, settled⟩ => ?_
  refine bind (exchange h settled) fun _ => ?_
  rcases outcome with cause | _ | type
  · cases reporting with
    | true => exact bind (node h i) fun e => report h cause _
    | false => exact pure _
  · exact pure _
  · exact update h i fun _ => rfl

theorem typingVisitor (reporting : Bool) {below : Visit → WalkM κ σ (Option ExpressionId)}
    {below' : Visit → WalkM κ τ (Option ExpressionId)}
    (hbelow : ∀ v, Follows S id (below v) (below' v)) (v : Visit) :
    Follows S id (typingVisitor reporting below v) (ProcLang.typingVisitor reporting below' v) := by
  cases v with
  | expression i =>
      exact bind (walkExpression hbelow h i) fun _ => bind (typeExpression h reporting i) fun _ => pure _
  | program | declaration | routine | «variable» | typeDecl | type | body | statement =>
      exact walkThrough hbelow h _

theorem typeQuietly (i : ExpressionId) :
    Follows S id (typeQuietly i : WalkM κ σ Unit) (ProcLang.typeQuietly i : WalkM κ τ Unit) :=
  discard (visit (fun _ _ hbelow v => typingVisitor h false hbelow v) h _)

end

end Follows

end WalkM

end ProcLang
