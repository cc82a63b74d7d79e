import ProcLang.Proofs.Walk.Follows

/-!
# ProcLang.Proofs.Walk.Erasure

**A state that is only written to does not matter.** `Mirrors m m'` says that whatever the part `m`
of a walk does to the tree, the diagnostics and the journal, `m'` does as well, with a state of its
own of another type. So a visitor can be watched: one that also writes down what it sees leaves the
same tree and reports the same (`Mirrors.walkProgram`).
-/

namespace ProcLang

/-- The state with another state of the visitor's own. -/
def WalkState.withOwn {σ τ : Type} (s : WalkState σ) (own : τ) : WalkState τ :=
  ⟨s.arena, s.diagnostics, s.journal, own⟩

namespace WalkM

variable {κ σ τ α β : Type} {family : Family}

/-- Two states differ in what is the visitor's own. -/
def Beside (s : WalkState σ) (t : WalkState τ) : Prop := ∃ own, t = s.withOwn own

theorem likeness_beside : Likeness id (Beside : WalkState σ → WalkState τ → Prop) where
  arena h := by
    obtain ⟨own, rfl⟩ := h
    exact (Arena.mapColumns_id _).symm
  exchange h a := by
    obtain ⟨own, rfl⟩ := h
    exact ⟨own, by rw [Arena.mapColumns_id]; rfl⟩
  reported h cause place := by
    obtain ⟨own, rfl⟩ := h
    exact ⟨own, rfl⟩

/-- Whatever the first part of a walk does, the second one does as well. -/
def Mirrors (m : WalkM κ σ α) (m' : WalkM κ τ α) : Prop := Follows Beside id m m'

namespace Mirrors

/-! ### Elementary steps -/

theorem pure (x : α) : Mirrors (pure x : WalkM κ σ α) (pure x : WalkM κ τ α) := Follows.pure x

theorem bind {m : WalkM κ σ α} {m' : WalkM κ τ α} {f : α → WalkM κ σ β} {f' : α → WalkM κ τ β}
    (hm : Mirrors m m') (hf : ∀ x, Mirrors (f x) (f' x)) : Mirrors (m >>= f) (m' >>= f') :=
  Follows.bind hm hf

theorem inspect (g : Arena → Except Fault α) :
    Mirrors (inspect g : WalkM κ σ α) (inspect g : WalkM κ τ α) :=
  Follows.inspect likeness_beside fun a => by rw [Arena.mapColumns_id, id_map]

theorem node (id : NodeId family) :
    Mirrors (node id : WalkM κ σ (Node family)) (WalkM.node id : WalkM κ τ (Node family)) :=
  inspect _

theorem update (i : NodeId family) (f : Node family → Node family) :
    Mirrors (update i f : WalkM κ σ Unit) (WalkM.update i f : WalkM κ τ Unit) :=
  Follows.update likeness_beside i fun node => by cases family <;> rfl

theorem report (cause : Cause) (place : Position) :
    Mirrors (report cause place : WalkM κ σ Unit) (WalkM.report cause place : WalkM κ τ Unit) :=
  Follows.report likeness_beside cause place

theorem forM {xs : List α} {f : α → WalkM κ σ PUnit} {f' : α → WalkM κ τ PUnit}
    (hf : ∀ x, Mirrors (f x) (f' x)) : Mirrors (xs.forM f) (xs.forM f') :=
  Follows.forM hf

/-! ### The walk -/

section

variable {below : Visit → WalkM κ σ (Option ExpressionId)}
  {below' : Visit → WalkM κ τ (Option ExpressionId)} (h : ∀ v, Mirrors (below v) (below' v))

include h

theorem walkVariable (id : VariableId) : Mirrors (walkVariable below id) (walkVariable below' id) :=
  Follows.walkVariable h likeness_beside id

theorem walkExpression (id : ExpressionId) :
    Mirrors (walkExpression below id) (walkExpression below' id) :=
  Follows.walkExpression h likeness_beside id

theorem walkThrough (v : Visit) : Mirrors (walkThrough below v) (walkThrough below' v) :=
  Follows.walkThrough h likeness_beside v

end

theorem typeQuietly (id : ExpressionId) :
    Mirrors (typeQuietly id : WalkM κ σ Unit) (ProcLang.typeQuietly id : WalkM κ τ Unit) :=
  Follows.typeQuietly likeness_beside id

/-- **A visitor that is mirrored can be watched.** -/
theorem walkProgram {visitor : Visitor κ σ} {visitor' : Visitor κ τ}
    (hlayer : ∀ below below', (∀ v, Mirrors (below v) (below' v)) → ∀ v,
      Mirrors (visitor below v) (visitor' below' v)) {a : Arena} {context : κ} {own : σ}
    {s : WalkState σ} (hrun : a.walkProgram visitor context own = .ok s) (own' : τ) :
    ∃ last, a.walkProgram visitor' context own' = .ok (s.withOwn last) := by
  have hbegin : Beside (⟨a, #[], #[], own⟩ : WalkState σ)
      (⟨a.mapColumns id, #[], #[], own'⟩ : WalkState τ) :=
    ⟨own', by rw [Arena.mapColumns_id]; rfl⟩
  obtain ⟨t, hrun', last, rfl⟩ := Follows.walkProgram hlayer likeness_beside hrun hbegin
  exact ⟨last, by rwa [Arena.mapColumns_id] at hrun'⟩

end Mirrors

end WalkM

end ProcLang
