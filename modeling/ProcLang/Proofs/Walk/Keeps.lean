import ProcLang.Proofs.Walk.Steps

/-!
# ProcLang.Proofs.Walk.Keeps

**Invariants of a walk.** `Keeps I m` says that every run of the part `m` of a walk leads from states
with `I` to states with `I`. There is one rule for each way of building a walk, and a step that
reads a node may use that it is there. A visitor whose layers keep an invariant keeps it as a whole
(`Keeps.walkProgram`).
-/

namespace ProcLang

namespace WalkM

variable {κ σ α β : Type} {family : Family} {I : WalkState σ → Prop}

/-- A part of a walk keeps an invariant. -/
def Keeps (I : WalkState σ → Prop) (m : WalkM κ σ α) : Prop :=
  ∀ c s x s', Runs m c s x s' → I s → I s'

namespace Keeps

variable {m : WalkM κ σ α} {f : α → WalkM κ σ β}

/-! ### Sequences and lists -/

theorem pure (x : α) : Keeps I (pure x : WalkM κ σ α) := by
  intro c s y s' hrun hs
  obtain ⟨-, rfl⟩ := runs_pure.1 hrun
  exact hs

theorem bind (hm : Keeps I m) (hf : ∀ x, Keeps I (f x)) : Keeps I (m >>= f) := by
  intro c s y s' hrun hs
  obtain ⟨x, s₁, hfirst, hrest⟩ := runs_bind.1 hrun
  exact hf x _ _ _ _ hrest (hm _ _ _ _ hfirst hs)

theorem map {g : α → β} (hm : Keeps I m) : Keeps I (g <$> m) := by
  rw [← bind_pure_comp]
  exact hm.bind fun _ => pure _

theorem discard (hm : Keeps I m) : Keeps I (discard m) := hm.map

theorem inContext (hm : Keeps I m) (c : κ) : Keeps I (inContext c m) :=
  fun _ => hm c

theorem forM {xs : List α} {f : α → WalkM κ σ PUnit} (hf : ∀ x ∈ xs, Keeps I (f x)) :
    Keeps I (xs.forM f) := by
  induction xs with
  | nil => exact pure _
  | cons x rest ih =>
      exact (hf x List.mem_cons_self).bind fun _ => ih fun y hy => hf y (List.mem_cons_of_mem _ hy)

theorem mapM {xs : List α} (hf : ∀ x, Keeps I (f x)) : Keeps I (xs.mapM f) := by
  induction xs with
  | nil => exact pure _
  | cons x rest ih =>
      rw [List.mapM_cons]
      exact (hf x).bind fun _ => ih.bind fun _ => pure _

/-! ### Elementary steps -/

theorem read : Keeps I (read : WalkM κ σ κ) := by
  intro c s x s' hrun hs
  obtain rfl : s = s' := (Prod.mk.inj (Except.ok.inj hrun)).2
  exact hs

theorem get : Keeps I (get : WalkM κ σ (WalkState σ)) := by
  intro c s x s' hrun hs
  obtain rfl : s = s' := (Prod.mk.inj (Except.ok.inj hrun)).2
  exact hs

theorem inspect_bind {g : Arena → Except Fault α}
    (hf : ∀ s x, I s → g s.arena = .ok x → Keeps I (f x)) : Keeps I (inspect g >>= f) := by
  intro c s y s' hrun hs
  obtain ⟨x, hx, hrun⟩ := runs_inspect_bind.1 hrun
  exact hf s x hs hx _ _ _ _ hrun hs

/-- A node that was read is there. -/
theorem node_bind {id : NodeId family} {f : Node family → WalkM κ σ β}
    (hf : ∀ s node, I s → s.arena.get? id = some node → Keeps I (f node)) :
    Keeps I (node id >>= f) :=
  inspect_bind fun s node hs hget => hf s node hs (Arena.get_eq_ok.1 hget)

theorem arena_bind {f : Arena → WalkM κ σ β} (hf : ∀ a, Keeps I (f a)) : Keeps I (arena >>= f) :=
  fun _ s _ _ hrun hs => hf s.arena _ _ _ _ (runs_arena_bind.1 hrun) hs

theorem modify {g : WalkState σ → WalkState σ} (hg : ∀ s, I s → I (g s)) :
    Keeps I (modify g : WalkM κ σ PUnit) := by
  intro c s u s' hrun hs
  obtain rfl : g s = s' := (Prod.mk.inj (Except.ok.inj hrun)).2
  exact hg s hs

theorem update {id : NodeId family} {g : Node family → Node family}
    (hg : ∀ s node, I s → s.arena.get? id = some node → I (s.put id (g node))) :
    Keeps I (update id g : WalkM κ σ Unit) := by
  intro c s u s' hrun hs
  obtain ⟨node, hget, rfl⟩ := runs_update.1 hrun
  exact hg s node hs hget

theorem add {node : Node family} (hadd : ∀ s, I s → I (s.added family node)) :
    Keeps I (add family node : WalkM κ σ (NodeId family)) := by
  intro c s id s' hrun hs
  obtain ⟨-, rfl⟩ := runs_add.1 hrun
  exact hadd s hs

/-! ### The walk -/

section

variable {below : Visit → WalkM κ σ (Option ExpressionId)}
  (h : Steady (fun s s' => I s → I s') below)

include h

theorem visitOnly (v : Visit) : Keeps I (visitOnly below v) :=
  fun _ _ _ _ hrun => (h.visitOnly hrun).1

theorem visitOptional (f : α → Visit) (x : Option α) : Keeps I (visitOptional below f x) :=
  fun _ _ _ _ hrun => (h.visitOptional hrun).1

theorem visitEach (f : α → Visit) (xs : List α) : Keeps I (visitEach below f xs) :=
  fun _ _ _ _ hrun => (h.visitEach hrun).1

theorem visitOperand (parent operand : ExpressionId) (index : Nat) :
    Keeps I (visitOperand below parent index operand) :=
  fun _ _ _ _ hrun => (h.visitOperand hrun).1

theorem walk (v : Visit) : Keeps I (walk below v) := fun _ _ _ _ hrun => h.walk hrun

theorem walkThrough (v : Visit) : Keeps I (walkThrough below v) :=
  fun _ _ _ _ hrun => (h.walkThrough hrun).2

theorem walkStatementExpressions (id : StatementId) :
    Keeps I (walkStatementExpressions below id) := by
  intro c s u s' hrun
  obtain ⟨-, -, hkept, -⟩ := h.walkStatementExpressions hrun
  exact hkept

end

/-- **An invariant that each layer of a visitor keeps is kept by the visitor.** -/
theorem visitWithin {visitor : Visitor κ σ} (hslots : SlotSteps fun s s' => I s → I s')
    (hlayer : ∀ below, Steady (fun s s' => I s → I s') below → ∀ v, Keeps I (visitor below v))
    (n : Nat) (v : Visit) : Keeps I (visitWithin visitor n v) := by
  have hsteady : Steady (fun s s' => I s → I s') (ProcLang.visitWithin visitor n) :=
    .visitWithin (fun _ hs => hs) (fun hfirst hlast hs => hlast (hfirst hs))
      (fun below h v _ _ _ _ hrun => ⟨hlayer below h v _ _ _ _ hrun, fun _ _ => hslots⟩) n
  exact fun _ _ _ _ hrun => hsteady.visit hrun

theorem visit {visitor : Visitor κ σ} (hslots : SlotSteps fun s s' => I s → I s')
    (hlayer : ∀ below, Steady (fun s s' => I s → I s') below → ∀ v, Keeps I (visitor below v))
    (v : Visit) : Keeps I (visit visitor v) :=
  arena_bind fun _ => visitWithin hslots hlayer _ v

/-- An invariant that holds at the beginning holds at the end of a walk over a program. -/
theorem walkProgram {visitor : Visitor κ σ} (hslots : SlotSteps fun s s' => I s → I s')
    (hlayer : ∀ below, Steady (fun s s' => I s → I s') below → ∀ v, Keeps I (visitor below v))
    {a : Arena} {context : κ} {own : σ} {s : WalkState σ}
    (hrun : a.walkProgram visitor context own = .ok s) (hbegin : I ⟨a, #[], #[], own⟩) : I s := by
  obtain ⟨r, hvisit⟩ := walkProgram_eq_ok.1 hrun
  exact visit hslots hlayer .program _ _ _ _ hvisit hbegin

end Keeps

end WalkM

end ProcLang
