import ProcLang.Check.Pass
import Mathlib.Data.List.Forall2

/-!
# ProcLang.Proofs.Walk.Runs

**Runs of a walk.** `Runs m c s x s'` says that the part `m` of a walk, in the context `c` and
started in the state `s`, gives `x` without a fault and leaves the state `s'`. As for parsers, each
way of building a walk has an equation here that takes a run apart into runs of the parts; the
equations also put runs together, which is how a walk is shown to be free of faults.
-/

namespace ProcLang

@[simp] theorem Arena.get_eq_ok {a : Arena} {family : Family} {id : NodeId family}
    {node : Node family} : a.get id = .ok node ↔ a.get? id = some node := by
  unfold get
  split <;> simp_all

/-! ### Changes of the state -/

namespace WalkState

variable {σ : Type} {family : Family}

/-- The state with a node overwritten. -/
def put (s : WalkState σ) (id : NodeId family) (node : Node family) : WalkState σ :=
  { s with arena := s.arena.put id node }

/-- The state with a node added. -/
def added (s : WalkState σ) (family : Family) (node : Node family) : WalkState σ :=
  { s with arena := (s.arena.add family node).2 }

/-- The state with a diagnostic added. -/
def reported (s : WalkState σ) (cause : Cause) (place : Position) : WalkState σ :=
  { s with diagnostics := s.diagnostics.push ⟨cause, place⟩ }

/-- The state with an event added to the journal. -/
def noted (s : WalkState σ) (event : Event) : WalkState σ :=
  { s with journal := s.journal.push event }

end WalkState

namespace WalkM

variable {κ σ α β : Type} {c c' : κ} {s s' : WalkState σ} {family : Family}

/-- A part of a walk gives `x` and leaves `s'`. -/
def Runs (m : WalkM κ σ α) (c : κ) (s : WalkState σ) (x : α) (s' : WalkState σ) : Prop :=
  m c s = .ok (x, s')

/-- A part of a walk gives one result only. -/
theorem Runs.unique {m : WalkM κ σ α} {s₁ s₂ : WalkState σ} {x y : α} (h₁ : Runs m c s x s₁)
    (h₂ : Runs m c s y s₂) : x = y ∧ s₁ = s₂ := by
  have h : Except.ok (x, s₁) = Except.ok (y, s₂) := h₁.symm.trans h₂
  simpa using h

/-! ### Sequences -/

@[simp] theorem runs_pure {x y : α} : Runs (pure x : WalkM κ σ α) c s y s' ↔ y = x ∧ s' = s := by
  change Except.ok (x, s) = Except.ok (y, s') ↔ _
  rw [Except.ok.injEq, Prod.mk.injEq, eq_comm, @eq_comm _ s]

theorem runs_bind {m : WalkM κ σ α} {f : α → WalkM κ σ β} {y : β} :
    Runs (m >>= f) c s y s' ↔ ∃ x s₁, Runs m c s x s₁ ∧ Runs (f x) c s₁ y s' := by
  change (Except.bind (m c s) fun p => f p.1 c p.2) = .ok (y, s') ↔ _
  constructor
  · intro h
    cases hm : m c s with
    | error fault => rw [hm] at h; nomatch h
    | ok p =>
        rw [hm] at h
        exact ⟨p.1, p.2, hm, h⟩
  · intro h
    obtain ⟨x, s₁, hm, hf⟩ := h
    rw [show m c s = .ok (x, s₁) from hm]
    exact hf

@[simp] theorem runs_map {m : WalkM κ σ α} {f : α → β} {y : β} :
    Runs (f <$> m) c s y s' ↔ ∃ x, Runs m c s x s' ∧ y = f x := by
  rw [← bind_pure_comp, runs_bind]
  constructor
  · intro h
    obtain ⟨x, s₁, hm, hy⟩ := h
    obtain ⟨rfl, rfl⟩ := runs_pure.1 hy
    exact ⟨x, hm, rfl⟩
  · intro h
    obtain ⟨x, hm, rfl⟩ := h
    exact ⟨x, s', hm, runs_pure.2 ⟨rfl, rfl⟩⟩

@[simp] theorem runs_discard {m : WalkM κ σ α} {u : PUnit} :
    Runs (discard m) c s u s' ↔ ∃ x, Runs m c s x s' := by
  change Runs ((fun _ => PUnit.unit) <$> m) c s u s' ↔ _
  simp

@[simp] theorem runs_throw {fault : Fault} {x : α} :
    ¬ Runs (throw fault : WalkM κ σ α) c s x s' := by
  change ¬ (Except.error fault = Except.ok (x, s'))
  simp

/-! ### Lists -/

@[simp] theorem runs_forM_nil {f : α → WalkM κ σ PUnit} {u : PUnit} :
    Runs (List.forM [] f) c s u s' ↔ s' = s := by
  change Runs (pure PUnit.unit : WalkM κ σ PUnit) c s u s' ↔ _
  simp

@[simp] theorem runs_forM_cons {x : α} {xs : List α} {f : α → WalkM κ σ PUnit} {u : PUnit} :
    Runs (List.forM (x :: xs) f) c s u s' ↔
      ∃ s₁, Runs (f x) c s ⟨⟩ s₁ ∧ Runs (xs.forM f) c s₁ u s' := by
  change Runs (f x >>= fun _ => xs.forM f) c s u s' ↔ _
  rw [runs_bind]
  constructor
  · intro h
    obtain ⟨_, s₁, hx, hxs⟩ := h
    exact ⟨s₁, hx, hxs⟩
  · intro h
    obtain ⟨s₁, hx, hxs⟩ := h
    exact ⟨⟨⟩, s₁, hx, hxs⟩

/-! ### Elementary steps in front of a walk -/

section

variable {y : β}

@[simp] theorem runs_read_bind {f : κ → WalkM κ σ β} :
    Runs ((read : WalkM κ σ κ) >>= f) c s y s' ↔ Runs (f c) c s y s' := Iff.rfl

@[simp] theorem runs_get_bind {f : WalkState σ → WalkM κ σ β} :
    Runs ((get : WalkM κ σ (WalkState σ)) >>= f) c s y s' ↔ Runs (f s) c s y s' := Iff.rfl

@[simp] theorem runs_arena_bind {f : Arena → WalkM κ σ β} :
    Runs (WalkM.arena >>= f) c s y s' ↔ Runs (f s.arena) c s y s' := Iff.rfl

@[simp] theorem runs_note {event : Event} {u : Unit} :
    Runs (note event : WalkM κ σ Unit) c s u s' ↔
      s' = s.noted event := by
  change Except.ok (u, s.noted event) = Except.ok (u, s') ↔ _
  simp [eq_comm]

@[simp] theorem runs_note_bind {event : Event} {f : Unit → WalkM κ σ β} :
    Runs (note event >>= f) c s y s' ↔
      Runs (f ()) c (s.noted event) y s' := Iff.rfl

@[simp] theorem runs_report {cause : Cause} {place : Position} {u : Unit} :
    Runs (report cause place : WalkM κ σ Unit) c s u s' ↔
      s' = s.reported cause place := by
  change Except.ok (u, s.reported cause place) = Except.ok (u, s') ↔ _
  simp [eq_comm]

@[simp] theorem runs_report_bind {cause : Cause} {place : Position} {f : Unit → WalkM κ σ β} :
    Runs (report cause place >>= f) c s y s' ↔
      Runs (f ()) c (s.reported cause place) y s' := Iff.rfl

@[simp] theorem runs_updateOwn_bind {g : σ → σ} {f : Unit → WalkM κ σ β} :
    Runs (updateOwn g >>= f) c s y s' ↔ Runs (f ()) c { s with own := g s.own } y s' := Iff.rfl

@[simp] theorem runs_modify_bind {g : WalkState σ → WalkState σ} {f : PUnit → WalkM κ σ β} :
    Runs ((modify g : WalkM κ σ PUnit) >>= f) c s y s' ↔ Runs (f ⟨⟩) c (g s) y s' := Iff.rfl

@[simp] theorem runs_add_bind {node : Node family} {f : NodeId family → WalkM κ σ β} :
    Runs (add family node >>= f) c s y s' ↔
      Runs (f (s.arena.add family node).1) c (s.added family node) y s' := Iff.rfl

@[simp] theorem runs_add {node : Node family} {id : NodeId family} :
    Runs (add family node : WalkM κ σ _) c s id s' ↔
      id = (s.arena.add family node).1 ∧ s' = s.added family node := by
  change Except.ok ((s.arena.add family node).1, s.added family node) = Except.ok (id, s') ↔ _
  simp [eq_comm]

@[simp] theorem runs_inContext {m : WalkM κ σ α} {x : α} :
    Runs (inContext c' m) c s x s' ↔ Runs m c' s x s' := Iff.rfl

@[simp] theorem runs_inspect {g : Arena → Except Fault α} {x : α} :
    Runs (inspect g : WalkM κ σ α) c s x s' ↔ g s.arena = .ok x ∧ s' = s := by
  simp only [inspect, runs_arena_bind]
  cases hg : g s.arena with
  | error fault => simp
  | ok z =>
      simp only [runs_pure, Except.ok.injEq]
      exact and_congr_left fun _ => eq_comm

@[simp] theorem runs_inspect_bind {g : Arena → Except Fault α} {f : α → WalkM κ σ β} :
    Runs (inspect g >>= f) c s y s' ↔ ∃ x, g s.arena = .ok x ∧ Runs (f x) c s y s' := by
  simp [runs_bind, and_assoc]

@[simp] theorem runs_node_bind {id : NodeId family} {f : Node family → WalkM κ σ β} :
    Runs (WalkM.node id >>= f) c s y s' ↔
      ∃ node, s.arena.get? id = some node ∧ Runs (f node) c s y s' := by
  simp [WalkM.node]

@[simp] theorem runs_node {id : NodeId family} {node : Node family} :
    Runs (WalkM.node id : WalkM κ σ _) c s node s' ↔ s.arena.get? id = some node ∧ s' = s := by
  simp [WalkM.node]

@[simp] theorem runs_update_bind {id : NodeId family} {f : Node family → Node family}
    {g : Unit → WalkM κ σ β} : Runs (update id f >>= g) c s y s' ↔
      ∃ node, s.arena.get? id = some node ∧ Runs (g ()) c (s.put id (f node)) y s' := by
  simp only [update, bind_assoc, runs_inspect_bind, Arena.modify]
  constructor
  · intro h
    obtain ⟨changed, hchanged, hrun⟩ := h
    split at hchanged
    · rename_i node hget
      injection hchanged with hchanged
      subst hchanged
      exact ⟨node, hget, hrun⟩
    · nomatch hchanged
  · intro h
    obtain ⟨node, hget, hrun⟩ := h
    exact ⟨s.arena.put id (f node), by rw [hget], hrun⟩

@[simp] theorem runs_update {id : NodeId family} {f : Node family → Node family} {u : Unit} :
    Runs (update id f : WalkM κ σ Unit) c s u s' ↔
      ∃ node, s.arena.get? id = some node ∧ s' = s.put id (f node) := by
  have hbind : Runs (update id f >>= fun u => pure u : WalkM κ σ Unit) c s u s' ↔ _ :=
    runs_update_bind
  rw [bind_pure] at hbind
  simpa using hbind

end

end WalkM

/-! ### Passes -/

section

open WalkM

variable {κ σ : Type} {visitor : Visitor κ σ} {context : κ} {own : σ} {a : Arena}

theorem walkProgram_eq_ok {s : WalkState σ} : a.walkProgram visitor context own = .ok s ↔
    ∃ r, Runs (visit visitor .program) context ⟨a, #[], #[], own⟩ r s := by
  change (Except.bind (visit visitor .program context ⟨a, #[], #[], own⟩) fun p => .ok p.2) = .ok s ↔ _
  constructor
  · intro h
    cases hvisit : visit visitor .program context ⟨a, #[], #[], own⟩ with
    | error fault =>
        rw [hvisit] at h
        nomatch h
    | ok p =>
        rw [hvisit] at h
        injection h with h
        subst h
        exact ⟨p.1, hvisit⟩
  · intro h
    obtain ⟨r, hvisit⟩ := h
    rw [show visit visitor .program context ⟨a, #[], #[], own⟩ = .ok (r, s) from hvisit]
    rfl

/-- What a pass gives is what its walk leaves. -/
theorem run_ofVisitor {stage : Stage} {outcome : PassOutcome} :
    (Pass.ofVisitor stage visitor context own).run a = .ok outcome ↔
      ∃ s, a.walkProgram visitor context own = .ok s ∧
        outcome = ⟨s.arena, s.diagnostics.toList,
          #[.stageStarted stage] ++ s.journal ++ #[.stageFinished stage s.diagnostics.size]⟩ := by
  simp only [Pass.ofVisitor]
  cases hwalk : a.walkProgram visitor context own with
  | error fault => simp [bind, Except.bind]
  | ok s =>
      simp only [bind, Except.bind, pure, Except.pure, Except.ok.injEq, exists_eq_left']
      exact eq_comm

end

end ProcLang
