import ProcLang.Proofs.Calls.Comparison
import ProcLang.Proofs.Constants.Marks
import ProcLang.Proofs.Lengths.Reports
import ProcLang.Proofs.Passes.Silent
import ProcLang.Proofs.Returns.Reports
import ProcLang.Proofs.Typing.Pass

/-!
# ProcLang.Proofs.Passes.Completion

**The passes behind name resolution come to their end** (`completes_laterPasses`). On a coherent tree,
whatever was reported of its names, each of them goes on at every node, and what it leaves is a coherent
tree again, which extends the first one. So the passes can run in any order and any number of times.
-/

namespace ProcLang

open Arena WalkM Judgement

variable {κ σ : Type} {a b : Arena} {nodes : List Visit} {c : κ} {s s₁ : WalkState σ}

/-- A pass comes to its end on all coherent trees, and extends them. -/
def Pass.Completes (pass : Pass) : Prop :=
  ∀ (a : Arena) nodes, a.IsForest nodes → a.Coherent →
    ∃ outcome, pass.run a = .ok outcome ∧ a.Extends outcome.arena

/-- What a walk does to the tree, if nothing more is said of it. -/
abbrev Goes (b : Arena) (visitor : Visitor κ σ) : Prop :=
  GoesOn b (fun s : WalkState σ => b.Extends s.arena) (fun _ _ _ => True) visitor

theorem completes_of_goes {visitor : Visitor κ σ} (h : ∀ (b : Arena) nodes, b.IsForest nodes → Goes b visitor)
    (stage : Stage) (context : κ) (own : σ) : (Pass.ofVisitor stage visitor context own).Completes := by
  intro a nodes hforest hcoherent
  obtain ⟨s, hwalk, hs, -⟩ :=
    (h a nodes hforest).exists_walkProgram hforest.within context a own (.refl hcoherent)
  exact ⟨_, run_ofVisitor.2 ⟨s, hwalk, rfl⟩, hs⟩

/-- A part of a walk goes on behind one that does. -/
theorem exists_runs_bind {α : Type} {m : WalkM κ σ α} {f : α → WalkM κ σ Unit} {x : α}
    (hm : Runs m c s x s₁) (hf : ∃ s', Runs (f x) c s₁ () s' ∧ b.Extends s'.arena) :
    ∃ s', Runs (m >>= f) c s () s' ∧ b.Extends s'.arena := by
  obtain ⟨s', hrun, hs'⟩ := hf
  exact ⟨s', runs_bind.2 ⟨x, s₁, hm, hrun⟩, hs'⟩

/-- A part of a walk goes on behind a node it reads. -/
theorem exists_runs_node_bind {family : Family} {id : NodeId family} {node : Node family}
    {f : Node family → WalkM κ σ Unit} (hget : s.arena.get? id = some node)
    (hf : ∃ s', Runs (f node) c s () s' ∧ b.Extends s'.arena) :
    ∃ s', Runs (WalkM.node id >>= f) c s () s' ∧ b.Extends s'.arena :=
  exists_runs_bind (runs_node.2 ⟨hget, rfl⟩) hf

/-! ### Calls -/

/-- **Spelling a type has no fault.** The element of an array was written before the array. -/
theorem Arena.Coherent.exists_typeName (h : a.Coherent) {t : TypeId} (hhas : a.Has (.type t)) :
    ∃ name, a.typeName t = .ok name := by
  have hwithin : ∀ layers (t : TypeId), a.Has (.type t) → t.index < layers →
      ∃ name, a.typeNameWithin layers t = .ok name := by
    intro layers
    induction layers with
    | zero => exact fun _ _ hlt => absurd hlt (Nat.not_lt_zero _)
    | succ layers ih =>
        intro t hhas hlt
        obtain ⟨node, hget⟩ := exists_of_has t hhas
        simp only [typeNameWithin, get_eq_ok.2 hget, bind, Except.bind]
        cases hkind : node.kind with
        | named name target => exact ⟨name, rfl⟩
        | integer | real | boolean | record => exact ⟨_, rfl⟩
        | array length element =>
            have hless := h.ordered t node length element hget hkind
            obtain ⟨name, hname⟩ := ih element (h.closed.element hget hkind) (by omega)
            exact ⟨_, by simp only [hname]; rfl⟩
  have hlt : t.index < a.count .type := has_of.1 (show a.Has (Visit.of t) from hhas)
  exact hwithin _ t hhas (Nat.lt_succ_of_lt hlt)

section

variable {σ : Type} {s : WalkState σ} {c u : Unit}

/-- Typing an expression of the program without reports has no fault. -/
theorem exists_typeQuietly (hforest : b.IsForest nodes) {id : ExpressionId}
    (hreaches : b.Reaches .program (.expression id)) (hs : b.Extends s.arena) :
    ∃ s', Runs (typeQuietly id) c s () s' ∧ b.Extends s'.arena := by
  obtain ⟨s', hrun, hs', -⟩ := (goesOn_typing_of_coherent false).visit hforest.within hreaches c s hs
  exact ⟨s', runs_discard.2 ⟨none, hrun⟩, hs'⟩

theorem exists_checkArgument (hforest : b.IsForest nodes) {argument : ExpressionId}
    (hreaches : b.Reaches .program (.expression argument)) {parameter : VariableId}
    (hparameter : b.Has (.variable parameter)) (number : Nat) (hs : b.Extends s.arena) :
    ∃ s', Runs (checkArgument argument parameter number) c s () s' ∧ b.Extends s'.arena := by
  obtain ⟨s₁, htype, hs₁⟩ := exists_typeQuietly (c := c) hforest hreaches hs
  obtain ⟨e, he⟩ := hs₁.exists_get? argument (hforest.has_of_reaches hreaches (by rintro ⟨⟩))
  obtain ⟨v, hv⟩ := hs₁.exists_get? parameter hparameter
  rw [checkArgument]
  refine exists_runs_bind htype (exists_runs_node_bind he (exists_runs_node_bind hv ?_))
  cases ht : e.type with
  | none => exact ⟨s₁, runs_pure.2 ⟨rfl, rfl⟩, hs₁⟩
  | some received =>
      cases hp : v.declaredType with
      | none => exact ⟨s₁, runs_pure.2 ⟨rfl, rfl⟩, hs₁⟩
      | some expected =>
          have hreceived := hs₁.coherent.closed.type he ht
          have hexpected := hs₁.coherent.closed.declared hv hp
          obtain ⟨same, hsame⟩ := hs₁.coherent.closed.exists_sameType hreceived hexpected
          obtain ⟨expectedName, hexpectedName⟩ := hs₁.coherent.exists_typeName hexpected
          obtain ⟨receivedName, hreceivedName⟩ := hs₁.coherent.exists_typeName hreceived
          cases same with
          | true => exact ⟨s₁, runs_inspect_bind.2 ⟨true, hsame, runs_pure.2 ⟨rfl, rfl⟩⟩, hs₁⟩
          | false =>
              refine ⟨s₁.reported (.invalidArgumentType number expectedName receivedName)
                e.span.start, runs_inspect_bind.2 ⟨false, hsame, ?_⟩, hs₁⟩
              exact runs_inspect_bind.2 ⟨_, hexpectedName, runs_inspect_bind.2 ⟨_, hreceivedName,
                runs_node_bind.2 ⟨e, he, runs_report.2 rfl⟩⟩⟩

/-- A tree is extended when a call gets the type of its routine. -/
theorem CallStored.extends_put {id : ExpressionId} {node : Expression} {name : String} {r : RoutineId}
    {arguments : List ExpressionId} {routine : Routine}
    (h : CallStored a id node name r arguments routine) (hcoherent : a.Coherent) :
    a.Extends (a.put id { node with type := routine.returnType }) := by
  refine hcoherent.put h.get (h.node_refined hcoherent.consistent) (fun hfield _ ht =>
    hcoherent.consistent.settled_of_gives hfield h.gives ht) (Or.inl rfl) fun v hv => ?_
  rcases List.mem_append.1 hv with hv | hv
  · obtain ⟨t, ht, rfl⟩ := List.mem_map.1 hv
    exact hcoherent.closed.result h.routine (Option.mem_toList.1 ht)
  · exact hcoherent.closed .expression id node h.get v
      (List.mem_append_right _ (List.mem_append_right _ hv))

theorem exists_checkArguments (hforest : b.IsForest nodes) {arguments : List ExpressionId}
    (hreaches : ∀ e ∈ arguments, b.Reaches .program (.expression e)) {parameters : List VariableId}
    (hparameters : ∀ x ∈ parameters, b.Has (.variable x)) (start : Position)
    (hs : b.Extends s.arena) :
    ∃ s', Runs (checkArguments checkArgument arguments parameters start) c s () s' ∧
      b.Extends s'.arena := by
  unfold checkArguments
  split
  · have hturns : ∀ (turns : List ((ExpressionId × VariableId) × Nat)) (s : WalkState σ),
        b.Extends s.arena → (∀ p ∈ turns, p.1 ∈ arguments.zip parameters) →
        ∃ s', Runs (turns.forM fun p => checkArgument p.1.1 p.1.2 (p.2 + 1)) c s ⟨⟩ s' ∧
          b.Extends s'.arena := by
      intro turns
      induction turns with
      | nil => exact fun s hs _ => ⟨s, runs_forM_nil.2 rfl, hs⟩
      | cons p rest ih =>
          intro s hs hmem
          obtain ⟨hargument, hparameter⟩ := List.of_mem_zip (hmem p List.mem_cons_self)
          obtain ⟨s₁, hfirst, hs₁⟩ := exists_checkArgument (c := c) hforest
            (hreaches _ hargument) (hparameters _ hparameter) (p.2 + 1) hs
          obtain ⟨s', hrest, hs'⟩ := ih s₁ hs₁ fun q hq => hmem q (List.mem_cons_of_mem _ hq)
          exact ⟨s', runs_forM_cons.2 ⟨s₁, hfirst, hrest⟩, hs'⟩
    exact hturns _ s hs fun p hp => List.fst_mem_of_mem_zipIdx hp
  · exact ⟨_, runs_report.2 rfl, hs⟩

theorem exists_checkCall (hforest : b.IsForest nodes) {id : ExpressionId}
    (hreaches : b.Reaches .program (.expression id)) (hs : b.Extends s.arena) :
    ∃ s', Runs (checkCall checkArgument id) c s () s' ∧ b.Extends s'.arena := by
  obtain ⟨node, hget⟩ := hs.exists_get? id (hforest.has_of_reaches hreaches (by rintro ⟨⟩))
  rw [checkCall]
  refine exists_runs_node_bind hget ?_
  cases hkind : node.kind with
  | call name target arguments =>
      cases target with
      | none => exact ⟨_, runs_report.2 rfl, hs⟩
      | some r =>
          obtain ⟨routine, hr⟩ := exists_of_has r (hs.coherent.closed.routine hget hkind)
          have hoperands : ∀ e ∈ arguments, b.Reaches .program (.expression e) := by
            intro e he
            refine hreaches.tail ?_
            rw [← hs.refined.children_eq, Visit.expression_eq id,
              children_of_get? hget, Node.children, hkind]
            exact List.mem_map_of_mem he
          have hparameters : ∀ x ∈ routine.parameters, b.Has (.variable x) := fun x hx =>
            hs.refined.has_iff.1 (hs.coherent.closed .routine r routine hr _ (List.mem_append_left _
              (List.mem_append_left _ (List.mem_append_left _ (List.mem_map_of_mem hx)))))
          obtain ⟨s₁, hcheck, hs₁⟩ := exists_checkArguments (c := c) hforest hoperands
            hparameters node.span.start hs
          obtain ⟨old, hold, hsame⟩ := hs.refined.exists_get? hget
          have hkind' : old.kind = .call name (some r) arguments :=
            (hsame.kind_eq_of_new (by rw [hkind]; rintro _ _ ⟨⟩)).trans hkind
          obtain ⟨node₁, hget₁, hsame₁⟩ := hs₁.refined.expressions id old hold
          have hr₁ : s₁.arena.get? r = some routine :=
            ((hs₁.refined.get?_eq .routine (by decide) r).trans
              (hs.refined.get?_eq .routine (by decide) r).symm).trans hr
          have hstored : CallStored s₁.arena id node₁ name r arguments routine :=
            ⟨hget₁, (hsame₁.kind_eq (by rw [hkind']; rintro _ _ ⟨⟩)).trans hkind', hr₁⟩
          refine exists_runs_node_bind hr (exists_runs_bind hcheck ?_)
          exact ⟨s₁.put id { node₁ with type := routine.returnType },
            runs_update.2 ⟨node₁, hget₁, rfl⟩,
            hs₁.trans (hstored.extends_put hs₁.coherent)⟩
  | unary | binary | integer | real | boolean | identifier =>
      exact ⟨s, runs_pure.2 ⟨rfl, rfl⟩, hs⟩

theorem goes_calls (hforest : b.IsForest nodes) :
    Goes b (callVisitor (checkArgument : ArgumentCheck σ)) := by
  refine ⟨fun hs => hs.refined, fun _ _ => rfl, fun n v hreaches hv hready c s hs => ?_⟩
  have hwalk := hready.exists_walk (c := c) hv hs
  cases v with
  | «variable» id =>
      obtain ⟨s₁, hrun, hs₁, -⟩ := hwalk
      obtain ⟨node, hget, hread⟩ := hready.exists_node id nofun (hv.resolve_left nofun)
      cases hinit : node.initializer with
      | none =>
          refine ⟨s₁, runs_bind.2 ⟨(), s₁, hrun, runs_node_bind.2 ⟨node, hread hs₁, ?_⟩⟩, hs₁, trivial⟩
          rw [hinit]
          exact runs_pure.2 ⟨rfl, rfl⟩
      | some e =>
          have hvalue : b.Reaches .program (.expression e) := by
            refine hreaches.tail ?_
            rw [Visit.variable_eq id, children_of_get? hget, Node.children, hinit]
            exact List.mem_append_right _ List.mem_cons_self
          obtain ⟨s', htype, hs'⟩ := exists_typeQuietly (c := c) hforest hvalue hs₁
          refine ⟨s', runs_bind.2 ⟨(), s₁, hrun, runs_node_bind.2 ⟨node, hread hs₁, ?_⟩⟩, hs', trivial⟩
          rw [hinit]
          exact runs_bind.2 ⟨(), s', htype, runs_pure.2 ⟨rfl, rfl⟩⟩
  | expression id =>
      obtain ⟨s₁, hrun, hs₁, -⟩ := hwalk
      obtain ⟨s', hcheck, hs'⟩ := exists_checkCall (c := c) hforest hreaches hs₁
      exact ⟨s', runs_bind.2 ⟨(), s₁, hrun, runs_bind.2 ⟨(), s', hcheck, runs_pure.2 ⟨rfl, rfl⟩⟩⟩, hs',
        trivial⟩
  | program | declaration | routine | typeDecl | type | body | statement =>
      exact visits_walkThrough hready hv c s hs

end

/-! ### All passes -/

/-- **Each pass behind name resolution comes to its end**, and extends the tree. -/
theorem completes_laterPasses : ∀ pass ∈ laterPasses, pass.Completes := by
  intro pass hpass
  simp only [laterPasses, List.mem_cons, List.not_mem_nil, or_false] at hpass
  rcases hpass with rfl | rfl | rfl | rfl | rfl
  · exact completes_of_goes (fun _ _ hforest => goes_calls hforest) _ _ _
  · intro a nodes hforest hcoherent
    obtain ⟨outcome, hrun, harena, -⟩ := exists_lengths hforest (.refl a)
    refine ⟨outcome, hrun, ?_⟩
    rw [harena]
    exact .refl hcoherent
  · intro a nodes hforest hcoherent
    obtain ⟨outcome, hrun, hextends, -⟩ := exists_constants hforest (.refl hcoherent)
    exact ⟨outcome, hrun, hextends⟩
  · exact fun a nodes hforest hcoherent => exists_typing_of_coherent hforest hcoherent
  · intro a nodes hforest hcoherent
    obtain ⟨outcome, hrun, harena, -⟩ := exists_returnPaths hforest
    refine ⟨outcome, hrun, ?_⟩
    rw [harena]
    exact .refl hcoherent

/-- So do all of them in a row. -/
theorem exists_after_of_coherent (hforest : a.IsForest nodes) {passes : List Pass}
    (hpasses : passes ⊆ laterPasses) (hcoherent : a.Coherent) :
    ∃ a', a.after passes = .ok a' ∧ a.Extends a' := by
  induction passes generalizing a with
  | nil => exact ⟨a, rfl, .refl hcoherent⟩
  | cons pass rest ih =>
      obtain ⟨hpass, hrest⟩ := List.cons_subset.1 hpasses
      obtain ⟨outcome, hrun, hfirst⟩ := completes_laterPasses pass hpass a nodes hforest hcoherent
      obtain ⟨a', hafter, hothers⟩ :=
        ih (hfirst.refined.isForest hforest) hrest hfirst.coherent
      exact ⟨a', after_cons hrun hafter, hfirst.trans hothers⟩

/-- A sound tree stays sound. -/
theorem exists_after (hforest : b.IsForest nodes) {passes : List Pass} (hpasses : passes ⊆ laterPasses)
    (ha : b.Grown a) : ∃ a', a.after passes = .ok a' ∧ b.Grown a' := by
  obtain ⟨a', hafter, hextends⟩ :=
    exists_after_of_coherent (ha.refined.isForest hforest) hpasses ha.sound.toCoherent
  exact ⟨a', hafter, ha.extend hextends⟩

end ProcLang
