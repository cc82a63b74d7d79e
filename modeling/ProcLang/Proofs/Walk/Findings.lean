import Mathlib.Data.Set.List
import ProcLang.Proofs.Walk.Total

/-!
# ProcLang.Proofs.Walk.Findings

**Reports in the order of the walk.** What a pass has to say at a node it says in front of what it says
about the nodes below, or behind it. `a.Findings ahead behind vs ds` says that `ds` is all of it for
the trees at `vs`, put together in the order of the walk: one report for each node that is faulty, and
none for the others. The list is determined by the tree and by what counts as faulty
(`Findings.unique`). In a tree without repetitions each faulty node of the program is reported once
(`IsForest.exists_onceReported`).
-/

namespace ProcLang

/-- One report at a node that is faulty, and none at another one. -/
inductive Reported (faulty : Visit → Diagnostic → Prop) (v : Visit) : List Diagnostic → Prop
  | faulty {d : Diagnostic} (h : faulty v d) : Reported faulty v [d]
  | fine (h : ∀ d, ¬ faulty v d) : Reported faulty v []

/-- What counts as faulty is reported in one way only. -/
def Definite (faulty : Visit → Diagnostic → Prop) : Prop :=
  ∀ v d d', faulty v d → faulty v d' → d = d'

theorem Reported.unique {faulty : Visit → Diagnostic → Prop} (hdefinite : Definite faulty)
    {v : Visit} {ds ds' : List Diagnostic} (h : Reported faulty v ds) (h' : Reported faulty v ds') :
    ds = ds' := by
  cases h with
  | faulty hd =>
      cases h' with
      | faulty hd' => rw [hdefinite v _ _ hd hd']
      | fine hnone => exact absurd hd (hnone _)
  | fine hnone =>
      cases h' with
      | faulty hd' => exact absurd hd' (hnone _)
      | fine => rfl

/-- The fault that no node has. -/
def NoFault (_ : Visit) (_ : Diagnostic) : Prop := False

theorem definite_noFault : Definite NoFault := fun _ _ _ => False.elim

theorem Reported.noFault (v : Visit) : Reported NoFault v [] := .fine fun _ => id

namespace Arena

variable {a : Arena} {ahead behind : Visit → Diagnostic → Prop} {v : Visit} {vs ws : List Visit}
  {ds rest : List Diagnostic}

/-- The reports for the nodes at and below some roots, in the order of the walk: those on `ahead` in
front of what is below a node, those on `behind` behind it. -/
inductive Findings (a : Arena) (ahead behind : Visit → Diagnostic → Prop) :
    List Visit → List Diagnostic → Prop
  | nil : Findings a ahead behind [] []
  | cons {v : Visit} {beside : List Visit} {first inner last rest : List Diagnostic}
      (front : Reported ahead v first) (below : Findings a ahead behind (a.children v) inner)
      (back : Reported behind v last) (outer : Findings a ahead behind beside rest) :
      Findings a ahead behind (v :: beside) (first ++ inner ++ last ++ rest)

namespace Findings

/-- A tree on its own. -/
theorem singleton {first inner last : List Diagnostic} (front : Reported ahead v first)
    (below : a.Findings ahead behind (a.children v) inner) (back : Reported behind v last) :
    a.Findings ahead behind [v] (first ++ inner ++ last) := by
  have h := Findings.cons front below back .nil
  rwa [List.append_nil] at h

theorem append (h : a.Findings ahead behind vs ds) (h' : a.Findings ahead behind ws rest) :
    a.Findings ahead behind (vs ++ ws) (ds ++ rest) := by
  induction h with
  | nil => exact h'
  | cons front below back _ _ ih =>
      rw [List.cons_append, List.append_assoc]
      exact .cons front below back ih

/-- **The reports are determined by the tree.** -/
theorem unique (hahead : Definite ahead) (hbehind : Definite behind)
    (h : a.Findings ahead behind vs ds) (h' : a.Findings ahead behind vs rest) : ds = rest := by
  induction h generalizing rest with
  | nil =>
      cases h'
      rfl
  | cons front _ back _ ihb iho =>
      cases h' with
      | cons front' below' back' outer' =>
          rw [front.unique hahead front', ihb below', back.unique hbehind back', iho outer']

end Findings

end Arena

/-! ### Each fault once -/

/-- What is said at a node is said of the node, if it is faulty. -/
theorem Reported.exists_faulty {faulty : Visit → Diagnostic → Prop} {v : Visit} {ds : List Diagnostic}
    (h : Reported faulty v ds) :
    ∃ found : List Visit, found.Nodup ∧ (∀ w, w ∈ found ↔ w = v ∧ ∃ d, faulty w d) ∧
      List.Forall₂ faulty found ds := by
  cases h with
  | fine hfine =>
      refine ⟨[], .nil, fun w => ⟨nofun, ?_⟩, .nil⟩
      rintro ⟨rfl, d, hd⟩
      exact absurd hd (hfine d)
  | @faulty d hd =>
      refine ⟨[v], List.nodup_singleton v, fun w => ?_, .cons hd .nil⟩
      rw [List.mem_singleton]
      constructor
      · rintro rfl
        exact ⟨rfl, d, hd⟩
      · exact And.left

namespace Arena

variable {a : Arena} {nodes vs all : List Visit} {ds : List Diagnostic}
  {ahead behind faulty : Visit → Diagnostic → Prop} {family : Family}

/-- **Every fault is found once.** The faulty nodes at and below some roots, in the order of their
reports, where no node is faulty in both ways. -/
theorem Findings.exists_faulty (h : a.Findings ahead behind vs ds)
    (hone : ∀ v d d', ahead v d → ¬ behind v d') (hspans : Spans a vs all) (hnodup : all.Nodup) :
    ∃ found : List Visit, found.Nodup ∧
      (∀ v, v ∈ found ↔ v ∈ all ∧ ∃ d, ahead v d ∨ behind v d) ∧
      List.Forall₂ (fun v d => ahead v d ∨ behind v d) found ds := by
  induction h generalizing all with
  | nil =>
      cases hspans
      exact ⟨[], .nil, by simp, .nil⟩
  | @cons v beside first inner last rest front below back outer ihBelow ihOuter =>
      obtain ⟨xs, ys, rfl, hfirst, hrest⟩ := hspans.cons_inv
      obtain ⟨-, under, hunder, rfl⟩ := hfirst.singleton_inv
      obtain ⟨hxs, hys, hdisjoint⟩ := List.nodup_append.1 hnodup
      obtain ⟨hfresh, hunderNodup⟩ := List.nodup_cons.1 hxs
      -- the node, the nodes below, the node again, then those beside it
      obtain ⟨self, hself, hmemSelf, hreportsSelf⟩ := front.exists_faulty
      obtain ⟨found, hfound, hmem, hreports⟩ := ihBelow hunder hunderNodup
      obtain ⟨self', hself', hmemSelf', hreportsSelf'⟩ := back.exists_faulty
      obtain ⟨found', hfound', hmem', hreports'⟩ := ihOuter hrest hys
      refine ⟨self ++ found ++ self' ++ found', ?_, fun w => ?_, ?_⟩
      · refine List.nodup_append.2 ⟨List.nodup_append.2 ⟨List.nodup_append.2 ⟨hself, hfound, ?_⟩,
          hself', ?_⟩, hfound', ?_⟩
        · rintro w hw _ hw' rfl
          obtain rfl := ((hmemSelf w).1 hw).1
          exact hfresh ((hmem w).1 hw').1
        · rintro w hw _ hw' rfl
          obtain ⟨rfl, d', hbehind⟩ := (hmemSelf' w).1 hw'
          rcases List.mem_append.1 hw with hw | hw
          · obtain ⟨-, d, hahead⟩ := (hmemSelf w).1 hw
            exact hone w d d' hahead hbehind
          · exact hfresh ((hmem w).1 hw).1
        · intro w hw w' hw'
          refine hdisjoint w ?_ w' ((hmem' w').1 hw').1
          rcases List.mem_append.1 hw with hw | hw
          · rcases List.mem_append.1 hw with hw | hw
            · exact List.mem_cons.2 (Or.inl ((hmemSelf w).1 hw).1)
            · exact List.mem_cons_of_mem _ ((hmem w).1 hw).1
          · exact List.mem_cons.2 (Or.inl ((hmemSelf' w).1 hw).1)
      · simp only [List.mem_append, List.mem_cons, hmem, hmemSelf, hmemSelf', hmem']
        constructor
        · rintro (((⟨rfl, d, hd⟩ | ⟨hw, hd⟩) | ⟨rfl, d, hd⟩) | ⟨hw, hd⟩)
          · exact ⟨Or.inl (Or.inl rfl), d, Or.inl hd⟩
          · exact ⟨Or.inl (Or.inr hw), hd⟩
          · exact ⟨Or.inl (Or.inl rfl), d, Or.inr hd⟩
          · exact ⟨Or.inr hw, hd⟩
        · rintro ⟨(rfl | hw) | hw, d, hd⟩
          · rcases hd with hd | hd
            · exact Or.inl (Or.inl (Or.inl ⟨rfl, d, hd⟩))
            · exact Or.inl (Or.inr ⟨rfl, d, hd⟩)
          · exact Or.inl (Or.inl (Or.inr ⟨hw, d, hd⟩))
          · exact Or.inr ⟨hw, d, hd⟩
      · have hself := hreportsSelf.imp fun v d (hd : ahead v d) => (Or.inl hd : ahead v d ∨ behind v d)
        have hself' := hreportsSelf'.imp fun v d (hd : behind v d) => (Or.inr hd : ahead v d ∨ behind v d)
        exact List.rel_append (List.rel_append (List.rel_append hself hreports) hself') hreports'

/-- The reports `ds` are one for each faulty node of the program; the nodes are `ids`, in the order of
the reports. -/
structure OnceReported (a : Arena) (faulty : NodeId family → Diagnostic → Prop)
    (ids : List (NodeId family)) (ds : List Diagnostic) : Prop where
  /-- No node is reported twice. -/
  nodup : ids.Nodup
  /-- The nodes of the program that are faulty are reported, and no others. -/
  mem_iff : ∀ id, id ∈ ids ↔ a.Reaches .program (Visit.of id) ∧ ∃ d, faulty id d
  /-- Each report says what is wrong with its node. -/
  reports : List.Forall₂ faulty ids ds

/-- What is faulty in another tree with the same nodes. -/
theorem OnceReported.congr {b : Arena} {faulty faulty' : NodeId family → Diagnostic → Prop}
    {ids : List (NodeId family)} (h : a.OnceReported faulty ids ds)
    (hreaches : ∀ id : NodeId family, b.Reaches .program (Visit.of id) ↔ a.Reaches .program (Visit.of id))
    (hfaulty : ∀ id d, a.Reaches .program (Visit.of id) → (faulty' id d ↔ faulty id d)) :
    b.OnceReported faulty' ids ds where
  nodup := h.nodup
  mem_iff id := by
    rw [h.mem_iff, hreaches]
    exact and_congr_right fun hid => exists_congr fun d => (hfaulty id d hid).symm
  reports := by
    refine ((List.forall₂_and_left ids ds).2 ⟨fun id hid => hid, h.reports⟩).imp fun id d hd => ?_
    exact (hfaulty id d ((h.mem_iff id).1 hd.1).1).2 hd.2

/-- **Each faulty node of the program is reported once**, if all of them are of one family and no node is
faulty in both ways. -/
theorem IsForest.exists_onceReported (hforest : a.IsForest nodes)
    (h : a.Findings ahead behind [.program] ds) (hone : ∀ v d d', ahead v d → ¬ behind v d')
    (hof : ∀ v d, ahead v d ∨ behind v d → ∃ id : NodeId family, v = Visit.of id) :
    ∃ ids, a.OnceReported (fun id : NodeId family => fun d => ahead (Visit.of id) d ∨ behind (Visit.of id) d)
      ids ds := by
  have hprogram : ∀ d, ¬ (ahead .program d ∨ behind .program d) := by
    intro d hd
    obtain ⟨id, heq⟩ := hof _ d hd
    cases family <;> nomatch heq
  cases h with
  | @cons _ _ first inner last rest front below back outer =>
      cases outer
      cases front with
      | faulty hd => exact absurd (Or.inl hd) (hprogram _)
      | fine =>
          cases back with
          | faulty hd => exact absurd (Or.inr hd) (hprogram _)
          | fine =>
              rw [List.append_nil, List.append_nil, List.nil_append]
              obtain ⟨found, hnodup, hmem, hreports⟩ :=
                below.exists_faulty hone hforest.spans hforest.nodup
              have hids : ∀ v ∈ found, v ∈ Set.range (Visit.of : NodeId family → Visit) := by
                intro v hv
                obtain ⟨-, d, hd⟩ := (hmem v).1 hv
                obtain ⟨id, rfl⟩ := hof v d hd
                exact ⟨id, rfl⟩
              obtain ⟨ids, rfl⟩ := (Set.range_list_map (Visit.of : NodeId family → Visit)).ge hids
              refine ⟨ids, hnodup.of_map, fun id => ?_, List.forall₂_map_left_iff.1 hreports⟩
              have hnode : Visit.of id ∈ nodes ↔ a.Reaches .program (Visit.of id) :=
                ⟨hforest.reaches_of_mem, fun hreaches =>
                  (hforest.mem_of_reaches hreaches).resolve_left (by cases family <;> nofun)⟩
              rw [← hnode, ← hmem, List.mem_map_of_injective fun _ _ => Visit.of_injective]

end Arena

/-! ### Walks that report -/

namespace WalkM

variable {κ σ : Type} {a : Arena} {ahead behind : Visit → Diagnostic → Prop} {c : κ}
  {I : WalkState σ → Prop} {P Q : Visit → WalkState σ → WalkState σ → Prop}
  {below : Visit → WalkM κ σ (Option ExpressionId)} {s s₁ s' : WalkState σ} {v : Visit}
  {vs : List Visit}

theorem InTurn.imp (hPQ : ∀ w s s', P w s s' → Q w s s') (h : InTurn P vs s s') :
    InTurn Q vs s s' := by
  induction h with
  | nil => exact .nil _
  | cons first _ ih => exact .cons (hPQ _ _ _ first) ih

/-- Between two states reports are added. -/
def Adds (ds : List Diagnostic) (s s' : WalkState σ) : Prop :=
  s'.diagnostics.toList = s.diagnostics.toList ++ ds

theorem Adds.refl (s : WalkState σ) : Adds [] s s := (List.append_nil _).symm

theorem Adds.trans {ds rest : List Diagnostic} (h : Adds ds s s₁) (h' : Adds rest s₁ s') :
    Adds (ds ++ rest) s s' := by
  rw [Adds, h', h, List.append_assoc]

theorem Adds.reported (s : WalkState σ) (cause : Cause) (place : Position) :
    Adds [⟨cause, place⟩] s (s.reported cause place) :=
  Array.toList_push

/-- Between two states the findings at and below some nodes are added. -/
def Finds (a : Arena) (ahead behind : Visit → Diagnostic → Prop) (vs : List Visit)
    (s s' : WalkState σ) : Prop :=
  ∃ ds, a.Findings ahead behind vs ds ∧ Adds ds s s'

/-- What is found below the nodes one after the other is what is found below all of them. -/
theorem Finds.of_inTurn (h : InTurn (fun w => Finds a ahead behind [w]) vs s s') :
    Finds a ahead behind vs s s' := by
  induction h with
  | nil s => exact ⟨[], .nil, .refl s⟩
  | cons first _ ih =>
      obtain ⟨ds, hfirst, hadds⟩ := first
      obtain ⟨rest, hrest, hadds'⟩ := ih
      exact ⟨ds ++ rest, hfirst.append hrest, hadds.trans hadds'⟩

/-- A node at which nothing is said. -/
theorem Finds.of_children (hahead : ∀ d, ¬ ahead v d) (hbehind : ∀ d, ¬ behind v d)
    (h : Finds a ahead behind (a.children v) s s') : Finds a ahead behind [v] s s' := by
  obtain ⟨ds, hfinds, hadds⟩ := h
  have hall := Arena.Findings.singleton (.fine hahead) hfinds (.fine hbehind)
  rw [List.nil_append, List.append_nil] at hall
  exact ⟨ds, hall, hadds⟩

end WalkM

end ProcLang
