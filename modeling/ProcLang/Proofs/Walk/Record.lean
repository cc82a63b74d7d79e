import ProcLang.Proofs.Passes.Ownership
import ProcLang.Proofs.Rewriting.Turns
import ProcLang.Proofs.Walk.Total

/-!
# ProcLang.Proofs.Walk.Record

**The default walk visits everything exactly once** (`visits_parse`). What the recorder writes down
at a node is the node and then the trees below it, one after the other (`Recorded`); entries in lists
of declarations stand in between. So the record of a walk over a program, without these entries, is
the list of the nodes of its tree, in which nothing is repeated and nothing precedes its owner.
-/

namespace ProcLang

open Arena WalkM

/-! ### The nodes of a record -/

instance : DecidablePred Visit.IsOwner
  | .declaration _ => isFalse id
  | .program | .routine _ | .variable _ | .typeDecl _ | .type _ | .body _ | .statement _
  | .expression _ => isTrue trivial

/-- The visits without the entries in lists of declarations. -/
def nodesAmong (visits : List Visit) : List Visit := visits.filter fun v => v.IsOwner

section

variable {visits others : List Visit} {v : Visit}

theorem nodesAmong_append : nodesAmong (visits ++ others) = nodesAmong visits ++ nodesAmong others :=
  List.filter_append ..

theorem nodesAmong_cons_owner (h : v.IsOwner) : nodesAmong (v :: visits) = v :: nodesAmong visits :=
  List.filter_cons_of_pos (decide_eq_true h)

theorem count_nodesAmong (h : v.IsOwner) : (nodesAmong visits).count v = visits.count v :=
  List.count_filter (decide_eq_true h)

theorem mem_nodesAmong (h : v.IsOwner) : v ∈ nodesAmong visits ↔ v ∈ visits := by
  simp [nodesAmong, h]

end

/-! ### Owners come first -/

namespace Spans

variable {a : Arena} {vs all other : List Visit} {v w : Visit}

/-- Roots have one list of nodes. -/
theorem unique (h : Spans a vs all) (h' : Spans a vs other) : all = other := by
  induction h generalizing other with
  | nil =>
      cases h'
      rfl
  | cons _ _ _ ihb ihr =>
      cases h' with
      | cons _ inner outer => rw [ihb inner, ihr outer]

/-- A node stands behind the node that it is a child of. -/
theorem pair_sublist (h : Spans a vs all) (hv : v ∈ all) (hw : w ∈ a.children v) :
    [v, w].Sublist all := by
  induction h with
  | nil => nomatch hv
  | @cons root beside below rest _ inner _ ihb ihr =>
      rcases List.mem_cons.1 hv with rfl | hv
      · refine (List.singleton_sublist.2 ?_).cons_cons _
        exact List.mem_append_left _ (inner.mem_of_root hw)
      · refine List.Sublist.cons _ ?_
        rcases List.mem_append.1 hv with hv | hv
        · exact (ihb hv).trans (List.sublist_append_left ..)
        · exact (ihr hv).trans (List.sublist_append_right ..)

end Spans

/-! ### What the recorder writes down -/

section

variable {a : Arena} {nodes ws : List Visit} {v : Visit} {s s' : WalkState (Array Visit)}

/-- What is written down at a node: the node first, and then the trees below it. -/
def Recorded (a : Arena) (v : Visit) (s s' : WalkState (Array Visit)) : Prop :=
  ∃ seen below, s'.own.toList = s.own.toList ++ seen ∧ Spans a (a.children v) below ∧
    nodesAmong seen = v :: below

/-- The trees of nodes that are visited one after the other are written down one after the other. -/
theorem exists_spans_of_inTurn (hhas : ∀ w ∈ ws, a.Has w) (h : InTurn (Recorded a) ws s s') :
    ∃ seen, s'.own.toList = s.own.toList ++ seen ∧ Spans a ws (nodesAmong seen) := by
  induction h with
  | nil => exact ⟨[], (List.append_nil _).symm, .nil⟩
  | cons first _ ih =>
      obtain ⟨seen, below, hseen, hinner, hnodes⟩ := first
      obtain ⟨rest, hrest, houter⟩ := ih fun w hw => hhas w (List.mem_cons_of_mem _ hw)
      refine ⟨seen ++ rest, by rw [hrest, hseen, List.append_assoc], ?_⟩
      rw [nodesAmong_append, hnodes]
      exact .cons (hhas _ List.mem_cons_self) hinner houter

/-- **The recorder goes on at each node**, and writes down what is there. -/
theorem proceeds_recorder (hforest : a.IsForest nodes) :
    Proceeds a (fun s => s.arena = a) (Recorded a) recorder where
  refined hs := hs ▸ .refl _
  entry n d hvisits := by
    intro c s hs
    obtain ⟨s', hrun, hs', seen, below, hseen, hspans, hnodes⟩ :=
      hvisits c { s with own := s.own.push (.declaration d) } hs
    refine ⟨s', runs_updateOwn_bind.2 (runs_bind.2 ⟨(), s', ?_, runs_pure.2 ⟨rfl, rfl⟩⟩), hs',
      .declaration d :: seen, below, by simpa using hseen, hspans, hnodes⟩
    cases d <;> exact runs_discard.2 ⟨none, hrun⟩
  layer n v hreaches hv hready := by
    intro c s hs
    have howner : v.IsOwner := by
      cases v with
      | declaration d =>
          obtain ⟨_, _, haddress, -⟩ := hv.resolve_left nofun
          nomatch haddress
      | _ => trivial
    have hhas : ∀ w ∈ a.children v, a.Has w := fun w hw => by
      obtain ⟨below, hbelow, -⟩ := hforest.exists_below hreaches
      exact hbelow.has_of_mem (hbelow.mem_of_root hw)
    obtain ⟨s', hwalk, hs', hturns⟩ :=
      hready.exists_walk (c := c) (s := { s with own := s.own.push v }) hv hs
    obtain ⟨seen, hseen, hspans⟩ := exists_spans_of_inTurn hhas hturns
    exact ⟨s', runs_updateOwn_bind.2 (runs_bind.2 ⟨(), s', hwalk, runs_pure.2 ⟨rfl, rfl⟩⟩), hs',
      v :: seen, _, by simpa using hseen, hspans, nodesAmong_cons_owner howner⟩

/-- **The record of a walk over a program** lists the nodes below the program. -/
theorem exists_visits (hforest : a.IsForest nodes) :
    ∃ visits, a.visits = .ok visits ∧ nodesAmong visits = .program :: nodes := by
  obtain ⟨s, hwalk, -, seen, below, hseen, hspans, hnodes⟩ :=
    (proceeds_recorder hforest).exists_walkProgram hforest.within () a #[] rfl
  obtain rfl : s.own.toList = seen := by simpa using hseen
  refine ⟨s.own.toList, by rw [Arena.visits, hwalk]; rfl, ?_⟩
  rw [hnodes, hspans.unique hforest.spans]

end

/-! ### Parsed programs -/

/-- A node is below the program unless it is a shared type. -/
theorem Arena.IsTree.mem_iff {a : Arena} {nodes : List Visit} (htree : a.IsTree nodes) {v : Visit} :
    v ∈ nodes ↔ a.Has v ∧ v ∉ [Visit.type integer, .type real, .type boolean] := by
  rw [← empty_has_iff]
  constructor
  · intro hv
    exact ⟨htree.spans.has_of_mem hv, htree.fresh v hv⟩
  · rintro ⟨hhas, hshared⟩
    obtain ⟨family, id, rfl⟩ := hhas.exists_of
    obtain ⟨node, hget⟩ := hhas.exists_get?
    exact ((htree.covers family id node hget).resolve_left hshared).1

/-- The program and the nodes of its tree stand in front of what they own. -/
theorem Arena.IsTree.pair_sublist {a : Arena} {nodes : List Visit} (htree : a.IsTree nodes)
    {v w : Visit} (howner : v.IsOwner) (hw : w ∈ a.children v) :
    [v, w].Sublist (.program :: nodes) := by
  rcases eq_program_or_has_of_child howner hw with rfl | hhas
  · exact (List.singleton_sublist.2 (htree.spans.mem_of_root hw)).cons_cons _
  · obtain ⟨family, id, rfl⟩ := hhas.exists_of
    obtain ⟨node, hget⟩ := hhas.exists_get?
    rw [children_of_get? hget] at hw
    refine (htree.spans.pair_sublist (htree.mem_of_child hget hw) ?_).cons _
    rwa [children_of_get? hget]

/-- **The default walk over a program visits everything exactly once**: every node but the shared
types, and nothing else but the program and entries in lists of declarations. What owns a node is
visited before it. -/
theorem visits_parse (source : String) (hparse : (parse source).errors = []) :
    ∃ visits, (parse source).arena.visits = .ok visits ∧
      (∀ (family : Family) (id : NodeId family), id.index < (parse source).arena.count family →
        Visit.of id ∉ [Visit.type integer, .type real, .type boolean] →
          visits.count (Visit.of id) = 1) ∧
      (∀ v ∈ visits, v.IsOwner → v = .program ∨
        (parse source).arena.Has v ∧ v ∉ [Visit.type integer, .type real, .type boolean]) ∧
      ∀ v w, v.IsOwner → w ∈ (parse source).arena.children v → [v, w].Sublist visits := by
  obtain ⟨nodes, htree⟩ := Parser.parse_isTree source hparse
  obtain ⟨visits, hvisits, hnodes⟩ := exists_visits htree.isForest
  refine ⟨visits, hvisits, fun family id hlt hshared => ?_, fun v hv howner => ?_,
    fun v w howner hw => ?_⟩
  · have hmem : Visit.of id ∈ nodes := htree.mem_iff.2 ⟨has_of.2 hlt, hshared⟩
    have hne : Visit.program ≠ Visit.of id := by cases family <;> nofun
    rw [← count_nodesAmong (Visit.isOwner_of id), hnodes, List.count_cons_of_ne hne]
    exact List.count_eq_one_of_mem htree.nodup hmem
  · rw [← mem_nodesAmong howner, hnodes] at hv
    exact (List.mem_cons.1 hv).imp_right htree.mem_iff.1
  · have hpair := htree.pair_sublist howner hw
    rw [← hnodes] at hpair
    exact hpair.trans List.filter_sublist

/-- A program with nodes of all families. The loop counter, which no list of declarations holds, and
the length of the array are visited as well. -/
theorem visits_parse_families :
    let source := "type p is record\n  var x : array [2] real\nend\nroutine f(a : p) : integer is\n" ++
      "  for i in 1..2 loop\n    return i\n  end\nend\n"
    let a := (parse source).arena
    (parse source).errors = [] ∧
    ∃ visits, a.visits = .ok visits ∧
      (∀ (family : Family) (id : NodeId family), id.index < a.count family →
        Visit.of id ∉ [Visit.type integer, .type real, .type boolean] →
          visits.count (Visit.of id) = 1) ∧
      (∀ v ∈ visits, v.IsOwner → v = .program ∨
        a.Has v ∧ v ∉ [Visit.type integer, .type real, .type boolean]) ∧
      ∀ v w, v.IsOwner → w ∈ a.children v → [v, w].Sublist visits := by
  intro source a
  have hparse : (parse source).errors = [] := by decide +kernel
  exact ⟨hparse, visits_parse source hparse⟩

end ProcLang
