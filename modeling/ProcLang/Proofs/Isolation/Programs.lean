import ProcLang.Proofs.Isolation.Resolved

/-!
# ProcLang.Proofs.Isolation.Programs

**Bodies are resolved in isolation** (`nameResolution_isolated`). For all two source texts that read
without errors and whose trees are the same outside of the contents of one body, name resolution says the
same of all nodes outside, in the same order, and leaves the same outside: the same calls in place of
bare names, and the same links. What is in the two bodies does not matter, nor which errors are in them.
-/

namespace ProcLang

open Arena

variable {a b : Arena} {x y : BodyId} {nodes nodes' : List Visit}

/-! ### Outside of the body -/

/-- No place is inside of the body. -/
theorem Arena.SamePlace.not_inBody {v w : Visit} (h : SamePlace a b x y v w) (htree : a.IsTree nodes)
    (hx : .body x ∈ nodes) : ¬ a.InBody x v := by
  have hinner : ∀ {u v}, u ∈ a.children (.body x) → a.Reaches u v → v ∈ nodes := fun hu hreaches =>
    htree.spans.mem_of_reaches (htree.spans.child_mem hx hu) hreaches
  induction h with
  | program =>
      rintro ⟨u, hu, hreaches⟩
      exact htree.spans.program_not_mem (hinner hu hreaches)
  | child h hv _ hchild ih =>
      rintro ⟨u, hu, hreaches⟩
      have hmem := (List.of_mem_zip hchild).1
      rcases Relation.ReflTransGen.cases_tail hreaches with rfl | ⟨p, hp, hlast⟩
      · exact hv (htree.parent_eq (h.mem htree) (Or.inr hx) hmem hu)
      · obtain rfl := htree.parent_eq (h.mem htree) (Or.inr (hinner hu hp)) hmem hlast
        exact ih ⟨u, hu, hp⟩

open Classical in
/-- What is said outside of the body, in the order in which it is said. -/
noncomputable def Arena.remarksOutside (a : Arena) (x : BodyId) (remarks : List Remark) : List Remark :=
  remarks.filter fun r => ¬ a.InBody x r.visit

/-- **What agrees** is the same outside of the two bodies. -/
theorem Twins.remarksOutside (h : Twins a b x y nodes nodes') {remarks remarks' : List Remark}
    (hagree : Agree a b x y remarks remarks') : List.Forall₂ (SameRemark a b x y)
      (a.remarksOutside x remarks) (b.remarksOutside y remarks') := by
  have hx := (h.same.place.mem h.left).resolve_left nofun
  have hy := (h.same.place.symm.mem h.right).resolve_left nofun
  rw [Arena.remarksOutside, Arena.remarksOutside]
  induction hagree with
  | nil => exact .nil
  | both hsame _ ih =>
      have hout := hsame.place.not_inBody h.left hx
      have hout' := hsame.place.symm.not_inBody h.right hy
      rw [List.filter_cons_of_pos (by simpa using hout), List.filter_cons_of_pos (by simpa using hout')]
      exact .cons hsame ih
  | left hin _ ih =>
      rw [List.filter_cons_of_neg (by simpa using hin)]
      exact ih
  | right hin _ ih =>
      rw [List.filter_cons_of_neg (by simpa using hin)]
      exact ih

/-- That trees are the same outside of a body can be seen from a list of all places. -/
theorem Arena.sameOutside_of_closed (places : List (Visit × Visit))
    (hplace : SamePlace a b x y (.body x) (.body y)) (hprogram : (.program, .program) ∈ places)
    (hclosed : ∀ p ∈ places, p.1 ≠ .body x → p.2 ≠ .body y →
      ∀ child ∈ (a.children p.1).zip (b.children p.2), child ∈ places)
    (hform : ∀ p ∈ places, p.1 ≠ .body x → a.form p.1 = b.form p.2) : SameOutside a b x y where
  place := hplace
  form v w hvw hv := by
    have hmem : (v, w) ∈ places := by
      clear hv
      induction hvw with
      | program => exact hprogram
      | child _ hv hw hchild ih => exact hclosed _ ih hv hw _ hchild
    exact hform _ hmem hv

/-- What name resolution does to two trees is the same outside of the two bodies: it reports the same
about nodes at the same places, in the same order, and leaves the same nodes and links there. -/
structure Arena.Isolated (a b : Arena) (x y : BodyId) (outcome outcome' : PassOutcome) : Prop where
  reports : ∃ remarks remarks', a.Account [a.top] remarks ∧ b.Account [b.top] remarks' ∧
    List.Forall₂ a.Reports remarks outcome.diagnostics ∧
    List.Forall₂ b.Reports remarks' outcome'.diagnostics ∧
    List.Forall₂ (SameRemark a b x y) (a.remarksOutside x remarks) (b.remarksOutside y remarks')
  leaves : SameLinked outcome.arena outcome'.arena x y

/-- **Bodies are resolved in isolation.** -/
theorem nameResolution_isolated (first second : String) (hfirst : (parse first).errors = [])
    (hsecond : (parse second).errors = []) {x y : BodyId}
    (hsame : SameOutside (parse first).arena (parse second).arena x y) :
    ∃ outcome outcome', nameResolution.run (parse first).arena = .ok outcome ∧
      nameResolution.run (parse second).arena = .ok outcome' ∧
      (parse first).arena.Isolated (parse second).arena x y outcome outcome' := by
  obtain ⟨nodes, htree⟩ := Parser.parse_isTree first hfirst
  obtain ⟨nodes', htree'⟩ := Parser.parse_isTree second hsecond
  obtain ⟨outcome, hrun, hsettles⟩ := htree.exists_settles
  obtain ⟨outcome', hrun', hsettles'⟩ := htree'.exists_settles
  obtain ⟨remarks, haccount, hreports⟩ := htree.exists_account hrun
  obtain ⟨remarks', haccount', hreports'⟩ := htree'.exists_account hrun'
  have htwins : Twins (parse first).arena (parse second).arena x y nodes nodes' :=
    ⟨htree, htree', hsame⟩
  have htop : List.Forall₂ (SameSite (parse first).arena (parse second).arena x y)
      [(parse first).arena.top] [(parse second).arena.top] :=
    .cons (.outside htwins.sameScopes_top .program nofun) .nil
  have hresolved : Resolved (parse first).arena (parse second).arena x y nodes nodes' outcome outcome' :=
    ⟨htwins, hsettles, hsettles', fun _ _ _ => htree.routineNamed_of_calls hrun,
      fun _ _ _ => htree'.routineNamed_of_calls hrun'⟩
  exact ⟨outcome, outcome', hrun, hrun', ⟨remarks, remarks', haccount, haccount', hreports, hreports',
    htwins.remarksOutside (htwins.agree htop haccount haccount')⟩, hresolved.sameLinked⟩

/-- A body that declares a name twice is passed over; the name outside, which is not declared there, is
reported as before. -/
theorem nameResolution_isolated_repeated :
    let first := "routine f() is\nend\nvar u is v\n"
    let second := "routine f() is\nvar v is w\nvar v is 1\nend\nvar u is v\n"
    (parse first).errors = [] ∧ (parse second).errors = [] ∧
      SameOutside (parse first).arena (parse second).arena ⟨0⟩ ⟨0⟩ ∧
      ∃ outcome outcome', nameResolution.run (parse first).arena = .ok outcome ∧
        nameResolution.run (parse second).arena = .ok outcome' ∧
        (parse first).arena.Isolated (parse second).arena ⟨0⟩ ⟨0⟩ outcome outcome' := by
  intro first second
  let places : List (Visit × Visit) := [(.program, .program), (.routine ⟨0⟩, .routine ⟨0⟩),
    (.body ⟨0⟩, .body ⟨0⟩), (.variable ⟨0⟩, .variable ⟨2⟩), (.expression ⟨0⟩, .expression ⟨2⟩)]
  have hprogram : (Visit.program, Visit.program) ∈ places := by decide +kernel
  obtain ⟨hfirst, hsecond, hroutine, hbody⟩ :
      (parse first).errors = [] ∧ (parse second).errors = [] ∧
      (Visit.routine ⟨0⟩, Visit.routine ⟨0⟩) ∈
        ((parse first).arena.children .program).zip ((parse second).arena.children .program) ∧
      (Visit.body ⟨0⟩, Visit.body ⟨0⟩) ∈ ((parse first).arena.children (.routine ⟨0⟩)).zip
        ((parse second).arena.children (.routine ⟨0⟩)) := by
    decide +kernel
  obtain ⟨hclosed, hform⟩ :
      (∀ p ∈ places, p.1 ≠ .body ⟨0⟩ → p.2 ≠ .body ⟨0⟩ →
        ∀ child ∈ ((parse first).arena.children p.1).zip ((parse second).arena.children p.2),
          child ∈ places) ∧
      ∀ p ∈ places, p.1 ≠ .body ⟨0⟩ →
        (parse first).arena.form p.1 = (parse second).arena.form p.2 := by
    decide +kernel
  have hsame : SameOutside (parse first).arena (parse second).arena ⟨0⟩ ⟨0⟩ :=
    sameOutside_of_closed places (.child (.child .program nofun nofun hroutine) nofun nofun hbody)
      hprogram hclosed hform
  exact ⟨hfirst, hsecond, hsame, nameResolution_isolated first second hfirst hsecond hsame⟩

end ProcLang
