import ProcLang.Proofs.Tree.Height

/-!
# ProcLang.Proofs.Tree.Ownership

**Who owns a node.** The slots for children are the owning ones; links do not own. An arena is
`Owned` if no id in it leads nowhere, no node stands in two owning slots, and no node is below
itself. A forest without repetitions that holds every node with something below it is such an arena
(`Owned.of_spans`).
-/

namespace ProcLang

/-- The program and the nodes own what stands in their slots. An entry in a list of declarations is
only passed over on the way to what it names. -/
def Visit.IsOwner : Visit → Prop
  | .declaration _ => False
  | _ => True

namespace Arena

variable {a b : Arena} {v w u : Visit} {all lost : List Visit}

/-- The nodes of an arena own one another as in a forest. -/
structure Owned (a : Arena) : Prop where
  program : ∀ v ∈ a.children .program, a.Has v
  closed : a.Closed
  single : ∀ (v w u : Visit) (i j : Nat), v.IsOwner → w.IsOwner → (a.children v)[i]? = some u →
    (a.children w)[j]? = some u → v = w ∧ i = j
  acyclic : ∀ v, ¬ Relation.TransGen (fun v w => w ∈ a.children v) v v

/-- Only the program and the nodes that are there own something. -/
theorem eq_program_or_has_of_child (howner : v.IsOwner) (hchild : u ∈ a.children v) :
    v = .program ∨ a.Has v := by
  have hnode : ∀ {family : Family} (id : NodeId family), u ∈ a.childrenOf id →
      a.Has (Visit.of id) := by
    intro family id hu
    rw [childrenOf] at hu
    cases hget : a.get? id with
    | some node => exact has_of_get? hget
    | none =>
        rw [hget] at hu
        cases hu
  cases v with
  | program => exact Or.inl rfl
  | declaration d => exact howner.elim
  | routine id => exact Or.inr (hnode id hchild)
  | «variable» id => exact Or.inr (hnode id hchild)
  | typeDecl id => exact Or.inr (hnode id hchild)
  | type id => exact Or.inr (hnode id hchild)
  | body id => exact Or.inr (hnode id hchild)
  | statement id => exact Or.inr (hnode id hchild)
  | expression id => exact Or.inr (hnode id hchild)

/-- An entry in a list of declarations names a node. -/
theorem visit_isOwner (d : Declaration) : d.visit.IsOwner ∧ d.visit ≠ .program := by
  cases d <;> exact ⟨trivial, nofun⟩

section

variable (hspans : Spans a (a.children .program ++ lost) all) (hnodup : all.Nodup)
  (houtside : ∀ v, a.Has v → v ∉ all → a.children v = [])

include houtside

/-- What owns something is the program or a node of the forest. -/
theorem eq_program_or_mem_of_child (howner : v.IsOwner) (hchild : u ∈ a.children v) :
    v = .program ∨ v ∈ all := by
  refine (eq_program_or_has_of_child howner hchild).imp_right fun hhas => ?_
  by_contra hmem
  rw [houtside v hhas hmem] at hchild
  nomatch hchild

include hspans

/-- What is owned belongs to the forest. -/
theorem mem_of_owned (howner : v.IsOwner) (hchild : u ∈ a.children v) : u ∈ all := by
  rcases eq_program_or_mem_of_child houtside howner hchild with rfl | hv
  · exact hspans.mem_of_root (List.mem_append_left _ hchild)
  · exact hspans.child_mem hv hchild

include hnodup

/-- No node of the forest stands in two slots. -/
theorem slot_unique {i j : Nat} (hv : v.IsOwner) (hw : w.IsOwner)
    (hi : (a.children v)[i]? = some u) (hj : (a.children w)[j]? = some u) : v = w ∧ i = j := by
  have hchild : u ∈ a.children v := List.mem_of_getElem? hi
  have hchild' : u ∈ a.children w := List.mem_of_getElem? hj
  have hroots : (a.children .program).Nodup :=
    (List.nodup_append.1 (hspans.roots_nodup hnodup)).1
  have hnot : ∀ {x}, u ∈ a.children .program → x ∈ all → u ∉ a.children x := fun hroot hx =>
    hspans.root_not_child hnodup (List.mem_append_left _ hroot) hx
  have hsame : v = w := by
    rcases eq_program_or_mem_of_child houtside hv hchild with rfl | hvmem
    · rcases eq_program_or_mem_of_child houtside hw hchild' with rfl | hwmem
      · rfl
      · exact absurd hchild' (hnot hchild hwmem)
    · rcases eq_program_or_mem_of_child houtside hw hchild' with rfl | hwmem
      · exact absurd hchild (hnot hchild' hvmem)
      · exact hspans.parent_unique hnodup hvmem hwmem hchild hchild'
  subst hsame
  have hdistinct : (a.children v).Nodup := by
    rcases eq_program_or_mem_of_child houtside hv hchild with rfl | hvmem
    · exact hroots
    · exact hspans.children_nodup hnodup hvmem
  obtain ⟨hilt, hiu⟩ := List.getElem?_eq_some_iff.1 hi
  obtain ⟨hjlt, hju⟩ := List.getElem?_eq_some_iff.1 hj
  exact ⟨rfl, (hdistinct.getElem_inj_iff).1 (hiu.trans hju.symm)⟩

/-- No node is below itself. -/
theorem not_below_itself (v : Visit) :
    ¬ Relation.TransGen (fun v w => w ∈ a.children v) v v := by
  intro hcycle
  obtain ⟨child, hchild, hback⟩ := Relation.TransGen.head'_iff.1 hcycle
  obtain ⟨parent, -, hparent⟩ := Relation.TransGen.tail'_iff.1 hcycle
  -- a node that has a parent is no entry, and it is not the program
  have hmem : v ∈ all := by
    by_cases howner : parent.IsOwner
    · exact mem_of_owned hspans houtside howner hparent
    · cases parent with
      | declaration d =>
          obtain rfl := List.mem_singleton.1 hparent
          exact (eq_program_or_mem_of_child houtside (visit_isOwner d).1
            hchild).resolve_left (visit_isOwner d).2
      | _ => exact absurd trivial howner
  obtain ⟨below, hbelow, hfirst⟩ := hspans.exists_below hnodup hmem
  exact (List.nodup_cons.1 hfirst).1 (hbelow.mem_of_reaches (hbelow.mem_of_root hchild) hback)

/-- **A forest that holds every node with something below it** owns its nodes once. -/
theorem Owned.of_spans (hclosed : a.Closed) : a.Owned where
  program _ hv := hspans.has_of_mem (hspans.mem_of_root (List.mem_append_left _ hv))
  closed := hclosed
  single _ _ _ _ _ hv hw hi hj := slot_unique hspans hnodup houtside hv hw hi hj
  acyclic := not_below_itself hspans hnodup houtside

end

/-- A tree with the same nodes and the same children owns them as well. -/
theorem Owned.congr (h : a.Owned) (hhas : ∀ v, b.Has v ↔ a.Has v)
    (hchildren : ∀ v, b.children v = a.children v) (hclosed : b.Closed) : b.Owned where
  program v hv := (hhas v).2 (h.program v (hchildren .program ▸ hv))
  closed := hclosed
  single v w u i j hv hw hi hj :=
    h.single v w u i j hv hw (hchildren v ▸ hi) (hchildren w ▸ hj)
  acyclic v hcycle := by
    simp only [hchildren] at hcycle
    exact h.acyclic v hcycle

end Arena

end ProcLang
