import ProcLang.Proofs.Extents.Parser
import ProcLang.Proofs.Walk.Record

/-!
# ProcLang.Proofs.Extents.Traversal

**The order of the default walk and the order of the text.** A walk over a parsed program comes to its
nodes in the order in which they begin, with two exceptions (`Arena.Swapped`): it comes to the counter of a
loop when it has been to the bounds, and to a statement of a body when it has been to all declarations of
the body, also to those behind the statement. Where a program has neither, the nodes are visited in the
order of the text, and only there (`visits_parse_sorted`).
-/

namespace ProcLang

open Arena WalkM

open scoped Position

/-! ### What is written down -/

/-- The node that is visited. An entry in a list of declarations stands for what it declares. -/
def Visit.node : Visit → Visit
  | .declaration d => d.visit
  | v => v

/-- The visits of some nodes and of the nodes below them, one after the other. Entries in lists of
declarations come right before what they declare. -/
inductive Recording (a : Arena) : List Visit → List Visit → Prop
  | nil : Recording a [] []
  | node {v : Visit} {beside below rest : List Visit} (has : v = .program ∨ a.Has v)
      (inner : Recording a (a.children v) below) (outer : Recording a beside rest) :
      Recording a (v :: beside) (v :: (below ++ rest))
  | entry {d : Declaration} {beside seen : List Visit} (visit : Recording a (d.visit :: beside) seen) :
      Recording a (d.visit :: beside) (.declaration d :: seen)

namespace Recording

variable {a : Arena} {v w : Visit} {vs ws seen others : List Visit}

theorem append (h : Recording a vs seen) (h' : Recording a ws others) :
    Recording a (vs ++ ws) (seen ++ others) := by
  induction h with
  | nil => exact h'
  | node has inner _ _ ih =>
      rw [List.cons_append, List.cons_append, List.append_assoc]
      exact .node has inner ih
  | entry _ ih => exact .entry ih

theorem roots_sublist (h : Recording a vs seen) : vs.Sublist seen := by
  induction h with
  | nil => exact .slnil
  | node _ _ _ _ ih => exact (ih.trans (List.sublist_append_right ..)).cons_cons _
  | entry _ ih => exact ih.cons _

/-- The children of a node are visited in the order in which the walk comes to them. -/
theorem children_sublist (h : Recording a vs seen) (howner : v.IsOwner) (hv : v ∈ seen) :
    (a.children v).Sublist seen := by
  induction h with
  | nil => nomatch hv
  | node _ inner _ ihb ihr =>
      refine List.Sublist.cons _ ?_
      rcases List.mem_cons.1 hv with rfl | hv
      · exact inner.roots_sublist.trans (List.sublist_append_left ..)
      · rcases List.mem_append.1 hv with hv | hv
        · exact (ihb hv).trans (List.sublist_append_left ..)
        · exact (ihr hv).trans (List.sublist_append_right ..)
  | entry _ ih =>
      rcases List.mem_cons.1 hv with rfl | hv
      · exact howner.elim
      · exact (ih hv).cons _

end Recording

section

variable {a : Arena} {nodes ws : List Visit} {v : Visit} {s s' : WalkState (Array Visit)}

/-- The visits at and below a node are written down. -/
def WritesDown (a : Arena) (v : Visit) (s s' : WalkState (Array Visit)) : Prop :=
  ∃ seen, s'.own.toList = s.own.toList ++ seen ∧ Recording a [v] seen

theorem exists_recording_of_inTurn (h : InTurn (WritesDown a) ws s s') :
    ∃ seen, s'.own.toList = s.own.toList ++ seen ∧ Recording a ws seen := by
  induction h with
  | nil => exact ⟨[], (List.append_nil _).symm, .nil⟩
  | cons first _ ih =>
      obtain ⟨seen, hseen, hfirst⟩ := first
      obtain ⟨rest, hrest, hothers⟩ := ih
      exact ⟨seen ++ rest, by rw [hrest, hseen, List.append_assoc], hfirst.append hothers⟩

/-- **The recorder writes down each visit** in front of what is visited below. -/
theorem proceeds_writesDown (a : Arena) : Proceeds a (fun s => s.arena = a) (WritesDown a) recorder where
  refined hs := hs ▸ .refl _
  entry n d hvisits := by
    intro c s hs
    obtain ⟨s', hrun, hs', seen, hseen, hrecording⟩ :=
      hvisits c { s with own := s.own.push (.declaration d) } hs
    refine ⟨s', runs_updateOwn_bind.2 (runs_bind.2 ⟨(), s', ?_, runs_pure.2 ⟨rfl, rfl⟩⟩), hs',
      .declaration d :: seen, by simpa using hseen, .entry hrecording⟩
    cases d <;> exact runs_discard.2 ⟨none, hrun⟩
  layer n v hreaches hv hready := by
    intro c s hs
    obtain ⟨s', hwalk, hs', hturns⟩ :=
      hready.exists_walk (c := c) (s := { s with own := s.own.push v }) hv hs
    obtain ⟨seen, hseen, hrecording⟩ := exists_recording_of_inTurn hturns
    refine ⟨s', runs_updateOwn_bind.2 (runs_bind.2 ⟨(), s', hwalk, runs_pure.2 ⟨rfl, rfl⟩⟩), hs',
      v :: (seen ++ []), by simpa using hseen, .node hv hrecording .nil⟩

/-- The record of a walk over a program. -/
theorem exists_recording (hforest : a.IsForest nodes) :
    ∃ seen, a.visits = .ok (.program :: seen) ∧ Recording a (a.children .program) seen := by
  obtain ⟨s, hwalk, -, seen, hseen, hrecording⟩ :=
    (proceeds_writesDown a).exists_walkProgram hforest.within () a #[] rfl
  obtain rfl : s.own.toList = seen := by simpa using hseen
  have hvisits : a.visits = .ok s.own.toList := by rw [Arena.visits, hwalk]; rfl
  generalize s.own.toList = visits at hvisits hrecording
  generalize hroots : [Visit.program] = roots at hrecording
  cases hrecording with
  | nil => cases hroots
  | node _ inner outer =>
      cases hroots
      cases outer
      rw [List.append_nil] at hvisits
      exact ⟨_, hvisits, inner⟩
  | @entry d _ _ _ => cases d <;> cases hroots

end

/-! ### What lies in front of what -/

/-- A node lies in front of another one. -/
def Arena.Ahead (a : Arena) (v w : Visit) : Prop :=
  ∀ x y, a.span? v = some x → a.span? w = some y → x.Before y

/-- A node begins in front of another one, or where that one does. -/
def Arena.StartsFirst (a : Arena) (v w : Visit) : Prop :=
  ∀ x y, a.span? v = some x → a.span? w = some y → x.start ≤ y.start

/-- The walk comes to one node before another one although it stands behind that one: to a bound of a loop
before the counter, and to a declaration of a body before a statement in front of it. -/
inductive Arena.Swapped (a : Arena) : Visit → Visit → Prop
  | counter {id : StatementId} {node : Statement} {e : ExpressionId} {x : VariableId}
      (get : a.get? id = some node) (counter : node.kind.counter? = some x)
      (bound : e ∈ node.kind.expressions) : Swapped a (.expression e) (.variable x)
  | item {id : BodyId} {node : Body} {d : Declaration} {s : StatementId} {x y : Span}
      (get : a.get? id = some node) (declared : d ∈ node.declarations) (stated : s ∈ node.statements)
      (declaration : a.span? d.visit = some y) (statement : a.span? (.statement s) = some x)
      (behind : x.stop ≤ y.start) : Swapped a d.visit (.statement s)

/-- Two nodes are visited in the wrong order because they are, or are below, two such nodes. -/
def Arena.OutOfTurn (a : Arena) (v w : Visit) : Prop :=
  ∃ v' w', a.Swapped v' w' ∧ a.Reaches v' v.node ∧ a.Reaches w' w.node

section

variable {a : Arena} {source : String} {family : Family} {id : NodeId family} {node : Node family}
  {v w u r : Visit} {vs seen : List Visit} {p q : Position} {x y z : Span}

/-- Of two nodes in a range one lies in front of the other one. -/
theorem Arena.Ranged.ahead_or_ahead (h : a.Ranged p vs q) (hv : v ∈ vs) (hw : w ∈ vs) (hne : v ≠ w) :
    a.Ahead v w ∨ a.Ahead w v := by
  have hsymm : Std.Symm fun v w => a.Ahead v w ∨ a.Ahead w v := ⟨fun _ _ => Or.symm⟩
  have hall : vs.Pairwise fun v w => a.Ahead v w ∨ a.Ahead w v := h.sorted.imp Or.inl
  exact hall.forall hv hw hne

/-- The nodes of a range that come in the order of the text. -/
theorem Arena.Ranged.children (h : a.Ranged p vs q) :
    (∀ w ∈ vs, ∃ y, a.span? w = some y ∧ y.Within p q) ∧
      vs.Pairwise fun v w => a.Ahead v w ∨ a.Swapped v w :=
  ⟨h.within, h.sorted.imp Or.inl⟩

/-- The counter of a loop stands in front of its bounds, and comes behind them. -/
theorem Arena.Ranged.statement_children {id : StatementId} {node : Statement} (hget : a.get? id = some node)
    (h : a.Ranged p (Node.written .statement node) q) :
    (∀ w ∈ Node.children .statement node, ∃ y, a.span? w = some y ∧ y.Within p q) ∧
      (Node.children .statement node).Pairwise fun v w => a.Ahead v w ∨ a.Swapped v w := by
  obtain ⟨hwithin, hsorted⟩ := h
  rw [Node.written] at hwithin hsorted
  obtain ⟨hfront, hbodies, hacross⟩ := List.pairwise_append.1 hsorted
  obtain ⟨hcounter, hexpressions, -⟩ := List.pairwise_append.1 hfront
  constructor
  · intro w hw
    refine hwithin w ?_
    simp only [Node.children, List.mem_append] at hw ⊢
    tauto
  · rw [Node.children]
    refine List.pairwise_append.2 ⟨List.pairwise_append.2 ⟨hexpressions.imp Or.inl, hcounter.imp Or.inl,
      fun v hv w hw => Or.inr ?_⟩, hbodies.imp Or.inl, fun v hv w hw => Or.inl (hacross v ?_ w hw)⟩
    · obtain ⟨e, he, rfl⟩ := List.mem_map.1 hv
      obtain ⟨c, hc, rfl⟩ := List.mem_map.1 hw
      exact .counter hget (Option.mem_toList.1 hc) he
    · simp only [List.mem_append] at hv ⊢
      tauto

/-- The statements of a body stand between its declarations, and come behind them. -/
theorem Body.Filled.children {id : BodyId} {node : Body} (hget : a.get? id = some node)
    (h : Body.Filled a node) :
    (∀ w ∈ Node.children .body node, ∃ y, a.span? w = some y ∧ y.Within node.span.start node.span.stop) ∧
      (Node.children .body node).Pairwise fun v w => a.Ahead v w ∨ a.Swapped v w := by
  obtain ⟨items, hitems, hdeclarations, hstatements⟩ := h
  constructor
  · intro w hw
    rcases List.mem_append.1 hw with hw | hw
    · exact hitems.within w (hdeclarations.subset hw)
    · exact hitems.within w (hstatements.subset hw)
  · rw [Node.children]
    refine List.pairwise_append.2 ⟨(hitems.sublist hdeclarations).children.2,
      (hitems.sublist hstatements).children.2, fun v hv w hw => ?_⟩
    refine (hitems.ahead_or_ahead (hdeclarations.subset hv) (hstatements.subset hw) ?_).imp_right
      fun hahead => ?_
    · rintro rfl
      obtain ⟨d, -, rfl⟩ := List.mem_map.1 hv
      obtain ⟨s, -, heq⟩ := List.mem_map.1 hw
      cases d <;> cases heq
    · obtain ⟨x, hx, -⟩ := hitems.within w (hstatements.subset hw)
      obtain ⟨y, hy, -⟩ := hitems.within v (hdeclarations.subset hv)
      obtain ⟨d, hd, rfl⟩ := List.mem_map.1 hv
      obtain ⟨s, hs, rfl⟩ := List.mem_map.1 hw
      exact .item hget hd hs hy hx (hahead x y hx hy).stop_start

/-- **The children of a node** lie within it, and come one in front of the other but for those that are
swapped. -/
theorem Arena.Laid.children (hlaid : a.Laid source) (hhas : a.Has v) (hown : ¬ Arena.empty.Has v) :
    ∃ x, a.span? v = some x ∧
      (∀ w ∈ a.children v, ∃ y, a.span? w = some y ∧ y.Within x.start x.stop) ∧
      (a.children v).Pairwise fun v w => a.Ahead v w ∨ a.Swapped v w := by
  obtain ⟨family, id, rfl⟩ := hhas.exists_of
  obtain ⟨node, hget⟩ := hhas.exists_get?
  have hnode := (hlaid family id node hget).resolve_left hown
  refine ⟨_, span?_of hget, ?_⟩
  rw [children_of_get? hget]
  cases family with
  | expression => exact (hnode.delimited hget).operands.children
  | body => exact hnode.2.children hget
  | statement => exact Arena.Ranged.statement_children hget hnode.2
  | routine | «variable» | typeDecl | type => exact Arena.Ranged.children hnode.2

/-! ### The order of the visits -/

/-- A visit at or below a node, which begins where the node does or within it. -/
structure Arena.Beneath (a : Arena) (v w : Visit) (x y : Span) : Prop where
  reaches : a.Reaches v w.node
  above : a.span? v = some x
  span : a.span? w = some y
  start_le : x.start ≤ y.start
  within : y.start = x.start ∨ y.start ≤ x.stop

/-- The program has no span of its own among those of the nodes. -/
theorem Arena.has_of_span? (hspan : a.span? v = some x) (h : v = .program ∨ a.Has v) : a.Has v := by
  rcases h with rfl | hhas
  · cases hspan
  · exact hhas

theorem Arena.Beneath.self (hhas : a.Has v) (hspan : a.span? v = some x) : a.Beneath v v x x := by
  obtain ⟨family, id, rfl⟩ := hhas.exists_of
  have hnode : (Visit.of id).node = Visit.of id := by cases family <;> rfl
  exact ⟨hnode.symm ▸ .refl, hspan, hspan, le_refl _, Or.inl rfl⟩

theorem Arena.Beneath.entry {d : Declaration} (hspan : a.span? d.visit = some x) :
    a.Beneath d.visit (.declaration d) x x :=
  ⟨.refl, hspan, (span?_declaration d).trans hspan, le_refl _, Or.inl rfl⟩

/-- What is below a child is below the node. -/
theorem Arena.Beneath.of_child (h : a.Beneath r w y z) (hchild : r ∈ a.children v) (hspan : a.span? v = some x)
    (hwithin : y.Within x.start x.stop) : a.Beneath v w x z where
  reaches := h.reaches.head hchild
  above := hspan
  span := h.span
  start_le := le_trans hwithin.le_start h.start_le
  within := Or.inr (h.within.elim (fun heq => heq ▸ hwithin.start_le)
    fun hle => le_trans hle hwithin.stop_le)

/-- What is below a node does not begin in front of it. -/
theorem Arena.Beneath.startsFirst_root (h : a.Beneath v w x y) (hspan : a.span? u = a.span? v) :
    a.StartsFirst u w := by
  intro x₁ y₁ hx hy
  obtain rfl := Option.some.inj (h.above.symm.trans (hspan.symm.trans hx))
  obtain rfl := Option.some.inj (h.span.symm.trans hy)
  exact h.start_le

/-- What is below two nodes is in order if the nodes are, and out of turn if the nodes are swapped. -/
theorem Arena.Beneath.startsFirst {v' w' : Visit} {x' y' : Span} (hv : a.Beneath v' v x' x)
    (hw : a.Beneath w' w y' y) (h : a.Ahead v' w' ∨ a.Swapped v' w') :
    a.StartsFirst v w ∨ a.OutOfTurn v w := by
  refine h.imp (fun hahead => ?_) fun hswapped => ⟨v', w', hswapped, hv.reaches, hw.reaches⟩
  intro x₁ y₁ hx₁ hy₁
  obtain rfl := Option.some.inj (hv.span.symm.trans hx₁)
  obtain rfl := Option.some.inj (hw.span.symm.trans hy₁)
  have hbefore := hahead x' y' hv.above hw.above
  rcases hv.within with heq | hle
  · exact le_trans (heq ▸ hbefore.start_start) hw.start_le
  · exact le_trans hle (le_trans hbefore.stop_start hw.start_le)

namespace Recording

/-- What is written down for the children of a node lies beneath the node. -/
theorem beneath (hlaid : a.Laid source) (hhas : a.Has v) (hv : ¬ Arena.empty.Has v)
    (hroots : ∀ w ∈ seen, ∃ r ∈ a.children v, ∃ y z, a.Beneath r w y z) :
    ∀ w ∈ seen, ∃ x z, a.Beneath v w x z := by
  obtain ⟨x, hx, hchildren, -⟩ := hlaid.children hhas hv
  intro w hw
  obtain ⟨child, hchild, y, z, hbeneath⟩ := hroots w hw
  obtain ⟨y', hy', hwithin⟩ := hchildren child hchild
  obtain rfl := Option.some.inj (hbeneath.above.symm.trans hy')
  exact ⟨x, z, hbeneath.of_child hchild hx hwithin⟩

/-- Each visit is one at or below a root. -/
theorem exists_root (hlaid : a.Laid source) (h : Recording a vs seen)
    (hown : ∀ v ∈ seen, ¬ Arena.empty.Has v) (hspans : ∀ v ∈ vs, ∃ x, a.span? v = some x) :
    ∀ w ∈ seen, ∃ v ∈ vs, ∃ x y, a.Beneath v w x y := by
  induction h with
  | nil => nofun
  | @node v beside below rest has inner outer ihb ihr =>
      obtain ⟨x, hx⟩ := hspans v List.mem_cons_self
      have hhas : a.Has v := has_of_span? hx has
      have hv := hown v List.mem_cons_self
      obtain ⟨y, hy, hchildren, -⟩ := hlaid.children hhas hv
      intro w hw
      rcases List.mem_cons.1 hw with rfl | hw
      · exact ⟨_, List.mem_cons_self, x, x, .self hhas hx⟩
      rcases List.mem_append.1 hw with hw | hw
      · refine ⟨v, List.mem_cons_self, beneath hlaid hhas hv (ihb ?_ ?_) w hw⟩
        · exact fun u hu => hown u (by simp [hu])
        · exact fun u hu => (hchildren u hu).imp fun _ h => h.1
      · obtain ⟨r, hr, hbeneath⟩ := ihr (fun u hu => hown u (by simp [hu]))
          (fun u hu => hspans u (List.mem_cons_of_mem _ hu)) w hw
        exact ⟨r, List.mem_cons_of_mem _ hr, hbeneath⟩
  | @entry d beside seen visit ih =>
      obtain ⟨x, hx⟩ := hspans _ List.mem_cons_self
      intro w hw
      rcases List.mem_cons.1 hw with rfl | hw
      · exact ⟨_, List.mem_cons_self, x, x, .entry hx⟩
      · exact ih (fun u hu => hown u (List.mem_cons_of_mem _ hu)) hspans w hw

/-- A visit at a root, in front of the visits at and below this root and the ones beside it. -/
theorem startsFirst_of_root (hroot : a.Beneath r v x x) (hroots : ∀ w ∈ vs, a.Ahead r w ∨ a.Swapped r w)
    (hw : ∃ u ∈ r :: vs, ∃ y z, a.Beneath u w y z) : a.StartsFirst v w ∨ a.OutOfTurn v w := by
  obtain ⟨u, hu, y, z, hbeneath⟩ := hw
  rcases List.mem_cons.1 hu with rfl | hu
  · exact Or.inl (hbeneath.startsFirst_root (hroot.span.trans hroot.above.symm))
  · exact hroot.startsFirst hbeneath (hroots u hu)

/-- **The visits below some nodes** begin in the order in which they are made, unless they are out of
turn. -/
theorem sorted (hlaid : a.Laid source) (h : Recording a vs seen)
    (hown : ∀ v ∈ seen, ¬ Arena.empty.Has v) (hspans : ∀ v ∈ vs, ∃ x, a.span? v = some x)
    (hroots : vs.Pairwise fun v w => a.Ahead v w ∨ a.Swapped v w) :
    seen.Pairwise fun v w => a.StartsFirst v w ∨ a.OutOfTurn v w := by
  have hunder := h.exists_root hlaid hown hspans
  induction h with
  | nil => exact .nil
  | @node v beside below rest has inner outer ihb ihr =>
      obtain ⟨x, hx⟩ := hspans v List.mem_cons_self
      have hhas : a.Has v := has_of_span? hx has
      have hv := hown v List.mem_cons_self
      obtain ⟨y, hy, hchildren, hsorted⟩ := hlaid.children hhas hv
      obtain ⟨hbefore, hothers⟩ := List.pairwise_cons.1 hroots
      have hownBelow : ∀ u ∈ below, ¬ Arena.empty.Has u := fun u hu => hown u (by simp [hu])
      have hownRest : ∀ u ∈ rest, ¬ Arena.empty.Has u := fun u hu => hown u (by simp [hu])
      have hspansBelow := fun u hu => (hchildren u hu).imp fun _ h => h.1
      have hspansRest := fun u hu => hspans u (List.mem_cons_of_mem _ hu)
      have hbelow := inner.exists_root hlaid hownBelow hspansBelow
      have hrest := outer.exists_root hlaid hownRest hspansRest
      refine List.pairwise_cons.2 ⟨fun w hw => ?_, List.pairwise_append.2
        ⟨ihb hownBelow hspansBelow hsorted hbelow, ihr hownRest hspansRest hothers hrest,
          fun u hu w hw => ?_⟩⟩
      · exact startsFirst_of_root (.self hhas hx) hbefore (hunder w (List.mem_cons_of_mem _ hw))
      · obtain ⟨x, z, hbeneath⟩ := beneath hlaid hhas hv hbelow u hu
        obtain ⟨r, hr, y, z', hbeneath'⟩ := hrest w hw
        exact hbeneath.startsFirst hbeneath' (hbefore r hr)
  | @entry d beside seen visit ih =>
      obtain ⟨x, hx⟩ := hspans _ List.mem_cons_self
      have hownSeen : ∀ u ∈ seen, ¬ Arena.empty.Has u := fun u hu => hown u (List.mem_cons_of_mem _ hu)
      have hseen := visit.exists_root hlaid hownSeen hspans
      refine List.pairwise_cons.2 ⟨fun w hw => ?_, ih hownSeen hspans hroots hseen⟩
      exact startsFirst_of_root (.entry hx) (List.pairwise_cons.1 hroots).1 (hseen w hw)

end Recording

/-! ### Swapped nodes -/

/-- **Swapped nodes are out of order.** -/
theorem Arena.Swapped.behind (h : a.Swapped v w) (hlaid : a.Laid source) :
    ∃ x y, a.span? v = some x ∧ a.span? w = some y ∧ y.start < x.start := by
  cases h with
  | @counter id node e c get counter bound =>
      obtain ⟨-, hwithin, hsorted⟩ := hlaid.of_get? get (by rintro ⟨⟩)
      have hc : Visit.variable c ∈ node.kind.counter?.toList.map .variable := by simp [counter]
      have he : Visit.expression e ∈ node.kind.expressions.map .expression := by simp [bound]
      obtain ⟨x, hx, -⟩ := hwithin (.expression e) (by simp [Node.written, bound])
      obtain ⟨y, hy, -⟩ := hwithin (.variable c) (by simp [Node.written, counter])
      have hahead := (List.pairwise_append.1 (List.pairwise_append.1 hsorted).1).2.2 _ hc _ he y x hy hx
      obtain ⟨declared, hget, rfl⟩ := Option.map_eq_some_iff.1 hy
      exact ⟨x, _, hx, hy, lt_of_lt_of_le (hlaid.of_get? hget (by rintro ⟨⟩)).1 hahead.stop_start⟩
  | @item id node d s y x get declared stated declaration statement behind =>
      obtain ⟨stated, hget, rfl⟩ := Option.map_eq_some_iff.1 statement
      exact ⟨x, _, declaration, statement, lt_of_lt_of_le (hlaid.of_get? hget (by rintro ⟨⟩)).1 behind⟩

/-- Swapped nodes have an owner, and the walk comes to the first one first. -/
theorem Arena.Swapped.exists_owner (h : a.Swapped v w) :
    ∃ u, a.Has u ∧ ¬ Arena.empty.Has u ∧ u.IsOwner ∧ [v, w].Sublist (a.children u) := by
  cases h with
  | @counter id node e c get counter bound =>
      refine ⟨Visit.of id, has_of_get? get, not_empty_has .statement (by rintro ⟨⟩) id,
        Visit.isOwner_of id, ?_⟩
      rw [children_of_get? get, Node.children]
      refine List.Sublist.trans ?_ (List.sublist_append_left ..)
      exact (List.singleton_sublist.2 (by simp [bound])).append
        (List.singleton_sublist.2 (by simp [counter]))
  | @item id node d s y x get declared stated declaration statement behind =>
      refine ⟨Visit.of id, has_of_get? get, not_empty_has .body (by rintro ⟨⟩) id,
        Visit.isOwner_of id, ?_⟩
      rw [children_of_get? get, Node.children]
      exact (List.singleton_sublist.2 (List.mem_map_of_mem declared)).append
        (List.singleton_sublist.2 (List.mem_map_of_mem stated))

/-- Where a node is visited whenever it is one of the program, swapped nodes are visited in the wrong
order. -/
theorem Arena.Swapped.not_inOrder (h : a.Swapped v w) (hlaid : a.Laid source)
    (hrecording : Recording a vs seen)
    (hnodes : ∀ u : Visit, u.IsOwner → a.Has u → ¬ Arena.empty.Has u → u ∈ seen) :
    ¬ seen.Pairwise a.StartsFirst := by
  intro hinOrder
  obtain ⟨x, y, hx, hy, hlt⟩ := h.behind hlaid
  obtain ⟨u, hhas, hown, howner, hpair⟩ := h.exists_owner
  have hsub := hpair.trans (hrecording.children_sublist howner (hnodes u howner hhas hown))
  exact not_le_of_gt hlt (List.pairwise_pair.1 (hinOrder.sublist hsub) x y hx hy)

end

/-! ### Parsed programs -/

/-- The record of a walk over a parsed program has all of its nodes, and no shared types. -/
theorem Arena.IsTree.exists_record {a : Arena} {nodes : List Visit} (htree : a.IsTree nodes) :
    ∃ seen, a.visits = .ok (.program :: seen) ∧ Recording a (a.children .program) seen ∧
      (∀ v ∈ seen, ¬ Arena.empty.Has v) ∧
      ∀ v : Visit, v.IsOwner → a.Has v → ¬ Arena.empty.Has v → v ∈ seen := by
  obtain ⟨seen, hvisits, hrecording⟩ := exists_recording htree.isForest
  obtain ⟨visits, hvisits', hnodes⟩ := exists_visits htree.isForest
  obtain rfl : visits = .program :: seen := Except.ok.inj (hvisits'.symm.trans hvisits)
  rw [nodesAmong_cons_owner (v := .program) trivial] at hnodes
  have hmem : ∀ v : Visit, v.IsOwner → (v ∈ seen ↔ v ∈ nodes) := fun v howner => by
    rw [← mem_nodesAmong howner, (List.cons.inj hnodes).2]
  refine ⟨seen, hvisits, hrecording, fun v hv hhas => ?_, fun v howner hhas hown => ?_⟩
  · obtain ⟨family, id, rfl⟩ := hhas.exists_of
    exact htree.fresh _ ((hmem _ (Visit.isOwner_of id)).1 hv) hhas
  · exact (hmem v howner).2 (htree.mem_iff.2 ⟨hhas, mt empty_has_iff.2 hown⟩)

/-- The spans of some visits begin in the order of the visits if each of two does. -/
theorem pairwise_starts_iff {a : Arena} {visits : List Visit} :
    ((visits.filterMap a.span?).Pairwise fun x y => x.start ≤ y.start) ↔
      visits.Pairwise a.StartsFirst := by
  rw [List.pairwise_filterMap]
  exact List.Pairwise.iff fun v w =>
    ⟨fun h x y hx hy => h x hx y hy, fun h x hx y hy => h x y hx hy⟩

/-- **The visits of the default walk over a program** begin in the order in which they are made, except for
nodes at or below two that are swapped. They all do if and only if no two nodes of the program are. -/
theorem visits_parse_sorted (source : String) (hparse : (parse source).errors = []) :
    let a := (parse source).arena
    ∃ visits, a.visits = .ok visits ∧ (∀ v ∈ visits, v = .program ∨ ∃ x, a.span? v = some x) ∧
      (visits.Pairwise fun v w => a.StartsFirst v w ∨ a.OutOfTurn v w) ∧
      (((visits.filterMap a.span?).Pairwise fun x y => x.start ≤ y.start) ↔ ∀ v w, ¬ a.Swapped v w) := by
  intro a
  obtain ⟨nodes, htree⟩ := Parser.parse_isTree source hparse
  obtain ⟨hlaid, -, hprogram⟩ := parse_laid source
  obtain ⟨seen, hvisits, hrecording, hown, hnodes⟩ := htree.exists_record
  obtain ⟨hroots, hsorted⟩ := Arena.Ranged.children hprogram
  have hspans : ∀ v ∈ a.children .program, ∃ x, a.span? v = some x := fun v hv =>
    (hroots v hv).imp fun _ h => h.1
  have hall := hrecording.sorted hlaid hown hspans hsorted
  have hpairs : (Visit.program :: seen).Pairwise fun v w => a.StartsFirst v w ∨ a.OutOfTurn v w :=
    List.pairwise_cons.2 ⟨fun _ _ => Or.inl nofun, hall⟩
  refine ⟨_, hvisits, fun v hv => ?_, hpairs, ?_⟩
  · refine (List.mem_cons.1 hv).imp_right fun hv => ?_
    obtain ⟨_, -, x, y, hbeneath⟩ := hrecording.exists_root hlaid hown hspans v hv
    exact ⟨y, hbeneath.span⟩
  · rw [pairwise_starts_iff]
    constructor
    · intro hinOrder v w hswapped
      exact hswapped.not_inOrder hlaid hrecording hnodes (List.pairwise_cons.1 hinOrder).2
    · intro hnone
      refine hpairs.imp fun h => h.resolve_right ?_
      rintro ⟨_, _, hswapped, -⟩
      exact hnone _ _ hswapped

/-- A loop over whose bounds the walk goes before it comes to the counter. -/
theorem visits_parse_sorted_loop :
    let source := "var n is 3\nroutine main() is\n  for i in 1..n loop\n    n := i\n  end\nend\n"
    let a := (parse source).arena
    (parse source).errors = [] ∧
    ∃ visits, a.visits = .ok visits ∧ (∀ v ∈ visits, v = .program ∨ ∃ x, a.span? v = some x) ∧
      (visits.Pairwise fun v w => a.StartsFirst v w ∨ a.OutOfTurn v w) ∧
      (((visits.filterMap a.span?).Pairwise fun x y => x.start ≤ y.start) ↔ ∀ v w, ¬ a.Swapped v w) := by
  intro source a
  have hparse : (parse source).errors = [] := by decide +kernel
  exact ⟨hparse, visits_parse_sorted source hparse⟩

/-- **The default walk leaves the order of the text** in a loop, which has its counter in front of its
bounds, and in a body with a statement in front of a declaration. -/
theorem visits_parse_unsorted :
    let loop := parse "routine main() is\n  for i in 1..2 loop\n  end\nend\n"
    let body := parse "routine main() is\n  return\n  var x is 1\nend\n"
    (loop.errors = [] ∧ ∃ visits, loop.arena.visits = .ok visits ∧
      ¬ (visits.filterMap loop.arena.span?).Pairwise fun x y => x.start ≤ y.start) ∧
    (body.errors = [] ∧ ∃ visits, body.arena.visits = .ok visits ∧
      ¬ (visits.filterMap body.arena.span?).Pairwise fun x y => x.start ≤ y.start) := by
  refine ⟨⟨?_, [.program, .declaration (.routine ⟨0⟩), .routine ⟨0⟩, .body ⟨1⟩, .statement ⟨0⟩,
    .expression ⟨0⟩, .expression ⟨1⟩, .variable ⟨0⟩, .type ⟨3⟩, .body ⟨0⟩], ?_, ?_⟩,
    ?_, [.program, .declaration (.routine ⟨0⟩), .routine ⟨0⟩, .body ⟨0⟩, .declaration (.variable ⟨0⟩),
    .variable ⟨0⟩, .expression ⟨0⟩, .statement ⟨0⟩], ?_, ?_⟩ <;> decide +kernel

end ProcLang
