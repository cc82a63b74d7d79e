import ProcLang.Check.Constants
import ProcLang.Proofs.Typing.Sound
import ProcLang.Proofs.Walk.Findings

/-!
# ProcLang.Proofs.Constants.Marks

**What the marks of constants say, and what is reported of them.** An expression refers to something if
there is a name or a call in it (`Refers`). The pass marks an expression as constant if and only if it
does not refer to anything, whatever its mark was before, and reports the arrays whose lengths refer to
something, each one behind what is reported of its elements (`exists_constants`).

An expression is marked when all its operands are. Since a mark that is right is never changed, the
marks of the operands are still right then.
-/

namespace ProcLang

open Arena WalkM

variable {a b : Arena} {nodes : List Visit}

/-! ### Expressions that refer to something -/

/-- The value of a name or of a call is known only when the program runs. -/
def ExpressionKind.refers : ExpressionKind → Bool
  | .identifier _ _ | .call _ _ _ => true
  | .unary _ _ | .binary _ _ _ | .integer _ | .real _ | .boolean _ => false

namespace Arena

variable {id : ExpressionId} {node : Expression}

/-- There is a name or a call in an expression. -/
def Refers (a : Arena) (e : ExpressionId) : Prop :=
  ∃ f node, a.Reaches (.expression e) (.expression f) ∧ a.get? f = some node ∧
    node.kind.refers = true

/-- An expression refers to something if it is a name or a call, or if one of its operands does. -/
theorem refers_iff (hget : a.get? id = some node) :
    a.Refers id ↔ node.kind.refers = true ∨ ∃ o ∈ node.kind.operands, a.Refers o := by
  have hchildren : a.children (.expression id) = node.kind.operands.map Visit.expression := by
    rw [Visit.expression_eq id, children_of_get? hget]
    rfl
  constructor
  · rintro ⟨f, found, hreaches, hfound, hrefers⟩
    rcases Relation.ReflTransGen.cases_head hreaches with heq | ⟨w, hw, hrest⟩
    · cases heq
      obtain rfl := Option.some.inj (hget.symm.trans hfound)
      exact Or.inl hrefers
    · rw [hchildren] at hw
      obtain ⟨o, ho, rfl⟩ := List.mem_map.1 hw
      exact Or.inr ⟨o, ho, f, found, hrest, hfound, hrefers⟩
  · rintro (hrefers | ⟨o, ho, f, found, hreaches, hfound, hrefers⟩)
    · exact ⟨id, node, .refl, hget, hrefers⟩
    · refine ⟨f, found, .head ?_ hreaches, hfound, hrefers⟩
      rw [hchildren]
      exact List.mem_map_of_mem ho

/-- In the tree `b` an expression of `a` is marked as constant exactly if it refers to nothing. -/
def Marked (a b : Arena) (e : ExpressionId) : Prop :=
  ∃ node, b.get? e = some node ∧ (node.constant = true ↔ ¬ a.Refers e)

/-- **Where the operands are marked, the answer is right.** -/
theorem RefinedBy.isConstant_iff (h : a.RefinedBy b) (hget : a.get? id = some node)
    (hmarked : ∀ o ∈ node.kind.operands, a.Marked b o) {constant : Bool}
    (hconstant : b.isConstant id = .ok constant) : constant = true ↔ ¬ a.Refers id := by
  obtain ⟨node', hget', hrefined⟩ := h.expressions id node hget
  rw [refers_iff hget]
  simp only [isConstant, get_eq_ok.2 hget', bind, Except.bind] at hconstant
  cases hkind : node.kind with
  | integer | real | boolean =>
      rw [hrefined.kind_eq (by simp [hkind]), hkind] at hconstant
      cases hconstant
      simp [ExpressionKind.refers, ExpressionKind.operands]
  | identifier name target =>
      obtain ⟨target', hkind'⟩ := hrefined.exists_identifier hkind
      rw [hkind'] at hconstant
      cases hconstant
      simp [ExpressionKind.refers]
  | call name target arguments =>
      rw [hrefined.kind_eq (by simp [hkind]), hkind] at hconstant
      cases hconstant
      simp [ExpressionKind.refers]
  | unary operator o =>
      rw [hrefined.kind_eq (by simp [hkind]), hkind] at hconstant
      obtain ⟨operand, ho, hmark⟩ := hmarked o (by rw [hkind]; exact List.mem_cons_self)
      simp only [get_eq_ok.2 ho, pure, Except.pure, Except.ok.injEq] at hconstant
      simp [ExpressionKind.refers, ExpressionKind.operands, ← hconstant, hmark]
  | binary operator l r =>
      rw [hrefined.kind_eq (by simp [hkind]), hkind] at hconstant
      obtain ⟨left, hl, hmarkl⟩ := hmarked l (by rw [hkind]; exact List.mem_cons_self)
      obtain ⟨right, hr, hmarkr⟩ :=
        hmarked r (by rw [hkind]; exact List.mem_cons_of_mem _ List.mem_cons_self)
      simp only [get_eq_ok.2 hl, get_eq_ok.2 hr, pure, Except.pure] at hconstant
      have hboth : constant = true ↔ left.constant = true ∧ right.constant = true := by
        split at hconstant
        · cases hconstant
          simp [*]
        · cases hconstant
          simp [*]
      rw [hboth, hmarkl, hmarkr]
      simp [ExpressionKind.refers, ExpressionKind.operands]

/-- The length of an array refers to something. -/
def VariableLength (a : Arena) (v : Visit) (d : Diagnostic) : Prop :=
  ∃ t node e element length, v = .type t ∧ a.get? t = some node ∧
    node.kind = .array (some e) element ∧ a.get? e = some length ∧ a.Refers e ∧
    d = ⟨.nonConstantArrayLength, (Expression.span length).start⟩

/-- Only types have lengths. -/
theorem not_variableLength {v : Visit} (hv : ∀ t, v ≠ .type t) (d : Diagnostic) :
    ¬ a.VariableLength v d :=
  fun ⟨t, _, _, _, _, heq, _⟩ => hv t heq

theorem definite_variableLength (a : Arena) : Definite a.VariableLength := by
  rintro v d d' ⟨t, node, e, element, length, rfl, hget, hkind, hlength, -, rfl⟩
    ⟨t', node', e', element', length', heq, hget', hkind', hlength', -, rfl⟩
  cases heq
  obtain rfl := Option.some.inj (hget.symm.trans hget')
  cases hkind.symm.trans hkind'
  obtain rfl := Option.some.inj (hlength.symm.trans hlength')
  rfl

end Arena

/-! ### Marks during the walk -/

variable {vs : List Visit} {v : Visit} {s s₁ s' : WalkState Unit} {c : Unit}

/-- Marks that are right stay so, and those of the expressions at and below some nodes become so. The
other expressions stay as they are. -/
structure MarksAll (a : Arena) (vs : List Visit) (s s' : WalkState Unit) : Prop where
  kept : ∀ e, a.Marked s.arena e → a.Marked s'.arena e
  below : ∀ e, a.Under vs (.expression e) → a.Marked s'.arena e
  others : ∀ e : ExpressionId, ¬ a.Under vs (.expression e) → s'.arena.get? e = s.arena.get? e

namespace MarksAll

theorem of_inTurn (h : InTurn (fun w => MarksAll a [w]) vs s s') : MarksAll a vs s s' := by
  induction h with
  | nil => exact ⟨fun _ => id, fun e ⟨w, hw, _⟩ => absurd hw List.not_mem_nil, fun _ _ => rfl⟩
  | cons first _ ih =>
      refine ⟨fun e he => ih.kept e (first.kept e he), fun e he => ?_, fun e he => ?_⟩
      · rcases under_cons.1 he with hfirst | hothers
        · exact ih.kept e (first.below e (under_single.2 hfirst))
        · exact ih.below e hothers
      · obtain ⟨hfirst, hothers⟩ := not_or.1 (under_cons.not.1 he)
        exact (ih.others e hothers).trans (first.others e (under_single.not.2 hfirst))

theorem of_children (hv : ∀ e, v ≠ .expression e) (h : MarksAll a (a.children v) s s') :
    MarksAll a [v] s s' := by
  have hunder : ∀ e, a.Under [v] (.expression e) ↔ a.Under (a.children v) (.expression e) :=
    fun e => under_single.trans (reaches_iff.trans (or_iff_right (hv e)))
  exact ⟨h.kept, fun e he => h.below e ((hunder e).1 he), fun e he => h.others e ((hunder e).not.1 he)⟩

/-- Reports leave the marks as they are. -/
theorem arena (h : MarksAll a vs s s₁) (harena : s'.arena = s₁.arena) : MarksAll a vs s s' :=
  ⟨harena ▸ h.kept, harena ▸ h.below, harena ▸ h.others⟩

/-- An expression is marked when its operands are. -/
theorem expression {id : ExpressionId} {node : Expression} {constant : Bool}
    (h : MarksAll a (a.children (.expression id)) s s₁) (hget : s₁.arena.get? id = some node)
    (hconstant : constant = true ↔ ¬ a.Refers id) :
    MarksAll a [.expression id] s (s₁.put id { node with constant }) := by
  have hself : a.Marked (s₁.arena.put id { node with constant }) id :=
    ⟨_, get?_put_self hget _, hconstant⟩
  have hput : ∀ e, a.Marked s₁.arena e → a.Marked (s₁.arena.put id { node with constant }) e := by
    intro e he
    by_cases hsame : e = id
    · exact hsame ▸ hself
    · obtain ⟨found, hfound, hmark⟩ := he
      exact ⟨found, (get?_put_of_id_ne _ hsame _).trans hfound, hmark⟩
  refine ⟨fun e he => hput e (h.kept e he), fun e he => ?_, fun e he => ?_⟩
  · rcases reaches_iff.1 (under_single.1 he) with heq | hunder
    · cases heq
      exact hself
    · exact hput e (h.below e hunder)
  · obtain ⟨hne, hnot⟩ := not_or.1 ((under_single.trans reaches_iff).not.1 he)
    have hother : Visit.of e ≠ Visit.of id := fun heq => hne heq.symm
    exact (get?_put_of_ne _ hother _).trans (h.others e hnot)

end MarksAll

/-! ### The walk -/

/-- Marking an expression whose operands are there has no fault. -/
theorem exists_isConstant {id : ExpressionId} {node : Expression} (hclosed : a.Closed)
    (hget : a.get? id = some node) : ∃ constant, a.isConstant id = .ok constant := by
  have hoperand : ∀ o ∈ node.kind.operands, ∃ operand, a.get? o = some operand :=
    fun o ho => hclosed.operand hget ho
  simp only [isConstant, get_eq_ok.2 hget, bind, Except.bind]
  cases hkind : node.kind with
  | integer | real | boolean => exact ⟨true, rfl⟩
  | identifier | call => exact ⟨false, rfl⟩
  | unary operator o =>
      obtain ⟨operand, ho⟩ := hoperand o (by rw [hkind]; exact List.mem_cons_self)
      exact ⟨operand.constant, by simp [get_eq_ok.2 ho, pure, Except.pure]⟩
  | binary operator l r =>
      obtain ⟨left, hl⟩ := hoperand l (by rw [hkind]; exact List.mem_cons_self)
      obtain ⟨right, hr⟩ :=
        hoperand r (by rw [hkind]; exact List.mem_cons_of_mem _ List.mem_cons_self)
      simp only [get_eq_ok.2 hl, get_eq_ok.2 hr]
      split
      · exact ⟨right.constant, rfl⟩
      · exact ⟨false, rfl⟩

/-- A tree stays coherent when an expression is marked. -/
theorem Arena.Extends.mark (h : a.Extends b) {id : ExpressionId} {node : Expression}
    (hget : b.get? id = some node) (constant : Bool) :
    a.Extends (b.put id { node with constant }) := by
  have hrefined : node.RefinedBy (b.IsField id) { node with constant } :=
    ⟨rfl, Or.inl rfl, Or.inr fun _ ht => ht⟩
  exact h.trans (h.coherent.put hget hrefined
    (fun hfield t ht => h.coherent.consistent.settled id node t hfield hget ht) (Or.inl rfl)
    fun v hv => h.coherent.closed .expression id node hget v (List.mem_append_right _ hv))

/-- The length of an array is judged by its mark. -/
theorem exists_checkLength (hs : a.Extends s.arena) {id : TypeId} {node : TypeNode}
    (hget : a.get? id = some node)
    (hmarked : ∀ e, a.Under (a.children (.type id)) (.expression e) → a.Marked s.arena e) :
    ∃ s' ds, Runs (checkLength id) c s () s' ∧ s'.arena = s.arena ∧
      Reported a.VariableLength (.type id) ds ∧ Adds ds s s' := by
  have hread : s.arena.get? id = some node := (hs.refined.get?_eq .type nofun id).trans hget
  have hfine : (∀ e element, node.kind = .array (some e) element → ¬ a.Refers e) →
      Reported a.VariableLength (.type id) [] := by
    refine fun hnone => .fine ?_
    rintro d ⟨t, found, e, element, length, heq, hfound, hkind, -, hrefers, -⟩
    cases heq
    obtain rfl := Option.some.inj (hget.symm.trans hfound)
    exact hnone e element hkind hrefers
  by_cases harray : ∃ e element, node.kind = .array (some e) element
  · obtain ⟨e, element, hkind⟩ := harray
    have hchild : .expression e ∈ a.children (.type id) := by
      rw [Visit.type_eq id, children_of_get? hget, Node.children, hkind]
      exact List.mem_append_left _ List.mem_cons_self
    obtain ⟨length, hlength, hmark⟩ := hmarked e ⟨_, hchild, .refl⟩
    obtain ⟨old, hold, hrefined⟩ := hs.refined.exists_get? hlength
    by_cases hconstant : length.constant = true
    · refine ⟨s, [], runs_node_bind.2 ⟨node, hread, ?_⟩, rfl, hfine fun e' element' hkind' => ?_, .refl s⟩
      · rw [hkind]
        refine runs_node_bind.2 ⟨length, hlength, ?_⟩
        rw [if_pos hconstant]
        exact runs_pure.2 ⟨rfl, rfl⟩
      · cases hkind.symm.trans hkind'
        exact hmark.1 hconstant
    · refine ⟨s.reported .nonConstantArrayLength (Expression.span length).start, _,
        runs_node_bind.2 ⟨node, hread, ?_⟩, rfl, .faulty ⟨id, node, e, element, old, rfl, hget, hkind,
          hold, not_not.1 fun hno => hconstant (hmark.2 hno), ?_⟩, .reported s _ _⟩
      · rw [hkind]
        refine runs_node_bind.2 ⟨length, hlength, ?_⟩
        rw [if_neg hconstant]
        exact runs_report.2 rfl
      · rw [hrefined.span]
  · refine ⟨s, [], runs_node_bind.2 ⟨node, hread, ?_⟩, rfl,
      hfine fun e element hkind => absurd ⟨e, element, hkind⟩ harray, .refl s⟩
    split
    · rename_i e element hkind
      exact absurd ⟨e, element, hkind⟩ harray
    · exact runs_pure.2 ⟨rfl, rfl⟩

/-- **Marking constants goes on at each node.** -/
theorem goesOn_constants : GoesOn a (fun s => a.Extends s.arena)
    (fun v s s' => MarksAll a [v] s s' ∧ Finds a NoFault a.VariableLength [v] s s')
    constantVisitor := by
  refine ⟨fun hs => hs.refined, fun _ _ => rfl, fun n v _ hv hready c s hs => ?_⟩
  obtain ⟨s₁, hwalk, hs₁, hturns⟩ := hready.exists_walk (c := c) hv hs
  have hmarks : MarksAll a (a.children v) s s₁ := .of_inTurn (hturns.imp fun _ _ _ h => h.1)
  have hfinds : Finds a NoFault a.VariableLength (a.children v) s s₁ :=
    .of_inTurn (hturns.imp fun _ _ _ h => h.2)
  cases v with
  | expression id =>
      obtain ⟨old, hold⟩ := exists_of_has id (hv.resolve_left nofun)
      obtain ⟨node, hget, -⟩ := hs₁.refined.expressions id old hold
      obtain ⟨constant, hconstant⟩ := exists_isConstant hs₁.coherent.closed hget
      have hoperands : ∀ o ∈ old.kind.operands, a.Marked s₁.arena o := by
        intro o ho
        refine hmarks.below o ⟨_, ?_, .refl⟩
        rw [Visit.expression_eq id, children_of_get? hold]
        exact List.mem_map_of_mem ho
      have hright := hs₁.refined.isConstant_iff hold hoperands hconstant
      refine ⟨s₁.put id { node with constant }, runs_bind.2 ⟨(), s₁, hwalk, ?_⟩,
        hs₁.mark hget constant, hmarks.expression hget hright, ?_⟩
      · exact runs_bind.2 ⟨(), _, runs_inspect_bind.2 ⟨constant, hconstant,
          runs_update.2 ⟨node, hget, rfl⟩⟩, runs_pure.2 ⟨rfl, rfl⟩⟩
      · exact .of_children (fun _ hno => hno) (not_variableLength nofun) hfinds
  | type id =>
      obtain ⟨node, hget⟩ := exists_of_has id (hv.resolve_left nofun)
      obtain ⟨s', last, hcheck, harena, hreported, hadds⟩ := exists_checkLength (c := c) hs₁ hget hmarks.below
      obtain ⟨inner, hinner, hadded⟩ := hfinds
      have hall : MarksAll a [.type id] s s₁ := hmarks.of_children nofun
      refine ⟨s', runs_bind.2 ⟨(), s₁, hwalk, runs_bind.2 ⟨(), s', hcheck, runs_pure.2 ⟨rfl, rfl⟩⟩⟩,
        harena ▸ hs₁, hall.arena harena, inner ++ last, ?_, hadded.trans hadds⟩
      exact .singleton (.noFault _) hinner hreported
  | program | declaration | routine | «variable» | typeDecl | body | statement =>
      exact ⟨s₁, runs_bind.2 ⟨(), s₁, hwalk, runs_pure.2 ⟨rfl, rfl⟩⟩, hs₁, hmarks.of_children nofun,
        .of_children (fun _ hno => hno) (not_variableLength nofun) hfinds⟩

/-- **The pass that marks constants comes to its end.** Whatever the marks were before, an expression of
the program is marked exactly if it refers to nothing, and the arrays with other lengths are
reported. Expressions that are not in the program stay as they are. -/
theorem exists_constants (hforest : a.IsForest nodes) (hb : a.Extends b) :
    ∃ outcome, constants.run b = .ok outcome ∧ a.Extends outcome.arena ∧
      (∀ e, a.Reaches .program (.expression e) → a.Marked outcome.arena e) ∧
      (∀ e : ExpressionId, ¬ a.Reaches .program (.expression e) →
        outcome.arena.get? e = b.get? e) ∧
      a.Findings NoFault a.VariableLength [.program] outcome.diagnostics := by
  obtain ⟨s, hwalk, hs, hmarks, ds, hfinds, hadds⟩ :=
    goesOn_constants.exists_walkProgram hforest.within () b () hb
  obtain rfl : s.diagnostics.toList = ds := by simpa [Adds] using hadds
  exact ⟨_, run_ofVisitor.2 ⟨s, hwalk, rfl⟩, hs, fun e he => hmarks.below e (under_single.2 he),
    fun e he => hmarks.others e (under_single.not.2 he), hfinds⟩

end ProcLang
