import ProcLang.Proofs.Passes.Annotations

/-!
# ProcLang.Proofs.Constants.Programs

**Marks of constants are determined by the tree** (`constants_exact`). Whatever the marks are before the
pass, behind it an expression of the program is marked exactly if there is no name and no call in it,
and each array whose length is not marked is reported once. So a second run changes no mark and reports
the same.

The marks take no part in what makes a tree sound (`SameBut.sound`). Hence the pass may begin with any of
them.
-/

namespace ProcLang

open Arena

variable {a b c : Arena} {nodes : List Visit}

namespace Arena

/-! ### Trees with other marks -/

namespace SameBut

/-- One expression is marked in another way. -/
theorem mark {id : ExpressionId} {node : Expression} (hget : a.get? id = some node) (constant : Bool) :
    a.SameBut (some .constant) (a.put id { node with constant }) :=
  ⟨.put hget ⟨rfl, Or.inl rfl, Or.inr fun _ ht => ht⟩, fun _ => .put hget rfl, absurd rfl⟩

/-- Of an expression with another mark everything else is the same. -/
theorem exists_get? (h : a.SameBut (some .constant) b) {id : ExpressionId} {node : Expression}
    (hget : b.get? id = some node) :
    ∃ old, a.get? id = some old ∧ node = { old with constant := node.constant } := by
  obtain ⟨old, hold, hrefined⟩ := h.refined.exists_get? hget
  have hview := h.types nofun id
  rw [hget, hold] at hview
  obtain ⟨hkind, htype⟩ := Prod.mk.inj (Option.some.inj hview)
  obtain ⟨span, constant, type, kind⟩ := node
  obtain rfl : span = Expression.span old := hrefined.span
  obtain rfl : kind = old.kind := hkind
  obtain rfl : type = old.type := htype
  exact ⟨old, hold, rfl⟩

/-- **A tree stays sound with other marks.** -/
theorem sound (h : a.SameBut (some .constant) b) (hsound : a.Sound) : b.Sound := by
  have hcoherent : b.Coherent := by
    refine hsound.toCoherent.refine h.refined (hsound.consistent.refine h.refined ?_) ?_
    · intro id node t hfield hget ht
      obtain ⟨old, hold, heq⟩ := h.exists_get? hget
      exact hsound.consistent.settled id old t hfield hold (by rwa [heq] at ht)
    · intro id node hget v hv
      obtain ⟨old, hold, heq⟩ := h.exists_get? hget
      rw [heq] at hv
      exact hsound.closed .expression id old hold v (List.mem_append_right _ hv)
  refine hsound.refine h.refined hcoherent (hsound.bound.refine hsound.consistent.separate h.refined ?_)
  intro e member left f node name x hmember hkind hget hname
  obtain ⟨old, hold, heq⟩ := h.exists_get? hget
  exact hsound.bound.linked e member left f old name x hmember hkind hold (by rwa [heq] at hname)

end SameBut

/-- In trees that refine each other the same expressions refer to something. -/
theorem RefinedBy.refers_iff (h : a.RefinedBy b) {e : ExpressionId} : b.Refers e ↔ a.Refers e := by
  have hrefers : ∀ {p : Prop} {old new : Expression}, old.RefinedBy p new →
      new.kind.refers = old.kind.refers := by
    intro p old new hrefined
    rcases hrefined.kind with hsame | ⟨-, name, target, target', hold, hnew⟩
    · rw [hsame]
    · rw [hold, hnew]
      rfl
  constructor
  · rintro ⟨f, node, hreaches, hget, hnode⟩
    obtain ⟨old, hold, hrefined⟩ := h.exists_get? hget
    exact ⟨f, old, h.reaches_eq ▸ hreaches, hold, hrefers hrefined ▸ hnode⟩
  · rintro ⟨f, node, hreaches, hget, hnode⟩
    obtain ⟨new, hnew, hrefined⟩ := h.expressions f node hget
    exact ⟨f, new, h.reaches_eq ▸ hreaches, hnew, (hrefers hrefined).trans hnode⟩

/-- The length of an array type is not marked as constant. -/
def UnmarkedLength (a : Arena) (t : TypeId) (d : Diagnostic) : Prop :=
  ∃ node e element length, a.get? t = some node ∧ node.kind = .array (some e) element ∧
    a.get? e = some length ∧ length.constant = false ∧
    d = ⟨.nonConstantArrayLength, (Expression.span length).start⟩

/-- Where the marks are right, the lengths that refer to something are those that are not marked. -/
theorem RefinedBy.unmarkedLength_iff (h : a.RefinedBy b)
    (hmarked : ∀ e, a.Reaches .program (.expression e) → a.Marked b e) {t : TypeId}
    (hreaches : a.Reaches .program (.type t)) {d : Diagnostic} :
    b.UnmarkedLength t d ↔ a.VariableLength (.type t) d := by
  have hlength : ∀ {node : TypeNode} {e : ExpressionId} {element : TypeId}, a.get? t = some node →
      node.kind = .array (some e) element → a.Marked b e := by
    intro node e element hget hkind
    refine hmarked e (hreaches.tail ?_)
    rw [Visit.type_eq t, children_of_get? hget, Node.children, hkind]
    exact List.mem_append_left _ List.mem_cons_self
  constructor
  · rintro ⟨node, e, element, length, hget, hkind, hnew, hmark, rfl⟩
    rw [h.get?_eq .type (by decide)] at hget
    obtain ⟨old, hold, hrefined⟩ := h.exists_get? hnew
    obtain ⟨found, hfound, hiff⟩ := hlength hget hkind
    obtain rfl := Option.some.inj (hnew.symm.trans hfound)
    refine ⟨t, node, e, element, old, rfl, hget, hkind, hold, ?_, by rw [hrefined.span]⟩
    exact not_not.1 fun hno => Bool.false_ne_true (hmark.symm.trans (hiff.2 hno))
  · rintro ⟨t', node, e, element, old, heq, hget, hkind, hold, hrefers, rfl⟩
    cases heq
    obtain ⟨length, hnew, hrefined⟩ := h.expressions e old hold
    obtain ⟨found, hfound, hiff⟩ := hlength hget hkind
    obtain rfl := Option.some.inj (hnew.symm.trans hfound)
    refine ⟨node, e, element, length, (h.get?_eq .type (by decide) t).trans hget, hkind, hnew, ?_, by
      rw [hrefined.span]⟩
    exact Bool.eq_false_iff.2 fun hmark => hiff.1 hmark hrefers

/-! ### The pass -/

/-- **A second run changes nothing**: marks that are right are set to what they are. -/
theorem SameBut.eq_of_marked (h : b.SameBut (some .constant) c)
    (hb : ∀ e, a.Reaches .program (.expression e) → a.Marked b e)
    (hc : ∀ e, a.Reaches .program (.expression e) → a.Marked c e)
    (hothers : ∀ e : ExpressionId, ¬ a.Reaches .program (.expression e) → c.get? e = b.get? e) :
    c = b := by
  refine ext_get? h.refined.program fun family id => ?_
  by_cases hfamily : family = .expression
  · subst hfamily
    by_cases hreaches : a.Reaches .program (.expression id)
    · obtain ⟨old, hold, hmark⟩ := hb id hreaches
      obtain ⟨new, hnew, hmark'⟩ := hc id hreaches
      obtain ⟨old', hold', heq⟩ := h.exists_get? hnew
      obtain rfl := Option.some.inj (hold.symm.trans hold')
      have hsame : new.constant = old.constant := Bool.eq_iff_iff.2 (hmark'.trans hmark.symm)
      rw [hnew, hold, heq, hsame]
    · exact hothers id hreaches
  · exact h.refined.get?_eq family hfamily id

/-- **Marking constants** in a tree with any marks. -/
theorem IsForest.exists_marked (hforest : a.IsForest nodes) (hsound : a.Sound)
    (hb : a.SameBut (some .constant) b) :
    ∃ outcome ids, constants.run b = .ok outcome ∧ b.SameBut (some .constant) outcome.arena ∧
      (∀ e, outcome.arena.Reaches .program (.expression e) →
        outcome.arena.Marked outcome.arena e) ∧
      outcome.arena.OnceReported outcome.arena.UnmarkedLength ids outcome.diagnostics ∧
      ∃ again, constants.run outcome.arena = .ok again ∧ again.arena = outcome.arena ∧
        again.diagnostics = outcome.diagnostics := by
  have hextends : a.Extends b := ⟨hb.refined, (hb.sound hsound).toCoherent, hb.sound⟩
  have hconstants : constants ∈ laterPasses := by simp [laterPasses]
  obtain ⟨outcome, hrun, hafter, hmarks, -, hfindings⟩ := exists_constants hforest hextends
  obtain ⟨again, hagain, -, hmarks', hothers, hfindings'⟩ := exists_constants hforest hafter
  -- what the two runs write are marks
  have hsame : ∀ {c : Arena} {outcome : PassOutcome}, a.Extends c → constants.run c = .ok outcome →
      c.SameBut (some .constant) outcome.arena := by
    intro c outcome hc hrun
    obtain ⟨found, hfound, hsame, -⟩ :=
      exists_sameBut (hc.refined.isForest hforest) hc.coherent hconstants
    obtain rfl := Except.ok.inj (hfound.symm.trans hrun)
    exact hsame
  have htype : ∀ v d, NoFault v d ∨ a.VariableLength v d → ∃ t : TypeId, v = Visit.of t := by
    intro v d hd
    obtain ⟨t, node, e, element, length, rfl, -⟩ := hd.resolve_left id
    exact ⟨t, rfl⟩
  obtain ⟨ids, hids⟩ := hforest.exists_onceReported hfindings (fun _ _ _ h => h.elim) htype
  refine ⟨outcome, ids, hrun, hsame hextends hrun, fun e he => ?_, ?_, again, hagain,
    (hsame hafter hagain).eq_of_marked hmarks hmarks' hothers,
    hfindings'.unique definite_noFault (definite_variableLength a) hfindings⟩
  · obtain ⟨node, hget, hmark⟩ := hmarks e (hafter.refined.reaches_eq ▸ he)
    exact ⟨node, hget, hmark.trans hafter.refined.refers_iff.not.symm⟩
  · refine hids.congr (fun t => by rw [hafter.refined.reaches_eq]) fun t d ht => ?_
    exact (hafter.refined.unmarkedLength_iff hmarks ht).trans (or_iff_right id).symm

end Arena

/-- **Marks of constants are determined by the tree.** Of the names of a source text nothing is reported,
and any passes may have run behind name resolution; then the marks may be set to anything. The check of
constants comes to its end and writes nothing but marks. Behind it each expression of the program is
marked exactly if there is no name and no call at or below it. Each array type of the program with a
length that is not marked is reported once, where the length begins, and nothing else is reported. When
the check runs again, no mark changes, and it reports the same list. -/
theorem constants_exact (source : String) (hparse : (parse source).errors = [])
    (names : PassOutcome) (hnames : nameResolution.run (parse source).arena = .ok names)
    (hsilent : names.diagnostics = []) (passes : List Pass) (hpasses : passes ⊆ laterPasses)
    (a b : Arena) (hafter : names.arena.after passes = .ok a) (hmarks : a.SameBut (some .constant) b) :
    ∃ outcome ids, constants.run b = .ok outcome ∧ b.SameBut (some .constant) outcome.arena ∧
      (∀ e, outcome.arena.Reaches .program (.expression e) →
        ∃ node, outcome.arena.get? e = some node ∧
          (node.constant = true ↔ ¬ outcome.arena.Refers e)) ∧
      outcome.arena.OnceReported outcome.arena.UnmarkedLength ids outcome.diagnostics ∧
      ∃ again, constants.run outcome.arena = .ok again ∧ again.arena = outcome.arena ∧
        again.diagnostics = outcome.diagnostics := by
  obtain ⟨nodes, htree⟩ := Parser.parse_isTree source hparse
  have hresolves := resolves_of_silent htree hnames hsilent
  obtain ⟨forest, hforest⟩ := hresolves.exists_forest htree
  obtain ⟨a', hafter', hgrown⟩ := exists_after hforest hpasses ⟨.refl _, hresolves.sound htree⟩
  obtain rfl := Except.ok.inj (hafter'.symm.trans hafter)
  exact (hgrown.refined.isForest hforest).exists_marked hgrown.sound hmarks

/-- The name `n` is marked as constant beforehand. The length that it stands in is reported all the same,
and the other one, whose operators have literals below them only, is not. -/
theorem constants_exact_wrong_mark :
    let source := "var n is 2\nvar v: array [n + 1] integer\nvar w: array [-(1 + 2) * 3] real\n"
    ∃ names, ∃ n : Expression, nameResolution.run (parse source).arena = .ok names ∧
      names.arena.get? (⟨1⟩ : ExpressionId) = some n ∧ n.kind = .identifier "n" (some ⟨0⟩) ∧
      ∃ outcome ids,
        constants.run (names.arena.put (⟨1⟩ : ExpressionId) { n with constant := true }) = .ok outcome ∧
        outcome.diagnostics = [⟨.nonConstantArrayLength, ⟨2, 15⟩⟩] ∧
        (∀ e, outcome.arena.Reaches .program (.expression e) →
          ∃ node, outcome.arena.get? e = some node ∧
            (node.constant = true ↔ ¬ outcome.arena.Refers e)) ∧
        outcome.arena.OnceReported outcome.arena.UnmarkedLength ids outcome.diagnostics ∧
        ∃ again, constants.run outcome.arena = .ok again ∧ again.arena = outcome.arena ∧
          again.diagnostics = outcome.diagnostics := by
  intro source
  obtain ⟨hparse, hrun⟩ : (parse source).errors = [] ∧
      (do
        let names ← nameResolution.run (parse source).arena
        let n : Expression ← names.arena.get (⟨1⟩ : ExpressionId)
        let outcome ← constants.run (names.arena.put (⟨1⟩ : ExpressionId) { n with constant := true })
        return (names.diagnostics, n.kind, outcome.diagnostics)) =
          .ok ([], .identifier "n" (some ⟨0⟩), [⟨.nonConstantArrayLength, ⟨2, 15⟩⟩]) := by
    decide +kernel
  cases hnames : nameResolution.run (parse source).arena with
  | error fault =>
      rw [hnames] at hrun
      nomatch hrun
  | ok names =>
      simp only [hnames, bind, Except.bind] at hrun
      cases hn : names.arena.get (⟨1⟩ : ExpressionId) with
      | error fault =>
          rw [hn] at hrun
          nomatch hrun
      | ok n =>
          simp only [hn] at hrun
          cases hmarked : constants.run (names.arena.put (⟨1⟩ : ExpressionId) { n with constant := true }) with
          | error fault =>
              rw [hmarked] at hrun
              nomatch hrun
          | ok marked =>
              rw [hmarked] at hrun
              obtain ⟨hsilent, hrest⟩ := Prod.mk.inj (Except.ok.inj hrun)
              obtain ⟨hkind, hreported⟩ := Prod.mk.inj hrest
              have hget := get_eq_ok.1 hn
              obtain ⟨outcome, ids, hexact, -, hmarks, hreports, hagain⟩ := constants_exact source
                hparse names hnames hsilent [] (List.nil_subset _) names.arena _ rfl (.mark hget true)
              obtain rfl := Except.ok.inj (hmarked.symm.trans hexact)
              exact ⟨names, n, rfl, hget, hkind, marked, ids, hmarked, hreported, hmarks, hreports,
                hagain⟩

end ProcLang
