import ProcLang.Proofs.Account.Remarks
import ProcLang.Proofs.Extents.Tokens

/-!
# ProcLang.Proofs.Extents.Ranges

**Nodes side by side.** `a.Ranged p vs q` says that the spans of the nodes `vs` lie between the places
`p` and `q`, one behind the other. Both ends of a span count, since a span need not end behind its
beginning. Ranges are joined where one ends in front of the next (`Ranged.append`), and stay what
they are while an arena grows (`Ranged.extend`).
-/

namespace ProcLang

open scoped Position

/-! ### Spans -/

namespace Span

/-- Both ends of a span lie between two places. -/
structure Within (p q : Position) (span : Span) : Prop where
  le_start : p ≤ span.start
  start_le : span.start ≤ q
  le_stop : p ≤ span.stop
  stop_le : span.stop ≤ q

/-- Both ends of a span lie in front of both ends of another one. -/
structure Before (x y : Span) : Prop where
  start_start : x.start ≤ y.start
  start_stop : x.start ≤ y.stop
  stop_start : x.stop ≤ y.start
  stop_stop : x.stop ≤ y.stop

variable {p q p' q' : Position} {x y : Span}

theorem Within.widen (h : x.Within p q) (hp : p' ≤ p) (hq : q ≤ q') : x.Within p' q' :=
  ⟨le_trans hp h.le_start, le_trans h.start_le hq, le_trans hp h.le_stop, le_trans h.stop_le hq⟩

theorem Within.before (hx : x.Within p q) (hy : y.Within p' q') (hle : q ≤ p') : x.Before y where
  start_start := le_trans hx.start_le (le_trans hle hy.le_start)
  start_stop := le_trans hx.start_le (le_trans hle hy.le_stop)
  stop_start := le_trans hx.stop_le (le_trans hle hy.le_start)
  stop_stop := le_trans hx.stop_le (le_trans hle hy.le_stop)

end Span

/-- The extent of tokens lies where they do. -/
theorem Token.Between.extent {p q : Position} {w : List Token} (h : Token.Between p w q) (hw : w ≠ []) :
    (Token.extent w).Within p q := by
  obtain ⟨first, hfirst, hstart⟩ := Token.exists_startOf hw
  obtain ⟨last, hlast, hstop⟩ := Token.exists_stopOf hw
  obtain ⟨hp, hq⟩ := h first hfirst
  obtain ⟨hp', hq'⟩ := h last hlast
  rw [Token.extent, hstart, hstop]
  exact ⟨hp, le_trans first.start_le_stop hq, le_trans hp' last.start_le_stop, hq'⟩

namespace Arena

/-! ### The spans of visits -/

/-- The span of the node with an id, if there is one. -/
def spanOf (a : Arena) {family : Family} (id : NodeId family) : Option Span :=
  (a.get? id).map (Node.span family)

/-- The span of a node below the program. An entry in a list of declarations has the span of what it
declares. -/
def span? (a : Arena) : Visit → Option Span
  | .program => none
  | .declaration (.routine id) => a.spanOf id
  | .declaration (.variable id) => a.spanOf id
  | .declaration (.type id) => a.spanOf id
  | .routine id => a.spanOf id
  | .variable id => a.spanOf id
  | .typeDecl id => a.spanOf id
  | .type id => a.spanOf id
  | .body id => a.spanOf id
  | .statement id => a.spanOf id
  | .expression id => a.spanOf id

variable {a b : Arena} {family : Family} {id : NodeId family} {node : Node family}
  {vs ws : List Visit} {v w : Visit} {p q p' q' : Position} {x y : Span}

theorem span?_declaration (d : Declaration) : a.span? (.declaration d) = a.span? d.visit := by
  cases d <;> rfl

theorem span?_of (h : a.get? id = some node) :
    a.span? (Visit.of id) = some (Node.span family node) := by
  have hspan : a.span? (Visit.of id) = a.spanOf id := by cases family <;> rfl
  rw [hspan, spanOf, h, Option.map_some]

/-- Nodes that are there keep their spans. -/
theorem ExtendedBy.span?_eq (hext : a.ExtendedBy b) (h : a.span? v = some x) : b.span? v = some x := by
  have hspanOf : ∀ {family : Family} {id : NodeId family}, a.spanOf id = some x →
      b.spanOf id = some x := by
    intro family id hspan
    obtain ⟨node, hget, rfl⟩ := Option.map_eq_some_iff.1 hspan
    rw [spanOf, hext family id node hget, Option.map_some]
  cases v with
  | program => cases h
  | declaration d => cases d <;> exact hspanOf h
  | _ => exact hspanOf h

/-! ### Nodes in a range -/

/-- The spans of some nodes lie between two places, one behind the other. -/
structure Ranged (a : Arena) (p : Position) (vs : List Visit) (q : Position) : Prop where
  within : ∀ v ∈ vs, ∃ x, a.span? v = some x ∧ x.Within p q
  sorted : vs.Pairwise fun v w => ∀ x y, a.span? v = some x → a.span? w = some y → x.Before y

namespace Ranged

theorem nil : a.Ranged p [] q := ⟨nofun, .nil⟩

theorem singleton (hspan : a.span? v = some x) (hx : x.Within p q) : a.Ranged p [v] q :=
  ⟨fun _ hw => List.mem_singleton.1 hw ▸ ⟨x, hspan, hx⟩, List.pairwise_singleton ..⟩

theorem widen (h : a.Ranged p vs q) (hp : p' ≤ p) (hq : q ≤ q') : a.Ranged p' vs q' where
  within v hv := by
    obtain ⟨x, hspan, hx⟩ := h.within v hv
    exact ⟨x, hspan, hx.widen hp hq⟩
  sorted := h.sorted

/-- **Ranges are joined** where the first one ends in front of the second one. -/
theorem append (hv : a.Ranged p vs q) (hw : a.Ranged p' ws q') (hle : q ≤ p') (hp : p ≤ p')
    (hq : q ≤ q') : a.Ranged p (vs ++ ws) q' where
  within := List.forall_mem_append.2
    ⟨(hv.widen (le_refl p) hq).within, (hw.widen hp (le_refl q')).within⟩
  sorted := by
    refine List.pairwise_append.2 ⟨hv.sorted, hw.sorted, fun v hmem w hmem' x y hx hy => ?_⟩
    obtain ⟨x', hx', hwithin⟩ := hv.within v hmem
    obtain ⟨y', hy', hwithin'⟩ := hw.within w hmem'
    obtain rfl := Option.some.inj (hx'.symm.trans hx)
    obtain rfl := Option.some.inj (hy'.symm.trans hy)
    exact hwithin.before hwithin' hle

/-- Ranges on either side of a token. -/
theorem beside {token : Token} (hv : a.Ranged p vs token.start) (hw : a.Ranged token.stop ws q)
    (hp : p ≤ token.start) (hq : token.stop ≤ q) : a.Ranged p (vs ++ ws) q :=
  hv.append hw token.start_le_stop (le_trans hp token.start_le_stop)
    (le_trans token.start_le_stop hq)

theorem sublist (h : a.Ranged p vs q) (hsub : ws.Sublist vs) : a.Ranged p ws q :=
  ⟨fun v hv => h.within v (hsub.subset hv), h.sorted.sublist hsub⟩

theorem extend (h : a.Ranged p vs q) (hext : a.ExtendedBy b) : b.Ranged p vs q where
  within v hv := by
    obtain ⟨x, hx, hwithin⟩ := h.within v hv
    exact ⟨x, hext.span?_eq hx, hwithin⟩
  sorted := by
    refine List.Pairwise.imp_of_mem (fun {v w} hv hw hbefore x y hx hy => ?_) h.sorted
    obtain ⟨x', hx', -⟩ := h.within v hv
    obtain ⟨y', hy', -⟩ := h.within w hw
    obtain rfl := Option.some.inj ((hext.span?_eq hx').symm.trans hx)
    obtain rfl := Option.some.inj ((hext.span?_eq hy').symm.trans hy)
    exact hbefore x' y' hx' hy'

end Ranged

end Arena

end ProcLang
