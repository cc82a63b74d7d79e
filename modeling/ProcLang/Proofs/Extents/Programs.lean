import ProcLang.Proofs.Extents.Names
import ProcLang.Proofs.Extents.Parser
import ProcLang.Proofs.Names.Lexical

/-!
# ProcLang.Proofs.Extents.Programs

**What the spans of a parsed program say.** The span of an expression covers the tokens that it was read
from and touches no others, before and after name resolution (`expressions_delimited`). The span of any
other node begins no later than it ends, unless it is the span of a body with nothing between the word that
opens it and the word that closes it, or that of a program without tokens (`parse_spans`). Such a span is
turned round: it begins at the token behind it and ends at the one in front of it
(`parse_spans_empty`).
-/

namespace ProcLang

open Arena Token

open scoped Position

/-! ### Expressions -/

/-- **The spans of expressions describe the text**, whether or not it has errors. So they do when names
have been resolved, which a text without errors always allows. -/
theorem expressions_delimited (source : String) :
    (∀ (id : ExpressionId) e, (parse source).arena.get? id = some e →
      Delimited source (parse source).arena id e) ∧
    (∀ outcome, nameResolution.run (parse source).arena = .ok outcome →
      ∀ (id : ExpressionId) e, outcome.arena.get? id = some e → Delimited source outcome.arena id e) ∧
    ((parse source).errors = [] → ∃ outcome, nameResolution.run (parse source).arena = .ok outcome) := by
  have hwritten : ∀ (id : ExpressionId) e, (parse source).arena.get? id = some e →
      (parse source).arena.WrittenIn source id := fun _ _ hget => (parse_laid source).1.of_get? hget nofun
  refine ⟨fun id e hget => (hwritten id e hget).delimited hget, fun outcome hrun id e hget => ?_,
    fun hparse => ?_⟩
  · exact ((nameResolution_relinked hrun).writtenIn hwritten hget).delimited hget
  · obtain ⟨nodes, htree⟩ := Parser.parse_isTree source hparse
    obtain ⟨outcome, hrun, -⟩ := htree.exists_settles
    exact ⟨outcome, hrun⟩

/-! ### Scopes and declarations -/

/-- The shared types have no text. -/
theorem Arena.span_of_empty {family : Family} {id : NodeId family} {node : Node family}
    (h : Arena.empty.get? id = some node) : Node.span family node = .origin := by
  cases family with
  | type =>
      have hall : ∀ type ∈ Arena.empty.typeTable, type.span = .origin := by decide
      exact hall node (Array.mem_of_getElem? h)
  | _ => nomatch h

/-- Without tokens the end of the text is as far from its beginning as the text is long. -/
theorem ending_start_le_origin_iff {source : String} (h : (tokenStream source).tokens = []) :
    (tokenStream source).ending.start ≤ Position.origin ↔ source = "" := by
  obtain ⟨pieces, gap, hcovers⟩ := tokenStream_covers source
  have hpieces : pieces = [] := List.map_eq_nil_iff.1 (hcovers.tokens_eq.symm.trans h)
  have hgap : source.toList = gap := by rw [hcovers.chars_eq, hpieces, List.flatMap_nil, List.nil_append]
  have hstart : (tokenStream source).ending.start = Position.origin.right gap.length := by
    rw [hcovers.ending_start, hgap, positionAfter_append (newline_not_mem_of_isGap hcovers.gap_isGap)]
    rfl
  rw [hstart, ← String.toList_eq_nil_iff, hgap]
  constructor
  · intro hle
    by_contra hne
    exact not_le_of_gt (Position.lt_right _ (List.length_pos_iff.2 hne)) hle
  · rintro rfl
    exact le_refl _

/-- The first token, or the end of a text without tokens, lies no later than the end of the last token,
unless there is no token in a text that is not empty. -/
theorem startOf_le_stopOf_iff (source : String) :
    startOf (tokenize source) ≤ stopOf (tokenStream source).tokens ↔
      (tokenStream source).tokens ≠ [] ∨ source = "" := by
  by_cases htokens : (tokenStream source).tokens = []
  · have hstart : startOf (tokenize source) = (tokenStream source).ending.start := by
      rw [tokenize, htokens]
      rfl
    rw [hstart, htokens]
    exact (ending_start_le_origin_iff htokens).trans (by simp)
  · rw [tokenize, startOf_append htokens]
    exact iff_of_true (Apart.startOf_le_stopOf (apart_tokens source) htokens) (Or.inl htokens)

/-- A node that is no body begins no later than it ends. -/
theorem Node.Laid.ordered {source : String} {a : Arena} {family : Family} {id : NodeId family}
    {node : Node family} (h : Node.Laid source a family id node) (hget : a.get? id = some node)
    (hfamily : family ≠ .body) : (Node.span family node).start ≤ (Node.span family node).stop := by
  cases family with
  | body => exact absurd rfl hfamily
  | expression => exact le_of_lt (h.delimited hget).ordered
  | _ => exact le_of_lt h.1

/-- A body ends in front of its beginning if and only if nothing is in it. -/
theorem Body.Enclosed.exists_inner {source : String} {body : Body} (h : body.Enclosed source) :
    ∃ before opening inner closing after,
      (tokenStream source).tokens = before ++ opening :: (inner ++ closing :: after) ∧
        opening.kind ∈ [.kwIs, .kwLoop, .kwThen, .kwElse] ∧ closing.kind ∈ [.kwEnd, .kwElse] ∧
        body.span = ⟨startOf (inner ++ [closing]), stopOf (opening :: inner)⟩ ∧
        (body.span.start ≤ body.span.stop ↔ inner ≠ []) := by
  obtain ⟨before, opening, inner, closing, after, htokens, hopening, hclosing, hspan⟩ := h
  refine ⟨before, opening, inner, closing, after, htokens, hopening, hclosing, hspan, ?_⟩
  rw [hspan]
  constructor
  · rintro hle rfl
    have hreserved : ∀ kind ∈ [TokenKind.kwIs, .kwLoop, .kwThen, .kwElse] ++ [.kwEnd, .kwElse],
        IsReserved kind := by decide
    have hlt : opening.stop < closing.start := stop_lt_start_of_words htokens
      (hreserved _ (List.mem_append_left _ hopening)) (hreserved _ (List.mem_append_right _ hclosing))
    exact absurd hle (not_le_of_gt hlt)
  · intro hinner
    have hapart : Apart (before ++ opening :: (inner ++ closing :: after)) := htokens ▸ apart_tokens source
    rw [startOf_append hinner, ← List.singleton_append, stopOf_append hinner]
    exact Apart.startOf_le_stopOf (hapart.stretch ⟨before ++ [opening], closing :: after, by simp⟩) hinner

/-- The body that a node owns lies within the node. -/
theorem Arena.Ranged.body {a : Arena} {p q : Position} {vs : List Visit} {id : BodyId}
    (h : a.Ranged p vs q) (hmem : Visit.body id ∈ vs) :
    ∃ body, a.get? id = some body ∧ body.span.Within p q := by
  obtain ⟨x, hspan, hwithin⟩ := h.within _ hmem
  obtain ⟨body, hget, rfl⟩ := Option.map_eq_some_iff.1 hspan
  exact ⟨body, hget, hwithin⟩

/-- **Where the spans of scopes and declarations begin and end.** The span of a program begins no later
than it ends unless it has no tokens, though it may be empty; that of a body unless it has no tokens between
the word that opens it and the word that closes it. All other spans do so. The span of a body lies within
the span of the routine or of the statement that owns it, both of its ends do. -/
theorem parse_spans (source : String) :
    ((parse source).arena.program.span.start ≤ (parse source).arena.program.span.stop ↔
      (tokenStream source).tokens ≠ [] ∨ source = "") ∧
    (∀ (family : Family) (id : NodeId family) node, family ≠ .body →
      (parse source).arena.get? id = some node →
        (Node.span family node).start ≤ (Node.span family node).stop) ∧
    (∀ (id : BodyId) body, (parse source).arena.get? id = some body →
      ∃ before opening inner closing after,
        (tokenStream source).tokens = before ++ opening :: (inner ++ closing :: after) ∧
          opening.kind ∈ [.kwIs, .kwLoop, .kwThen, .kwElse] ∧ closing.kind ∈ [.kwEnd, .kwElse] ∧
          body.span = ⟨startOf (inner ++ [closing]), stopOf (opening :: inner)⟩ ∧
          (body.span.start ≤ body.span.stop ↔ inner ≠ [])) ∧
    (∀ (id : RoutineId) owner, (parse source).arena.get? id = some owner →
      ∃ body, (parse source).arena.get? owner.body = some body ∧
        body.span.Within owner.span.start owner.span.stop) ∧
    ∀ (id : StatementId) owner, (parse source).arena.get? id = some owner →
      ∀ b ∈ owner.kind.bodies, ∃ body, (parse source).arena.get? b = some body ∧
        body.span.Within owner.span.start owner.span.stop := by
  obtain ⟨hlaid, hprogram, -⟩ := parse_laid source
  obtain ⟨_, _, hforest, -, -⟩ := Parser.parse_holdsForest source
  refine ⟨?_, fun family id node hfamily hget => ?_, fun id body hget => ?_, fun id owner hget => ?_,
    fun id owner hget b hb => ?_⟩
  · rw [hprogram]
    exact startOf_le_stopOf_iff source
  · rcases hlaid family id node hget with hhas | hnode
    · -- a shared type
      obtain ⟨shared, hshared⟩ := hhas.exists_get?
      obtain rfl := Option.some.inj (hget.symm.trans (hforest.shared family id shared hshared))
      rw [span_of_empty hshared]
      exact le_refl _
    · exact hnode.ordered hget hfamily
  · exact (hlaid.of_get? hget (by rintro ⟨⟩)).1.exists_inner
  · exact (hlaid.of_get? hget (by rintro ⟨⟩)).2.body (by simp [Node.written, Node.children])
  · exact (hlaid.of_get? hget (by rintro ⟨⟩)).2.body (by simp [Node.written, hb])

/-- A body with nothing in it, and a program of blanks only: both spans are turned round. -/
theorem parse_spans_empty :
    (∃ body, (parse "routine f() is end").arena.get? (⟨0⟩ : BodyId) = some body ∧
      ¬ body.span.start ≤ body.span.stop) ∧
    ¬ (parse "   ").arena.program.span.start ≤ (parse "   ").arena.program.span.stop := by
  refine ⟨⟨⟨⟨⟨1, 16⟩, ⟨1, 15⟩⟩, [], []⟩, ?_, by decide⟩, ?_⟩
  · decide +kernel
  · decide +kernel

end ProcLang
