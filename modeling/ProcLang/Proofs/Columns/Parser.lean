import ProcLang.Proofs.Columns.Tokens
import ProcLang.Proofs.Columns.Tree
import ProcLang.Proofs.Lockstep.Parser

/-!
# ProcLang.Proofs.Columns.Parser

**Parsing does not look at columns** (`parse_alike`). Tokens that agree in kinds and texts stand on the
same lines, and so the parser does the same with both texts when only lines are kept of places.
-/

namespace ProcLang

/-- Lines are kept of places, and every token stands for itself. -/
def Blur.lines : Blur := ⟨Position.mapColumn noColumn, fun _ => False⟩

theorem Token.Alike.matches_lines {token token' : Token} (h : token.Alike token') :
    token.Matches Blur.lines token' := by
  have hplace : ∀ {p q : Position}, p.line = q.line → p.mapColumn noColumn = q.mapColumn noColumn :=
    fun hline => congrArg (Position.mk · 0) hline
  exact .same ⟨h.kind, h.text, hplace h.line, hplace h.stop⟩

theorem Diagnostic.Matches.mapColumns_eq {d e : Diagnostic} (h : d.Matches Blur.lines e) :
    d.mapColumns noColumn = e.mapColumns noColumn := by
  have hcause : d.cause = e.cause := h.cause.eq fun _ hnone => hnone
  have hplace : d.position.mapColumn noColumn = e.position.mapColumn noColumn := h.place
  rw [Diagnostic.mapColumns, Diagnostic.mapColumns, hcause, hplace]

/-- **Parsing does not look at columns.** Sources whose tokens agree in kinds and texts are read as the
same tree and with the same errors, but for columns. -/
theorem parse_alike {source source' : String}
    (hwords : (Token.tokenize source).map Token.word = (Token.tokenize source').map Token.word) :
    (parse source).arena.mapColumns noColumn = (parse source').arena.mapColumns noColumn ∧
      (parse source).errors.map (Diagnostic.mapColumns noColumn) =
        (parse source').errors.map (Diagnostic.mapColumns noColumn) := by
  obtain ⟨htokens, hending⟩ := Token.tokenStream_alike hwords
  obtain ⟨harena, herrors⟩ := parse_matches (htokens.imp fun _ _ h => h.matches_lines)
    hending.matches_lines fun _ _ _ h => h.elim
  refine ⟨harena, ?_⟩
  rw [← List.forall₂_eq_eq_eq, List.forall₂_map_left_iff, List.forall₂_map_right_iff]
  exact herrors.imp fun _ _ h => h.mapColumns_eq

end ProcLang
