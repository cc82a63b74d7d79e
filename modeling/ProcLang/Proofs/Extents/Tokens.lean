import ProcLang.Proofs.Columns.Tokens
import ProcLang.Proofs.Places.Tokens
import ProcLang.Proofs.Token.Reading
import Mathlib.Order.Basic

/-!
# ProcLang.Proofs.Extents.Tokens

**Tokens lie one behind the other** (`tokenize_apart`): each stops no later than the next one begins.
A token that is no line break has an extent (`start_lt_stop`), and tokens without a line break between
them stand on one line (`line_eq_of_stretch`).

Between two words of the text there is a gap, since maximal munch would have read them as one word
otherwise (`stop_lt_start_of_words`).
-/

namespace ProcLang

namespace Position

/-- Places are compared as numbers are. -/
scoped instance : Preorder Position where
  le_refl := Position.le_refl
  le_trans _ _ _ := Position.le_trans
  lt_iff_le_not_ge p q := by
    change _ ∨ _ ↔ (_ ∨ _) ∧ ¬ (_ ∨ _)
    omega

theorem lt_right (p : Position) {n : Nat} (h : 0 < n) : p < p.right n :=
  Or.inr ⟨rfl, Nat.lt_add_of_pos_right h⟩

end Position

open scoped Position

namespace Token

/-! ### The extent of a token -/

theorem start_le_stop (token : Token) : token.start ≤ token.stop := by
  unfold stop
  split
  · exact Position.le_refl _
  · exact Position.le_refl _
  · exact Position.le_right _ _

/-- A token stops where its text does, unless it ends the line. -/
theorem stop_eq_right {token : Token} (hline : token.kind ≠ .newline)
    (hend : token.kind ≠ .endOfFile) : token.stop = token.start.right token.text.length := by
  unfold stop
  split
  · exact absurd ‹_› hline
  · exact absurd ‹_› hend
  · rfl

/-- A piece of a text stops no later than its characters. -/
theorem Piece.Fits.stop_le {piece : Piece} {before after : List Char}
    (h : piece.Fits before after) : piece.token.stop ≤ positionAfter (before ++ piece.chars) := by
  rw [Piece.chars, ← List.append_assoc]
  rcases isLexeme_newline_cases h.lexeme with ⟨hkind, -⟩ | ⟨hkind, hline⟩
  · rw [stop, hkind, h.placed]
    exact positionAfter_le_append _ _
  · rw [stop_eq_right hkind h.notEnding, h.placed, positionAfter_append hline, String.length_toList]

/-- The tokens behind a text lie one behind the other. -/
theorem streamFrom_apart (fuel : Nat) (before cs : List Char) :
    (streamFrom fuel cs (positionAfter before)).all.Pairwise fun s t => s.stop ≤ t.start := by
  induction fuel generalizing before cs with
  | zero => simp [streamFrom, Stream.all]
  | succ fuel ih =>
      rw [streamFrom]
      rcases readToken_cases before cs with ⟨-, hkind, -, -⟩ | ⟨piece, htoken, -, -, hfits, hnext⟩
      · simp only [hkind, if_true, Stream.all]
        simp
      · have hkind : (readToken cs (positionAfter before)).token.kind ≠ .endOfFile := by
          rw [htoken]
          exact hfits.notEnding
        obtain ⟨hbehind, -⟩ := streamFrom_sorted fuel (before ++ piece.chars)
          (readToken cs (positionAfter before)).rest
        have hapart := ih (before ++ piece.chars) (readToken cs (positionAfter before)).rest
        rw [← hnext] at hbehind hapart
        simp only [hkind, if_false, Stream.all, List.cons_append]
        rw [htoken]
        refine List.pairwise_cons.2 ⟨fun token hmem => ?_, hapart⟩
        exact le_trans (hnext ▸ hfits.stop_le) (hbehind token hmem)

/-- **Tokens lie one behind the other**, the end of the text included. -/
theorem tokenize_apart (source : String) :
    (tokenize source).Pairwise fun s t => s.stop ≤ t.start :=
  streamFrom_apart (source.toList.length + 1) [] source.toList

/-- The tokens in front of the end of the text. -/
theorem apart_tokens (source : String) :
    (tokenStream source).tokens.Pairwise fun s t => s.stop ≤ t.start :=
  (tokenize_apart source).sublist (List.sublist_append_left ..)

/-- A token of a text is one of the pieces that cover it. -/
theorem exists_fits_of_mem {source : String} {token : Token}
    (h : token ∈ (tokenStream source).tokens) :
    ∃ (piece : Piece) (before after : List Char), piece.token = token ∧ piece.Fits before after := by
  obtain ⟨pieces, gap, hcovers⟩ := tokenStream_covers source
  rw [hcovers.tokens_eq] at h
  obtain ⟨piece, hpiece, rfl⟩ := List.mem_map.1 h
  obtain ⟨front, back, heq⟩ := List.append_of_mem hpiece
  exact ⟨piece, _, _, rfl, hcovers.fits front piece back heq⟩

/-- **A token has an extent**, unless it ends the line. -/
theorem start_lt_stop {source : String} {token : Token} (h : token ∈ (tokenStream source).tokens)
    (hkind : token.kind ≠ .newline) : token.start < token.stop := by
  obtain ⟨piece, before, after, rfl, hfits⟩ := exists_fits_of_mem h
  rw [stop_eq_right hkind hfits.notEnding]
  refine Position.lt_right _ ?_
  rw [← String.length_toList]
  exact List.length_pos_iff.2 hfits.lexeme.ne_nil

theorem origin_le_start {source : String} {token : Token} (h : token ∈ tokenize source) :
    Position.origin ≤ token.start :=
  (streamFrom_sorted (source.toList.length + 1) [] source.toList).1 token h

/-! ### Lines -/

theorem linesFrom_append (line : Nat) (front back : List TokenKind) :
    linesFrom line (front ++ back) =
      linesFrom line front ++ linesFrom (front.foldl lineBehind line) back := by
  induction front generalizing line with
  | nil => rfl
  | cons kind front ih => simp only [List.cons_append, linesFrom, ih, List.foldl_cons]

theorem length_linesFrom (line : Nat) (kinds : List TokenKind) :
    (linesFrom line kinds).length = kinds.length := by
  induction kinds generalizing line with
  | nil => rfl
  | cons kind kinds ih => rw [linesFrom, List.length_cons, List.length_cons, ih]

/-- Without a line break all is on one line. -/
theorem mem_linesFrom {line : Nat} {kinds : List TokenKind} (h : .newline ∉ kinds) :
    ∀ n ∈ linesFrom line kinds, n = line := by
  induction kinds with
  | nil => nofun
  | cons kind kinds ih =>
      rw [List.mem_cons, not_or] at h
      intro n hn
      rw [linesFrom, lineBehind, if_neg (Ne.symm h.1)] at hn
      exact (List.mem_cons.1 hn).elim id (ih h.2 n)

/-- **Tokens without a line break between them** stand on one line. -/
theorem line_eq_of_stretch {source : String} {w : List Token} (hstretch : w <:+: tokenize source)
    (hline : ∀ token ∈ w, token.kind ≠ .newline) {s t : Token} (hs : s ∈ w) (ht : t ∈ w) :
    s.start.line = t.start.line := by
  obtain ⟨before, after, htokens⟩ := hstretch
  have hlines := lines_tokenize source
  rw [← htokens] at hlines
  simp only [List.map_append, linesFrom_append] at hlines
  have hfront := (List.append_inj hlines (by simp [length_linesFrom])).1
  have hmiddle := (List.append_inj hfront (by simp [length_linesFrom])).2
  have hkinds : TokenKind.newline ∉ w.map (·.kind) := fun hmem => by
    obtain ⟨token, htoken, hkind⟩ := List.mem_map.1 hmem
    exact hline token htoken hkind
  have hsame : ∀ token ∈ w, token.start.line = _ := fun token htoken =>
    mem_linesFrom hkinds _ (hmiddle ▸ List.mem_map_of_mem htoken)
  rw [hsame s hs, hsame t ht]

/-! ### Stretches of tokens -/

/-- Tokens lie one behind the other. -/
abbrev Apart (w : List Token) : Prop := w.Pairwise fun s t => s.stop ≤ t.start

/-- Where the first of some tokens begins. -/
def startOf (w : List Token) : Position := (w.head?.map start).getD .origin

/-- Where the last of some tokens stops. -/
def stopOf (w : List Token) : Position := (w.getLast?.map stop).getD .origin

/-- The stretch of text from the first to the last of some tokens. -/
def extent (w : List Token) : Span := ⟨startOf w, stopOf w⟩

/-- Some tokens lie between two places. -/
def Between (p : Position) (w : List Token) (q : Position) : Prop :=
  ∀ token ∈ w, p ≤ token.start ∧ token.stop ≤ q

section

variable {token : Token} {u v w : List Token}

@[simp] theorem stopOf_concat : stopOf (w ++ [token]) = token.stop := by
  simp [stopOf]

theorem startOf_append (hv : v ≠ []) : startOf (v ++ w) = startOf v := by
  obtain ⟨token, rest, rfl⟩ := List.exists_cons_of_ne_nil hv
  rfl

theorem stopOf_append (hw : w ≠ []) : stopOf (v ++ w) = stopOf w := by
  rw [stopOf, stopOf, List.getLast?_append_of_ne_nil _ hw]

/-- The extent of some tokens and others behind them, with a token in between. -/
theorem extent_append_cons (hv : v ≠ []) (hw : w ≠ []) {u' : List Token} :
    extent (v ++ u ++ token :: (u' ++ w)) = ⟨startOf v, stopOf w⟩ := by
  rw [extent, List.append_assoc, startOf_append hv, stopOf_append (by simp),
    stopOf_append (by simp), ← List.cons_append, stopOf_append hw]

theorem exists_startOf (hw : w ≠ []) : ∃ token ∈ w, startOf w = token.start := by
  obtain ⟨token, rest, rfl⟩ := List.exists_cons_of_ne_nil hw
  exact ⟨token, List.mem_cons_self, rfl⟩

theorem exists_stopOf (hw : w ≠ []) : ∃ token ∈ w, stopOf w = token.stop :=
  ⟨w.getLast hw, List.getLast_mem hw, by simp [stopOf, List.getLast?_eq_getLast_of_ne_nil hw]⟩

namespace Apart

theorem stretch (h : Apart w) (hstretch : v <:+: w) : Apart v := h.sublist hstretch.sublist

/-- No token begins in front of the first one. -/
theorem startOf_le (h : Apart w) (ht : token ∈ w) : startOf w ≤ token.start := by
  obtain ⟨first, rest, rfl⟩ := List.exists_cons_of_ne_nil (List.ne_nil_of_mem ht)
  rcases List.mem_cons.1 ht with rfl | ht
  · exact le_refl _
  · exact le_trans first.start_le_stop ((List.pairwise_cons.1 h).1 token ht)

/-- No token stops behind the last one. -/
theorem le_stopOf (h : Apart w) (ht : token ∈ w) : token.stop ≤ stopOf w := by
  obtain ⟨front, last, rfl⟩ : ∃ front last, w = front ++ [last] :=
    ⟨_, _, (List.dropLast_append_getLast (List.ne_nil_of_mem ht)).symm⟩
  rw [stopOf_concat]
  rcases List.mem_append.1 ht with hfront | hlast
  · have hle := (List.pairwise_append.1 h).2.2 token hfront last (List.mem_singleton_self _)
    exact le_trans hle last.start_le_stop
  · rw [List.mem_singleton.1 hlast]

/-- Tokens begin no later than they stop. -/
theorem startOf_le_stopOf (h : Apart w) (hw : w ≠ []) : startOf w ≤ stopOf w := by
  obtain ⟨first, hfirst, hstart⟩ := exists_startOf hw
  rw [hstart]
  exact le_trans first.start_le_stop (h.le_stopOf hfirst)

theorem between (h : Apart w) : Between (startOf w) w (stopOf w) :=
  fun _ ht => ⟨h.startOf_le ht, h.le_stopOf ht⟩

end Apart

namespace Between

variable {p q : Position}

theorem subset (h : Between p w q) (hsub : v ⊆ w) : Between p v q := fun t ht => h t (hsub ht)

/-- **A token parts what is in front of it from what is behind it.** -/
theorem split (h : Between p (v ++ token :: w) q) (hapart : Apart (v ++ token :: w)) :
    Between p v token.start ∧ Between token.stop w q := by
  obtain ⟨-, hbehind, hfront⟩ := List.pairwise_append.1 hapart
  refine ⟨fun t ht => ⟨(h t (by simp [ht])).1, hfront t ht token List.mem_cons_self⟩, fun t ht => ?_⟩
  exact ⟨(List.pairwise_cons.1 hbehind).1 t ht, (h t (by simp [ht])).2⟩

end Between

end

/-! ### Words -/

/-- The kinds of the reserved words. -/
def IsReserved (kind : TokenKind) : Prop := kind ∈ keywordEntries.map Prod.snd

instance : DecidablePred IsReserved := fun kind =>
  inferInstanceAs (Decidable (kind ∈ keywordEntries.map Prod.snd))

/-- A reserved word is read as the longest word. -/
theorem IsLexeme.isLongest_word {cs w : List Char} {kind : TokenKind} (h : IsLexeme cs kind w)
    (hkind : IsReserved kind) : IsLongest IsWord cs w := by
  cases h with
  | word munch _ => exact munch
  | number =>
      split at hkind
      · exact absurd hkind (by decide)
      · exact absurd hkind (by decide)
  | newline => exact absurd hkind (by decide)
  | operator _ _ _ table _ =>
      have hkinds : ∀ entry ∈ operatorEntries, ¬ IsReserved entry.2 := by decide
      exact absurd hkind (hkinds _ table)
  | illegal => exact absurd hkind (by decide)

/-- Without a gap the first of two words would go on with the second one. -/
theorem gap_ne_nil_of_words {first second : Piece} {before before' after : List Char}
    (hfirst : first.Fits before (second.chars ++ after)) (hsecond : second.Fits before' after)
    (hs : IsReserved first.token.kind) (ht : IsReserved second.token.kind) : second.gap ≠ [] := by
  intro hnone
  have hword := hfirst.lexeme.isLongest_word hs
  obtain ⟨c, w, hw, hc, hnames⟩ := hword.fits
  obtain ⟨d, v, hv, hd, -⟩ := (hsecond.lexeme.isLongest_word ht).fits
  have hlonger : IsWord (first.token.text.toList ++ [d]) := by
    refine ⟨c, w ++ [d], by rw [hw, List.cons_append], hc, fun x hx => ?_⟩
    rcases List.mem_append.1 hx with hx | hx
    · exact hnames x hx
    · rw [List.mem_singleton.1 hx, isNameChar, hd, Bool.true_or]
  have hbegins : first.token.text.toList ++ [d] <+:
      first.token.text.toList ++ (second.chars ++ after) := by
    rw [List.prefix_append_right_inj, Piece.chars, hnone, hv]
    exact ⟨v ++ after, by simp⟩
  have hlength := hword.longest _ hlonger hbegins
  rw [List.length_append, List.length_singleton] at hlength
  omega

/-- **Between two words there is a gap.** -/
theorem stop_lt_start_of_words {source : String} {before after : List Token} {s t : Token}
    (htokens : (tokenStream source).tokens = before ++ s :: t :: after) (hs : IsReserved s.kind)
    (ht : IsReserved t.kind) : s.stop < t.start := by
  obtain ⟨pieces, gap, hcovers⟩ := tokenStream_covers source
  rw [hcovers.tokens_eq] at htokens
  obtain ⟨front, behind, rfl, -, hbehind⟩ := List.map_eq_append_iff.1 htokens
  obtain ⟨first, rest, rfl, rfl, hrest⟩ := List.map_eq_cons_iff.1 hbehind
  obtain ⟨second, back, rfl, rfl, -⟩ := List.map_eq_cons_iff.1 hrest
  have hfirst := hcovers.fits front first (second :: back) rfl
  have hsecond := hcovers.fits (front ++ [first]) second back (by simp)
  rw [List.flatMap_cons, List.append_assoc] at hfirst
  have hgap := gap_ne_nil_of_words hfirst hsecond hs ht
  refine lt_of_le_of_lt hfirst.stop_le ?_
  rw [hsecond.placed, List.flatMap_append, List.flatMap_singleton, ← List.append_assoc,
    positionAfter_append (newline_not_mem_of_isGap hsecond.separated)]
  exact Position.lt_right _ (List.length_pos_iff.2 hgap)

end Token

end ProcLang
