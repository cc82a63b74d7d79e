import ProcLang.Proofs.Columns.Parser
import ProcLang.Proofs.Token.Respelled

/-!
# ProcLang.Proofs.SpelledOut.Tokens

**Empty parentheses behind names.** `Token.spellOut chosen source` is a source text with `()` behind each
identifier that begins at a chosen place. Its tokens are those of the source text, with two parentheses
behind each chosen identifier, and they stand on the same lines (`tokenStream_spelled`).

No token but a parenthesis holds one. So the parentheses end whatever stands in front of them, and the rest
of a text may be opened in this way without any effect on the token in front of it
(`confined_of_opened`).
-/

namespace ProcLang

namespace Token

/-! ### Inserting parentheses -/

section

variable (chosen : Position → Bool)

/-- An identifier that begins at a chosen place. -/
def isChosen (token : Token) : Bool := token.kind = .identifier && chosen token.start

/-- The text with `()` behind each identifier that begins at a chosen place. -/
def spellOut (source : String) : String :=
  respell (fun token => if token.isChosen chosen then token.text ++ "()" else token.text) source

/-- The words that stand for a token. -/
def spelledWords (token : Token) : List (TokenKind × String) :=
  if token.isChosen chosen then [token.word, (.openParen, "("), (.closeParen, ")")] else [token.word]

/-- The tokens of a text, and those of the text with parentheses behind the chosen names. -/
inductive Spelled : List Token → List Token → Prop
  | nil : Spelled [] []
  | kept {token token' : Token} {tokens tokens' : List Token} (hkept : token.isChosen chosen = false)
      (same : token.Same Blur.lines token') (rest : Spelled tokens tokens') :
      Spelled (token :: tokens) (token' :: tokens')
  | spelled {token token' opening closing : Token} {tokens tokens' : List Token}
      (hchosen : token.isChosen chosen = true) (same : token.Same Blur.lines token')
      (hopening : opening.kind = .openParen) (hclosing : closing.kind = .closeParen)
      (hline : closing.stop.line = token.stop.line) (rest : Spelled tokens tokens') :
      Spelled (token :: tokens) (token' :: opening :: closing :: tokens')

end

/-! ### Parentheses in a text -/

/-- A text in which parentheses have been inserted. -/
inductive Opened : List Char → List Char → Prop
  | refl (cs : List Char) : Opened cs cs
  | cons (c : Char) {cs cs' : List Char} (h : Opened cs cs') : Opened (c :: cs) (c :: cs')
  | opened {cs cs' : List Char} (h : Opened cs cs') : Opened cs ('(' :: ')' :: cs')

theorem Opened.append (w : List Char) {cs cs' : List Char} (h : Opened cs cs') :
    Opened (w ++ cs) (w ++ cs') := by
  induction w with
  | nil => exact h
  | cons c w ih => exact .cons c ih

/-- What holds no parenthesis and begins the new text begins the old one. -/
theorem prefix_of_opened {cs cs' v : List Char} (h : Opened cs cs') (hv : '(' ∉ v) (hbegins : v <+: cs') :
    v <+: cs := by
  induction h generalizing v with
  | refl => exact hbegins
  | cons c h ih =>
      cases v with
      | nil => exact List.nil_prefix
      | cons d v =>
          obtain ⟨rfl, hrest⟩ := List.cons_prefix_cons.1 hbegins
          exact List.cons_prefix_cons.2 ⟨rfl, ih (List.not_mem_of_not_mem_cons hv) hrest⟩
  | opened h ih =>
      cases v with
      | nil => exact List.nil_prefix
      | cons d v =>
          obtain rfl := (List.cons_prefix_cons.1 hbegins).1
          exact absurd List.mem_cons_self hv

/-- A parenthesis stands alone. -/
theorem IsShape.eq_of_paren {v : List Char} (h : IsShape v) {c : Char} (hc : c = '(' ∨ c = ')')
    (hmem : c ∈ v) : v = [c] := by
  have hclass : isNameChar c = false ∧ isDigit c = false ∧ c ≠ '.' := by
    rcases hc with rfl | rfl
    · decide
    · decide
  obtain ⟨hname, hdigit, hpoint⟩ := hclass
  rcases h with hword | hnumber | ⟨kind, hentry⟩
  · exact absurd hmem (hword.free_of_isNameChar hname)
  · exact absurd hmem (hnumber.not_mem hdigit hpoint)
  · have htable : ∀ entry ∈ operatorEntries, ('(' ∈ entry.1.toList → entry.1.toList = ['(']) ∧
        (')' ∈ entry.1.toList → entry.1.toList = [')']) := by decide
    obtain ⟨hopening, hclosing⟩ := htable _ hentry
    rw [String.toList_ofList] at hopening hclosing
    rcases hc with rfl | rfl
    · exact hopening hmem
    · exact hclosing hmem

/-- Parentheses in the rest of a text confine every token. -/
theorem confined_of_opened {w after after' : List Char} (hw : w ≠ []) (h : Opened after after') :
    Confined w after after' := by
  intro v hv hbegins
  by_cases hmem : '(' ∈ v
  · obtain rfl := hv.eq_of_paren (Or.inl rfl) hmem
    obtain ⟨c, more, rfl⟩ := List.exists_cons_of_ne_nil hw
    obtain rfl := (List.cons_prefix_cons.1 hbegins).1
    exact List.cons_prefix_cons.2 ⟨rfl, List.nil_prefix⟩
  · exact prefix_of_opened (h.append w) hmem hbegins

/-- **A parenthesis is a token**, whatever stands behind it. -/
theorem madeOf_paren {c : Char} {kind : TokenKind} {text : String} {after : List Char}
    {words : List (TokenKind × String)} (hc : c = '(' ∨ c = ')') (htext : text = String.ofList [c])
    (hentry : (text, kind) ∈ operatorEntries) (hmade : MadeOf after words) :
    MadeOf (c :: after) ((kind, text) :: words) := by
  have hlist : text.toList = [c] := by rw [htext, String.toList_ofList]
  have honly : ∀ v, IsShape v → v <+: c :: after → v = [c] := by
    intro v hv hbegins
    obtain ⟨d, more, rfl⟩ := List.exists_cons_of_ne_nil hv.ne_nil
    obtain rfl := (List.cons_prefix_cons.1 hbegins).1
    exact hv.eq_of_paren hc List.mem_cons_self
  have hclass : isNameStart c = false ∧ isDigit c = false ∧ c ≠ '.' ∧ c ≠ '/' ∧ c ≠ ' ' ∧ c ≠ '\t' ∧
      c ≠ '\r' := by
    rcases hc with rfl | rfl
    · decide
    · decide
  obtain ⟨hname, hdigit, hpoint, hslash, hblank, htab, hreturn⟩ := hclass
  have hoperator : IsOperator [c] := ⟨kind, htext ▸ hentry⟩
  have hlexeme : IsLexeme (c :: after) kind [c] := by
    refine .operator (fun v hv hbegins => ?_) (fun v hv hbegins => ?_)
      ⟨hoperator, List.cons_prefix_cons.2 ⟨rfl, List.nil_prefix⟩, fun v hv hbegins => ?_⟩ (htext ▸ hentry) ?_
    · obtain rfl := honly v (Or.inl hv) hbegins
      obtain ⟨d, rest, heq, hd, -⟩ := hv
      rw [(List.cons.inj heq).1, hd] at hname
      nomatch hname
    · obtain rfl := honly v (Or.inr (Or.inl hv)) hbegins
      exact hv.not_mem hdigit hpoint List.mem_cons_self
    · rw [honly v (Or.inr (Or.inr hv)) hbegins]
    · rintro rfl
      have hcomment : ∀ entry ∈ operatorEntries, entry.2 = .comment → '/' ∈ entry.1.toList := by decide
      have hmem := hcomment _ hentry rfl
      dsimp only at hmem
      rw [hlist] at hmem
      exact hslash (List.mem_singleton.1 hmem).symm
  have hcons : c :: after = [] ++ (text.toList ++ after) := by rw [hlist]; rfl
  rw [hcons]
  refine .cons .nil ⟨fun d hd => ?_, fun hcomment => ?_⟩ ?_ hmade
  · rw [hlist] at hd
    obtain rfl := Option.some.inj hd
    exact ⟨hblank, htab, hreturn⟩
  · rw [hlist] at hcomment
    exact hslash (List.cons_prefix_cons.1 hcomment).1.symm
  · rw [hlist]
    exact hlexeme

/-! ### Respelled texts -/

section

variable (chosen : Position → Bool)

/-- **One piece** of a respelled text, in front of a text that is respelled as well. -/
theorem Piece.Fits.spelled {piece : Piece} {before after after' : List Char}
    {words : List (TokenKind × String)} (hfits : piece.Fits before after) (hopened : Opened after after')
    (hmade : MadeOf after' words) :
    Opened (piece.chars ++ after) (piece.gap ++
        ((if piece.token.isChosen chosen then piece.token.text ++ "()" else piece.token.text).toList ++
          after')) ∧
      MadeOf (piece.gap ++
        ((if piece.token.isChosen chosen then piece.token.text ++ "()" else piece.token.text).toList ++
          after')) (piece.token.spelledWords chosen ++ words) := by
  have hne := hfits.lexeme.ne_nil
  -- a token that stands in front of an opened text
  have hword : ∀ {rest rest' : List Char} {words : List (TokenKind × String)},
      piece.Fits before rest → Opened rest rest' → MadeOf rest' words →
      MadeOf (piece.gap ++ (piece.token.text.toList ++ rest')) (piece.token.word :: words) := by
    intro rest rest' words hfits hopened hmade
    have hconfined := confined_of_opened hne hopened
    refine .cons (hfits.separated.before ?_) (hfits.starts.before hne hconfined)
      (hfits.lexeme.before hconfined) hmade
    obtain ⟨c, more, hcons⟩ := List.exists_cons_of_ne_nil hne
    rw [hcons]
    intro hends
    exact Or.inr (hends.resolve_left (List.cons_ne_nil c _))
  rw [Piece.chars, List.append_assoc, spelledWords]
  split
  · have htext : (piece.token.text ++ "()").toList ++ after' =
        piece.token.text.toList ++ '(' :: ')' :: after' := by
      rw [String.toList_append, List.append_assoc]
      rfl
    rw [htext]
    refine ⟨(Opened.append _ (.append _ (.opened hopened))), hword hfits (.opened hopened) ?_⟩
    exact madeOf_paren (Or.inl rfl) rfl (by decide) (madeOf_paren (Or.inr rfl) rfl (by decide) hmade)
  · exact ⟨Opened.append _ (.append _ hopened), hword hfits hopened hmade⟩

/-- **Respelled texts** are made of the words that stand for the tokens. -/
theorem madeOf_spelled (fuel : Nat) (before cs : List Char) (h : cs.length < fuel) :
    Opened cs (respellFrom (fun token => if token.isChosen chosen then token.text ++ "()" else token.text)
        fuel cs (positionAfter before)) ∧
      MadeOf (respellFrom (fun token => if token.isChosen chosen then token.text ++ "()" else token.text)
        fuel cs (positionAfter before))
        ((streamFrom fuel cs (positionAfter before)).tokens.flatMap (spelledWords chosen)) := by
  induction fuel generalizing before cs with
  | zero => exact absurd h (Nat.not_lt_zero _)
  | succ fuel ih =>
      rw [respellFrom, streamFrom]
      rcases readToken_cases before cs with ⟨hgap, hkind, -, -⟩ |
        ⟨piece, htoken, hchars, hne, hfits, hnext⟩
      · simp only [hkind, if_true]
        exact ⟨.refl cs, .nil hgap⟩
      · have hkind : (readToken cs (positionAfter before)).token.kind ≠ .endOfFile := by
          rw [htoken]
          exact hfits.notEnding
        have hshorter : (readToken cs (positionAfter before)).rest.length < fuel := by
          have hlength := congrArg List.length hchars
          have hpos := List.length_pos_iff.2 hne
          simp only [Piece.chars, List.length_append] at hlength
          omega
        have hgap : gapOf cs = piece.gap := by
          have hsplit := readToken_split cs _ hkind
          rw [htoken] at hsplit
          exact List.append_cancel_right (List.append_cancel_right (hsplit.symm.trans hchars))
        obtain ⟨hopened, hmade⟩ := ih (before ++ piece.chars) _ hshorter
        rw [← hnext] at hopened hmade
        have hstep := hfits.spelled chosen hopened hmade
        rw [← hchars] at hstep
        simp only [if_neg hkind, List.flatMap_cons]
        rw [hgap, htoken, List.append_assoc]
        exact hstep

theorem map_word_spellOut (source : String) :
    (tokenStream (spellOut chosen source)).tokens.map word =
      (tokenStream source).tokens.flatMap (spelledWords chosen) :=
  map_word_tokenStream (madeOf_spelled chosen _ [] _ (Nat.lt_succ_self _)).2

/-! ### Lines -/

variable {chosen}

theorem same_of_word {token token' : Token} (hword : token'.word = token.word)
    (hline : token'.start.line = token.start.line) : token.Same Blur.lines token' := by
  obtain ⟨hkind, htext⟩ := Prod.mk.inj hword
  have hplace : ∀ {p q : Position}, p.line = q.line → p.mapColumn noColumn = q.mapColumn noColumn :=
    fun hline => congrArg (Position.mk · 0) hline
  refine ⟨hkind.symm, htext.symm, hplace hline.symm, hplace ?_⟩
  rw [stop_line, stop_line, hline]

/-- **Parentheses stay on their lines**, so the kinds of the tokens tell the lines of both texts alike. -/
theorem spelled_of_words {tokens tokens' : List Token} {ending ending' : Token} {line : Nat}
    (hwords : tokens'.map word = tokens.flatMap (spelledWords chosen)) (hending : ending'.word = ending.word)
    (hlines : (tokens ++ [ending]).map (·.start.line) = linesFrom line ((tokens ++ [ending]).map (·.kind)))
    (hlines' : (tokens' ++ [ending']).map (·.start.line) =
      linesFrom line ((tokens' ++ [ending']).map (·.kind))) :
    Spelled chosen tokens tokens' ∧ ending.Same Blur.lines ending' := by
  induction tokens generalizing tokens' line with
  | nil =>
      obtain rfl := List.map_eq_nil_iff.1 hwords
      obtain ⟨hline, -⟩ := List.cons.inj hlines
      obtain ⟨hline', -⟩ := List.cons.inj hlines'
      exact ⟨.nil, same_of_word hending (hline'.trans hline.symm)⟩
  | cons token tokens ih =>
      simp only [List.cons_append, List.map_cons, linesFrom, List.cons.injEq] at hlines
      obtain ⟨hline, hrest⟩ := hlines
      rw [List.flatMap_cons, spelledWords] at hwords
      split at hwords
      · rename_i hchosen
        obtain ⟨token', more, rfl, hword, hwords⟩ := List.map_eq_cons_iff.1 hwords
        obtain ⟨opening, more, rfl, hopening, hwords⟩ := List.map_eq_cons_iff.1 hwords
        obtain ⟨closing, more, rfl, hclosing, hwords⟩ := List.map_eq_cons_iff.1 hwords
        obtain ⟨hkind, -⟩ := Prod.mk.inj hword
        obtain ⟨hopening, -⟩ := Prod.mk.inj hopening
        obtain ⟨hclosing, -⟩ := Prod.mk.inj hclosing
        have hname : token.kind = .identifier :=
          of_decide_eq_true (Bool.and_eq_true_iff.1 hchosen).1
        -- neither the name nor the parentheses lead to another line
        have hsameLine : ∀ kind, kind ≠ .newline → lineBehind line kind = line := fun _ hkind => if_neg hkind
        simp only [List.cons_append, List.map_cons, linesFrom, List.cons.injEq, hkind, hopening, hclosing,
          hname, hsameLine _ (show TokenKind.identifier ≠ .newline by decide),
          hsameLine _ (show TokenKind.openParen ≠ .newline by decide),
          hsameLine _ (show TokenKind.closeParen ≠ .newline by decide)] at hlines' hrest
        obtain ⟨hline', -, hline'', hrest'⟩ := hlines'
        obtain ⟨hspelled, hsame⟩ := ih hwords hrest hrest'
        refine ⟨.spelled hchosen (same_of_word hword (hline'.trans hline.symm)) hopening hclosing ?_ hspelled,
          hsame⟩
        rw [stop_line, stop_line, hline'', hline]
      · rename_i hkept
        obtain ⟨token', more, rfl, hword, hwords⟩ := List.map_eq_cons_iff.1 hwords
        have hkind : token'.kind = token.kind := congrArg Prod.fst hword
        simp only [List.cons_append, List.map_cons, linesFrom, List.cons.injEq, hkind] at hlines'
        obtain ⟨hline', hrest'⟩ := hlines'
        obtain ⟨hspelled, hsame⟩ := ih hwords hrest hrest'
        exact ⟨.kept (Bool.eq_false_iff.2 hkept) (same_of_word hword (hline'.trans hline.symm)) hspelled,
          hsame⟩

/-- **The tokens of the new text** are those of the source text, with parentheses behind the chosen names. -/
theorem tokenStream_spelled (chosen : Position → Bool) (source : String) :
    Spelled chosen (tokenStream source).tokens (tokenStream (spellOut chosen source)).tokens ∧
      (tokenStream source).ending.Same Blur.lines (tokenStream (spellOut chosen source)).ending :=
  spelled_of_words (map_word_spellOut chosen source) ((word_ending _).trans (word_ending source).symm)
    (lines_tokenize source) (lines_tokenize (spellOut chosen source))

end

end Token

end ProcLang
