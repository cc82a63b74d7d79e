import Mathlib.Data.List.Forall2
import ProcLang.Binary64
import ProcLang.Proofs.Token.Reading

/-!
# ProcLang.Proofs.Token.Words

**Writing tokens down and reading them back.** A `Word` is a token without its place: a kind and a
text that stands for this kind and no other. A layout of words puts a blank behind each of them,
except behind a line break. Reading the layout gives the words back (`tokenStream_layout`).

It is enough that a layout is made of its words (`MadeOf`), and so that each word is a longest token of
its shape. It is, since no token but a line break holds a blank.
-/

namespace ProcLang

namespace Token

/-! ### What can be written for a token -/

/-- A text stands for a token of some kind. The value of an integer is a signed number of 64
bits. -/
inductive IsWritten : TokenKind → String → Prop
  | name {text : String} (word : IsWord text.toList)
      (free : ∀ kind, (text, kind) ∉ keywordEntries) : IsWritten .identifier text
  | reserved {kind : TokenKind} {text : String} (entry : (text, kind) ∈ keywordEntries) :
      IsWritten kind text
  | integer {text : String} (digits : IsDigits text.toList)
      (fits : Binary64.digitsValue text.toList < Nat.pow 2 63) : IsWritten .integerLiteral text
  | real {text : String} (number : IsNumber text.toList) (point : '.' ∈ text.toList) :
      IsWritten .realLiteral text
  | operator {kind : TokenKind} {text : String} (entry : (text, kind) ∈ operatorEntries)
      (noComment : kind ≠ .comment) : IsWritten kind text
  | line : IsWritten .newline "\n"

/-- Every number has a digit. -/
theorem IsNumber.exists_digit {w : List Char} (h : IsNumber w) : ∃ c ∈ w, isDigit c = true := by
  have hfirst : ∀ {v : List Char}, IsDigits v → ∃ c ∈ v, isDigit c = true := by
    intro v hv
    obtain ⟨c, rest, rfl⟩ := List.exists_cons_of_ne_nil hv.1
    exact ⟨c, List.mem_cons_self, hv.2 c List.mem_cons_self⟩
  rcases h with hdigits | ⟨whole, fraction, -, hfraction, rfl⟩
  · exact hfirst hdigits
  · obtain ⟨c, hmem, hc⟩ := hfirst hfraction
    exact ⟨c, List.mem_append_right _ (List.mem_cons_of_mem _ hmem), hc⟩

/-- A digit begins no name. -/
theorem isNameStart_of_isDigit {c : Char} (h : isDigit c = true) : isNameStart c = false := by
  simp only [isDigit, Bool.and_eq_true, decide_eq_true_eq, Char.le_def, UInt32.le_iff_toNat_le] at h
  have hlow : ('9' : Char).val.toNat = 57 := rfl
  have hupper : ('A' : Char).val.toNat = 65 := rfl
  have hlower : ('a' : Char).val.toNat = 97 := rfl
  have hne : c ≠ '_' := by
    rintro rfl
    exact absurd h.2 (by decide)
  simp only [isNameStart, Bool.or_eq_false_iff, Bool.and_eq_false_iff, decide_eq_false_iff_not,
    Char.le_def, UInt32.le_iff_toNat_le, beq_eq_false_iff_ne]
  refine ⟨⟨?_, ?_⟩, hne⟩
  · omega
  · omega

/-- A text that is not empty, holds no blank and does not begin like a comment. -/
structure Unbroken (w : List Char) : Prop where
  nonempty : w ≠ []
  noBlank : ' ' ∉ w ∧ '\t' ∉ w ∧ '\r' ∉ w
  noComment : ¬ ['/', '/'] <+: w

instance (w : List Char) : Decidable (Unbroken w) :=
  decidable_of_iff (w ≠ [] ∧ (' ' ∉ w ∧ '\t' ∉ w ∧ '\r' ∉ w) ∧ ¬ ['/', '/'] <+: w)
    ⟨fun ⟨hne, hblank, hmark⟩ => ⟨hne, hblank, hmark⟩,
      fun h => ⟨h.nonempty, h.noBlank, h.noComment⟩⟩

theorem IsWord.unbroken {w : List Char} (h : IsWord w) : Unbroken w where
  nonempty := by
    obtain ⟨c, rest, rfl, -, -⟩ := h
    nofun
  noBlank := ⟨h.free_of_isNameChar rfl, h.free_of_isNameChar rfl, h.free_of_isNameChar rfl⟩
  noComment hbegins :=
    h.free_of_isNameChar rfl (hbegins.subset (List.mem_cons_self : '/' ∈ ['/', '/']))

theorem IsNumber.unbroken {w : List Char} (h : IsNumber w) : Unbroken w where
  nonempty := by
    obtain ⟨c, hmem, -⟩ := h.exists_digit
    exact List.ne_nil_of_mem hmem
  noBlank := ⟨h.not_mem rfl (by decide), h.not_mem rfl (by decide), h.not_mem rfl (by decide)⟩
  noComment hbegins :=
    h.not_mem rfl (by decide) (hbegins.subset (List.mem_cons_self : '/' ∈ ['/', '/']))

theorem IsWritten.unbroken {kind : TokenKind} {text : String} (h : IsWritten kind text) :
    Unbroken text.toList := by
  cases h with
  | name word _ => exact word.unbroken
  | reserved entry =>
      have htable : ∀ entry ∈ keywordEntries, Unbroken entry.1.toList := by decide
      exact htable _ entry
  | integer digits _ => exact IsNumber.unbroken (Or.inl digits)
  | real number _ => exact number.unbroken
  | operator entry noComment =>
      have htable : ∀ entry ∈ operatorEntries, entry.2 ≠ .comment → Unbroken entry.1.toList := by
        decide
      exact htable _ entry noComment
  | line => decide

/-! ### Tokens in front of a blank -/

section

variable {shape : List Char → Prop} {v w rest : List Char}

theorem isLongest_of_blank (hblank : ∀ v, shape v → ' ' ∉ v) (h : shape w) :
    IsLongest shape (w ++ ' ' :: rest) w where
  fits := h
  begins := List.prefix_append _ _
  longest other hother hbegins := (prefix_of_not_mem hbegins (hblank other hother)).length_le

theorem beginsWithNo_of_blank (hblank : ∀ v, shape v → ' ' ∉ v) (h : ∀ v, shape v → ¬ v <+: w) :
    BeginsWithNo shape (w ++ ' ' :: rest) :=
  fun v hv hbegins => h v hv (prefix_of_not_mem hbegins (hblank v hv))

end

theorem IsWord.no_blank {w : List Char} (h : IsWord w) : ' ' ∉ w :=
  IsShape.not_mem (Or.inl h) (Or.inl rfl)

theorem IsNumber.no_blank {w : List Char} (h : IsNumber w) : ' ' ∉ w :=
  IsShape.not_mem (Or.inr (Or.inl h)) (Or.inl rfl)

theorem IsOperator.no_blank {w : List Char} (h : IsOperator w) : ' ' ∉ w :=
  IsShape.not_mem (Or.inr (Or.inr h)) (Or.inl rfl)

/-- **In front of a blank** a text is the token that it stands for. -/
theorem IsWritten.isLexeme {kind : TokenKind} {text : String} (h : IsWritten kind text)
    (hkind : kind ≠ .newline) (rest : List Char) :
    IsLexeme (text.toList ++ ' ' :: rest) kind text.toList := by
  have noWord : ∀ {w : List Char}, (∀ c ∈ w, isNameStart c = false) →
      BeginsWithNo IsWord (w ++ ' ' :: rest) := by
    intro w hw
    refine beginsWithNo_of_blank (fun v hv => hv.no_blank) fun v hv hbegins => ?_
    obtain ⟨c, more, rfl, hc, -⟩ := hv
    rw [hw c (hbegins.subset List.mem_cons_self)] at hc
    nomatch hc
  have hnumber : ∀ {w : List Char}, IsNumber w → IsLexeme (w ++ ' ' :: rest)
      (if '.' ∈ w then .realLiteral else .integerLiteral) w := by
    intro w hw
    refine .number (noWord fun c hc => ?_) (isLongest_of_blank (fun v hv => hv.no_blank) hw)
    rcases hw.digit_or_point c hc with hdigit | rfl
    · exact isNameStart_of_isDigit hdigit
    · decide
  cases h with
  | name word free =>
      exact .word (isLongest_of_blank (fun v hv => hv.no_blank) word)
        (.identifier (by simpa using free))
  | reserved entry =>
      have htable : ∀ entry ∈ keywordEntries, ∃ c rest, entry.1.toList = c :: rest ∧
          isNameStart c = true ∧ ∀ d ∈ rest, isNameChar d = true := by
        simp only [keywordEntries, List.forall_mem_cons]
        simp [isNameStart, isNameChar]
      exact .word (isLongest_of_blank (fun v hv => hv.no_blank) (htable _ entry))
        (.reserved (by simpa using entry))
  | integer digits _ =>
      have hpoint : '.' ∉ text.toList := fun hmem => absurd (digits.2 _ hmem) (by decide)
      have hlexeme := hnumber (Or.inl digits)
      rwa [if_neg hpoint] at hlexeme
  | real number point =>
      have hlexeme := hnumber number
      rwa [if_pos point] at hlexeme
  | operator entry noComment =>
      have htable : ∀ entry ∈ operatorEntries,
          (entry.1.toList.all fun c => !isNameStart c && !isDigit c) = true := by decide
      have hneither : ∀ c ∈ text.toList, isNameStart c = false ∧ isDigit c = false := by
        simpa using htable _ entry
      have hentry : (String.ofList text.toList, kind) ∈ operatorEntries := by simpa using entry
      refine .operator (noWord fun c hc => (hneither c hc).1) ?_
        (isLongest_of_blank (fun v hv => hv.no_blank) ⟨kind, hentry⟩) hentry noComment
      refine beginsWithNo_of_blank (fun v hv => hv.no_blank) fun v hv hbegins => ?_
      obtain ⟨c, hmem, hc⟩ := hv.exists_digit
      rw [(hneither c (hbegins.subset hmem)).2] at hc
      nomatch hc
  | line => exact absurd rfl hkind

end Token

/-! ### Words -/

/-- A token without its place. -/
structure Word where
  kind : TokenKind
  text : String
  written : Token.IsWritten kind text

/-- A token is a word at some place. -/
def Token.Is (token : Token) (word : Word) : Prop :=
  token.kind = word.kind ∧ token.text = word.text

/-- The characters of a word and what separates it from the next one. -/
def Word.chars (word : Word) : List Char :=
  word.text.toList ++ if word.kind = .newline then [] else [' ']

/-- Words one after the other. -/
def layout (words : List Word) : List Char := words.flatMap Word.chars

/-- What matches a list in two parts has two parts. -/
theorem exists_append_of_forall₂ {α β : Type} {R : α → β → Prop} {xs : List α} {v w : List β}
    (h : List.Forall₂ R xs (v ++ w)) :
    ∃ ys zs, xs = ys ++ zs ∧ List.Forall₂ R ys v ∧ List.Forall₂ R zs w :=
  ⟨_, _, (List.take_append_drop v.length xs).symm, List.forall₂_take_append _ _ _ h,
    List.forall₂_drop_append _ _ _ h⟩

/-- What matches a list of one thing is a list of one thing. -/
theorem exists_singleton_of_forall₂ {α β : Type} {R : α → β → Prop} {xs : List α} {y : β}
    (h : List.Forall₂ R xs [y]) : ∃ x, xs = [x] ∧ R x y := by
  obtain ⟨x, _, hx, hnil, rfl⟩ := List.forall₂_cons_right_iff.1 h
  obtain rfl := List.forall₂_nil_right_iff.1 hnil
  exact ⟨x, rfl, hx⟩

namespace Token

/-- A text with words in front is the first of them and the rest. -/
theorem layout_cons_cases (word : Word) (words : List Word) :
    ∃ rest, layout (word :: words) = word.text.toList ++ rest ∧
      (rest = layout words ∨ rest = ' ' :: layout words) ∧
      StartsToken (word.text.toList ++ rest) ∧
      IsLexeme (word.text.toList ++ rest) word.kind word.text.toList := by
  obtain ⟨hne, ⟨hblank, htab, hreturn⟩, hmark⟩ := word.written.unbroken
  obtain ⟨c, more, hcons⟩ := List.exists_cons_of_ne_nil hne
  have hhead : ∀ {rest : List Char} d, (word.text.toList ++ rest).head? = some d →
      d ≠ ' ' ∧ d ≠ '\t' ∧ d ≠ '\r' := by
    intro rest d hd
    have hmem : d ∈ word.text.toList := by
      rw [hcons] at hd ⊢
      obtain rfl := Option.some.inj hd
      exact List.mem_cons_self
    exact ⟨ne_of_mem_of_not_mem hmem hblank, ne_of_mem_of_not_mem hmem htab,
      ne_of_mem_of_not_mem hmem hreturn⟩
  by_cases hline : word.kind = .newline
  · have htext : word.text = "\n" := by
      obtain ⟨kind, text, hwritten⟩ := word
      cases hwritten with
      | name | integer | real => cases hline
      | reserved entry =>
          have hnone : ∀ entry ∈ keywordEntries, entry.2 ≠ .newline := by decide
          exact absurd hline (hnone _ entry)
      | operator entry =>
          have hnone : ∀ entry ∈ operatorEntries, entry.2 ≠ .newline := by decide
          exact absurd hline (hnone _ entry)
      | line => rfl
    have hlayout : layout (word :: words) = word.text.toList ++ layout words := by
      simp [layout, Word.chars, hline]
    refine ⟨layout words, hlayout, Or.inl rfl, ⟨hhead, ?_⟩, ?_⟩
    · rw [htext]
      exact fun hbegins => absurd (List.cons_prefix_cons.1 hbegins).1 (by decide)
    · rw [htext, hline]
      exact .newline rfl
  · have hlayout : layout (word :: words) = word.text.toList ++ ' ' :: layout words := by
      simp [layout, Word.chars, hline]
    exact ⟨' ' :: layout words, hlayout, Or.inr rfl,
      ⟨hhead, fun hbegins => hmark (prefix_of_not_mem hbegins (by decide))⟩,
      word.written.isLexeme hline _⟩

/-- A layout is made of its words, also behind a blank. -/
theorem madeOf_layout (words : List Word) : ∀ cs : List Char,
    (cs = layout words ∨ cs = ' ' :: layout words) →
      MadeOf cs (words.map fun word => (word.kind, word.text)) := by
  induction words with
  | nil =>
      intro cs hcs
      exact .nil (isGap_of_blank hcs)
  | cons word words ih =>
      intro cs hcs
      obtain ⟨rest, hlayout, hrest, hstarts, hlexeme⟩ := layout_cons_cases word words
      obtain ⟨gap, hsplit, hblank⟩ : ∃ gap, cs = gap ++ (word.text.toList ++ rest) ∧
          (gap = [] ∨ gap = [' ']) := by
        rw [hlayout] at hcs
        rcases hcs with rfl | rfl
        · exact ⟨[], rfl, Or.inl rfl⟩
        · exact ⟨[' '], rfl, Or.inr rfl⟩
      rw [hsplit]
      exact .cons (isGap_of_blank hblank) hstarts hlexeme (ih rest hrest)

/-- **Words are read back from their layout.** -/
theorem tokenStream_layout (words : List Word) :
    List.Forall₂ Token.Is (tokenStream (String.ofList (layout words))).tokens words := by
  have hread := map_word_tokenStream (madeOf_layout words _ (Or.inl rfl))
  rw [← List.forall₂_eq_eq_eq, List.forall₂_map_left_iff, List.forall₂_map_right_iff] at hread
  exact hread.imp fun token word hsame => Prod.mk.inj hsame

end Token

end ProcLang
