import Mathlib.Data.List.GetD
import Mathlib.Logic.Function.Iterate
import ProcLang.Proofs.Token.Reading
import ProcLang.Token.Lexer

/-!
# ProcLang.Proofs.Token.Lookahead

**The lexer reads one stream.** A `Lexer` can be asked for the next token in two ways, with a buffer and
past it, and for the place it has come to. A `Reader` is the simplest machine with the same interface:
it counts how many tokens of the text have been read, where the last token of the text repeats without
end, and has a buffer for one token. `run_lexer` says that no sequence of calls tells the two apart, and
that every token that was read has been handed out once or is waiting in the buffer.

What a lexer still has to read depends only on how often it has read (`skip`), not on who asked. So
the lexer after `n` readings is related to the first `n` tokens of the text, and then each call to one
step of the machine (`Represents`).
-/

namespace ProcLang

namespace Token

/-- The token without the mark of the comment in front of it, which only the journal reads. -/
def unmarked (token : Token) : Token := { token with comment := none }

/-- The place just past a token, where reading goes on. -/
def past (token : Token) : Position :=
  if token.kind = .newline then token.start.below else token.stop

/-- The tokens of a source text, where the end of the text comes again and again. -/
def nth (source : String) (n : Nat) : Token :=
  ((tokenize source).getD n (tokenStream source).ending).unmarked

end Token

namespace Lexer

open Token

/-! ### Calls and answers -/

/-- What a lexer can be asked for. -/
inductive Call where
  | peek | next | scan | position | atEnd
  deriving DecidableEq, Repr

/-- What it answers. -/
inductive Answer where
  | token (token : Token)
  | failure (diagnostic : Diagnostic)
  | place (place : Position)
  | flag (flag : Bool)
  deriving DecidableEq, Repr

/-- The answer of a lexer to a call, and the lexer after it. -/
def answer (lexer : Lexer) : Call → Answer × Lexer
  | .peek =>
      let (token, after) := lexer.peek
      (.token token.unmarked, after)
  | .next =>
      let (token, after) := lexer.next
      (.token token.unmarked, after)
  | .scan =>
      match lexer.scan with
      | (.ok token, after) => (.token token.unmarked, after)
      | (.error diagnostic, after) => (.failure diagnostic, after)
  | .position => (.place lexer.position, lexer)
  | .atEnd => (.flag lexer.atEnd, lexer)

/-- The answers to a sequence of calls, and what is left of a machine after them. -/
def run {σ : Type} (step : σ → Call → Answer × σ) (state : σ) : List Call → List Answer × σ
  | [] => ([], state)
  | call :: calls =>
      let (first, after) := step state call
      let (others, last) := run step after calls
      (first :: others, last)

/-- A token that waits to be handed out. The end of the text never does. -/
def waiting : Option Token → List Token
  | some token => if token.kind = .endOfFile then [] else [token]
  | none => []

/-- The token that a call hands out: `next` and `scan` take the token that they answer, unless it is
the end of the text. -/
def handedOut : Call → Answer → List Token
  | .next, .token token | .scan, .token token => waiting (some token)
  | _, _ => []

/-- The machine that counts the tokens it has read, with a buffer for one token. -/
structure Reader where
  index : Nat
  buffer : Option Token

namespace Reader

/-- The machine before the first token. -/
def start : Reader := ⟨0, none⟩

/-- The end of the text has been read. -/
def Ended (source : String) (reader : Reader) : Prop :=
  ∃ j < reader.index, (nth source j).kind = .endOfFile

instance (source : String) (reader : Reader) : Decidable (reader.Ended source) :=
  inferInstanceAs (Decidable (∃ j < reader.index, (nth source j).kind = .endOfFile))

/-- The place just past the last token that was read. -/
def place (source : String) (reader : Reader) : Position :=
  match reader.index with
  | 0 => Position.origin
  | last + 1 => (nth source last).past

/-- The next token, which stays in the buffer. -/
def peek (source : String) (reader : Reader) : Token × Reader :=
  match reader.buffer with
  | some token => (token, reader)
  | none => (nth source reader.index, ⟨reader.index + 1, some (nth source reader.index)⟩)

/-- The answer of the machine to a call, and the machine after it. Reading past the buffer fails once
the end of the text has been read. No character is left unread when the place is that behind the
last character of the text. -/
def answer (source : String) (reader : Reader) : Call → Answer × Reader
  | .peek =>
      let (token, after) := reader.peek source
      (.token token, after)
  | .next =>
      let (token, after) := reader.peek source
      (.token token, if token.kind = .endOfFile then after else { after with buffer := none })
  | .scan =>
      if reader.Ended source then
        (.failure ⟨.alreadyAtEnd, (tokenStream source).ending.start⟩, reader)
      else
        (.token (nth source reader.index), { reader with index := reader.index + 1 })
  | .position => (.place (reader.place source), reader)
  | .atEnd => (.flag (decide (reader.place source = positionAfter source.toList)), reader)

end Reader

/-! ### Reading on -/

end Lexer

namespace Token

@[simp] theorem unmarked_kind (token : Token) : token.unmarked.kind = token.kind := rfl

@[simp] theorem unmarked_past (token : Token) : token.unmarked.past = token.past := rfl

/-- The place just past a token is where the reading that found it ends. -/
theorem past_eq_placeAfter {token : Token} (h : token.kind ≠ .endOfFile) :
    token.past = placeAfter token.start token.kind token.text.toList.length := by
  rw [String.length_toList]
  cases hkind : token.kind with
  | endOfFile => exact absurd hkind h
  | _ => simp only [past, stop, placeAfter, hkind, if_true, reduceCtorEq, if_false]

/-- The end of the text behind its characters. -/
def endingAfter (before : List Char) : Token := ⟨.endOfFile, "", positionAfter before, none⟩

/-- Where no text is left, the end of the text is read. -/
theorem readToken_nil_kind (place : Position) : (readToken [] place).token.kind = .endOfFile := rfl

/-- The tokens of a text come one after the other, -/
theorem nth_of_lt {source : String} {n : Nat} (h : n < (tokenStream source).tokens.length) :
    nth source n = ((tokenStream source).tokens[n]).unmarked := by
  rw [nth, tokenize, List.getD_append _ _ _ _ h, List.getD_eq_getElem _ _ h]

/-- and behind them the end of the text. -/
theorem nth_of_ge {source : String} {n : Nat} (h : (tokenStream source).tokens.length ≤ n) :
    nth source n = (tokenStream source).ending.unmarked := by
  rw [nth, tokenize, List.getD_append_right _ _ _ _ h]
  cases n - (tokenStream source).tokens.length with
  | zero => rfl
  | succ _ => rfl

end Token

namespace Lexer

open Token

/-- A lexer that has read one more token. -/
def skip (lexer : Lexer) : Lexer := lexer.read.2

/-- A lexer has come to the text behind `before`. -/
structure IsBehind (lexer : Lexer) (before cs : List Char) : Prop where
  rest_eq : lexer.rest = cs
  place_eq : lexer.place = positionAfter before

/-- A lexer in front of two parts of a text reads the first of them. -/
structure Advances (lexer : Lexer) (before part after : List Char) : Prop where
  behind : lexer.skip.IsBehind (before ++ part) after
  past_eq : lexer.read.1.past = positionAfter (before ++ part)
  ends : lexer.read.1.kind = .endOfFile →
    after = [] ∧ lexer.read.1.unmarked = endingAfter (before ++ part)
  goesOn : lexer.read.1.kind ≠ .endOfFile → part ≠ []

/-- **One reading** goes on just past the token. The end of the text is read when the rest of it is a
gap, and nothing is left then. -/
theorem IsBehind.advances {lexer : Lexer} {before cs : List Char} (h : lexer.IsBehind before cs) :
    ∃ part after, cs = part ++ after ∧ lexer.Advances before part after := by
  have hread : readToken lexer.rest lexer.place = readToken cs (positionAfter before) := by
    rw [h.rest_eq, h.place_eq]
  rcases readToken_cases before cs with ⟨hgap, -, -, hstart⟩ |
    ⟨piece, htoken, hchars, hne, hfits, hnext⟩
  · obtain ⟨comment, hnil⟩ := readToken_of_behindGap_nil (positionAfter before) hgap.behindGap_eq_nil
    rw [hnil] at hread hstart
    have htoken : lexer.read.1.unmarked = endingAfter (before ++ cs) := by
      simp only [read, hread, unmarked, endingAfter, ← hstart]
    refine ⟨cs, [], (List.append_nil cs).symm, ?_, ?_, fun _ => ⟨rfl, htoken⟩, ?_⟩
    · constructor
      · simp only [skip, read, hread]
      · simpa only [skip, read, hread] using hstart
    · rw [← unmarked_past, htoken]
      rfl
    · intro hkind
      rw [← unmarked_kind, htoken] at hkind
      exact absurd rfl hkind
  · have hpast : piece.token.past = positionAfter (before ++ piece.chars) := by
      rw [past_eq_placeAfter hfits.notEnding, hfits.placed, placeAfter_positionAfter hfits.lexeme,
        List.append_assoc, Piece.chars]
    have hfound : lexer.read.1 = piece.token := by
      simp only [read, hread, htoken]
    refine ⟨piece.chars, _, hchars, ?_, hfound ▸ hpast, ?_, ?_⟩
    · constructor
      · simp only [skip, read, hread]
      · simp only [skip, read, hread, hnext]
    · intro hkind
      rw [hfound] at hkind
      exact absurd hkind hfits.notEnding
    · intro _ hnil
      exact hne (List.append_eq_nil_iff.1 hnil).2

theorem isBehind_ofSource (source : String) : (ofSource source).IsBehind [] source.toList :=
  ⟨rfl, rfl⟩

/-- Where no text is left, a lexer finds the end of the text and stays there. -/
theorem IsBehind.skip_nil {lexer : Lexer} {before : List Char} (h : lexer.IsBehind before []) :
    lexer.skip.IsBehind before [] ∧ lexer.read.1.unmarked = endingAfter before := by
  obtain ⟨part, after, hnil, hadvances⟩ := h.advances
  obtain ⟨rfl, rfl⟩ := List.append_eq_nil_iff.1 hnil.symm
  have hkind : lexer.read.1.kind = .endOfFile := by
    simp only [read, h.rest_eq, readToken_nil_kind]
  obtain ⟨-, hending⟩ := hadvances.ends hkind
  have hbehind := hadvances.behind
  rw [List.append_nil] at hbehind hending
  exact ⟨hbehind, hending⟩

theorem IsBehind.iterate_skip_nil {lexer : Lexer} {before : List Char} (h : lexer.IsBehind before [])
    (n : Nat) : (skip^[n] lexer).IsBehind before [] := by
  induction n generalizing lexer with
  | zero => exact h
  | succ n ih => exact ih h.skip_nil.1

/-- **The `n`-th reading** of a lexer finds the `n`-th token of its text. -/
theorem IsBehind.read_iterate_skip (fuel : Nat) {lexer : Lexer} {before cs : List Char}
    (h : lexer.IsBehind before cs) (hfuel : cs.length < fuel) (n : Nat) :
    (skip^[n] lexer).read.1.unmarked =
      ((streamFrom fuel cs (positionAfter before)).tokens.getD n
        (streamFrom fuel cs (positionAfter before)).ending).unmarked := by
  induction fuel generalizing lexer before cs n with
  | zero => exact absurd hfuel (Nat.not_lt_zero _)
  | succ fuel ih =>
      have hread : (readToken cs (positionAfter before)).token = lexer.read.1 := by
        simp only [read, h.rest_eq, h.place_eq]
      have hskip : streamFrom fuel (readToken cs (positionAfter before)).rest
          (readToken cs (positionAfter before)).next =
            streamFrom fuel lexer.skip.rest lexer.skip.place := by
        simp only [skip, read, h.rest_eq, h.place_eq]
      obtain ⟨part, after, rfl, hadvances⟩ := h.advances
      rw [streamFrom, hskip, hread]
      by_cases hkind : lexer.read.1.kind = .endOfFile
      · obtain ⟨rfl, hfound⟩ := hadvances.ends hkind
        simp only [hkind, if_true, List.getD_nil]
        cases n with
        | zero => rfl
        | succ n =>
            rw [Function.iterate_succ_apply, (hadvances.behind.iterate_skip_nil n).skip_nil.2, hfound]
      · simp only [hkind, if_false]
        cases n with
        | zero => rfl
        | succ n =>
            have hshorter : after.length < fuel := by
              have hpos := List.length_pos_iff.2 (hadvances.goesOn hkind)
              rw [List.length_append] at hfuel
              omega
            rw [Function.iterate_succ_apply, ih hadvances.behind hshorter, hadvances.behind.rest_eq,
              hadvances.behind.place_eq]
            rfl

/-! ### The lexer after some readings -/

section

variable (source : String) (n : Nat)

/-- The lexer of a source text that has read `n` tokens. -/
def afterReadings : Lexer := skip^[n] (ofSource source)

theorem afterReadings_succ : afterReadings source (n + 1) = (afterReadings source n).skip :=
  Function.iterate_succ_apply' _ _ _

/-- **It reads the next token** of the text. -/
theorem read_afterReadings : (afterReadings source n).read.1.unmarked = nth source n := by
  have hread := (isBehind_ofSource source).read_iterate_skip _ (Nat.lt_succ_self _) n
  refine hread.trans ?_
  rcases Nat.lt_or_ge n (tokenStream source).tokens.length with hlt | hge
  · rw [nth_of_lt hlt, ← List.getD_eq_getElem _ (tokenStream source).ending hlt]
    rfl
  · rw [nth_of_ge hge, ← List.getD_eq_default _ (tokenStream source).ending hge]
    rfl

/-- It stands somewhere in the text. -/
theorem exists_isBehind_afterReadings :
    ∃ before cs, source.toList = before ++ cs ∧ (afterReadings source n).IsBehind before cs := by
  induction n with
  | zero => exact ⟨[], source.toList, rfl, isBehind_ofSource source⟩
  | succ n ih =>
      obtain ⟨before, cs, hsource, hbehind⟩ := ih
      obtain ⟨part, after, rfl, hadvances⟩ := hbehind.advances
      rw [afterReadings_succ]
      exact ⟨before ++ part, after, by rw [hsource, List.append_assoc], hadvances.behind⟩

/-- It stands just past the last token that it has read. -/
theorem place_afterReadings (buffer : Option Token) :
    (afterReadings source n).place = (Reader.mk n buffer).place source := by
  cases n with
  | zero => rfl
  | succ n =>
      obtain ⟨before, cs, -, hbehind⟩ := exists_isBehind_afterReadings source n
      obtain ⟨part, after, -, hadvances⟩ := hbehind.advances
      have hplace : (Reader.mk (n + 1) buffer).place source = (nth source n).past := rfl
      rw [afterReadings_succ, hadvances.behind.place_eq, hplace, ← read_afterReadings, unmarked_past,
        hadvances.past_eq]

/-- It knows whether it has read the end of the text. -/
theorem finished_afterReadings (buffer : Option Token) :
    (afterReadings source n).finished = true ↔ (Reader.mk n buffer).Ended source := by
  induction n with
  | zero => simp [afterReadings, ofSource, Reader.Ended]
  | succ n ih =>
      have hfinished : (afterReadings source (n + 1)).finished =
          ((afterReadings source n).finished || (nth source n).kind == .endOfFile) := by
        rw [afterReadings_succ, ← read_afterReadings, unmarked_kind]
        rfl
      rw [hfinished, Bool.or_eq_true, ih, beq_iff_eq, Reader.Ended, Reader.Ended,
        Nat.exists_lt_succ_right]

/-- Having read the end of the text, it stands there. -/
theorem rest_of_finished (h : (afterReadings source n).finished = true) :
    (afterReadings source n).rest = [] := by
  induction n with
  | zero => cases h
  | succ n ih =>
      obtain ⟨before, cs, -, hbehind⟩ := exists_isBehind_afterReadings source n
      obtain ⟨part, after, hsplit, hadvances⟩ := hbehind.advances
      rw [afterReadings_succ] at h ⊢
      rcases Bool.or_eq_true_iff.1 h with hbefore | hnow
      · rw [hbehind.rest_eq] at ih
        rw [ih hbefore] at hsplit
        rw [hadvances.behind.rest_eq, (List.append_eq_nil_iff.1 hsplit.symm).2]
      · rw [hadvances.behind.rest_eq, (hadvances.ends (beq_iff_eq.1 hnow)).1]

/-- No character is left exactly at the place of the end of the text. -/
theorem rest_afterReadings_iff :
    (afterReadings source n).rest = [] ↔ (afterReadings source n).place = positionAfter source.toList := by
  obtain ⟨before, cs, hsource, hbehind⟩ := exists_isBehind_afterReadings source n
  rw [hbehind.rest_eq, hbehind.place_eq, hsource]
  constructor
  · intro hnil
    rw [hnil, List.append_nil]
  · intro hplace
    by_contra hne
    exact positionAfter_append_ne before hne hplace.symm

end

/-! ### One call -/

/-- The lexer of a source text has read as often as the machine, and their buffers agree. -/
structure Represents (source : String) (lexer : Lexer) (reader : Reader) : Prop where
  reads : { lexer with buffer := none } = afterReadings source reader.index
  buffers : lexer.buffer.map unmarked = reader.buffer

theorem represents_start (source : String) : Represents source (ofSource source) Reader.start :=
  ⟨rfl, rfl⟩

section

variable {source : String} {lexer : Lexer} {reader : Reader}

theorem Represents.read (h : Represents source lexer reader) :
    lexer.read.1.unmarked = nth source reader.index := by
  rw [← read_afterReadings, ← h.reads]
  rfl

/-- Both read one token more. -/
theorem Represents.skip (h : Represents source lexer reader) (buffer : Option Token) :
    Represents source { lexer.skip with buffer := buffer }
      ⟨reader.index + 1, buffer.map unmarked⟩ where
  reads := by
    rw [afterReadings_succ, ← h.reads]
    rfl
  buffers := rfl

theorem Represents.peek (h : Represents source lexer reader) :
    lexer.peek.1.unmarked = (reader.peek source).1 ∧
      Represents source lexer.peek.2 (reader.peek source).2 := by
  have hbuffers := h.buffers
  cases hbuffer : lexer.buffer with
  | some token =>
      rw [hbuffer] at hbuffers
      simp only [Lexer.peek, Reader.peek, hbuffer, ← hbuffers, Option.map_some]
      exact ⟨trivial, h⟩
  | none =>
      rw [hbuffer] at hbuffers
      simp only [Lexer.peek, Reader.peek, hbuffer, ← hbuffers, Option.map_none]
      refine ⟨h.read, ?_⟩
      rw [← h.read]
      exact h.skip _

/-- The machine knows where the lexer stands. -/
theorem Represents.place_eq (h : Represents source lexer reader) : lexer.place = reader.place source := by
  have hplace := place_afterReadings source reader.index reader.buffer
  rwa [← h.reads] at hplace

theorem Represents.finished_iff (h : Represents source lexer reader) :
    lexer.finished = true ↔ reader.Ended source := by
  have hfinished := finished_afterReadings source reader.index reader.buffer
  rwa [← h.reads] at hfinished

theorem Represents.rest_eq_nil_iff (h : Represents source lexer reader) :
    lexer.rest = [] ↔ reader.place source = positionAfter source.toList := by
  have hrest := rest_afterReadings_iff source reader.index
  rw [← h.reads] at hrest
  rw [← h.place_eq]
  exact hrest

/-- Behind the end of the text the lexer stands where the end of the text begins. -/
theorem Represents.position_of_finished (h : Represents source lexer reader)
    (hfinished : lexer.finished = true) :
    lexer.position = (tokenStream source).ending.start := by
  have hrest := rest_of_finished source reader.index
  rw [← h.reads] at hrest
  rw [position, h.place_eq, h.rest_eq_nil_iff.1 (hrest hfinished), tokenStream_ending_start]

/-- **One call** has the same answer, and the lexer goes on as the machine does. -/
theorem Represents.answer (h : Represents source lexer reader) (call : Call) :
    (lexer.answer call).1 = (reader.answer source call).1 ∧
      Represents source (lexer.answer call).2 (reader.answer source call).2 := by
  cases call with
  | peek =>
      obtain ⟨htoken, hafter⟩ := h.peek
      exact ⟨congrArg Answer.token htoken, hafter⟩
  | next =>
      obtain ⟨htoken, hafter⟩ := h.peek
      refine ⟨congrArg Answer.token htoken, ?_⟩
      simp only [Lexer.answer, Reader.answer, Lexer.next, ← htoken, unmarked_kind]
      split
      · exact hafter
      · exact ⟨hafter.reads, rfl⟩
  | scan =>
      by_cases hfinished : lexer.finished = true
      · simp only [Lexer.answer, Reader.answer, Lexer.scan, if_pos hfinished,
          if_pos (h.finished_iff.1 hfinished), h.position_of_finished hfinished]
        exact ⟨trivial, h⟩
      · simp only [Lexer.answer, Reader.answer, Lexer.scan, if_neg hfinished,
          if_neg (mt h.finished_iff.2 hfinished)]
        refine ⟨congrArg Answer.token h.read, ?_⟩
        have hafter := h.skip lexer.buffer
        rwa [h.buffers] at hafter
  | position => exact ⟨congrArg Answer.place h.place_eq, h⟩
  | atEnd =>
      refine ⟨congrArg Answer.flag ?_, h⟩
      rw [Bool.eq_iff_iff, atEnd, List.isEmpty_iff, decide_eq_true_iff]
      exact h.rest_eq_nil_iff

/-- **Every sequence of calls** has the same answers. -/
theorem Represents.run (h : Represents source lexer reader) (calls : List Call) :
    (Lexer.run Lexer.answer lexer calls).1 = (Lexer.run (Reader.answer source) reader calls).1 ∧
      Represents source (Lexer.run Lexer.answer lexer calls).2
        (Lexer.run (Reader.answer source) reader calls).2 := by
  induction calls generalizing lexer reader with
  | nil => exact ⟨rfl, h⟩
  | cons call calls ih =>
      obtain ⟨hfirst, hafter⟩ := h.answer call
      obtain ⟨hothers, hlast⟩ := ih hafter
      simp only [Lexer.run, hfirst, hothers]
      exact ⟨trivial, hlast⟩

end

/-! ### What is handed out -/

/-- The tokens that have been read, without the end of the text. -/
def takenBy (source : String) (n : Nat) : List Token :=
  ((tokenStream source).tokens.take n).map unmarked

/-- The tokens that a sequence of calls hands out. -/
def allHandedOut (calls : List Call) (answers : List Answer) : List Token :=
  (List.zipWith handedOut calls answers).flatten

section

variable (source : String)

theorem takenBy_succ (n : Nat) :
    takenBy source (n + 1) = takenBy source n ++ waiting (some (nth source n)) := by
  rcases Nat.lt_or_ge n (tokenStream source).tokens.length with hlt | hge
  · have hkind : (tokenStream source).tokens[n].kind ≠ .endOfFile :=
      kind_ne_of_mem_tokenStream (List.getElem_mem hlt)
    simp only [takenBy, waiting, nth_of_lt hlt, unmarked_kind, if_neg hkind]
    rw [List.take_succ_eq_append_getElem hlt, List.map_append, List.map_singleton]
  · have hkind : (tokenStream source).ending.kind = .endOfFile := tokenStream_ending_kind source
    simp only [takenBy, waiting, nth_of_ge hge, unmarked_kind, if_pos hkind, List.append_nil]
    rw [List.take_of_length_le hge, List.take_of_length_le (Nat.le_succ_of_le hge)]

/-- What waits after a `peek` was waiting before it or has been read for it. -/
theorem waiting_peek (reader : Reader) :
    ∃ fresh, takenBy source (reader.peek source).2.index = takenBy source reader.index ++ fresh ∧
      (reader.peek source).2.buffer = some (reader.peek source).1 ∧
      waiting (some (reader.peek source).1) = waiting reader.buffer ++ fresh := by
  cases hbuffer : reader.buffer with
  | some token =>
      simp only [Reader.peek, hbuffer]
      exact ⟨[], (List.append_nil _).symm, trivial, (List.append_nil _).symm⟩
  | none =>
      simp only [Reader.peek, hbuffer]
      exact ⟨waiting (some (nth source reader.index)), takenBy_succ source reader.index, trivial,
        (List.nil_append _).symm⟩

/-- **One call** hands out a token that was waiting or that it reads, or lets it wait. -/
theorem handedOut_answer (reader : Reader) (call : Call) :
    ∃ fresh, takenBy source (reader.answer source call).2.index = takenBy source reader.index ++ fresh ∧
      (handedOut call (reader.answer source call).1 ++
        waiting (reader.answer source call).2.buffer).Perm (waiting reader.buffer ++ fresh) := by
  cases call with
  | peek =>
      obtain ⟨fresh, hindex, hbuffer, hwaiting⟩ := waiting_peek source reader
      refine ⟨fresh, hindex, ?_⟩
      simp only [Reader.answer, handedOut, hbuffer, hwaiting, List.nil_append]
      exact .refl _
  | next =>
      obtain ⟨fresh, hindex, hbuffer, hwaiting⟩ := waiting_peek source reader
      by_cases hkind : (reader.peek source).1.kind = .endOfFile
      · refine ⟨fresh, ?_, ?_⟩
        · simpa only [Reader.answer, if_pos hkind] using hindex
        · simp only [Reader.answer, handedOut, if_pos hkind, hbuffer, ← hwaiting]
          simp [waiting, hkind]
      · refine ⟨fresh, ?_, ?_⟩
        · simpa only [Reader.answer, if_neg hkind] using hindex
        · simp only [Reader.answer, handedOut, if_neg hkind, ← hwaiting]
          simp [waiting]
  | scan =>
      by_cases hended : reader.Ended source
      · refine ⟨[], ?_, ?_⟩
        · simp [Reader.answer, hended]
        · simp [Reader.answer, hended, handedOut]
      · refine ⟨waiting (some (nth source reader.index)), ?_, ?_⟩
        · simpa only [Reader.answer, if_neg hended] using takenBy_succ source reader.index
        · simp only [Reader.answer, if_neg hended, handedOut]
          exact List.perm_append_comm
  | position | atEnd => exact ⟨[], (List.append_nil _).symm, by simp [Reader.answer, handedOut]⟩

theorem allHandedOut_run (reader : Reader) (calls : List Call) :
    ∃ fresh, takenBy source (run (Reader.answer source) reader calls).2.index =
        takenBy source reader.index ++ fresh ∧
      (allHandedOut calls (run (Reader.answer source) reader calls).1 ++
        waiting (run (Reader.answer source) reader calls).2.buffer).Perm
          (waiting reader.buffer ++ fresh) := by
  induction calls generalizing reader with
  | nil => exact ⟨[], (List.append_nil _).symm, by simp [allHandedOut, run]⟩
  | cons call calls ih =>
      obtain ⟨fresh, hindex, hfirst⟩ := handedOut_answer source reader call
      obtain ⟨more, hlast, hothers⟩ := ih (reader.answer source call).2
      refine ⟨fresh ++ more, ?_, ?_⟩
      · simp only [run, hlast, hindex, List.append_assoc]
      · simp only [run, allHandedOut, List.zipWith_cons_cons, List.flatten_cons, List.append_assoc]
        refine ((hothers.append_left _).trans ?_)
        rw [← List.append_assoc, ← List.append_assoc]
        exact hfirst.append_right more

end

/-- **The lexer reads one stream.** For every source text and every sequence of calls, the answers
are those of the machine that counts the tokens it has read. The lexer then has the text behind its
place left to read. No token is handed out twice, and every token that was read has been handed out,
except the one that waits in the buffer. -/
theorem run_lexer (source : String) (calls : List Call) :
    let lexer := run answer (ofSource source) calls
    let machine := run (Reader.answer source) Reader.start calls
    lexer.1 = machine.1 ∧
      (∃ before, source.toList = before ++ lexer.2.rest ∧ lexer.2.place = positionAfter before) ∧
      (allHandedOut calls lexer.1).Nodup ∧
      (allHandedOut calls lexer.1 ++ waiting machine.2.buffer).Perm
        (takenBy source machine.2.index) := by
  intro lexer machine
  obtain ⟨hanswers, hlast⟩ : lexer.1 = machine.1 ∧ Represents source lexer.2 machine.2 :=
    (represents_start source).run calls
  obtain ⟨before, cs, hsource, hbehind⟩ := exists_isBehind_afterReadings source machine.2.index
  rw [← hlast.reads] at hbehind
  obtain ⟨fresh, htaken, hhanded⟩ := allHandedOut_run source Reader.start calls
  have hall : takenBy source machine.2.index = fresh := htaken
  have hnodup : (takenBy source machine.2.index).Nodup := by
    -- tokens that begin at different places are different
    have hstarts := (tokenStream_starts_nodup source).sublist
      ((List.take_sublist machine.2.index (tokenStream source).tokens).map Token.start)
    refine List.Nodup.of_map Token.start ?_
    rw [takenBy, List.map_map]
    exact hstarts
  rw [hall] at hnodup ⊢
  rw [hanswers]
  refine ⟨rfl, ⟨before, hbehind.rest_eq ▸ hsource, hbehind.place_eq⟩, ?_, hhanded⟩
  exact (List.nodup_append.1 (hhanded.nodup_iff.2 hnodup)).1

end Lexer

end ProcLang
