import ProcLang.Proofs.Places.Passes
import ProcLang.Report

/-!
# ProcLang.Proofs.Places.Caret

**The caret stands under the offending character.** The block for a diagnostic shows the line of the
source and below it a marker that ends in a caret. `compile_caret` says that the caret of every
diagnostic stands where the shown line has the column of the diagnostic, and that right above it is
the character that stands there in the source. There is one exception: the blanks at the end of a line
are not shown, and so nothing stands above the caret of an illegal blank among them
(`compile_caret_blank`).

A diagnostic is placed where a token begins, so the indentation that a shown line lacks ends in front
of it (`exists_split_of_begins`). The lines of the report and the lines of the lexer differ in a
carriage return at the end of a line only, which is a blank (`exists_line`).
-/

namespace ProcLang

open Token

/-! ### Lines -/

namespace Text

/-- A line that ends with a line feed, and perhaps a carriage return in front of it. -/
theorem lines_append_newline {w : List Char} (hw : '\n' ∉ w) (rest : List Char) :
    ∃ line ending, w = line ++ ending ∧ (ending = [] ∨ ending = ['\r']) ∧
      lines (w ++ '\n' :: rest) = line :: lines rest := by
  induction w with
  | nil => exact ⟨[], [], rfl, Or.inl rfl, by simp [lines]⟩
  | cons c w ih =>
      obtain ⟨hc, hw⟩ := not_or.1 (mt List.mem_cons.2 hw)
      obtain ⟨line, ending, rfl, hending, hlines⟩ := ih hw
      by_cases hreturn : c = '\r' ∧ line ++ ending = []
      · obtain ⟨rfl, hnil⟩ := hreturn
        rw [hnil]
        exact ⟨[], ['\r'], rfl, Or.inr rfl, by simp [lines]⟩
      · refine ⟨c :: line, ending, rfl, hending, ?_⟩
        rw [List.cons_append, lines, hlines]
        · exact fun h => hc h.symm
        · intro more hreturned hmore
          cases hw' : line ++ ending with
          | nil => exact hreturn ⟨hreturned, hw'⟩
          | cons d w =>
              rw [hw', List.cons_append] at hmore
              rw [hw', (List.cons.inj hmore).1] at hw
              exact hw List.mem_cons_self

/-- A last line without a line feed. -/
theorem lines_of_not_mem {w : List Char} (hw : '\n' ∉ w) (hne : w ≠ []) : lines w = [w] := by
  induction w with
  | nil => exact absurd rfl hne
  | cons c w ih =>
      obtain ⟨hc, hw⟩ := not_or.1 (mt List.mem_cons.2 hw)
      rw [lines]
      · by_cases hnil : w = []
        · rw [hnil]
          rfl
        · rw [ih hw hnil]
      · exact fun h => hc h.symm
      · intro more _ hmore
        exact hw (hmore ▸ List.mem_cons_self)

/-- The characters of a line in front of a place. -/
def lineBefore (front : List Char) : List Char := (front.reverse.takeWhile (· ≠ '\n')).reverse

theorem lineBefore_of_not_mem {front : List Char} (h : '\n' ∉ front) : lineBefore front = front := by
  have hall : ∀ c ∈ front.reverse, decide (c ≠ '\n') = true := by
    intro c hc
    have hne : c ≠ '\n' := ne_of_mem_of_not_mem (List.mem_reverse.1 hc) h
    simpa using hne
  rw [lineBefore, List.takeWhile_eq_self_iff.2 hall, List.reverse_reverse]

theorem lineBefore_append_newline (w front : List Char) :
    lineBefore (w ++ '\n' :: front) = lineBefore front := by
  have hstop : decide ('\n' ≠ '\n') = false := by decide
  have hsplit : (w ++ '\n' :: front).reverse = front.reverse ++ '\n' :: w.reverse := by simp
  rw [lineBefore, hsplit, List.takeWhile_append]
  split
  · rename_i hwhole
    have hfront := (List.takeWhile_prefix (fun c => decide (c ≠ '\n'))).eq_of_length hwhole
    rw [List.takeWhile_cons_of_neg (by simp), List.append_nil, lineBefore, hfront]
  · rfl

/-- **The line at a place** as the report finds it is the line around the place, without a carriage
return at its end. -/
theorem exists_line (front rest : List Char) :
    ∃ ending, (ending = [] ∨ ending = ['\r']) ∧
      lineBefore front ++ restOfLine rest =
        lineAt (positionAfter front).line (front ++ rest) ++ ending := by
  by_cases hline : '\n' ∈ front
  · -- the first line of the text is not the one, and what follows it is a shorter text
    obtain ⟨w, front, rfl, hw⟩ := List.eq_append_cons_of_mem hline
    obtain ⟨ending, hending, hsplit⟩ := exists_line front rest
    obtain ⟨line, -, -, -, hlines⟩ := lines_append_newline hw (front ++ rest)
    refine ⟨ending, hending, ?_⟩
    have hnumber : (positionAfter (w ++ '\n' :: front)).line - 1 =
        (positionAfter front).line - 1 + 1 := by
      simp [positionAfter, List.count_append, List.count_eq_zero.2 hw]
    rw [lineBefore_append_newline, hsplit, lineAt, lineAt, hnumber, List.append_assoc,
      List.cons_append, hlines, List.getElem?_cons_succ]
  · have hnumber : (positionAfter front).line - 1 = 0 := by
      simp [positionAfter, List.count_eq_zero.2 hline]
    have hrest : '\n' ∉ restOfLine rest := by
      intro hmem
      simpa using List.mem_takeWhile_imp hmem
    have hwhole : '\n' ∉ front ++ restOfLine rest := by simp [hline, hrest]
    have hsplit : front ++ rest =
        (front ++ restOfLine rest) ++ rest.dropWhile (· ≠ '\n') := by
      rw [List.append_assoc, restOfLine, List.takeWhile_append_dropWhile]
    rw [lineBefore_of_not_mem hline, lineAt, hnumber, hsplit]
    rcases dropWhile_line_cases rest with hend | ⟨more, hend⟩
    · rw [hend, List.append_nil]
      refine ⟨[], Or.inl rfl, ?_⟩
      by_cases hnil : front ++ restOfLine rest = []
      · rw [hnil]
        rfl
      · rw [lines_of_not_mem hwhole hnil]
        simp
    · obtain ⟨line, ending, hparts, hending, hlines⟩ := lines_append_newline hwhole more
      rw [hend, hlines]
      exact ⟨ending, hending, hparts⟩
termination_by front.length

/-! ### Blanks at the end -/

theorem trimEnd_append_of_blank {w ending : List Char} (h : ∀ c ∈ ending, isBlank c = true) :
    trimEnd (w ++ ending) = trimEnd w := by
  have hreverse : ∀ c ∈ ending.reverse, isBlank c = true := fun c hc => h c (List.mem_reverse.1 hc)
  rw [trimEnd, List.reverse_append, List.dropWhile_append_of_pos hreverse, trimEnd]

theorem trimEnd_append_of_not_blank {w rest : List Char} (h : ∃ c ∈ rest, isBlank c = false) :
    trimEnd (w ++ rest) = w ++ trimEnd rest := by
  have hkept : (rest.reverse.dropWhile isBlank).isEmpty = false := by
    obtain ⟨c, hmem, hc⟩ := h
    rw [Bool.eq_false_iff, ne_eq, List.isEmpty_iff, List.dropWhile_eq_nil_iff]
    intro hall
    rw [hall c (List.mem_reverse.2 hmem)] at hc
    nomatch hc
  rw [trimEnd, List.reverse_append, List.dropWhile_append, hkept]
  simp [trimEnd]

theorem exists_trimEnd (w : List Char) :
    ∃ ending, w = trimEnd w ++ ending ∧ ∀ c ∈ ending, isBlank c = true := by
  refine ⟨(w.reverse.takeWhile isBlank).reverse, ?_, ?_⟩
  · rw [trimEnd, ← List.reverse_append, List.takeWhile_append_dropWhile, List.reverse_reverse]
  · intro c hc
    exact List.mem_takeWhile_imp (List.mem_reverse.1 hc)

/-- What is left of a text does not end in a blank. -/
theorem isBlank_of_getLast?_trimEnd {w : List Char} {c : Char} (h : (trimEnd w).getLast? = some c) :
    isBlank c = false := by
  rw [trimEnd, List.getLast?_reverse] at h
  obtain ⟨rest, hrest⟩ := List.head?_eq_some_iff.1 h
  exact eq_false_of_dropWhile_eq_cons hrest

/-- A text that does not consist of blanks keeps its first character. -/
theorem exists_trimEnd_cons {c : Char} {rest : List Char} (h : ∃ d ∈ c :: rest, isBlank d = false) :
    ∃ more, trimEnd (c :: rest) = c :: more := by
  obtain ⟨ending, hsplit, hblank⟩ := exists_trimEnd (c :: rest)
  cases htrim : trimEnd (c :: rest) with
  | nil =>
      obtain ⟨d, hmem, hd⟩ := h
      rw [htrim, List.nil_append] at hsplit
      rw [hblank d (hsplit ▸ hmem)] at hd
      nomatch hd
  | cons d more =>
      rw [htrim, List.cons_append] at hsplit
      rw [(List.cons.inj hsplit).1]
      exact ⟨more, rfl⟩

end Text

/-! ### Blocks -/

namespace Report

open Text

/-- What is left out at the beginning of a line ends where a token begins. -/
theorem indentOf_le (before : List Char) {rest : List Char} (h : StartsToken rest) :
    indentOf (before ++ restOfLine rest) ≤ before.length := by
  have hnone : (restOfLine rest).takeWhile isIndent = [] := by
    cases rest with
    | nil => rfl
    | cons c rest =>
        obtain ⟨hblank, htab, -⟩ := h.1 c rfl
        by_cases hline : c = '\n'
        · rw [hline]
          rfl
        · simp [restOfLine, hline, isIndent, hblank, htab]
  rw [indentOf, List.takeWhile_append, hnone]
  split
  · simp
  · exact (List.takeWhile_prefix _).length_le

/-- A carriage return at the end of a line makes no difference to what is shown. -/
theorem shown_append (line : List Char) {ending : List Char} (h : ending = [] ∨ ending = ['\r']) :
    indentOf (line ++ ending) = indentOf line ∧ shownLine (line ++ ending) = shownLine line := by
  have hblank : ∀ c ∈ ending, isBlank c = true := by
    intro c hc
    rcases h with rfl | rfl
    · nomatch hc
    · rw [List.mem_singleton.1 hc]
      decide
  have hindent : ending.takeWhile isIndent = [] ∧ ending.dropWhile isIndent = ending := by
    rcases h with rfl | rfl
    · exact ⟨rfl, rfl⟩
    · exact ⟨by decide, by decide⟩
  constructor
  · rw [indentOf, List.takeWhile_append, hindent.1, List.append_nil]
    split
    · rename_i hwhole
      rw [indentOf, hwhole]
    · rfl
  · rw [shownLine, List.dropWhile_append, hindent.2]
    split
    · rename_i hnil
      have htrim := trimEnd_append_of_blank (w := []) hblank
      rw [shownLine, List.isEmpty_iff.1 hnil, ← htrim, List.nil_append]
    · exact trimEnd_append_of_blank hblank

/-- A shown line does not begin with what is left out there. -/
theorem isIndent_of_head?_shownLine {line : List Char} {c : Char} (h : (shownLine line).head? = some c) :
    isIndent c = false := by
  obtain ⟨more, hmore⟩ := List.head?_eq_some_iff.1 h
  obtain ⟨ending, hsplit, -⟩ := exists_trimEnd (line.dropWhile isIndent)
  rw [shownLine] at hmore
  rw [hmore, List.cons_append] at hsplit
  exact eq_false_of_dropWhile_eq_cons hsplit

section

variable {before rest : List Char} {c : Char}

/-- From a place behind the indentation on, a line is shown as it is. -/
theorem shownLine_append (h : indentOf (before ++ rest) ≤ before.length) :
    shownLine (before ++ rest) = trimEnd (before.drop (indentOf (before ++ rest)) ++ rest) := by
  rw [shownLine, ← drop_takeWhile_length, ← List.drop_append_of_le_length h]
  rfl

/-- The character at such a place is shown, -/
theorem shownLine_character (h : indentOf (before ++ c :: rest) ≤ before.length)
    (hkept : ∃ d ∈ c :: rest, isBlank d = false) :
    (shownLine (before ++ c :: rest))[before.length - indentOf (before ++ c :: rest)]? = some c := by
  obtain ⟨more, htrim⟩ := exists_trimEnd_cons hkept
  rw [shownLine_append h, trimEnd_append_of_not_blank hkept, htrim, ← List.length_drop,
    List.getElem?_append_right (Nat.le_refl _), Nat.sub_self]
  rfl

/-- unless it is one of the blanks at the end. -/
theorem length_shownLine (h : indentOf (before ++ c :: rest) ≤ before.length)
    (hblank : ∀ d ∈ c :: rest, isBlank d = true) :
    (shownLine (before ++ c :: rest)).length ≤ before.length - indentOf (before ++ c :: rest) := by
  rw [shownLine_append h, trimEnd_append_of_blank hblank, ← List.length_drop]
  exact (trimEnd_isPrefix _).length_le

end

/-- What stands to the left of the shown line. -/
def gutter (number : Nat) : List Char := (toString number ++ " | ").toList

/-- The block of a diagnostic points at its place. -/
structure PointsAt (lines : List String) (source : List Char) (place : Position)
    (indent shown trimmed dashes : List Char) : Prop where
  /-- The line of the source is shown without its indentation and without the blanks at its end. -/
  line : lineAt place.line source = indent ++ shown ++ trimmed
  indentation : (∀ c ∈ indent, isIndent c = true) ∧ ∀ c, shown.head? = some c → isIndent c = false
  blanks : (∀ c ∈ trimmed, isBlank c = true) ∧ ∀ c, shown.getLast? = some c → isBlank c = false
  printed : lines[3]? = some (String.ofList (gutter place.line ++ shown))
  /-- The marker has one caret, at its end. -/
  marker : lines[4]? = some (String.ofList (dashes ++ ['^']))
  noCaret : '^' ∉ dashes
  /-- The caret stands where the shown line has the column of the place. -/
  visible : indent.length < place.column
  column : dashes.length = (gutter place.line).length + (place.column - 1 - indent.length)
  /-- Above the caret is the character of the source, unless it belongs to the blanks at the end of its
  line. Then nothing is above it. -/
  character : ∀ front c rest, source = front ++ c :: rest → place = positionAfter front → c ≠ '\n' →
    ((∃ d ∈ c :: restOfLine rest, isBlank d = false) →
      (gutter place.line ++ shown)[dashes.length]? = some c) ∧
    ((∀ d ∈ c :: restOfLine rest, isBlank d = true) →
      (gutter place.line ++ shown).length ≤ dashes.length)

/-- What stands to the left of the caret. -/
def dashesOf (place : Position) (line : List Char) : List Char :=
  List.replicate (gutterWidth place.line - 1) ' ' ++ ['|', ' '] ++
    List.replicate (markerLength place.column line - 1) '-'

theorem markerLine_eq (place : Position) (line : List Char) :
    markerLine place line = String.ofList (dashesOf place line ++ ['^']) := by
  have hbar : "|".length = 1 := rfl
  have hcaret : "^".length = 1 := rfl
  have hstrings : String.ofList ['|', ' '] = "|" ++ " " ∧ String.ofList ['^'] = "^" := ⟨rfl, rfl⟩
  simp only [markerLine, padLeft, dashesOf, hbar, hcaret, String.ofList_append, hstrings,
    String.append_assoc]

theorem caret_not_mem_dashesOf (place : Position) (line : List Char) : '^' ∉ dashesOf place line := by
  simp [dashesOf, List.mem_replicate]

theorem length_dashesOf {place : Position} {line : List Char} (h : indentOf line < place.column) :
    (dashesOf place line).length =
      (gutter place.line).length + (place.column - 1 - indentOf line) := by
  have hmarker : markerLength place.column line = place.column - indentOf line := by
    rw [markerLength]
    omega
  have hbar : " | ".toList.length = 3 := rfl
  simp only [dashesOf, hmarker, gutter, gutterWidth, List.length_append, List.length_replicate,
    List.length_cons, List.length_nil, String.toList_append, String.length_toList, hbar]
  omega

/-- The column of a place counts the characters of its line in front of it. -/
theorem positionAfter_column (front : List Char) :
    (positionAfter front).column = (lineBefore front).length + 1 := by
  rw [lineBefore, List.length_reverse, Nat.add_comm]
  rfl

/-- **A block points at the place of its diagnostic**, where a token begins. -/
theorem block_pointsAt (file : String) {source front rest : List Char} {d : Diagnostic}
    (hsource : source = front ++ rest) (hplace : d.position = positionAfter front)
    (hstarts : StartsToken rest) :
    ∃ indent shown trimmed dashes,
      PointsAt (block file source d) source d.position indent shown trimmed dashes := by
  let line := lineAt d.position.line source
  obtain ⟨trimmed, htrimmed, hblanks⟩ := exists_trimEnd (line.dropWhile isIndent)
  have hvisible : indentOf line < d.position.column := by
    obtain ⟨ending, hending, hline⟩ := exists_line front rest
    have hle := indentOf_le (lineBefore front) hstarts
    rw [hline, ← hsource, ← hplace, (shown_append _ hending).1] at hle
    have hcolumn : d.position.column = (lineBefore front).length + 1 := by
      rw [hplace, positionAfter_column]
    rw [hcolumn]
    exact Nat.lt_succ_of_le hle
  refine ⟨line.takeWhile isIndent, shownLine line, trimmed, dashesOf d.position line, ?_⟩
  constructor
  · rw [List.append_assoc, shownLine, ← htrimmed, List.takeWhile_append_dropWhile]
  · exact ⟨fun c hc => List.mem_takeWhile_imp hc, fun c hc => isIndent_of_head?_shownLine hc⟩
  · exact ⟨hblanks, fun c hc => isBlank_of_getLast?_trimEnd hc⟩
  · rw [gutter, String.ofList_append, String.ofList_toList]
    rfl
  · rw [← markerLine_eq]
    rfl
  · exact caret_not_mem_dashesOf _ _
  · exact hvisible
  · exact length_dashesOf hvisible
  · intro front c rest hsplit hat hnewline
    -- the line around the character is the line of the report, up to a carriage return
    obtain ⟨ending, hending, hline⟩ := exists_line front (c :: rest)
    have hrest : restOfLine (c :: rest) = c :: restOfLine rest := by
      simp [restOfLine, hnewline]
    obtain ⟨hindent, hshown⟩ := shown_append line hending
    rw [← hat, ← hsplit, hrest] at hline
    rw [← hline] at hindent hshown
    have hcolumn : d.position.column = (lineBefore front).length + 1 := by
      rw [hat, positionAfter_column]
    have hle : indentOf (lineBefore front ++ c :: restOfLine rest) ≤ (lineBefore front).length := by
      omega
    rw [length_dashesOf hvisible, hcolumn, Nat.add_sub_cancel, ← hindent, ← hshown]
    constructor
    · intro hkept
      rw [List.getElem?_append_right (Nat.le_add_right _ _), Nat.add_sub_cancel_left]
      exact shownLine_character hle hkept
    · intro hblank
      rw [List.length_append]
      exact Nat.add_le_add_left (length_shownLine hle hblank) _

/-! ### All diagnostics -/

/-- Where a token begins, the text goes on with it. -/
theorem exists_split_of_begins {source : String} {place : Position} (h : Token.Begins source place) :
    ∃ front rest, source.toList = front ++ rest ∧ place = positionAfter front ∧ StartsToken rest := by
  obtain ⟨token, hmem, rfl⟩ := h
  obtain ⟨pieces, gap, ending, htokens, hchars, hfits, -, -, -, hending⟩ := tokenize_covers source
  rw [htokens] at hmem
  rcases List.mem_append.1 hmem with hpiece | hlast
  · obtain ⟨piece, hin, rfl⟩ := List.mem_map.1 hpiece
    obtain ⟨front, back, rfl⟩ := List.append_of_mem hin
    have hfitsHere := hfits front piece back rfl
    refine ⟨_, _, ?_, hfitsHere.placed, hfitsHere.starts⟩
    rw [hchars]
    simp [Piece.chars]
  · obtain rfl := List.mem_singleton.1 hlast
    exact ⟨source.toList, [], (List.append_nil _).symm, hending, by simp [StartsToken]⟩

/-- **Every diagnostic is placed at a token**, whichever stage reports it. -/
theorem begins_of_mem_diagnostics {source : String} {haltOnError : Bool} {c : Compilation}
    (hcompile : compile source haltOnError = .ok c) {d : Diagnostic} (hd : d ∈ c.diagnostics) :
    Token.Begins source d.position := by
  obtain ⟨hlocated, herrors, -⟩ := parse_located source
  by_cases hparse : (parse source).errors = []
  · obtain ⟨nodes, htree⟩ := Parser.parse_isTree source hparse
    obtain ⟨analysis, hanalysis, -, -⟩ := exists_analyze htree haltOnError
    obtain rfl := Except.ok.inj ((compile_of_parsed hparse hanalysis).symm.trans hcompile)
    exact htree.located_analyze hlocated hanalysis d hd
  · obtain rfl := Except.ok.inj ((compile_of_errors haltOnError hparse).symm.trans hcompile)
    exact herrors d hd

end Report

/-- **The caret stands under the offending character.** Whatever the text is, compiling comes to its end,
and the block of each diagnostic points at its place. -/
theorem compile_caret (file source : String) (haltOnError : Bool) :
    ∃ c, compile source haltOnError = .ok c ∧ ∀ d ∈ c.diagnostics,
      ∃ indent shown trimmed dashes, Report.PointsAt (Report.block file source.toList d) source.toList
        d.position indent shown trimmed dashes := by
  obtain ⟨c, hcompile, -, -⟩ := exists_compile source haltOnError
  refine ⟨c, hcompile, fun d hd => ?_⟩
  obtain ⟨front, rest, hsource, hplace, hstarts⟩ :=
    Report.exists_split_of_begins (Report.begins_of_mem_diagnostics hcompile hd)
  exact Report.block_pointsAt file hsource hplace hstarts

/-- A blank at the end of a line is not shown, so nothing stands above the caret that points at it. -/
theorem compile_caret_blank :
    let source := "var a is 1\u00a0\n"
    let d : Diagnostic := ⟨.illegalToken "\u00a0", ⟨1, 11⟩⟩
    (compile source true).map (·.diagnostics) = .ok [d] ∧
      source.toList = "var a is 1".toList ++ '\u00a0' :: ['\n'] ∧
      d.position = positionAfter "var a is 1".toList ∧
      (Report.block "main.imp" source.toList d)[3]? = some "1 | var a is 1" ∧
      (Report.block "main.imp" source.toList d)[4]? = some "  | ----------^" ∧
      "1 | var a is 1".toList["  | ----------^".toList.idxOf '^']? ≠ some '\u00a0' := by
  refine ⟨?_, by decide, by decide, by decide +kernel, by decide +kernel, by decide⟩
  decide +kernel

end ProcLang
