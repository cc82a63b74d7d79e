import ProcLang.Proofs.Expression.Keeps
import ProcLang.Proofs.Expression.Soundness
import ProcLang.Proofs.Parser.Derivation
import ProcLang.Proofs.Parser.Progress

/-!
# ProcLang.Proofs.Parser.Accounts

**A parser accounts for the tokens that it reads.** Where it finds no error, the grammar derives
what it has read for what it gives (`Accounts`). This module has the rules for sequences, types and
declarations of variables and types (`type_accounts`).

Tokens are dropped only behind an error that is recorded, and a recorded error stays. So each rule
is followed under the condition that there are no more errors behind it than in front of it. The
errors in between are then as many, since no parser takes an error back; this is what `Thrifty`
parsers are used for here.

The loops with separators have one invariant in common, `ReadsSequence`: a sequence was read, and
if it is closed, nothing but a separator or the end of the sequence comes next.
-/

namespace ProcLang

namespace Parser

open State Source

variable {α β σ ι : Type} {s s₀ s₁ s' : State}

/-- Errors that were found stay, and so does the end of the text. -/
theorem Thrifty.keeps {p : Parser α} (hp : Thrifty p) (hend : s.ending.kind = .endOfFile) {x : α}
    (hrun : Yields p s x s') :
    s.errors.size ≤ s'.errors.size ∧ s'.ending.kind = .endOfFile := by
  have hpays := hp s hend
  rw [show p.outcome s = _ from hrun] at hpays
  exact ⟨hpays.errors_le, hpays.ending ▸ hend⟩

@[simp] theorem added_errors (s : State) (family : Family) (node : Node family) :
    (s.added family node).errors = s.errors := rfl

/-- The tokens between two states are derived for a construct. -/
def State.Derived (s : State) (c : Construct) (s' : State) : Prop :=
  ∃ w, s.Reads w s' ∧ s'.arena.Produces c w

/-- Where the parser finds no error, it gives a construct and has read what is derived for it. -/
def Accounts (p : Parser α) (c : α → Construct) : Prop :=
  ∀ {s x s'}, s.ending.kind = .endOfFile → Yields p s x s' → s'.errors.size ≤ s.errors.size →
    s.Derived (c x) s'

theorem Accounts.recursive {f : (ι → Parser α) → ι → Parser α} {c : ι → α → Construct}
    (thrifty : ∀ self : ι → Parser α, (∀ i, Thrifty (self i)) → ∀ i, Thrifty (f self i))
    (layer : ∀ self : ι → Parser α, (∀ i, Thrifty (self i)) → (∀ i, Accounts (self i) (c i)) →
      ∀ i, Accounts (f self i) (c i)) (i : ι) : Accounts (Parser.recursive f i) (c i) := by
  have within : ∀ fuel,
      (∀ i, Thrifty (unfold f fuel i)) ∧ ∀ i, Accounts (unfold f fuel i) (c i) := by
    intro fuel
    induction fuel with
    | zero => exact ⟨fun _ => .stuck, fun _ _ _ _ _ hrun => absurd hrun yields_stuck⟩
    | succ fuel ih => exact ⟨thrifty _ ih.1, layer _ ih.1 ih.2⟩
  exact fun {_ _ _} hend hrun => (within _).2 i hend (yields_recursive.1 hrun)

/-- Taking a token of a kind that is not the end of the text. -/
theorem reads_word {kind : TokenKind} (hend : s.ending.kind = .endOfFile)
    (hcurrent : s.current.kind = kind) (hkind : (kind == .endOfFile) = false) :
    s.Reads [s.current] s.advance.2 :=
  reads_advance_of_current hend (hcurrent ▸ beq_eq_false_iff_ne.1 hkind)

/-- A node is added behind what was read. -/
theorem State.Reads.added {w : List Token} (h : s.Reads w s') (family : Family)
    (node : Node family) : s.Reads w (s'.added family node) := by
  have hall := h.trans (reads_added s' family node)
  rwa [List.append_nil] at hall

/-- Where no error is recorded, nothing fails that would be recovered from. -/
theorem yields_of_recovering {p : Parser α} {consume stopBefore : List TokenKind} {fallback x : α}
    (hp : Thrifty p) (hend : s.ending.kind = .endOfFile)
    (hrun : Yields (recovering consume stopBefore fallback p) s x s')
    (hclean : s'.errors.size ≤ s.errors.size) : Yields p s x s' := by
  have hpays := hp s hend
  rw [Yields, recovering, outcome_tryCatch] at hrun
  rcases hfirst : p.outcome s with ⟨d | y, s₁⟩
  · simp only [hfirst] at hrun hpays
    have hrest : Yields (do record d; synchronize consume stopBefore; return fallback : Parser α)
        s₁ x s' := hrun
    obtain ⟨_, s₂, hrecord, hrest⟩ := yields_bind.1 hrest
    obtain ⟨_, s₃, hsync, hrest⟩ := yields_bind.1 hrest
    obtain ⟨-, rfl⟩ := yields_pure.1 hrest
    obtain ⟨w, hskips⟩ := (Moves.synchronize consume stopBefore).skips hsync
    have hle := hpays.errors_le
    rw [hskips.errors, yields_modify.1 hrecord, Array.size_push] at hclean
    omega
  · rw [hfirst] at hrun
    exact hfirst.trans hrun

/-- What holds behind a loop, or a part of it, unless an error was found. -/
structure BarringErrors (s : State) (P : State → Prop) (s' : State) : Prop where
  errors_le : s.errors.size ≤ s'.errors.size
  ending_kind : s'.ending.kind = .endOfFile
  holds : s'.errors.size ≤ s.errors.size → P s'

/-- Another part of a loop. -/
theorem BarringErrors.next {p : Parser α} {x : α} {P Q : State → Prop} (h : BarringErrors s P s₁)
    (hp : Thrifty p) (hrun : Yields p s₁ x s')
    (hQ : P s₁ → s'.errors.size ≤ s₁.errors.size → Q s') : BarringErrors s Q s' := by
  obtain ⟨hle, hend⟩ := hp.keeps h.ending_kind hrun
  exact ⟨h.errors_le.trans hle, hend, fun hclean =>
    hQ (h.holds (hle.trans hclean)) (hclean.trans h.errors_le)⟩

/-! ### Expressions -/

theorem expression_accounts :
    Accounts (expression Grammar.standard .loosest) (fun placed => .expression placed.id) := by
  intro s placed s' hend hrun _
  obtain ⟨w, tree, hread, hderives, -⟩ := expression_sound (by decide) hend hrun
  exact ⟨w, hread.reads, .expression hderives hread.stands⟩

theorem initializer_accounts : Accounts (initializer Grammar.standard) .initializer := by
  intro s value s' hend hrun hclean
  simp only [initializer, yields_current_bind] at hrun
  split at hrun
  · rename_i hkind
    rw [yields_skip_bind] at hrun
    obtain ⟨placed, s₁, hvalue, hrun⟩ := yields_bind.1 hrun
    obtain ⟨rfl, rfl⟩ := yields_pure.1 hrun
    have hword := reads_word hend hkind rfl
    rw [← advance_errors s] at hclean
    obtain ⟨w, hreads, hproduces⟩ := expression_accounts (hword.ending_kind hend) hvalue hclean
    exact ⟨_, hword.trans hreads, .initialized hkind hproduces⟩
  · obtain ⟨rfl, rfl⟩ := yields_pure.1 hrun
    exact ⟨[], .refl _, .uninitialized⟩

theorem arrayLength_accounts : Accounts (arrayLength Grammar.standard) .length := by
  intro s value s' hend hrun hclean
  simp only [arrayLength, yields_current_bind] at hrun
  split at hrun
  · rename_i hkind
    rw [yields_skip_bind] at hrun
    obtain ⟨placed, s₁, hvalue, hrun⟩ := yields_bind.1 hrun
    obtain ⟨hcloses, hrun⟩ := yields_discard_expect_bind.1 hrun
    obtain ⟨rfl, rfl⟩ := yields_pure.1 hrun
    have hopens := reads_word hend hkind rfl
    rw [advance_errors, ← advance_errors s] at hclean
    obtain ⟨w, hreads, hproduces⟩ := expression_accounts (hopens.ending_kind hend) hvalue hclean
    have hbefore := hopens.trans hreads
    have hlast := reads_word (hbefore.ending_kind hend) hcloses rfl
    exact ⟨_, hbefore.trans hlast, .statedLength hkind (hproduces.extend hlast.arena) hcloses⟩
  · obtain ⟨rfl, rfl⟩ := yields_pure.1 hrun
    exact ⟨[], .refl _, .unstatedLength⟩

/-! ### Sequences -/

/-- What may come behind an entry that closes its sequence. -/
def pauses : List TokenKind := [.newline, .semicolon, .kwEnd, .kwElse, .endOfFile]

/-- A sequence was read. If it is closed, no entry comes next. -/
def ReadsSequence (s : State) (entries : List SequenceEntry) (s' : State) : Prop :=
  ∃ w isOpen, s.Reads w s' ∧ s'.arena.Produces (.sequence isOpen entries) w ∧
    (isOpen = false → s'.current.kind ∈ pauses)

/-- An entry was read, with a separator behind it or without. If it closes its sequence and no
separator was read, no entry comes next. -/
def ReadsEntry (s : State) (entry : SequenceEntry) (s' : State) : Prop :=
  ∃ w isOpen marks, s.Reads (w ++ marks) s' ∧ s'.arena.Produces (.entry isOpen entry) w ∧
    ((∃ mark, marks = [mark] ∧ mark.kind ∈ separators) ∨
      marks = [] ∧ (isOpen = false → s'.current.kind ∈ pauses))

theorem ReadsSequence.nil (s : State) : ReadsSequence s [] s :=
  ⟨[], true, .refl s, .empty, nofun⟩

/-- A separator behind a sequence. -/
theorem ReadsSequence.separator {entries : List SequenceEntry} (h : ReadsSequence s entries s₁)
    (hend : s.ending.kind = .endOfFile) (hkind : s₁.current.kind ∈ separators) :
    ReadsSequence s entries s₁.advance.2 := by
  obtain ⟨w, isOpen, hreads, hproduces, -⟩ := h
  have hmark : s₁.Reads [s₁.current] s₁.advance.2 := by
    refine reads_advance_of_current (hreads.ending_kind hend) fun hcurrent => ?_
    rw [hcurrent] at hkind
    exact absurd hkind (by decide)
  exact ⟨_, true, hreads.trans hmark, .separator (hproduces.extend hmark.arena) hkind, nofun⟩

/-- An entry behind a sequence. -/
theorem ReadsSequence.entry {entries : List SequenceEntry} {entry : SequenceEntry}
    (h : ReadsSequence s entries s₁)
    (hkind : s₁.current.kind ∉ pauses) (hentry : ReadsEntry s₁ entry s') :
    ReadsSequence s (entries ++ [entry]) s' := by
  obtain ⟨v, isOpen, hfront, hproduces, hcloses⟩ := h
  obtain rfl : isOpen = true := by
    cases isOpen with
    | false => exact absurd (hcloses rfl) hkind
    | true => rfl
  obtain ⟨w, isOpen, marks, hreads, hlast, hmarks⟩ := hentry
  have hboth := hfront.trans hreads
  have hnext := Arena.Produces.next (hproduces.extend hreads.arena) hlast
  rcases hmarks with ⟨mark, rfl, hmark⟩ | ⟨rfl, hpause⟩
  · rw [← List.append_assoc] at hboth
    exact ⟨_, true, hboth, .separator hnext hmark, nofun⟩
  · rw [List.append_nil] at hboth
    exact ⟨_, isOpen, hboth, hnext, hpause⟩

/-- The end of a declaration is a separator, or nothing in front of what closes the sequence. -/
theorem yields_terminator {u : Unit} (h : Yields terminator s u s') :
    (s.current.kind ∈ separators ∧ s' = s.advance.2) ∨ (s.current.kind ∈ pauses ∧ s' = s) := by
  simp only [terminator, yields_current_bind] at h
  split at h
  · rename_i hkind
    exact Or.inl ⟨by rw [hkind]; decide, yields_skip.1 h⟩
  · rename_i hkind
    exact Or.inl ⟨by rw [hkind]; decide, yields_skip.1 h⟩
  · rename_i hkind
    exact Or.inr ⟨by rw [hkind]; decide, (yields_pure.1 h).2⟩
  · rename_i hkind
    exact Or.inr ⟨by rw [hkind]; decide, (yields_pure.1 h).2⟩
  · rename_i hkind
    exact Or.inr ⟨by rw [hkind]; decide, (yields_pure.1 h).2⟩
  · obtain ⟨d, s₁, -, hthrow⟩ := yields_bind.1 h
    exact absurd hthrow yields_throw

/-- Reading the end of a declaration adds no node, and then a node is added. -/
theorem terminator_extends {u : Unit} (h : Yields terminator s u s') (family : Family)
    (node : Node family) : s.arena.ExtendedBy (s'.added family node).arena ∧
      (s'.added family node).arena.get? (s'.arena.add family node).1 = some node := by
  obtain ⟨w, hskips⟩ := terminator_moves.skips h
  refine ⟨?_, s'.arena.get?_add family node⟩
  rw [← hskips.arena]
  exact s'.arena.extendedBy_add family node

/-- A declaration with its end, whose node is added behind it. -/
theorem ReadsEntry.declaration {w : List Token} {family : Family} {node : Node family} {u : Unit}
    {d : Declaration} (hend : s.ending.kind = .endOfFile) (hreads : s.Reads w s₁)
    (hterminator : Yields terminator s₁ u s')
    (hproduces : (s'.added family node).arena.Produces (.entry false (.declaration d)) w) :
    ReadsEntry s (.declaration d) (s'.added family node) := by
  rcases yields_terminator hterminator with ⟨hkind, rfl⟩ | ⟨hkind, rfl⟩
  · have hmark : s₁.Reads [s₁.current] s₁.advance.2 := by
      refine reads_advance_of_current (hreads.ending_kind hend) fun hcurrent => ?_
      rw [hcurrent] at hkind
      exact absurd hkind (by decide)
    exact ⟨w, false, [s₁.current], (hreads.trans hmark).added family node, hproduces,
      Or.inl ⟨_, rfl, hkind⟩⟩
  · refine ⟨w, false, [], ?_, hproduces, Or.inr ⟨rfl, fun _ => hkind⟩⟩
    rw [List.append_nil]
    exact hreads.added family node

/-! ### Types and variables -/

section

variable {type : Parser TypeId}

theorem annotation_accounts (htype : Accounts type .type) :
    Accounts ( annotation type) .declaredType := by
  intro s id s' hend hrun hclean
  simp only [ annotation, yields_current_bind] at hrun
  split at hrun
  · rename_i hkind
    rw [yields_skip_bind] at hrun
    obtain ⟨id, htyped, rfl⟩ := yields_map.1 hrun
    have hmark := reads_word hend hkind rfl
    rw [← advance_errors s] at hclean
    obtain ⟨w, hreads, hproduces⟩ := htype (hmark.ending_kind hend) htyped hclean
    exact ⟨_, hmark.trans hreads, .typed hkind hproduces⟩
  · obtain ⟨rfl, rfl⟩ := yields_pure.1 hrun
    exact ⟨[], .refl _, .untyped⟩

theorem variableDeclWith_accounts (hthrifty : Thrifty type) (htype : Accounts type .type)
    (hend : s.ending.kind = .endOfFile) (hkind : s.current.kind = .kwVar) {id : VariableId}
    (hrun : Yields (variableDeclWith Grammar.standard type) s id s')
    (hclean : s'.errors.size ≤ s.errors.size) :
    ReadsEntry s (.declaration (.variable id)) s' := by
  rw [variableDeclWith, yields_advance_bind, yields_expect_bind] at hrun
  obtain ⟨hname, hrun⟩ := hrun
  obtain ⟨declared, s₁, htyped, hrun⟩ := yields_bind.1 hrun
  obtain ⟨value, s₂, hvalue, hrun⟩ := yields_bind.1 hrun
  rw [yields_spanFrom_bind] at hrun
  obtain ⟨u, s₃, hterminator, hrun⟩ := yields_bind.1 hrun
  obtain ⟨rfl, rfl⟩ := yields_add.1 hrun
  have hword := reads_word hend hkind rfl
  have hfront := hword.trans (reads_word (hword.ending_kind hend) hname rfl)
  have hend₀ := hfront.ending_kind hend
  obtain ⟨hle₁, hend₁⟩ := (annotation_thrifty hthrifty).keeps hend₀ htyped
  obtain ⟨hle₂, hend₂⟩ := initializer_thrifty.keeps hend₁ hvalue
  obtain ⟨hle₃, -⟩ := terminator_thrifty.keeps hend₂ hterminator
  simp only [advance_errors, added_errors] at hle₁ hclean
  obtain ⟨v, hreads₁, hdeclared⟩ := annotation_accounts htype hend₀ htyped
    (by simp only [advance_errors]; omega)
  obtain ⟨w, hreads₂, hinitial⟩ := initializer_accounts hend₁ hvalue (by omega)
  have hlast := terminator_extends hterminator .variable
    ⟨⟨s.advance.1.start, s₂.lastStop⟩, s.advance.2.advance.1.text, declared, value⟩
  have hall := (hfront.trans hreads₁).trans hreads₂
  refine .declaration hend hall hterminator ?_
  rw [advance_fst, advance_fst] at *
  exact .variable hkind hname (hdeclared.extend (hreads₂.arena.trans hlast.1))
    (hinitial.extend hlast.1) hlast.2

/-- A type in one word. -/
theorem derived_word_type {kind : TypeKind} (hend : s.ending.kind = .endOfFile)
    (hcurrent : s.current.kind ≠ .endOfFile)
    (hproduces : ∀ (a : Arena) (id : TypeId),
      a.get? id = some ⟨s.current.span, kind⟩ → a.Produces (.type id) [s.current])
    {id : TypeId}
    (hrun : Yields (add .type ⟨s.current.span, kind⟩) s.advance.2 id s') :
    s.Derived (.type id) s' := by
  obtain ⟨rfl, rfl⟩ := yields_add.1 hrun
  exact ⟨_, (reads_advance_of_current hend hcurrent).added .type _,
    hproduces _ _ (Arena.get?_add _ .type _)⟩

/-- The words for types of the standard grammar. -/
theorem standardType_cases {kind : TokenKind} {rule : TypeRule}
    (h : Grammar.standardType kind = some rule) :
    rule = .primitive ∧ kind ∈ [.kwInteger, .kwReal, .kwBoolean] ∨
      rule = .named ∧ kind = .identifier ∨ rule = .array ∧ kind = .kwArray ∨
        rule = .record ∧ kind = .kwRecord := by
  cases kind <;> simp_all [Grammar.standardType]

theorem primitiveType_accounts (hend : s.ending.kind = .endOfFile)
    (hkind : s.current.kind ∈ [.kwInteger, .kwReal, .kwBoolean]) {id : TypeId}
    (hrun : Yields primitiveType s id s') : s.Derived (.type id) s' := by
  have hcurrent : s.current.kind ≠ .endOfFile := by
    intro h
    rw [h] at hkind
    exact absurd hkind (by decide)
  rw [primitiveType, yields_advance_bind, advance_fst] at hrun
  simp only [List.mem_cons, List.not_mem_nil, or_false] at hkind
  rcases hkind with hkind | hkind | hkind
  · simp only [hkind] at hrun
    exact derived_word_type hend hcurrent (fun a id => .primitive (by rw [hkind]; decide)) hrun
  · simp only [hkind] at hrun
    exact derived_word_type hend hcurrent (fun a id => .primitive (by rw [hkind]; decide)) hrun
  · simp only [hkind] at hrun
    exact derived_word_type hend hcurrent (fun a id => .primitive (by rw [hkind]; decide)) hrun

theorem arrayType_accounts (hthrifty : Thrifty type) (htype : Accounts type .type)
    (hend : s.ending.kind = .endOfFile) (hkind : s.current.kind = .kwArray) {id : TypeId}
    (hrun : Yields (arrayType Grammar.standard type) s id s')
    (hclean : s'.errors.size ≤ s.errors.size) : s.Derived (.type id) s' := by
  rw [arrayType, yields_advance_bind] at hrun
  obtain ⟨length, s₁, hlength, hrun⟩ := yields_bind.1 hrun
  obtain ⟨element, s₂, helement, hrun⟩ := yields_bind.1 hrun
  rw [yields_spanFrom_bind] at hrun
  obtain ⟨rfl, rfl⟩ := yields_add.1 hrun
  have hword := reads_word hend hkind rfl
  have hend₀ := hword.ending_kind hend
  obtain ⟨hle₁, hend₁⟩ := arrayLength_thrifty.keeps hend₀ hlength
  obtain ⟨hle₂, hend₂⟩ := hthrifty.keeps hend₁ helement
  simp only [advance_errors, added_errors] at hle₁ hclean
  obtain ⟨v, hreads₁, hsize⟩ := arrayLength_accounts hend₀ hlength
    (by simp only [advance_errors]; omega)
  obtain ⟨w, hreads₂, hinner⟩ := htype hend₁ helement (by omega)
  have hadded := s₂.arena.extendedBy_add .type
    ⟨⟨s.advance.1.start, s₂.lastStop⟩, TypeKind.array length element⟩
  exact ⟨_, ((hword.trans hreads₁).trans hreads₂).added .type _,
    .array hkind (hsize.extend (hreads₂.arena.trans hadded)) (hinner.extend hadded)
      (s₂.arena.get?_add .type _)⟩

/-- The fields of a record as the entries of a sequence. -/
def fieldEntries (fields : List VariableId) : List SequenceEntry :=
  fields.map fun x => .declaration (.variable x)

theorem fieldRound_reads (hthrifty : Thrifty type) (htype : Accounts type .type)
    (hend : s.ending.kind = .endOfFile) {fields next : List VariableId}
    (h : BarringErrors s (ReadsSequence s (fieldEntries fields)) s₁)
    (hrun : Yields (fieldRound type fields) s₁ (.more next) s') :
    BarringErrors s (ReadsSequence s (fieldEntries next)) s' := by
  refine h.next (fieldRound_thrifty hthrifty fields) hrun fun hfront hclean => ?_
  simp only [fieldRound, yields_current_bind] at hrun
  split at hrun
  · rename_i hkind
    rw [yields_skip_bind] at hrun
    obtain ⟨heq, rfl⟩ := yields_pure.1 hrun
    cases heq
    exact hfront.separator hend (by rw [hkind]; decide)
  · rename_i hkind
    rw [yields_skip_bind] at hrun
    obtain ⟨heq, rfl⟩ := yields_pure.1 hrun
    cases heq
    exact hfront.separator hend (by rw [hkind]; decide)
  · rename_i hkind
    obtain ⟨id, s₂, hfield, hrun⟩ := yields_bind.1 hrun
    obtain ⟨heq, rfl⟩ := yields_pure.1 hrun
    cases heq
    rw [fieldEntries, List.map_append]
    exact hfront.entry (by rw [hkind]; decide)
      (variableDeclWith_accounts hthrifty htype h.ending_kind hkind hfield hclean)
  · cases (yields_pure.1 hrun).1

/-- The last round takes nothing. -/
theorem eq_of_fieldRound_done {fields last : List VariableId}
    (hrun : Yields (fieldRound type fields) s (.done last) s') : last = fields ∧ s' = s := by
  simp only [fieldRound, yields_current_bind] at hrun
  split at hrun
  · rw [yields_skip_bind] at hrun
    cases (yields_pure.1 hrun).1
  · rw [yields_skip_bind] at hrun
    cases (yields_pure.1 hrun).1
  · obtain ⟨_, _, -, hrun⟩ := yields_bind.1 hrun
    cases (yields_pure.1 hrun).1
  · obtain ⟨heq, rfl⟩ := yields_pure.1 hrun
    cases heq
    exact ⟨rfl, rfl⟩

theorem recordType_accounts (hthrifty : Thrifty type) (htype : Accounts type .type)
    (hend : s.ending.kind = .endOfFile) (hkind : s.current.kind = .kwRecord) {id : TypeId}
    (hrun : Yields (recordType Grammar.standard type) s id s')
    (hclean : s'.errors.size ≤ s.errors.size) : s.Derived (.type id) s' := by
  rw [recordType, yields_advance_bind] at hrun
  obtain ⟨fields, s₁, hfields, hrun⟩ := yields_bind.1 hrun
  obtain ⟨hcloses, hrun⟩ := yields_discard_expect_bind.1 hrun
  rw [yields_spanFrom_bind] at hrun
  obtain ⟨rfl, rfl⟩ := yields_add.1 hrun
  simp only [advance_errors, added_errors] at hclean
  have hword := reads_word hend hkind rfl
  have hend₀ := hword.ending_kind hend
  rw [recordFields_eq] at hfields
  obtain ⟨found, s₂, hfound, hlast⟩ := hfields.loop_invariant
    (motive := fun fields =>
      BarringErrors s.advance.2 (ReadsSequence s.advance.2 (fieldEntries fields)))
    ⟨Nat.le_refl _, hend₀, fun _ => .nil _⟩
    fun _ _ _ _ hfound hround => fieldRound_reads hthrifty htype hend₀ hfound hround
  obtain ⟨rfl, rfl⟩ := eq_of_fieldRound_done hlast
  obtain ⟨w, isOpen, hreads, hproduces, -⟩ := hfound.holds (by rw [advance_errors]; exact hclean)
  have hfront := hword.trans hreads
  have hclosing := reads_word (hfront.ending_kind hend) hcloses rfl
  have hadded := s₁.advance.2.arena.extendedBy_add .type
    ⟨⟨s.advance.1.start, s₁.advance.2.lastStop⟩, TypeKind.record fields⟩
  exact ⟨_, (hfront.trans hclosing).added .type _,
    .record hkind (hproduces.extend (hclosing.arena.trans hadded)) hcloses
      (s₁.advance.2.arena.get?_add .type _)⟩

theorem typeStep_accounts (hthrifty : Thrifty type) (htype : Accounts type .type) :
    Accounts (typeStep Grammar.standard type) .type := by
  intro s id s' hend hrun hclean
  simp only [typeStep, yields_current_bind] at hrun
  split at hrun
  · obtain ⟨d, s₁, -, hthrow⟩ := yields_bind.1 hrun
    exact absurd hthrow yields_throw
  · rename_i rule hrule
    rcases standardType_cases hrule with ⟨rfl, hkind⟩ | ⟨rfl, hkind⟩ | ⟨rfl, hkind⟩ | ⟨rfl, hkind⟩
    · exact primitiveType_accounts hend hkind hrun
    · rw [typeByRule, namedType, yields_expect_bind, advance_fst] at hrun
      exact derived_word_type hend (by rw [hkind]; decide) (fun a id => .named hkind) hrun.2
    · exact arrayType_accounts hthrifty htype hend hkind hrun hclean
    · exact recordType_accounts hthrifty htype hend hkind hrun hclean

end

theorem type_accounts : Accounts (type Grammar.standard) .type :=
  Accounts.recursive (c := fun _ => .type) (fun _ hself _ => typeStep_thrifty (hself ()))
    (fun _ hthrifty hself _ => typeStep_accounts (hthrifty ()) (hself ())) ()

theorem typeDecl_accounts (hend : s.ending.kind = .endOfFile) (hkind : s.current.kind = .kwType)
    {id : TypeDeclId} (hrun : Yields (typeDecl Grammar.standard) s id s')
    (hclean : s'.errors.size ≤ s.errors.size) : ReadsEntry s (.declaration (.type id)) s' := by
  rw [typeDecl, yields_advance_bind, yields_expect_bind, yields_discard_expect_bind] at hrun
  obtain ⟨hname, hannounces, hrun⟩ := hrun
  obtain ⟨inner, s₁, htype, hrun⟩ := yields_bind.1 hrun
  rw [yields_spanFrom_bind] at hrun
  obtain ⟨u, s₂, hterminator, hrun⟩ := yields_bind.1 hrun
  obtain ⟨rfl, rfl⟩ := yields_add.1 hrun
  have hword := reads_word hend hkind rfl
  have hnamed := hword.trans (reads_word (hword.ending_kind hend) hname rfl)
  have hfront := hnamed.trans (reads_word (hnamed.ending_kind hend) hannounces rfl)
  have hend₀ := hfront.ending_kind hend
  obtain ⟨hle₁, hend₁⟩ := type_thrifty.keeps hend₀ htype
  obtain ⟨hle₂, -⟩ := terminator_thrifty.keeps hend₁ hterminator
  simp only [advance_errors, added_errors] at hle₁ hclean
  obtain ⟨w, hreads, hproduces⟩ := type_accounts hend₀ htype
    (by simp only [advance_errors]; omega)
  have hlast := terminator_extends hterminator .typeDecl
    ⟨⟨s.advance.1.start, s₁.lastStop⟩, s.advance.2.advance.1.text, inner⟩
  refine .declaration hend (hfront.trans hreads) hterminator ?_
  rw [advance_fst, advance_fst] at *
  exact .typeDecl hkind hname hannounces (hproduces.extend hlast.1) hlast.2

end Parser

end ProcLang
