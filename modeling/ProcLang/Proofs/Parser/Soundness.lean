import ProcLang.Proofs.Parser.Accounts

/-!
# ProcLang.Proofs.Parser.Soundness

**The parser accepts nothing but the grammar, and drops no token** (`parse_derivation`). Where it
finds no error, the grammar derives all tokens of the text for the program it gives. What the rules
for types account for, those for statements, bodies and programs build on.
-/

namespace ProcLang

namespace Parser

open State Source

variable {s s₀ s₁ s' : State}

/-! ### Statements and bodies -/

theorem resultValue_accounts (hend : s.ending.kind = .endOfFile) {value : Option ExpressionId}
    (hrun : Yields (resultValue Grammar.standard) s value s')
    (hclean : s'.errors.size ≤ s.errors.size) :
    (value = none ∧ s' = s ∧ s.current.kind ∈ pauses) ∨
      ∃ id, value = some id ∧ s.Derived (.expression id) s' := by
  have hnothing : ∀ {kind}, s.current.kind = kind → kind ∈ pauses →
      Yields (pure none : Parser (Option ExpressionId)) s value s' →
      value = none ∧ s' = s ∧ s.current.kind ∈ pauses := by
    rintro kind rfl hkind hrun
    obtain ⟨rfl, rfl⟩ := yields_pure.1 hrun
    exact ⟨rfl, rfl, hkind⟩
  simp only [resultValue, yields_current_bind] at hrun
  split at hrun
  · exact Or.inl (hnothing ‹_› (by decide) hrun)
  · exact Or.inl (hnothing ‹_› (by decide) hrun)
  · exact Or.inl (hnothing ‹_› (by decide) hrun)
  · exact Or.inl (hnothing ‹_› (by decide) hrun)
  · exact Or.inl (hnothing ‹_› (by decide) hrun)
  · obtain ⟨placed, s₁, hvalue, hrun⟩ := yields_bind.1 hrun
    obtain ⟨rfl, rfl⟩ := yields_pure.1 hrun
    exact Or.inr ⟨_, rfl, expression_accounts hend hvalue hclean⟩

/-- An entry without a separator behind it. -/
theorem ReadsEntry.of_produces {w : List Token} {isOpen : Bool} {entry : SequenceEntry}
    (hreads : s.Reads w s') (hproduces : s'.arena.Produces (.entry isOpen entry) w)
    (hpause : isOpen = false → s'.current.kind ∈ pauses) : ReadsEntry s entry s' :=
  ⟨w, isOpen, [], by rwa [List.append_nil], hproduces, Or.inr ⟨rfl, hpause⟩⟩

theorem ReadsEntry.of_open {v w : List Token} {entry : SequenceEntry} (hreads : s.Reads v s')
    (hproduces : s'.arena.Produces (.entry true entry) w) (hwords : v = w) :
    ReadsEntry s entry s' :=
  .of_produces (hwords ▸ hreads) hproduces nofun

theorem returning_accounts (hend : s.ending.kind = .endOfFile) (hkind : s.current.kind = .kwReturn)
    {id : StatementId} (hrun : Yields (returning Grammar.standard) s id s')
    (hclean : s'.errors.size ≤ s.errors.size) : ReadsEntry s (.statement id) s' := by
  rw [returning, yields_advance_bind] at hrun
  obtain ⟨value, s₁, hvalue, hrun⟩ := yields_bind.1 hrun
  rw [yields_spanFrom_bind] at hrun
  obtain ⟨rfl, rfl⟩ := yields_add.1 hrun
  have hword := reads_word hend hkind rfl
  rw [added_errors, ← advance_errors s] at hclean
  have hget := s₁.arena.get?_add .statement
    ⟨⟨s.advance.1.start, s₁.lastStop⟩, StatementKind.returning value⟩
  rcases resultValue_accounts (hword.ending_kind hend) hvalue hclean with
    ⟨rfl, rfl, hpause⟩ | ⟨id, rfl, w, hreads, hproduces⟩
  · exact .of_produces (hword.added .statement _) (.bareReturn hkind hget) fun _ => hpause
  · exact .of_open ((hword.trans hreads).added .statement _)
      (.returning hkind (hproduces.extend (s₁.arena.extendedBy_add .statement _)) hget) rfl

theorem expressionStatement_accounts (hend : s.ending.kind = .endOfFile) {id : StatementId}
    (hrun : Yields (expressionStatement Grammar.standard) s id s')
    (hclean : s'.errors.size ≤ s.errors.size) : ReadsEntry s (.statement id) s' := by
  rw [expressionStatement, yields_current_bind] at hrun
  obtain ⟨first, s₁, hfirst, hrun⟩ := yields_bind.1 hrun
  obtain ⟨hle₁, hend₁⟩ := (expression_thrifty .loosest).keeps hend hfirst
  rw [yields_current_bind] at hrun
  split at hrun
  · rename_i hassign
    rw [yields_skip_bind] at hrun
    obtain ⟨value, s₂, hvalue, hrun⟩ := yields_bind.1 hrun
    rw [yields_spanFrom_bind] at hrun
    obtain ⟨rfl, rfl⟩ := yields_add.1 hrun
    have hmark := reads_word hend₁ hassign rfl
    obtain ⟨hle₂, -⟩ := (expression_thrifty .loosest).keeps (hmark.ending_kind hend₁) hvalue
    simp only [advance_errors, added_errors] at hle₂ hclean
    obtain ⟨v, hreads₁, hlhs⟩ := expression_accounts hend hfirst (by omega)
    obtain ⟨w, hreads₂, hrhs⟩ := expression_accounts (hmark.ending_kind hend₁) hvalue
      (by simp only [advance_errors]; omega)
    have hadded := s₂.arena.extendedBy_add .statement
      ⟨⟨s.current.start, s₂.lastStop⟩, StatementKind.assignment first.id value.id⟩
    exact .of_open (((hreads₁.trans hmark).trans hreads₂).added .statement _)
      (.assignment (hlhs.extend ((hmark.arena.trans hreads₂.arena).trans hadded)) hassign
        (hrhs.extend hadded) (s₂.arena.get?_add .statement _)) (List.append_assoc ..)
  · split at hrun
    · rename_i hcall
      rw [yields_spanFrom_bind] at hrun
      obtain ⟨rfl, rfl⟩ := yields_add.1 hrun
      obtain ⟨w, hreads, hproduces⟩ := expression_accounts hend hfirst hclean
      have hadded := s₁.arena.extendedBy_add .statement
        ⟨⟨s.current.start, s₁.lastStop⟩, StatementKind.call first.id⟩
      exact .of_open (hreads.added .statement _) (.call (hproduces.extend hadded)
        (hadded _ _ _ (expression_keeps .loosest s first s₁ hfirst).2) hcall
        (s₁.arena.get?_add .statement _)) rfl
    · exact absurd hrun yields_raise

section

variable {body : Parser BodyId}

/-- A body and the word that closes it. -/
theorem yields_closedBody {id : BodyId} : Yields (closedBody body) s id s' ↔
    ∃ s₁, Yields body s id s₁ ∧ s₁.current.kind = .kwEnd ∧ s' = s₁.advance.2 := by
  rw [closedBody, yields_bind]
  constructor
  · rintro ⟨inner, s₁, hbody, hrun⟩
    obtain ⟨hkind, hrun⟩ := yields_discard_expect_bind.1 hrun
    obtain ⟨rfl, rfl⟩ := yields_pure.1 hrun
    exact ⟨s₁, hbody, hkind, rfl⟩
  · rintro ⟨s₁, hbody, hkind, rfl⟩
    exact ⟨id, s₁, hbody, yields_discard_expect_bind.2 ⟨hkind, yields_pure.2 ⟨rfl, rfl⟩⟩⟩

theorem whileLoop_accounts (hthrifty : Thrifty body) (hbody : Accounts body .body)
    (hend : s.ending.kind = .endOfFile) (hkind : s.current.kind = .kwWhile) {id : StatementId}
    (hrun : Yields (whileLoop Grammar.standard body) s id s')
    (hclean : s'.errors.size ≤ s.errors.size) : ReadsEntry s (.statement id) s' := by
  rw [whileLoop, yields_advance_bind] at hrun
  obtain ⟨condition, s₁, hcondition, hrun⟩ := yields_bind.1 hrun
  obtain ⟨hbegins, hrun⟩ := yields_discard_expect_bind.1 hrun
  obtain ⟨inner, s₂, hclosed, hrun⟩ := yields_bind.1 hrun
  obtain ⟨s₂, hblock, hcloses, rfl⟩ := yields_closedBody.1 hclosed
  rw [yields_spanFrom_bind] at hrun
  obtain ⟨rfl, rfl⟩ := yields_add.1 hrun
  have hword := reads_word hend hkind rfl
  have hend₀ := hword.ending_kind hend
  obtain ⟨hle₁, hend₁⟩ := (expression_thrifty .loosest).keeps hend₀ hcondition
  have hmark := reads_word hend₁ hbegins rfl
  obtain ⟨hle₂, hend₂⟩ := hthrifty.keeps (hmark.ending_kind hend₁) hblock
  have hlast := reads_word hend₂ hcloses rfl
  simp only [advance_errors, added_errors] at hle₁ hle₂ hclean
  obtain ⟨v, hreads₁, htest⟩ := expression_accounts hend₀ hcondition
    (by simp only [advance_errors]; omega)
  obtain ⟨w, hreads₂, hinner⟩ := hbody (hmark.ending_kind hend₁) hblock
    (by simp only [advance_errors]; omega)
  have hadded := s₂.advance.2.arena.extendedBy_add .statement
    ⟨⟨s.advance.1.start, s₂.advance.2.lastStop⟩, StatementKind.whileLoop condition.id inner⟩
  have hafter := hlast.arena.trans hadded
  have hall := (((hword.trans hreads₁).trans hmark).trans hreads₂).trans hlast
  refine .of_open (hall.added .statement _) (.whileLoop hkind
    (htest.extend ((hmark.arena.trans hreads₂.arena).trans hafter)) hbegins (hinner.extend hafter)
    hcloses (s₂.advance.2.arena.get?_add .statement _)) ?_
  simp only [List.append_assoc, List.cons_append, List.nil_append]

/-- What the name of a counter declares. -/
theorem yields_counter {name : Token} {id : VariableId} (h : Yields (counter name) s id s') :
    s'.errors = s.errors ∧ s.Reads [] s' ∧
      ∃ type, s'.arena.get? id = some ⟨name.span, name.text, some type, none⟩ ∧
        s'.arena.get? type = some ⟨name.span, .integer⟩ := by
  obtain ⟨type, s₁, htype, hvariable⟩ := yields_bind.1 h
  obtain ⟨rfl, rfl⟩ := yields_add.1 htype
  obtain ⟨rfl, rfl⟩ := yields_add.1 hvariable
  exact ⟨rfl, ((Reads.refl s).added .type _).added .variable _, _, Arena.get?_add _ .variable _,
    Arena.extendedBy_add _ .variable _ _ _ _ (s.arena.get?_add .type _)⟩

/-- What a counting loop reads behind its direction. -/
def countedLoop (body : Parser BodyId) (start : Position) (name : Token) (reverse : Bool) :
    Parser StatementId := do
  let first ← expression Grammar.standard .loosest
  discard <| expect .dotDot "`..`"
  let last ← expression Grammar.standard .loosest
  discard <| expect .kwLoop "`loop`"
  let counter ← counter name
  let inner ← closedBody body
  let span ← spanFrom start
  add .statement ⟨span, .forLoop counter first.id last.id reverse inner⟩

/-- A counting loop, up to its direction and behind it. -/
theorem yields_forLoop {id : StatementId} (h : Yields (forLoop Grammar.standard body) s id s') :
    s.advance.2.current.kind = .identifier ∧ s.advance.2.advance.2.current.kind = .kwIn ∧
      ∃ reverse s₁, (s.advance.2.advance.2.advance.2.current.kind = .kwReverse ∧ reverse = true ∧
          s₁ = s.advance.2.advance.2.advance.2.advance.2 ∨
        reverse = false ∧ s₁ = s.advance.2.advance.2.advance.2) ∧
      Yields (countedLoop body s.current.start s.advance.2.current reverse) s₁ id s' := by
  rw [forLoop, yields_advance_bind, yields_expect_bind, yields_discard_expect_bind, advance_fst,
    advance_fst] at h
  obtain ⟨hname, hannounces, h⟩ := h
  rw [yields_current_bind] at h
  refine ⟨hname, hannounces, ?_⟩
  by_cases hreverse : s.advance.2.advance.2.advance.2.current.kind = .kwReverse
  · simp only [hreverse, beq_self_eq_true, if_true, yields_skip_bind] at h
    exact ⟨true, _, Or.inl ⟨hreverse, rfl, rfl⟩, h⟩
  · simp only [beq_eq_false_iff_ne.2 hreverse, Bool.false_eq_true, if_false] at h
    exact ⟨false, _, Or.inr ⟨rfl, rfl⟩, h⟩

theorem forLoop_accounts (hthrifty : Thrifty body) (hbody : Accounts body .body)
    (hend : s.ending.kind = .endOfFile) (hkind : s.current.kind = .kwFor) {id : StatementId}
    (hrun : Yields (forLoop Grammar.standard body) s id s')
    (hclean : s'.errors.size ≤ s.errors.size) : ReadsEntry s (.statement id) s' := by
  obtain ⟨hname, hannounces, reverse, s₀, hdirection, hrun⟩ := yields_forLoop hrun
  have hword := reads_word hend hkind rfl
  have hnamed := hword.trans (reads_word (hword.ending_kind hend) hname rfl)
  have hfront := hnamed.trans (reads_word (hnamed.ending_kind hend) hannounces rfl)
  obtain ⟨t, hreads₀, herrors₀, horder⟩ : ∃ t, s.advance.2.advance.2.advance.2.Reads t s₀ ∧
      s₀.errors = s.errors ∧ s₀.arena.Produces (.direction reverse) t := by
    rcases hdirection with ⟨hreverse, rfl, rfl⟩ | ⟨rfl, rfl⟩
    · exact ⟨_, reads_word (hfront.ending_kind hend) hreverse rfl, by simp only [advance_errors],
        .downward hreverse⟩
    · exact ⟨[], .refl _, by simp only [advance_errors], .upward⟩
  have hhead := hfront.trans hreads₀
  have hend₀ := hhead.ending_kind hend
  rw [countedLoop] at hrun
  obtain ⟨first, s₁, hfirst, hrun⟩ := yields_bind.1 hrun
  obtain ⟨hdivides, hrun⟩ := yields_discard_expect_bind.1 hrun
  obtain ⟨last, s₂, hlast, hrun⟩ := yields_bind.1 hrun
  obtain ⟨hbegins, hrun⟩ := yields_discard_expect_bind.1 hrun
  obtain ⟨x, s₃, hcounter, hrun⟩ := yields_bind.1 hrun
  obtain ⟨inner, s₄, hclosed, hrun⟩ := yields_bind.1 hrun
  obtain ⟨s₄, hblock, hcloses, rfl⟩ := yields_closedBody.1 hclosed
  rw [yields_spanFrom_bind] at hrun
  obtain ⟨rfl, rfl⟩ := yields_add.1 hrun
  obtain ⟨herrors₃, hreads₃, type, hcounts, hinteger⟩ := yields_counter hcounter
  -- as many errors stand behind each part as in front of it
  obtain ⟨hle₁, hend₁⟩ := (expression_thrifty .loosest).keeps hend₀ hfirst
  have hdots := reads_word hend₁ hdivides rfl
  obtain ⟨hle₂, hend₂⟩ := (expression_thrifty .loosest).keeps (hdots.ending_kind hend₁) hlast
  have hbegin := reads_word hend₂ hbegins rfl
  have hend₃ := hreads₃.ending_kind (hbegin.ending_kind hend₂)
  obtain ⟨hle₄, hend₄⟩ := hthrifty.keeps hend₃ hblock
  have hclosing := reads_word hend₄ hcloses rfl
  simp only [advance_errors, added_errors] at hle₁ hle₂ herrors₃ hclean
  rw [herrors₀] at hle₁
  rw [herrors₃] at hle₄
  obtain ⟨u, hreads₁, hbottom⟩ := expression_accounts hend₀ hfirst (by rw [herrors₀]; omega)
  obtain ⟨v, hreads₂, htop⟩ := expression_accounts (hdots.ending_kind hend₁) hlast
    (by simp only [advance_errors]; omega)
  obtain ⟨w, hreads₄, hinner⟩ := hbody hend₃ hblock (by rw [herrors₃]; omega)
  -- what was built stays up to the end
  have hadded := s₄.advance.2.arena.extendedBy_add .statement
    ⟨⟨s.current.start, s₄.advance.2.lastStop⟩,
      StatementKind.forLoop x first.id last.id reverse inner⟩
  have hafter₄ := hclosing.arena.trans hadded
  have hafter₃ := hreads₄.arena.trans hafter₄
  have hafter₂ := (hbegin.arena.trans hreads₃.arena).trans hafter₃
  have hafter₁ := (hdots.arena.trans hreads₂.arena).trans hafter₂
  have hall := (((((hhead.trans hreads₁).trans hdots).trans hreads₂).trans hbegin).trans
    hreads₃).trans (hreads₄.trans hclosing)
  refine .of_open (hall.added .statement _) (.forLoop hkind hname hannounces
    (horder.extend (hreads₁.arena.trans hafter₁)) (hbottom.extend hafter₁) hdivides
    (htop.extend hafter₂) hbegins (hinner.extend hafter₄) hcloses (hafter₃ _ _ _ hcounts)
    (hafter₃ _ _ _ hinteger) (s₄.advance.2.arena.get?_add .statement _)) ?_
  simp only [List.append_assoc, List.cons_append, List.nil_append]

theorem elseBranch_accounts (hbody : Accounts body .body) :
    Accounts (elseBranch body) .elseBranch := by
  intro s id s' hend hrun hclean
  simp only [elseBranch, yields_current_bind] at hrun
  split at hrun
  · rename_i hkind
    rw [yields_skip_bind] at hrun
    obtain ⟨id, hblock, rfl⟩ := yields_map.1 hrun
    have hword := reads_word hend hkind rfl
    rw [← advance_errors s] at hclean
    obtain ⟨w, hreads, hproduces⟩ := hbody (hword.ending_kind hend) hblock hclean
    exact ⟨_, hword.trans hreads, .otherwise hkind hproduces⟩
  · obtain ⟨rfl, rfl⟩ := yields_pure.1 hrun
    exact ⟨[], .refl _, .noElse⟩

theorem branch_accounts (hthrifty : Thrifty body) (hbody : Accounts body .body)
    (hend : s.ending.kind = .endOfFile) (hkind : s.current.kind = .kwIf) {id : StatementId}
    (hrun : Yields (branch Grammar.standard body) s id s')
    (hclean : s'.errors.size ≤ s.errors.size) : ReadsEntry s (.statement id) s' := by
  rw [branch, yields_advance_bind] at hrun
  obtain ⟨condition, s₁, hcondition, hrun⟩ := yields_bind.1 hrun
  obtain ⟨hbegins, hrun⟩ := yields_discard_expect_bind.1 hrun
  obtain ⟨thenBody, s₂, hthen, hrun⟩ := yields_bind.1 hrun
  obtain ⟨elseBody, s₃, helse, hrun⟩ := yields_bind.1 hrun
  obtain ⟨hcloses, hrun⟩ := yields_discard_expect_bind.1 hrun
  rw [yields_spanFrom_bind] at hrun
  obtain ⟨rfl, rfl⟩ := yields_add.1 hrun
  have hword := reads_word hend hkind rfl
  have hend₀ := hword.ending_kind hend
  obtain ⟨hle₁, hend₁⟩ := (expression_thrifty .loosest).keeps hend₀ hcondition
  have hmark := reads_word hend₁ hbegins rfl
  obtain ⟨hle₂, hend₂⟩ := hthrifty.keeps (hmark.ending_kind hend₁) hthen
  obtain ⟨hle₃, hend₃⟩ := (elseBranch_thrifty hthrifty).keeps hend₂ helse
  have hlast := reads_word hend₃ hcloses rfl
  simp only [advance_errors, added_errors] at hle₁ hle₂ hclean
  obtain ⟨u, hreads₁, htest⟩ := expression_accounts hend₀ hcondition
    (by simp only [advance_errors]; omega)
  obtain ⟨v, hreads₂, hblock⟩ := hbody (hmark.ending_kind hend₁) hthen
    (by simp only [advance_errors]; omega)
  obtain ⟨w, hreads₃, hother⟩ := elseBranch_accounts hbody hend₂ helse (by omega)
  have hadded := s₃.advance.2.arena.extendedBy_add .statement
    ⟨⟨s.advance.1.start, s₃.advance.2.lastStop⟩,
      StatementKind.branch condition.id thenBody elseBody⟩
  have hafter₃ := hlast.arena.trans hadded
  have hafter₂ := hreads₃.arena.trans hafter₃
  have hafter₁ := (hmark.arena.trans hreads₂.arena).trans hafter₂
  have hall := ((((hword.trans hreads₁).trans hmark).trans hreads₂).trans hreads₃).trans hlast
  refine .of_open (hall.added .statement _) (.branch hkind (htest.extend hafter₁) hbegins
    (hblock.extend hafter₂) (hother.extend hafter₃) hcloses
    (s₃.advance.2.arena.get?_add .statement _)) ?_
  simp only [List.append_assoc, List.cons_append, List.nil_append]

/-- The words for statements of the standard grammar. -/
theorem standardStatement_cases {kind : TokenKind} {rule : StatementRule}
    (h : Grammar.standardStatement kind = some rule) :
    rule = .whileLoop ∧ kind = .kwWhile ∨ rule = .forLoop ∧ kind = .kwFor ∨
      rule = .branch ∧ kind = .kwIf ∨ rule = .returning ∧ kind = .kwReturn := by
  cases kind <;> simp_all [Grammar.standardStatement]

theorem statementWith_accounts (hthrifty : Thrifty body) (hbody : Accounts body .body)
    (hend : s.ending.kind = .endOfFile) {id : StatementId}
    (hrun : Yields (statementWith Grammar.standard body) s id s')
    (hclean : s'.errors.size ≤ s.errors.size) : ReadsEntry s (.statement id) s' := by
  simp only [statementWith, yields_current_bind] at hrun
  split at hrun
  · rename_i rule hrule
    rcases standardStatement_cases hrule with
      ⟨rfl, hkind⟩ | ⟨rfl, hkind⟩ | ⟨rfl, hkind⟩ | ⟨rfl, hkind⟩
    · exact whileLoop_accounts hthrifty hbody hend hkind hrun hclean
    · exact forLoop_accounts hthrifty hbody hend hkind hrun hclean
    · exact branch_accounts hthrifty hbody hend hkind hrun hclean
    · exact returning_accounts hend hkind hrun hclean
  · exact expressionStatement_accounts hend hrun hclean

/-- The items of a body are the entries of a sequence, in the order in which they are written. -/
structure BodyItems.Lists (items : BodyItems) (entries : List SequenceEntry) : Prop where
  declarations : items.declarations = SequenceEntry.declarations entries
  statements : items.statements = SequenceEntry.statements entries
  locals : ∀ r, .declaration (.routine r) ∉ entries

namespace BodyItems.Lists

variable {items : BodyItems} {entries : List SequenceEntry}

/-- One more declaration. -/
theorem declaration (h : items.Lists entries) {d : Declaration} (hd : ∀ r, d ≠ .routine r) :
    BodyItems.Lists { items with declarations := items.declarations ++ [d] }
      (entries ++ [.declaration d]) where
  declarations := by simp [h.declarations, SequenceEntry.declarations]
  statements := by simp [h.statements, SequenceEntry.statements]
  locals r hmem := by
    rcases List.mem_append.1 hmem with hmem | hmem
    · exact h.locals r hmem
    · injection List.mem_singleton.1 hmem with heq
      exact hd r heq.symm

/-- One more statement. -/
theorem statement (h : items.Lists entries) (id : StatementId) :
    BodyItems.Lists { items with statements := items.statements ++ [id] }
      (entries ++ [.statement id]) where
  declarations := by simp [h.declarations, SequenceEntry.declarations]
  statements := by simp [h.statements, SequenceEntry.statements]
  locals r hmem := by simpa using (List.mem_append.1 hmem).resolve_left (h.locals r)

end BodyItems.Lists

theorem bodyItem_accounts (hthrifty : Thrifty body) (hbody : Accounts body .body)
    (hend : s.ending.kind = .endOfFile) {items next : BodyItems} {entries : List SequenceEntry}
    (hlists : items.Lists entries)
    (hrun : Yields (bodyItem Grammar.standard body items) s next s')
    (hclean : s'.errors.size ≤ s.errors.size) :
    ∃ entry, next.Lists (entries ++ [entry]) ∧ ReadsEntry s entry s' := by
  simp only [bodyItem, yields_current_bind] at hrun
  split at hrun
  · rename_i hkind
    obtain ⟨id, s₁, hitem, hrun⟩ := yields_bind.1 hrun
    obtain ⟨rfl, rfl⟩ := yields_pure.1 hrun
    refine ⟨.declaration (.variable id), ?_,
      variableDeclWith_accounts type_thrifty type_accounts hend hkind hitem hclean⟩
    exact hlists.declaration nofun
  · rename_i hkind
    obtain ⟨id, s₁, hitem, hrun⟩ := yields_bind.1 hrun
    obtain ⟨rfl, rfl⟩ := yields_pure.1 hrun
    refine ⟨.declaration (.type id), ?_, typeDecl_accounts hend hkind hitem hclean⟩
    exact hlists.declaration nofun
  · exact absurd hrun yields_refuse
  · obtain ⟨id, s₁, hitem, hrun⟩ := yields_bind.1 hrun
    obtain ⟨rfl, rfl⟩ := yields_pure.1 hrun
    exact ⟨.statement id, hlists.statement id,
      statementWith_accounts hthrifty hbody hend hitem hclean⟩

/-- The items of a body were read as a sequence. -/
def ReadsItems (s : State) (items : BodyItems) (s' : State) : Prop :=
  ∃ entries, items.Lists entries ∧ ReadsSequence s entries s'

theorem bodyRound_reads (hthrifty : Thrifty body) (hbody : Accounts body .body)
    (hend : s.ending.kind = .endOfFile) {items next : BodyItems}
    (h : BarringErrors s (ReadsItems s items) s₁)
    (hrun : Yields (bodyRound body items) s₁ (.more next) s') :
    BarringErrors s (ReadsItems s next) s' := by
  refine h.next (bodyRound_thrifty hthrifty items) hrun fun ⟨entries, hlists, hfront⟩ hclean => ?_
  simp only [bodyRound, yields_current_bind] at hrun
  split at hrun
  · rename_i hkind
    rw [yields_skip_bind] at hrun
    obtain ⟨heq, rfl⟩ := yields_pure.1 hrun
    cases heq
    exact ⟨entries, hlists, hfront.separator hend (by rw [hkind]; decide)⟩
  · rename_i hkind
    rw [yields_skip_bind] at hrun
    obtain ⟨heq, rfl⟩ := yields_pure.1 hrun
    cases heq
    exact ⟨entries, hlists, hfront.separator hend (by rw [hkind]; decide)⟩
  · cases (yields_pure.1 hrun).1
  · cases (yields_pure.1 hrun).1
  · exact absurd hrun yields_raise
  · rename_i hnewline hsemicolon hend' helse hfile
    obtain ⟨after, s₂, hitem, hrun⟩ := yields_bind.1 hrun
    obtain ⟨heq, rfl⟩ := yields_pure.1 hrun
    cases heq
    have hyields := yields_of_recovering (bodyItem_opens hthrifty items).thrifty h.ending_kind hitem
      hclean
    obtain ⟨entry, hlists, hentry⟩ :=
      bodyItem_accounts hthrifty hbody h.ending_kind hlists hyields hclean
    refine ⟨_, hlists, hfront.entry ?_ hentry⟩
    simpa [pauses] using ⟨hnewline, hsemicolon, hend', helse, hfile⟩

/-- The last round takes nothing. -/
theorem eq_of_bodyRound_done {items last : BodyItems}
    (hrun : Yields (bodyRound body items) s (.done last) s') : last = items ∧ s' = s := by
  simp only [bodyRound, yields_current_bind] at hrun
  split at hrun
  · rw [yields_skip_bind] at hrun
    cases (yields_pure.1 hrun).1
  · rw [yields_skip_bind] at hrun
    cases (yields_pure.1 hrun).1
  · obtain ⟨heq, rfl⟩ := yields_pure.1 hrun
    cases heq
    exact ⟨rfl, rfl⟩
  · obtain ⟨heq, rfl⟩ := yields_pure.1 hrun
    cases heq
    exact ⟨rfl, rfl⟩
  · exact absurd hrun yields_raise
  · obtain ⟨_, _, -, hrun⟩ := yields_bind.1 hrun
    cases (yields_pure.1 hrun).1

theorem bodyStep_accounts (hthrifty : Thrifty body) (hbody : Accounts body .body) :
    Accounts (bodyStep Grammar.standard body) .body := by
  intro s id s' hend hrun hclean
  rw [bodyStep, yields_current_bind, bodyItems_eq] at hrun
  obtain ⟨items, s₁, hitems, hrun⟩ := yields_bind.1 hrun
  rw [yields_spanFrom_bind, yields_note_bind] at hrun
  obtain ⟨rfl, rfl⟩ := yields_add.1 hrun
  obtain ⟨found, s₂, hfound, hlast⟩ := hitems.loop_invariant
    (motive := fun items => BarringErrors s (ReadsItems s items))
    ⟨Nat.le_refl _, hend, fun _ => ⟨[], ⟨rfl, rfl, nofun⟩, .nil s⟩⟩
    fun _ _ _ _ hfound hround => bodyRound_reads hthrifty hbody hend hfound hround
  obtain ⟨rfl, rfl⟩ := eq_of_bodyRound_done hlast
  obtain ⟨entries, hlists, w, isOpen, hreads, hproduces, -⟩ := hfound.holds hclean
  obtain ⟨ds, ids⟩ := items
  obtain ⟨rfl, rfl, hlocals⟩ := hlists
  have hnoted := hreads.trans (s₁.skips_note (.bodyParsed s.current.start
    (SequenceEntry.declarations entries).length (SequenceEntry.statements entries).length)).reads
  rw [List.append_nil] at hnoted
  exact ⟨w, hnoted.added .body _, .body (hproduces.extend (s₁.arena.extendedBy_add .body _))
    hlocals (s₁.arena.get?_add .body _)⟩

end

theorem body_accounts : Accounts (body Grammar.standard) .body :=
  Accounts.recursive (c := fun _ => .body) (fun _ hself _ => bodyStep_thrifty (hself ()))
    (fun _ hthrifty hself _ => bodyStep_accounts (hthrifty ()) (hself ())) ()

/-! ### Programs -/

theorem parameter_accounts : Accounts (parameter Grammar.standard) .parameter := by
  intro s id s' hend hrun hclean
  rw [parameter, yields_expect_bind, yields_discard_expect_bind] at hrun
  obtain ⟨hname, hcolon, hrun⟩ := hrun
  obtain ⟨type, s₁, htype, hrun⟩ := yields_bind.1 hrun
  rw [yields_spanFrom_bind, advance_fst] at hrun
  obtain ⟨rfl, rfl⟩ := yields_add.1 hrun
  have hnamed := reads_word hend hname rfl
  have hfront := hnamed.trans (reads_word (hnamed.ending_kind hend) hcolon rfl)
  obtain ⟨w, hreads, hinner⟩ := type_accounts (hfront.ending_kind hend) htype
    (by simpa only [advance_errors, added_errors] using hclean)
  exact ⟨_, (hfront.trans hreads).added .variable _,
    .parameter hname hcolon (hinner.extend (s₁.arena.extendedBy_add .variable _))
      (s₁.arena.get?_add .variable _)⟩

/-- What stands in front of a parameter: nothing, or other parameters and a comma. -/
def ReadsFront (s : State) (ids : List VariableId) (s' : State) : Prop :=
  (ids = [] ∧ s.Reads [] s') ∨ (ids ≠ [] ∧ ∃ w comma, comma.kind = .comma ∧
    s.Reads (w ++ [comma]) s' ∧ s'.arena.Produces (.parameters ids) w)

/-- One more parameter. -/
theorem ReadsFront.next {ids : List VariableId} {id : VariableId} (h : ReadsFront s ids s₁)
    (hlast : s₁.Derived (.parameter id) s') : s.Derived (.parameters (ids ++ [id])) s' := by
  obtain ⟨v, hreads, hproduces⟩ := hlast
  rcases h with ⟨rfl, hnone⟩ | ⟨hsome, w, comma, hcomma, hfront, hbefore⟩
  · exact ⟨_, hnone.trans hreads, .firstParameter hproduces⟩
  · refine ⟨_, hfront.trans hreads, ?_⟩
    rw [List.append_assoc]
    exact .nextParameter hsome (hbefore.extend hreads.arena) hcomma hproduces

theorem commaStep_reads {ids next : List VariableId}
    (h : BarringErrors s (ReadsFront s ids) s₁)
    (hrun : Yields (commaStep (parameter Grammar.standard) ids) s₁ (.more next) s') :
    BarringErrors s (ReadsFront s next) s' := by
  obtain ⟨id, s₂, hitem, ⟨hcomma, heq, rfl⟩ | ⟨-, heq, -⟩⟩ := yields_commaStep.1 hrun
  · cases heq
    have hbefore := h.next parameter_thrifty hitem fun hfront hclean =>
      hfront.next (parameter_accounts h.ending_kind hitem hclean)
    refine hbefore.next .advance (yields_advance.2 rfl) fun ⟨w, hreads, hproduces⟩ _ => Or.inr ?_
    have hmark := reads_word hbefore.ending_kind hcomma rfl
    exact ⟨by simp, w, _, hcomma, hreads.trans hmark, hproduces.extend hmark.arena⟩
  · cases heq

theorem parameters_accounts : Accounts (parameters Grammar.standard) .parameters := by
  intro s ids s' hend hrun hclean
  simp only [parameters, yields_current_bind] at hrun
  split at hrun
  · obtain ⟨rfl, rfl⟩ := yields_pure.1 hrun
    exact ⟨[], .refl _, .noParameters⟩
  · rw [commaSeparated_eq] at hrun
    obtain ⟨front, s₁, hfront, hlast⟩ := hrun.loop_invariant
      (motive := fun ids => BarringErrors s (ReadsFront s ids))
      ⟨Nat.le_refl _, hend, fun _ => Or.inl ⟨rfl, .refl s⟩⟩
      fun _ _ _ _ hfront hround => commaStep_reads hfront hround
    obtain ⟨id, s₂, hitem, ⟨-, heq, -⟩ | ⟨-, heq, rfl⟩⟩ := yields_commaStep.1 hlast
    · cases heq
    · cases heq
      have hall := hfront.next (Q := s.Derived (.parameters (front ++ [id]))) parameter_thrifty
        hitem fun hbefore hclean =>
          hbefore.next (parameter_accounts hfront.ending_kind hitem hclean)
      exact hall.holds hclean

theorem routineDecl_accounts (hend : s.ending.kind = .endOfFile)
    (hkind : s.current.kind = .kwRoutine) {id : RoutineId}
    (hrun : Yields (routineDecl Grammar.standard) s id s')
    (hclean : s'.errors.size ≤ s.errors.size) :
    ReadsEntry s (.declaration (.routine id)) s' := by
  rw [routineDecl, yields_advance_bind, yields_expect_bind, yields_discard_expect_bind, advance_fst,
    advance_fst] at hrun
  obtain ⟨hname, hopens, hrun⟩ := hrun
  obtain ⟨ids, s₁, hparameters, hrun⟩ := yields_bind.1 hrun
  obtain ⟨hcloses, hrun⟩ := yields_discard_expect_bind.1 hrun
  obtain ⟨result, s₂, hresult, hrun⟩ := yields_bind.1 hrun
  obtain ⟨hannounces, hrun⟩ := yields_discard_expect_bind.1 hrun
  obtain ⟨inner, s₃, hbody, hrun⟩ := yields_bind.1 hrun
  obtain ⟨hends, hrun⟩ := yields_discard_expect_bind.1 hrun
  rw [yields_spanFrom_bind] at hrun
  obtain ⟨rfl, rfl⟩ := yields_add.1 hrun
  have hword := reads_word hend hkind rfl
  have hnamed := hword.trans (reads_word (hword.ending_kind hend) hname rfl)
  have hfront := hnamed.trans (reads_word (hnamed.ending_kind hend) hopens rfl)
  have hend₀ := hfront.ending_kind hend
  obtain ⟨hle₁, hend₁⟩ := parameters_thrifty.keeps hend₀ hparameters
  have hclosing := reads_word hend₁ hcloses rfl
  obtain ⟨hle₂, hend₂⟩ :=
    (annotation_thrifty type_thrifty).keeps (hclosing.ending_kind hend₁) hresult
  have hmark := reads_word hend₂ hannounces rfl
  obtain ⟨hle₃, hend₃⟩ := body_thrifty.keeps (hmark.ending_kind hend₂) hbody
  have hlast := reads_word hend₃ hends rfl
  simp only [advance_errors, added_errors] at hle₁ hle₂ hle₃ hclean
  obtain ⟨u, hreads₁, hinner⟩ := parameters_accounts hend₀ hparameters
    (by simp only [advance_errors]; omega)
  obtain ⟨v, hreads₂, hdeclared⟩ := annotation_accounts type_accounts (hclosing.ending_kind hend₁)
    hresult (by simp only [advance_errors]; omega)
  obtain ⟨w, hreads₃, hblock⟩ := body_accounts (hmark.ending_kind hend₂) hbody
    (by simp only [advance_errors]; omega)
  have hadded := s₃.advance.2.arena.extendedBy_add .routine
    ⟨⟨s.current.start, s₃.advance.2.lastStop⟩, s.advance.2.current.text, ids, result, inner⟩
  have hafter₃ := hlast.arena.trans hadded
  have hafter₂ := (hmark.arena.trans hreads₃.arena).trans hafter₃
  have hafter₁ := (hclosing.arena.trans hreads₂.arena).trans hafter₂
  have hall := (((((hfront.trans hreads₁).trans hclosing).trans hreads₂).trans hmark).trans
    hreads₃).trans hlast
  refine .of_open (hall.added .routine _) (.routine hkind hname hopens (hinner.extend hafter₁)
    hcloses (hdeclared.extend hafter₂) hannounces (hblock.extend hafter₃) hends
    (s₃.advance.2.arena.get?_add .routine _)) ?_
  simp only [List.append_assoc, List.cons_append, List.nil_append]

theorem declaration_accounts (hend : s.ending.kind = .endOfFile) {d : Declaration}
    (hrun : Yields (declaration Grammar.standard) s d s')
    (hclean : s'.errors.size ≤ s.errors.size) :
    s.current.kind ∉ pauses ∧ ReadsEntry s (.declaration d) s' := by
  simp only [declaration, yields_current_bind] at hrun
  split at hrun
  · rename_i hkind
    obtain ⟨id, hroutine, rfl⟩ := yields_map.1 hrun
    exact ⟨by rw [hkind]; decide, routineDecl_accounts hend hkind hroutine hclean⟩
  · rename_i hkind
    obtain ⟨id, hvariable, rfl⟩ := yields_map.1 hrun
    exact ⟨by rw [hkind]; decide,
      variableDeclWith_accounts type_thrifty type_accounts hend hkind hvariable hclean⟩
  · rename_i hkind
    obtain ⟨id, htype, rfl⟩ := yields_map.1 hrun
    exact ⟨by rw [hkind]; decide, typeDecl_accounts hend hkind htype hclean⟩
  · exact absurd hrun yields_refuse

theorem declarationsRound_reads (hend : s.ending.kind = .endOfFile) {found next : List Declaration}
    (h : BarringErrors s (ReadsSequence s (found.map .declaration)) s₁)
    (hrun : Yields (declarationsRound found) s₁ (.more next) s') :
    BarringErrors s (ReadsSequence s (next.map .declaration)) s' := by
  refine h.next (declarationsRound_thrifty found) hrun fun hfront hclean => ?_
  simp only [declarationsRound, yields_current_bind] at hrun
  split at hrun
  · cases (yields_pure.1 hrun).1
  · rename_i hkind
    rw [yields_skip_bind] at hrun
    obtain ⟨heq, rfl⟩ := yields_pure.1 hrun
    cases heq
    exact hfront.separator hend (by rw [hkind]; decide)
  · rename_i hkind
    rw [yields_skip_bind] at hrun
    obtain ⟨heq, rfl⟩ := yields_pure.1 hrun
    cases heq
    exact hfront.separator hend (by rw [hkind]; decide)
  · obtain ⟨after, s₂, hitem, hrun⟩ := yields_bind.1 hrun
    obtain ⟨heq, rfl⟩ := yields_pure.1 hrun
    cases heq
    have hyields := yields_of_recovering (nextDeclaration_opens found).thrifty h.ending_kind hitem
      hclean
    obtain ⟨d, s₃, hd, hyields⟩ := yields_bind.1 hyields
    obtain ⟨rfl, rfl⟩ := yields_pure.1 hyields
    obtain ⟨hkind, hentry⟩ := declaration_accounts h.ending_kind hd hclean
    rw [List.map_append]
    exact hfront.entry hkind hentry

/-- The last round takes nothing. -/
theorem eq_of_declarationsRound_done {found last : List Declaration}
    (hrun : Yields (declarationsRound found) s (.done last) s') : last = found ∧ s' = s := by
  simp only [declarationsRound, yields_current_bind] at hrun
  split at hrun
  · obtain ⟨heq, rfl⟩ := yields_pure.1 hrun
    cases heq
    exact ⟨rfl, rfl⟩
  · rw [yields_skip_bind] at hrun
    cases (yields_pure.1 hrun).1
  · rw [yields_skip_bind] at hrun
    cases (yields_pure.1 hrun).1
  · obtain ⟨_, _, -, hrun⟩ := yields_bind.1 hrun
    cases (yields_pure.1 hrun).1

theorem declarations_reads (hend : s.ending.kind = .endOfFile) {found : List Declaration}
    (hrun : Yields (declarations Grammar.standard) s found s')
    (hclean : s'.errors.size ≤ s.errors.size) : ReadsSequence s (found.map .declaration) s' := by
  rw [declarations_eq] at hrun
  obtain ⟨found', s₁, hfound, hlast⟩ := hrun.loop_invariant
    (motive := fun found => BarringErrors s (ReadsSequence s (found.map .declaration)))
    ⟨Nat.le_refl _, hend, fun _ => .nil s⟩
    fun _ _ _ _ hfound hround => declarationsRound_reads hend hfound hround
  obtain ⟨rfl, rfl⟩ := eq_of_declarationsRound_done hlast
  exact hfound.holds hclean

end Parser

/-- **The parser accepts nothing but the grammar, and drops no token.** Where a source text is read
without errors, the grammar derives its tokens up to the end of the text, all of them and in their
order, for the program that is returned; every node of it belongs to that one tree. So an illegal
token always gets an error. -/
theorem parse_derivation (source : String) (h : (parse source).errors = []) :
    (∃ w ending, Token.tokenize source = w ++ [ending] ∧ ending.kind = .endOfFile ∧
      (parse source).arena.ProducesProgram w) ∧
    (∃ all, (parse source).arena.IsTree all) ∧
    ∀ token ∈ Token.tokenize source, token.kind ≠ .illegal := by
  have hsane := Parser.sane_ofSource source
  obtain ⟨found, s, program, hfound, rfl, -, harena, herrors⟩ := Parser.exists_yields_program source
  have hnone : s.errors.size = 0 := by
    rw [← Array.length_toList, ← herrors, h, List.length_nil]
  obtain ⟨w, isOpen, hreads, hproduces, -⟩ :=
    Parser.declarations_reads hsane.ending hfound (hnone ▸ Nat.zero_le _)
  have hw : w = (Token.tokenStream source).tokens := by
    have hunread := hreads.unread
    rw [Parser.unread_of_yields_declarations hfound, List.append_nil] at hunread
    rw [← hunread, Parser.State.ofSource, Parser.State.noteComment_unread]
  have hproduces := hproduces.extend (s.arena.extendedBy_program program)
  rw [← harena] at hproduces
  have hprogram : (parse source).arena.program = program := by rw [harena]
  refine ⟨⟨w, (Token.tokenStream source).ending, by rw [hw]; rfl,
      Token.tokenStream_ending_kind source, isOpen, ?_⟩, Parser.parse_isTree source h, ?_⟩
  · rw [hprogram]
    exact hproduces
  · intro token hmem
    rw [Token.tokenize] at hmem
    rcases List.mem_append.1 hmem with hmem | hmem
    · exact hproduces.kind_ne_illegal token (hw ▸ hmem)
    · rw [List.mem_singleton.1 hmem, Token.tokenStream_ending_kind]
      decide

/-- The parentheses and the semicolon leave no node; they are in the derivation all the same. -/
theorem parse_derivation_product :
    (parse "var n is (1 + 2) * 3; type T is real").errors = [] ∧
    (∃ w ending, Token.tokenize "var n is (1 + 2) * 3; type T is real" = w ++ [ending] ∧
      ending.kind = .endOfFile ∧
      (parse "var n is (1 + 2) * 3; type T is real").arena.ProducesProgram w) :=
  have hparse : (parse "var n is (1 + 2) * 3; type T is real").errors = [] := by decide +kernel
  ⟨hparse, (parse_derivation _ hparse).1⟩

end ProcLang
