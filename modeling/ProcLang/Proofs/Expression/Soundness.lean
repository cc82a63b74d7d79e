import ProcLang.Proofs.Expression.Layer

/-!
# ProcLang.Proofs.Expression.Soundness

**What the expression parser accepts is derived by the grammar**, with the tree that the grammar
prescribes (`expression_sound`).

The proof follows one layer of the parser. An operand is a primary expression or an operator with
its operand (`OperandPhrase`). The loop behind it keeps an invariant about what has been read so far
(`LeftPhrase`): it is derived from some level, and the next token does not bind tighter than that
level. So whatever tail is taken next has a level that the left operand is tight enough for.
-/

namespace ProcLang

namespace Parser

open State

/-! ### What is read -/

/-- An operand with the kind of the token behind it: a primary expression, or an operator with an
operand that goes as far as it can. -/
inductive OperandPhrase : List Token → ExpressionTree → TokenKind → Prop
  | primary {w : List Token} {tree : ExpressionTree} {next : TokenKind}
      (inner : Derives .primary w [tree]) : OperandPhrase w tree next
  | prefixed {operator : UnaryOperator} {op : Token} {w : List Token} {tree : ExpressionTree}
      {next : TokenKind} (table : (op.kind, operator) ∈ prefixOperators)
      (operand : Derives (.level 7) w [tree]) (stops : ¬ ContinuesAbove 7 next) :
      OperandPhrase (op :: w) (.unary operator tree) next

/-- What the parser reads for a binding power, with the kind of the token behind it. The right side
of a member access is an operand without tails. -/
def PhraseOf (power : BindingPower) (w : List Token) (tree : ExpressionTree) (next : TokenKind) :
    Prop :=
  if power = .member then OperandPhrase w tree next
  else Derives (.level power.levelAbove) w [tree] ∧ ¬ ContinuesAbove power.level next

/-- A parser for nested expressions that reads what it should. -/
def SoundFor (self : BindingPower → Parser Placed) : Prop :=
  ∀ power s placed s', s.ending.kind = .endOfFile → Yields (self power) s placed s' →
    ∃ w tree, ReadsTree s w tree placed s' ∧ PhraseOf power w tree s'.current.kind

/-- For a power below that of member access, a level of the grammar is read. -/
theorem SoundFor.level {self : BindingPower → Parser Placed} (h : SoundFor self)
    {power : BindingPower} (hpower : power ≠ .member) {s s' : State} {placed : Placed}
    (hend : s.ending.kind = .endOfFile) (hrun : Yields (self power) s placed s') :
    ∃ w tree, ReadsTree s w tree placed s' ∧ Derives (.level power.levelAbove) w [tree] ∧
      ¬ ContinuesAbove power.level s'.current.kind := by
  obtain ⟨w, tree, hreads, hphrase⟩ := h power s placed s' hend hrun
  rw [PhraseOf, if_neg hpower] at hphrase
  exact ⟨w, tree, hreads, hphrase⟩

/-! ### Operands -/

theorem literal_sound {s s' : State} {placed : Placed} (hend : s.ending.kind = .endOfFile)
    (h : Yields literal s placed s') :
    ∃ w tree, ReadsTree s w tree placed s' ∧ Derives .primary w [tree] := by
  obtain ⟨node, hnode, hplaced⟩ := yields_literal.1 h
  obtain ⟨tree, hliteral, hstands⟩ := isLiteral_of_literalNode hnode
  have htake := reads_advance_of_current hend hliteral.kind_ne_endOfFile
  obtain ⟨hplace, -, hget⟩ := place_reads hplaced
  refine ⟨_, tree, ⟨htake.trans hplace, hstands _ _ hget⟩, ?_⟩
  rw [List.append_nil]
  exact .literal hliteral

section

variable {self : BindingPower → Parser Placed}

/-- What stands in front of an argument has been read. -/
def FrontRead (s : State) (items : List Placed) (s' : State) : Prop :=
  ∃ w trees, s.Reads w s' ∧ ArgumentFront w trees ∧ StandAll s'.arena trees (items.map (·.id))

/-- One more argument is read. -/
theorem FrontRead.item (hself : SoundFor self) {s s₁ s' : State} {front : List Placed} {x : Placed}
    (hend : s.ending.kind = .endOfFile) (hfront : FrontRead s front s₁)
    (hitem : Yields (self .loosest) s₁ x s') :
    ∃ w trees, s.Reads w s' ∧ Derives .arguments w trees ∧
      StandAll s'.arena trees ((front ++ [x]).map (·.id)) := by
  obtain ⟨v, trees, hreads, hbefore, hall⟩ := hfront
  obtain ⟨w, tree, hone, hderives, -⟩ := hself.level (by decide) (hreads.ending_kind hend) hitem
  refine ⟨v ++ w, trees ++ [tree], hreads.trans hone.reads, hbefore.concat hderives, ?_⟩
  rw [List.map_append]
  exact (hall.extend hone.reads.arena).concat hone.stands

/-- The arguments of a call are derived, if there are any. -/
theorem arguments_sound (hself : SoundFor self) {s s' : State} {items : List Placed}
    (hend : s.ending.kind = .endOfFile) (h : Yields (arguments self) s items s') :
    (items = [] ∧ s' = s) ∨ ∃ w trees, s.Reads w s' ∧ Derives .arguments w trees ∧
      StandAll s'.arena trees (items.map (·.id)) := by
  rcases yields_arguments.1 h with ⟨-, hnone⟩ | ⟨-, hloop⟩
  · exact Or.inl hnone
  refine Or.inr ?_
  have keeps : ∀ front s₁ front' s₂, FrontRead s front s₁ →
      Yields (commaStep (self .loosest) front) s₁ (.more front') s₂ → FrontRead s front' s₂ := by
    intro front s₁ front' s₂ hfront hround
    obtain ⟨x, s₃, hitem, ⟨hcomma, hmore, rfl⟩ | ⟨-, hmore, -⟩⟩ := yields_commaStep.1 hround
    · cases hmore
      obtain ⟨w, trees, hreads, hderives, hall⟩ := hfront.item hself hend hitem
      have htake := reads_advance_of_current (hreads.ending_kind hend) (by rw [hcomma]; nofun)
      exact ⟨_, trees, hreads.trans htake, .others hderives hcomma, hall.extend htake.arena⟩
    · cases hmore
  obtain ⟨front, s₁, hfront, hlast⟩ :=
    hloop.loop_invariant ⟨[], [], .refl s, .nothing, rfl⟩ keeps
  obtain ⟨x, s₂, hitem, ⟨-, hround, -⟩ | ⟨-, hround, rfl⟩⟩ := yields_commaStep.1 hlast
  · cases hround
  · cases hround
    exact hfront.item hself hend hitem

theorem nameOrCall_sound (hself : SoundFor self) {s s' : State} {placed : Placed}
    (hend : s.ending.kind = .endOfFile) (hname : s.current.kind = .identifier)
    (h : Yields (nameOrCall self) s placed s') :
    ∃ w tree, ReadsTree s w tree placed s' ∧ Derives .primary w [tree] := by
  have htake := reads_advance_of_current hend (by rw [hname]; nofun)
  rcases yields_nameOrCall.1 h with ⟨hopen, items, s₁, harguments, hclose, hplaced⟩ | ⟨-, hplaced⟩
  · have hopens := reads_advance_of_current (htake.ending_kind hend) (by rw [hopen]; nofun)
    have hbefore := htake.trans hopens
    obtain ⟨hplace, -, hget⟩ := place_reads hplaced
    have hnotEnd : s₁.current.kind ≠ .endOfFile := by rw [hclose]; nofun
    rcases arguments_sound hself (hbefore.ending_kind hend) harguments with
      ⟨rfl, rfl⟩ | ⟨w, trees, hreads, hderives, hall⟩
    · have hcloses := reads_advance_of_current (hbefore.ending_kind hend) hnotEnd
      exact ⟨_, .call s.current.text [],
        ⟨(hbefore.trans hcloses).trans hplace, _, [], hget, rfl⟩, .emptyCall hname hopen hclose⟩
    · have hinside := hbefore.trans hreads
      have hcloses := reads_advance_of_current (hinside.ending_kind hend) hnotEnd
      refine ⟨_, .call s.current.text trees, ⟨(hinside.trans hcloses).trans hplace,
        _, _, hget, hall.extend (hcloses.trans hplace).arena⟩, ?_⟩
      simpa using Derives.call hname hopen hderives hclose
  · obtain ⟨hplace, -, hget⟩ := place_reads hplaced
    exact ⟨_, .name s.current.text, ⟨htake.trans hplace, _, hget⟩, .name hname⟩

theorem grouping_sound (hself : SoundFor self) {s s' : State} {placed : Placed}
    (hend : s.ending.kind = .endOfFile) (hopen : s.current.kind = .openParen)
    (h : Yields (grouping self) s placed s') :
    ∃ w tree, ReadsTree s w tree placed s' ∧ Derives .primary w [tree] := by
  have hopens := reads_advance_of_current hend (by rw [hopen]; nofun)
  obtain ⟨s₁, hinner, hclose, rfl⟩ := yields_grouping.1 h
  obtain ⟨w, tree, hread, hderives, -⟩ := hself.level (by decide) (hopens.ending_kind hend) hinner
  have hbefore := hopens.trans hread.reads
  have hcloses := reads_advance_of_current (hbefore.ending_kind hend) (by rw [hclose]; nofun)
  exact ⟨_, tree, ⟨hbefore.trans hcloses, hread.stands.extend hcloses.arena⟩,
    .grouping hopen hderives hclose⟩

theorem unary_sound (hself : SoundFor self) {s s' : State} {placed : Placed}
    (hend : s.ending.kind = .endOfFile) (h : Yields (unary self) s placed s') :
    ∃ w tree, ReadsTree s w tree placed s' ∧ OperandPhrase w tree s'.current.kind := by
  obtain ⟨operator, hmem, operand, s₁, hoperand, hplaced⟩ := yields_unary.1 h
  have htake : s.Reads [s.current] s.advance.2 := by
    refine reads_advance_of_current hend fun hkind => ?_
    rw [hkind, mem_prefixOperators_iff] at hmem
    cases hmem
  obtain ⟨w, tree, hread, hderives, hstops⟩ :=
    hself.level (by decide) (htake.ending_kind hend) hoperand
  obtain ⟨hplace, hcurrent, hget⟩ := place_reads hplaced
  refine ⟨_, .unary operator tree, ⟨(htake.trans hread.reads).trans hplace,
    _, _, hget, hread.stands.extend hplace.arena⟩, ?_⟩
  rw [List.append_nil, hcurrent]
  exact .prefixed hmem hderives hstops

theorem operand_sound (hself : SoundFor self) {s s' : State} {placed : Placed} {rule : OperandRule}
    (hend : s.ending.kind = .endOfFile)
    (hrule : Grammar.standardOperand s.current.kind = some rule)
    (h : Yields (operand self rule) s placed s') :
    ∃ w tree, ReadsTree s w tree placed s' ∧ OperandPhrase w tree s'.current.kind := by
  cases rule with
  | literal =>
      obtain ⟨w, tree, hread, hderives⟩ := literal_sound hend h
      exact ⟨w, tree, hread, .primary hderives⟩
  | name =>
      have hname := standardOperand_name_iff.1 hrule
      obtain ⟨w, tree, hread, hderives⟩ := nameOrCall_sound hself hend hname h
      exact ⟨w, tree, hread, .primary hderives⟩
  | grouping =>
      have hopen := standardOperand_grouping_iff.1 hrule
      obtain ⟨w, tree, hread, hderives⟩ := grouping_sound hself hend hopen h
      exact ⟨w, tree, hread, .primary hderives⟩
  | unary => exact unary_sound hself hend h

/-! ### Tails -/

/-- What has been read before a round of the loop, with the kind of the token behind it: something
that a member access can be applied to, or an expression of some level that the loop may reach, as
far as it goes. -/
inductive LeftPhrase (power : BindingPower) :
    List Token → ExpressionTree → TokenKind → Prop
  | postfixed {w : List Token} {tree : ExpressionTree} {next : TokenKind}
      (inner : Derives .postfixed w [tree]) : LeftPhrase power w tree next
  | level {r : Nat} {w : List Token} {tree : ExpressionTree} {next : TokenKind}
      (reach : power.levelAbove ≤ r) (high : r ≤ 7) (inner : Derives (.level r) w [tree])
      (stops : ¬ ContinuesAbove r next) : LeftPhrase power w tree next

/-- An operand is where the loop begins. -/
theorem OperandPhrase.left {power : BindingPower} {w : List Token} {tree : ExpressionTree}
    {next : TokenKind} (h : OperandPhrase w tree next) : LeftPhrase power w tree next := by
  cases h with
  | primary inner => exact .postfixed (.primary inner)
  | prefixed table operand stops =>
      exact .level (Nat.min_le_right _ _) (Nat.le_refl _) (.prefixed table operand) stops

/-- What has been read is tight enough for an operator that follows. -/
theorem LeftPhrase.level_of_infix {power : BindingPower} {w : List Token} {tree : ExpressionTree}
    {next : TokenKind} {q : Nat} {operator : BinaryOperator} (h : LeftPhrase power w tree next)
    (hmem : (next, q, operator) ∈ infixOperators) : Derives (.level q) w [tree] := by
  obtain ⟨low, high⟩ := level_of_mem hmem
  cases h with
  | postfixed inner => exact inner.level_of_postfixed low (by omega)
  | level reach hr inner stops =>
      -- an operator of a higher level would have been taken
      have hle := Nat.le_of_not_lt fun hlt => stops (Or.inl ⟨q, operator, hmem, hlt⟩)
      exact inner.loosen low hle (by omega)

/-- In front of a point or a bracket there is something that a member access can be applied to. -/
theorem LeftPhrase.postfixed_of_next {power : BindingPower} {w : List Token}
    {tree : ExpressionTree} {next : TokenKind} (h : LeftPhrase power w tree next)
    (hnext : next = .dot ∨ next = .openBracket) : Derives .postfixed w [tree] := by
  cases h with
  | postfixed inner => exact inner
  | level reach hr inner stops => exact absurd (Or.inr ⟨hnext, by omega⟩) stops

/-- Where the loop ends, a level of the grammar has been read. -/
theorem LeftPhrase.derives {power : BindingPower} {w : List Token} {tree : ExpressionTree}
    {next : TokenKind} (h : LeftPhrase power w tree next) :
    Derives (.level power.levelAbove) w [tree] := by
  have low : 1 ≤ power.levelAbove := Nat.le_min.2 ⟨Nat.le_add_left _ _, by decide⟩
  have high : power.levelAbove ≤ 7 := Nat.min_le_right _ _
  cases h with
  | postfixed inner => exact inner.level_of_postfixed low (by omega)
  | level reach hr inner stops => exact inner.loosen low reach (by omega)

/-- What has been read since `s` is the left operand of the next round. -/
def LeftRead (s : State) (power : BindingPower) (left : Placed) (s' : State) : Prop :=
  ∃ w tree, ReadsTree s w tree left s' ∧ LeftPhrase power w tree s'.current.kind

theorem binary_sound (hself : SoundFor self) {s s₁ s' : State} {left placed : Placed}
    {power tailPower : BindingPower} {operator : BinaryOperator}
    (hend : s.ending.kind = .endOfFile) (hleft : LeftRead s power left s₁)
    (hmem : (s₁.current.kind, tailPower.level, operator) ∈ infixOperators)
    (htighter : power.level < tailPower.level)
    (h : Yields (binary self left tailPower) s₁ placed s') : LeftRead s power placed s' := by
  obtain ⟨v, leftTree, hread, hphrase⟩ := hleft
  obtain ⟨low, high⟩ := level_of_mem hmem
  have hend₁ := hread.reads.ending_kind hend
  have htake := reads_advance_of_current hend₁ (kind_ne_of_mem hmem).1
  obtain ⟨operator', hoperator, right, s₂, hright, hplaced⟩ := yields_binary.1 h
  obtain rfl : operator = operator' := by
    obtain ⟨_, _, _, hof⟩ := standardTail_of_mem hmem
    exact Option.some.inj (hof.symm.trans hoperator)
  have hpower : tailPower ≠ .member := by
    rintro rfl
    simp [BindingPower.level] at high
  obtain ⟨w, rightTree, hreadRight, hderives, hstops⟩ :=
    hself.level hpower (htake.ending_kind hend₁) hright
  have habove : tailPower.levelAbove = tailPower.level + 1 := Nat.min_eq_left (by omega)
  rw [habove] at hderives
  obtain ⟨hplace, hcurrent, hget⟩ := place_reads hplaced
  have hbehind := (htake.trans hreadRight.reads).trans hplace
  refine ⟨_, .binary operator leftTree rightTree, ⟨hread.reads.trans hbehind, _, _, _, hget,
    hread.stands.extend hbehind.arena, hreadRight.stands.extend hplace.arena⟩, ?_⟩
  rw [hcurrent]
  refine .level (r := tailPower.level) (Nat.le_trans (Nat.min_le_left _ _) htighter) (by omega)
    ?_ hstops
  simpa using Derives.infixed hmem (hphrase.level_of_infix hmem) hderives

theorem member_sound (hself : SoundFor self) {s s₁ s' : State} {left placed : Placed}
    {power : BindingPower} (hend : s.ending.kind = .endOfFile)
    (hleft : LeftRead s power left s₁) (hdot : s₁.current.kind = .dot)
    (h : Yields (member self left .member) s₁ placed s') : LeftRead s power placed s' := by
  obtain ⟨v, leftTree, hread, hphrase⟩ := hleft
  have hend₁ := hread.reads.ending_kind hend
  have htake := reads_advance_of_current hend₁ (by rw [hdot]; nofun)
  obtain ⟨field, s₂, hfield, hplaced⟩ := yields_member.1 h
  obtain ⟨w, fieldTree, hreadField, hfieldPhrase⟩ :=
    hself .member _ _ _ (htake.ending_kind hend₁) hfield
  rw [PhraseOf, if_pos rfl] at hfieldPhrase
  obtain ⟨hplace, hcurrent, hget⟩ := place_reads hplaced
  have hbehind := (htake.trans hreadField.reads).trans hplace
  refine ⟨_, .binary .member leftTree fieldTree, ⟨hread.reads.trans hbehind, _, _, _, hget,
    hread.stands.extend hbehind.arena, hreadField.stands.extend hplace.arena⟩, ?_⟩
  rw [hcurrent]
  have hlhs := hphrase.postfixed_of_next (Or.inl hdot)
  cases hfieldPhrase with
  | primary inner =>
      refine .postfixed ?_
      simpa using Derives.member hlhs hdot inner
  | prefixed table operand stops =>
      refine .level (Nat.min_le_right _ _) (Nat.le_refl _) ?_ stops
      refine .tighter (by decide) (by decide) ?_
      simpa using Derives.memberPrefixed hlhs hdot table operand

theorem index_sound (hself : SoundFor self) {s s₁ s' : State} {left placed : Placed}
    {power : BindingPower} (hend : s.ending.kind = .endOfFile)
    (hleft : LeftRead s power left s₁) (hopen : s₁.current.kind = .openBracket)
    (h : Yields (index self left) s₁ placed s') : LeftRead s power placed s' := by
  obtain ⟨v, leftTree, hread, hphrase⟩ := hleft
  have hend₁ := hread.reads.ending_kind hend
  have htake := reads_advance_of_current hend₁ (by rw [hopen]; nofun)
  obtain ⟨position, s₂, hposition, hclose, hplaced⟩ := yields_index.1 h
  obtain ⟨w, tree, hreadInner, hderives, -⟩ :=
    hself.level (by decide) (htake.ending_kind hend₁) hposition
  have hbefore := htake.trans hreadInner.reads
  have hcloses := reads_advance_of_current (hbefore.ending_kind hend₁) (by rw [hclose]; nofun)
  obtain ⟨hplace, -, hget⟩ := place_reads hplaced
  have hbehind := (hbefore.trans hcloses).trans hplace
  refine ⟨_, .binary .index leftTree tree, ⟨hread.reads.trans hbehind, _, _, _, hget,
    hread.stands.extend hbehind.arena,
    hreadInner.stands.extend (hcloses.trans hplace).arena⟩, .postfixed ?_⟩
  have hlhs := hphrase.postfixed_of_next (Or.inr hopen)
  simpa using Derives.index hlhs hopen hderives hclose

/-- **One round of the loop** makes what has been read the left operand of a tail. -/
theorem tail_sound (hself : SoundFor self) {s s₁ s' : State} {left placed : Placed}
    {power tailPower : BindingPower} {rule : TailRule} (hend : s.ending.kind = .endOfFile)
    (hleft : LeftRead s power left s₁)
    (hrule : Grammar.standardTail s₁.current.kind = some (tailPower, rule))
    (htighter : tailPower.tighter power = true)
    (h : Yields (tail self rule left tailPower) s₁ placed s') : LeftRead s power placed s' := by
  rcases standardTail_cases hrule with
    ⟨rfl, operator, hmem⟩ | ⟨rfl, hdot, rfl⟩ | ⟨rfl, hopen, rfl⟩
  · exact binary_sound hself hend hleft hmem (of_decide_eq_true htighter) h
  · exact member_sound hself hend hleft hdot h
  · exact index_sound hself hend hleft hopen h

/-- **One layer of the parser** reads what it should if the calls inside it do. -/
theorem expressionStep_sound (hself : SoundFor self) :
    SoundFor (expressionStep self Grammar.standard) := by
  intro power s placed s' hend h
  obtain ⟨rule, hrule, first, s₁, hoperand, hloop⟩ := yields_expressionStep.1 h
  obtain ⟨w, tree, hread, hphrase⟩ := operand_sound hself hend hrule hoperand
  by_cases hpower : power = .member
  · subst hpower
    -- the loop makes no round
    obtain ⟨left, s₂, ⟨rfl, rfl⟩, hlast⟩ := hloop.loop_invariant
      (motive := fun left s₂ => left = first ∧ s₂ = s₁) ⟨rfl, rfl⟩ (by
        intro left s₂ left' s₃ _ hround
        rcases yields_tailStep.1 hround with ⟨tailPower, rule, -, htighter, -⟩ | ⟨-, hmore, -⟩
        · simp [BindingPower.tighter_member] at htighter
        · cases hmore)
    rcases yields_tailStep.1 hlast with ⟨tailPower, rule, -, htighter, -⟩ | ⟨-, hdone, rfl⟩
    · simp [BindingPower.tighter_member] at htighter
    · cases hdone
      exact ⟨w, tree, hread, by rwa [PhraseOf, if_pos rfl]⟩
  · have keeps : ∀ left s₂ left' s₃, LeftRead s power left s₂ →
        Yields (tailStep self power left) s₂ (.more left') s₃ → LeftRead s power left' s₃ := by
      intro left s₂ left' s₃ hleft hround
      rcases yields_tailStep.1 hround with
        ⟨tailPower, rule, hrule, htighter, next, htail, hmore⟩ | ⟨-, hmore, -⟩
      · cases hmore
        exact tail_sound hself hend hleft hrule htighter htail
      · cases hmore
    obtain ⟨left, s₂, hleft, hlast⟩ :=
      hloop.loop_invariant ⟨w, tree, hread, hphrase.left⟩ keeps
    rcases yields_tailStep.1 hlast with ⟨_, _, _, _, _, _, hdone⟩ | ⟨hstops, hdone, rfl⟩
    · cases hdone
    · cases hdone
      obtain ⟨w, tree, hread, hphrase⟩ := hleft
      exact ⟨w, tree, hread, by rw [PhraseOf, if_neg hpower]; exact ⟨hphrase.derives, hstops⟩⟩

end

/-- **Soundness.** What the expression parser reads is derived by the grammar from the level just
above its binding power, with the tree it returns, and no tighter operator follows. -/
theorem expression_sound {power : BindingPower} (hpower : power ≠ .member) {s s' : State}
    {placed : Placed} (hend : s.ending.kind = .endOfFile)
    (h : Yields (expression Grammar.standard power) s placed s') :
    ∃ w tree, ReadsTree s w tree placed s' ∧ Derives (.level power.levelAbove) w [tree] ∧
      ¬ ContinuesAbove power.level s'.current.kind := by
  have hsound := Yields.recursive_induction
    (motive := fun power s placed s' => s.ending.kind = .endOfFile →
      ∃ w tree, ReadsTree s w tree placed s' ∧ PhraseOf power w tree s'.current.kind)
    (fun self hself power s placed s' hrun hend => expressionStep_sound
      (fun power s placed s' hend hrun => hself power s placed s' hrun hend) power s placed s'
      hend hrun) h
  obtain ⟨w, tree, hread, hphrase⟩ := hsound hend
  rw [PhraseOf, if_neg hpower] at hphrase
  exact ⟨w, tree, hread, hphrase⟩

end Parser

end ProcLang
