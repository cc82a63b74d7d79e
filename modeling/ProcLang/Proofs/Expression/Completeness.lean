import ProcLang.Proofs.Expression.Layer

/-!
# ProcLang.Proofs.Expression.Completeness

**What the grammar derives is read by the expression parser** (`expression_complete`): if the tokens
ahead start with a phrase of the level that a binding power asks for, and neither the phrase nor its
last name goes on behind it, then the parser takes exactly this phrase and builds its tree.

The induction is over the derivation. What it keeps for an expression is that the loop of the parser
comes to its end (`Reaches`): an operand and some rounds take exactly the phrase, whatever power the
loop was started with, as long as that power lets the level of the phrase in.
-/

namespace ProcLang

namespace Parser

open State

/-- The kind of the token in front of which the tokens `rest` are still to be read. -/
def kindAt (ending : Token) (rest : List Token) : TokenKind := (rest.headD ending).kind

/-- The tokens `w` are ahead, with `rest` behind them. Their integer literals fit, and a name at
their end is not called. -/
structure Ahead (s : State) (w rest : List Token) : Prop where
  unread : s.unread = w ++ rest
  ending : s.ending.kind = .endOfFile
  fits : LiteralsFit w
  apart : ∀ token, w.getLast? = some token → token.kind = .identifier →
    kindAt s.ending rest ≠ .openParen

section

variable {s s' : State} {v w rest : List Token}

theorem Ahead.front (h : Ahead s (v ++ w) rest) (hnext : kindAt s.ending (w ++ rest) ≠ .openParen) :
    Ahead s v (w ++ rest) where
  unread := by rw [h.unread, List.append_assoc]
  ending := h.ending
  fits token hmem := h.fits token (List.mem_append_left w hmem)
  apart _ _ _ := hnext

theorem Ahead.behind (h : Ahead s (v ++ w) rest) (hreads : s.Reads v s') : Ahead s' w rest where
  unread := by
    have hunread := h.unread
    rw [hreads.unread, List.append_assoc] at hunread
    exact List.append_cancel_left hunread
  ending := hreads.ending_kind h.ending
  fits token hmem := h.fits token (List.mem_append_right v hmem)
  apart token hlast := by
    rw [hreads.ending]
    refine h.apart token ?_
    rw [List.getLast?_append, hlast, Option.some_or]

theorem Ahead.rest_of_reads (h : Ahead s w rest) (hreads : s.Reads w s') : s'.unread = rest := by
  have hunread := h.unread
  rw [hreads.unread] at hunread
  exact List.append_cancel_left hunread

theorem Ahead.current_of_reads (h : Ahead s w rest) (hreads : s.Reads w s') :
    s'.current.kind = kindAt s.ending rest := by
  rw [State.current, h.rest_of_reads hreads, hreads.ending]
  rfl

theorem Ahead.current {token : Token} (h : Ahead s (token :: w) rest) : s.current = token :=
  current_of_unread h.unread

theorem Ahead.take {token : Token} (h : Ahead s (token :: w) rest) :
    s.Reads [token] s.advance.2 ∧ Ahead s.advance.2 w rest := by
  have hreads := (reads_advance h.unread).2.2
  exact ⟨hreads, h.behind (v := [token]) hreads⟩

theorem length_lt_of_reads {token : Token} (h : s.Reads (token :: w) s') :
    s'.unread.length < s.unread.length := by
  rw [h.unread, List.length_append, List.length_cons]
  omega

end

/-! ### Reaching the end of the loop -/

/-- The parser for nested expressions, down to some depth. -/
def nested (fuel : Nat) : BindingPower → Parser Placed :=
  unfold (fun self => expressionStep self Grammar.standard) fuel

/-- The expression parser takes the tokens `w` with an operand and rounds that are not the last. -/
def Reaches (fuel : Nat) (power : BindingPower) (s : State) (w : List Token)
    (tree : ExpressionTree) (left : Placed) (s' : State) : Prop :=
  ReadsTree s w tree left s' ∧ ∃ rule first s₁,
    Grammar.standardOperand s.current.kind = some rule ∧
      Yields (operand (nested fuel) rule) s first s₁ ∧
        Rounds (tailStep (nested fuel) power) first s₁ left s'

section

variable {fuel : Nat} {power tailPower : BindingPower} {s s₁ s' : State} {v w rest : List Token}
  {tree leftTree : ExpressionTree} {left placed : Placed}

theorem Reaches.of_operand (rule : OperandRule)
    (hrule : Grammar.standardOperand s.current.kind = some rule)
    (hoperand : Yields (operand (nested fuel) rule) s placed s')
    (hread : ReadsTree s w tree placed s') : Reaches fuel power s w tree placed s' :=
  ⟨hread, rule, placed, s', hrule, hoperand, .refl⟩

/-- One more round. -/
theorem Reaches.tail {op : Token} (h : Reaches fuel power s v leftTree left s₁) (rule : TailRule)
    (hrule : Grammar.standardTail s₁.current.kind = some (tailPower, rule))
    (htighter : tailPower.tighter power = true)
    (htail : Yields (Parser.tail (nested fuel) rule left tailPower) s₁ placed s')
    (hreads : s₁.Reads (op :: w) s') (hstands : Stands s'.arena tree placed.id) :
    Reaches fuel power s (v ++ op :: w) tree placed s' := by
  obtain ⟨hread, operandRule, first, s₀, hoperandRule, hoperand, hrounds⟩ := h
  refine ⟨⟨hread.reads.trans hreads, hstands⟩, operandRule, first, s₀, hoperandRule, hoperand,
    hrounds.tail (yields_tailStep.2 ?_) (length_lt_of_reads hreads)⟩
  exact Or.inl ⟨tailPower, rule, hrule, htighter, placed, htail, rfl⟩

/-- Where no tighter tail follows, the parser is done. -/
theorem Reaches.yields (h : Reaches fuel power s w tree left s')
    (hstops : ¬ ContinuesAbove power.level s'.current.kind) :
    Yields (nested (fuel + 1) power) s left s' := by
  obtain ⟨-, rule, first, s₁, hrule, hoperand, hrounds⟩ := h
  refine yields_expressionStep.2 ⟨rule, hrule, first, s₁, hoperand, ?_⟩
  exact hrounds.yields_loop (yields_tailStep.2 (Or.inr ⟨hstops, rfl, rfl⟩))

end

/-- What is to be shown of a phrase that the grammar derives. -/
def Complete : Phrase → List Token → List ExpressionTree → Prop
  | .level q, w, [tree] => ∀ fuel s rest power, Ahead s w rest → s.unread.length ≤ fuel →
      power ≠ .member → power.levelAbove ≤ q → ¬ ContinuesAbove (min q 7) (kindAt s.ending rest) →
        ∃ left s', Reaches fuel power s w tree left s'
  | .postfixed, w, [tree] => ∀ fuel s rest power, Ahead s w rest → s.unread.length ≤ fuel →
      power ≠ .member → ∃ left s', Reaches fuel power s w tree left s'
  | .primary, w, [tree] => ∀ fuel s rest power, Ahead s w rest → s.unread.length ≤ fuel →
      ∃ placed s', Reaches fuel power s w tree placed s'
  | .arguments, w, trees => ∀ fuel s rest, Ahead s w rest → s.unread.length < fuel →
      (kindAt s.ending rest = .comma ∨ kindAt s.ending rest = .closeParen) →
        ∃ items s₁ last s', Rounds (commaStep (nested fuel .loosest)) [] s items s₁ ∧
          Yields (nested fuel .loosest) s₁ last s' ∧ s'.unread.length ≤ s₁.unread.length ∧
            s.Reads w s' ∧ StandAll s'.arena trees ((items ++ [last]).map (·.id))
  | _, _, _ => True

/-- A level is read by the parser for a power below it if nothing tighter follows. -/
theorem Complete.yields {q : Nat} {w rest : List Token} {tree : ExpressionTree}
    (h : Complete (.level q) w [tree]) (fuel : Nat) (power : BindingPower) {s : State}
    (hahead : Ahead s w rest) (hfuel : s.unread.length < fuel) (hpower : power ≠ .member)
    (hlevel : power.levelAbove ≤ q)
    (hstops : ¬ ContinuesAbove power.level (kindAt s.ending rest)) :
    ∃ placed s', Yields (nested fuel power) s placed s' ∧ ReadsTree s w tree placed s' := by
  obtain ⟨fuel, rfl⟩ : ∃ n, fuel = n + 1 := ⟨fuel - 1, by omega⟩
  have hle : power.level ≤ min q 7 := by
    revert hpower hlevel
    cases power <;> simp [BindingPower.levelAbove, BindingPower.level] <;> omega
  obtain ⟨left, s', hreaches⟩ := h fuel s rest power hahead (by omega) hpower hlevel
    fun hcontinues => hstops (hcontinues.loosen hle)
  refine ⟨left, s', hreaches.yields ?_, hreaches.1⟩
  rw [hahead.current_of_reads hreaches.1.reads]
  exact hstops

/-! ### Operands -/

theorem complete_literal {token : Token} {tree : ExpressionTree} (h : IsLiteral token tree) :
    Complete .primary [token] [tree] := by
  intro fuel s rest power hahead _
  obtain ⟨htake, -⟩ := hahead.take
  obtain ⟨node, hnode, hstands⟩ :=
    literalNode_of_isLiteral h (hahead.fits token (List.mem_singleton.2 rfl))
  have hrule : Grammar.standardOperand token.kind = some .literal := by
    cases h <;> simp_all [Grammar.standardOperand]
  obtain ⟨placed, s', hplaced⟩ := exists_yields_place s.advance.2 node
  obtain ⟨hplace, -, hget⟩ := place_reads hplaced
  rw [← hahead.current] at hnode hrule
  exact ⟨placed, s', .of_operand .literal hrule (yields_literal.2 ⟨node, hnode, hplaced⟩)
    ⟨htake.trans hplace, hstands _ _ hget⟩⟩

theorem complete_name {token : Token} (hname : token.kind = .identifier) :
    Complete .primary [token] [.name token.text] := by
  intro fuel s rest power hahead _
  obtain ⟨htake, -⟩ := hahead.take
  have hnext : s.advance.2.current.kind ≠ .openParen := by
    rw [hahead.current_of_reads htake]
    exact hahead.apart token rfl hname
  obtain ⟨placed, s', hplaced⟩ :=
    exists_yields_place s.advance.2 (.plain (.identifier token.text none) token.span)
  obtain ⟨hplace, -, hget⟩ := place_reads hplaced
  rw [← hahead.current] at hplaced hname
  exact ⟨placed, s', .of_operand .name (standardOperand_name_iff.2 hname)
    (yields_nameOrCall.2 (Or.inr ⟨hnext, hplaced⟩)) ⟨htake.trans hplace, _, hget⟩⟩

/-- A name with arguments that have been read up to the closing parenthesis is a call. -/
theorem reaches_call {fuel : Nat} {power : BindingPower} {s s₁ : State} {items : List Placed}
    {token opening closing : Token} {w rest : List Token} {trees : List ExpressionTree}
    (hname : token.kind = .identifier) (hopen : opening.kind = .openParen)
    (hclose : closing.kind = .closeParen)
    (hahead : Ahead s (token :: opening :: (w ++ [closing])) rest)
    (harguments : Yields (arguments (nested fuel)) s.advance.2.advance.2 items s₁)
    (hreads : s.advance.2.advance.2.Reads w s₁)
    (hall : StandAll s₁.arena trees (items.map (·.id))) :
    ∃ placed s', Reaches fuel power s (token :: opening :: (w ++ [closing]))
      (.call token.text trees) placed s' := by
  obtain ⟨htake, hahead₁⟩ := hahead.take
  obtain ⟨hopens, hahead₂⟩ := hahead₁.take
  have hahead₃ := hahead₂.behind hreads
  obtain ⟨hcloses, -⟩ := hahead₃.take
  obtain ⟨placed, s', hplaced⟩ := exists_yields_place s₁.advance.2
    (.plain (.call token.text none (items.map (·.id))) ⟨token.start, s₁.advance.2.lastStop⟩)
  obtain ⟨hplace, -, hget⟩ := place_reads hplaced
  rw [← hahead.current] at hplaced hname
  rw [← hahead₁.current] at hopen
  rw [← hahead₃.current] at hclose
  have hreadsAll := (((htake.trans hopens).trans hreads).trans hcloses).trans hplace
  rw [List.append_nil] at hreadsAll
  exact ⟨placed, s', .of_operand .name (standardOperand_name_iff.2 hname)
    (yields_nameOrCall.2 (Or.inl ⟨hopen, items, s₁, harguments, hclose, hplaced⟩))
    ⟨hreadsAll, _, _, hget, hall.extend (hcloses.trans hplace).arena⟩⟩

theorem complete_emptyCall {token opening closing : Token} (hname : token.kind = .identifier)
    (hopen : opening.kind = .openParen) (hclose : closing.kind = .closeParen) :
    Complete .primary [token, opening, closing] [.call token.text []] := by
  intro fuel s rest power hahead _
  have hcurrent := hahead.take.2.take.2.current
  exact reaches_call (w := []) hname hopen hclose hahead
    (yields_arguments.2 (Or.inl ⟨by rw [hcurrent, hclose], rfl, rfl⟩)) (.refl _) rfl

theorem complete_call {token opening closing : Token} {w : List Token}
    {trees : List ExpressionTree} (hname : token.kind = .identifier)
    (hopen : opening.kind = .openParen) (hclose : closing.kind = .closeParen)
    (hderives : Derives .arguments w trees) (h : Complete .arguments w trees) :
    Complete .primary (token :: opening :: w ++ [closing]) [.call token.text trees] := by
  intro fuel s rest power hahead hfuel
  obtain ⟨htake, hahead₁⟩ := hahead.take
  obtain ⟨hopens, hahead₂⟩ := hahead₁.take
  have hlength := length_lt_of_reads htake
  have hlength₁ := length_lt_of_reads hopens
  obtain ⟨items, s₁, last, s₂, hrounds, hlast, -, hreads, hall⟩ :=
    h fuel _ _ (hahead₂.front (by simp [kindAt, hclose])) (by omega) (Or.inr hclose)
  have hbehind := (hahead₂.behind hreads).current
  refine reaches_call hname hopen hclose hahead ?_ hreads hall
  refine yields_arguments.2 (Or.inr ⟨?_, hrounds.yields_loop ?_⟩)
  · obtain ⟨first, more, rfl, hrule⟩ := hderives.opens
    rw [hahead₂.current]
    intro hkind
    exact hrule (by rw [hkind]; rfl)
  · refine yields_commaStep.2 ⟨last, s₂, hlast, Or.inr ⟨?_, rfl, rfl⟩⟩
    rw [hbehind, hclose]
    nofun

theorem complete_grouping {opening closing : Token} {w : List Token} {tree : ExpressionTree}
    (hopen : opening.kind = .openParen) (hclose : closing.kind = .closeParen)
    (h : Complete (.level 1) w [tree]) :
    Complete .primary (opening :: w ++ [closing]) [tree] := by
  intro fuel s rest power hahead hfuel
  obtain ⟨hopens, hahead₁⟩ := hahead.take
  have hlength := length_lt_of_reads hopens
  have hnext : kindAt s.advance.2.ending ([closing] ++ rest) = .closeParen := hclose
  obtain ⟨placed, s₁, hinner, hread⟩ := h.yields fuel .loosest
    (hahead₁.front (by rw [hnext]; nofun)) (by omega) (by decide) (by decide)
    (by rw [hnext]; exact not_continuesAbove_of_closing (by decide))
  have hahead₂ := hahead₁.behind hread.reads
  obtain ⟨hcloses, -⟩ := hahead₂.take
  rw [← hahead.current] at hopen
  rw [← hahead₂.current] at hclose
  exact ⟨placed, _, .of_operand .grouping (standardOperand_grouping_iff.2 hopen)
    (yields_grouping.2 ⟨s₁, hinner, hclose, rfl⟩)
    ⟨(hopens.trans hread.reads).trans hcloses, hread.stands.extend hcloses.arena⟩⟩

/-- An operator in front of an expression of the same level is an operand for every power. -/
theorem reaches_prefixed {operator : UnaryOperator} {op : Token} {w : List Token}
    {tree : ExpressionTree} (table : (op.kind, operator) ∈ prefixOperators)
    (h : Complete (.level 7) w [tree]) {fuel : Nat} {s : State} {rest : List Token}
    {power : BindingPower} (hahead : Ahead s (op :: w) rest) (hfuel : s.unread.length ≤ fuel)
    (hstops : ¬ ContinuesAbove 7 (kindAt s.ending rest)) :
    ∃ left s', Reaches fuel power s (op :: w) (.unary operator tree) left s' := by
  obtain ⟨htake, hahead₁⟩ := hahead.take
  have hlength := length_lt_of_reads htake
  obtain ⟨operand, s₁, hoperand, hread⟩ := h.yields fuel .unary hahead₁ (by omega)
    (by decide) (by decide) (by rw [htake.ending]; exact hstops)
  obtain ⟨placed, s', hplaced⟩ := exists_yields_place s₁
    (.plain (.unary operator operand.id) ⟨s.current.start, operand.node.span.stop⟩)
  obtain ⟨hplace, -, hget⟩ := place_reads hplaced
  rw [← hahead.current] at table
  have hreads := (htake.trans hread.reads).trans hplace
  rw [List.append_nil] at hreads
  exact ⟨placed, s', .of_operand .unary (standardOperand_unary_iff.2 ⟨operator, table⟩)
    (yields_unary.2 ⟨operator, table, operand, s₁, hoperand, hplaced⟩)
    ⟨hreads, _, _, hget, hread.stands.extend hplace.arena⟩⟩

/-! ### Tails -/

theorem levelAbove_le_iff {power : BindingPower} {q : Nat} (h : q ≤ 6) :
    power.levelAbove ≤ q ↔ power.level < q := by
  rw [BindingPower.levelAbove]
  omega

theorem complete_infixed {q : Nat} {operator : BinaryOperator} {op : Token} {v w : List Token}
    {leftTree rightTree : ExpressionTree} (table : (op.kind, q, operator) ∈ infixOperators)
    (hlhs : Complete (.level q) v [leftTree]) (hrhs : Complete (.level (q + 1)) w [rightTree]) :
    Complete (.level q) (v ++ op :: w) [.binary operator leftTree rightTree] := by
  intro fuel s rest power hahead hfuel hpower hlevel hstops
  obtain ⟨low, high⟩ := level_of_mem table
  have hmin : min q 7 = q := Nat.min_eq_left (by omega)
  rw [hmin] at hstops
  obtain ⟨tailPower, hrule, rfl, hoperator⟩ := standardTail_of_mem table
  -- the left operand ends in front of the operator
  obtain ⟨left, s₁, hreaches⟩ := hlhs fuel s (op :: w ++ rest) power
    (hahead.front (kind_ne_of_mem table).2) hfuel hpower hlevel
    (by rw [hmin]; exact not_continuesAbove_of_mem table)
  have hahead₁ := hahead.behind hreaches.1.reads
  obtain ⟨htake, hahead₂⟩ := hahead₁.take
  have hlength := length_lt_of_reads htake
  have hlength₁ := hreaches.1.reads.length_le
  have htailPower : tailPower ≠ .member := by
    rintro rfl
    simp [BindingPower.level] at high
  obtain ⟨right, s₂, hright, hread⟩ := hrhs.yields fuel tailPower hahead₂ (by omega)
    htailPower (Nat.min_le_left _ _)
    (by rw [htake.ending, hreaches.1.reads.ending]; exact hstops)
  obtain ⟨placed, s', hplaced⟩ := exists_yields_place s₂
    (.plain (.binary operator left.id right.id) ⟨left.node.span.start, right.node.span.stop⟩)
  obtain ⟨hplace, -, hget⟩ := place_reads hplaced
  have hbehind := (htake.trans hread.reads).trans hplace
  rw [List.append_nil] at hbehind
  rw [← hahead₁.current] at hrule hoperator
  exact ⟨placed, s', hreaches.tail .binary hrule (decide_eq_true ((levelAbove_le_iff high).1 hlevel))
    (yields_binary.2 ⟨operator, hoperator, right, s₂, hright, hplaced⟩) hbehind
    ⟨_, _, _, hget, hreaches.1.stands.extend hbehind.arena, hread.stands.extend hplace.arena⟩⟩

/-- A point and an operand behind something that a member access can be applied to. -/
theorem reaches_member {fuel : Nat} {power : BindingPower} {s s₁ : State} {left : Placed}
    {point : Token} {v w rest : List Token} {leftTree rightTree : ExpressionTree}
    (hahead : Ahead s (v ++ point :: w) rest) (hfuel : s.unread.length ≤ fuel)
    (hpower : power ≠ .member) (hdot : point.kind = .dot)
    (hleft : Reaches fuel power s v leftTree left s₁)
    (h : ∀ fuel s', Ahead s' w rest → s'.ending = s.ending → s'.unread.length ≤ fuel →
      ∃ field s'', Reaches fuel .member s' w rightTree field s'') :
    ∃ placed s', Reaches fuel power s (v ++ point :: w) (.binary .member leftTree rightTree)
      placed s' := by
  have hahead₁ := hahead.behind hleft.1.reads
  obtain ⟨htake, hahead₂⟩ := hahead₁.take
  have hlength := length_lt_of_reads htake
  have hlength₁ := hleft.1.reads.length_le
  obtain ⟨fuel, rfl⟩ : ∃ n, fuel = n + 1 := ⟨fuel - 1, by omega⟩
  obtain ⟨field, s₂, hfield⟩ := h fuel s₁.advance.2 hahead₂
    (htake.ending.trans hleft.1.reads.ending) (by omega)
  obtain ⟨placed, s', hplaced⟩ := exists_yields_place s₂
    (.plain (.binary .member left.id field.id) ⟨left.node.span.start, field.node.span.stop⟩)
  obtain ⟨hplace, -, hget⟩ := place_reads hplaced
  have hbehind := (htake.trans hfield.1.reads).trans hplace
  rw [List.append_nil] at hbehind
  rw [← hahead₁.current] at hdot
  refine ⟨placed, s', hleft.tail .member (by rw [hdot]; rfl) ?_
    (yields_member.2 ⟨field, s₂, hfield.yields not_continuesAbove_member, hplaced⟩) hbehind
    ⟨_, _, _, hget, hleft.1.stands.extend hbehind.arena, hfield.1.stands.extend hplace.arena⟩⟩
  exact BindingPower.tighter_of_ne_member hpower

theorem complete_member {point : Token} {v w : List Token} {leftTree rightTree : ExpressionTree}
    (hdot : point.kind = .dot) (hlhs : Complete .postfixed v [leftTree])
    (hrhs : Complete .primary w [rightTree]) :
    Complete .postfixed (v ++ point :: w) [.binary .member leftTree rightTree] := by
  intro fuel s rest power hahead hfuel hpower
  have hnext : kindAt s.ending (point :: w ++ rest) ≠ .openParen := by
    change point.kind ≠ _
    rw [hdot]
    nofun
  obtain ⟨left, s₁, hreaches⟩ := hlhs fuel s _ power (hahead.front hnext) hfuel hpower
  exact reaches_member hahead hfuel hpower hdot hreaches
    fun fuel s hahead _ hfuel => hrhs fuel s rest .member hahead hfuel

theorem complete_memberPrefixed {operator : UnaryOperator} {point op : Token} {v w : List Token}
    {leftTree rightTree : ExpressionTree} (hdot : point.kind = .dot)
    (table : (op.kind, operator) ∈ prefixOperators) (hlhs : Complete .postfixed v [leftTree])
    (hrhs : Complete (.level 7) w [rightTree]) :
    Complete (.level 8) (v ++ point :: op :: w)
      [.binary .member leftTree (.unary operator rightTree)] := by
  intro fuel s rest power hahead hfuel hpower _ hstops
  have hnext : kindAt s.ending (point :: op :: w ++ rest) ≠ .openParen := by
    change point.kind ≠ _
    rw [hdot]
    nofun
  obtain ⟨left, s₁, hreaches⟩ := hlhs fuel s _ power (hahead.front hnext) hfuel hpower
  refine reaches_member hahead hfuel hpower hdot hreaches fun fuel s' hahead' hending hfuel => ?_
  exact reaches_prefixed table hrhs hahead' hfuel (by rw [hending]; exact hstops)

theorem complete_index {opening closing : Token} {v w : List Token}
    {leftTree tree : ExpressionTree} (hopen : opening.kind = .openBracket)
    (hclose : closing.kind = .closeBracket) (hlhs : Complete .postfixed v [leftTree])
    (h : Complete (.level 1) w [tree]) :
    Complete .postfixed (v ++ opening :: w ++ [closing]) [.binary .index leftTree tree] := by
  intro fuel s rest power hahead hfuel hpower
  rw [List.append_assoc, List.cons_append] at hahead ⊢
  have hnext : kindAt s.ending (opening :: (w ++ [closing]) ++ rest) ≠ .openParen := by
    change opening.kind ≠ _
    rw [hopen]
    nofun
  obtain ⟨left, s₁, hreaches⟩ := hlhs fuel s _ power (hahead.front hnext) hfuel hpower
  have hahead₁ := hahead.behind hreaches.1.reads
  obtain ⟨hopens, hahead₂⟩ := hahead₁.take
  have hlength := length_lt_of_reads hopens
  have hlength₁ := hreaches.1.reads.length_le
  have hnext₁ : kindAt s₁.advance.2.ending ([closing] ++ rest) = .closeBracket := hclose
  obtain ⟨position, s₂, hposition, hread⟩ := h.yields fuel .loosest
    (hahead₂.front (by rw [hnext₁]; nofun)) (by omega) (by decide) (by decide)
    (by rw [hnext₁]; exact not_continuesAbove_of_closing (by decide))
  have hahead₃ := hahead₂.behind hread.reads
  obtain ⟨hcloses, -⟩ := hahead₃.take
  obtain ⟨placed, s', hplaced⟩ := exists_yields_place s₂.advance.2
    (.plain (.binary .index left.id position.id) ⟨left.node.span.start, s₂.advance.2.lastStop⟩)
  obtain ⟨hplace, -, hget⟩ := place_reads hplaced
  have hbehind := ((hopens.trans hread.reads).trans hcloses).trans hplace
  rw [List.append_nil] at hbehind
  rw [← hahead₁.current] at hopen
  rw [← hahead₃.current] at hclose
  exact ⟨placed, s', hreaches.tail .index (by rw [hopen]; rfl)
    (BindingPower.tighter_of_ne_member hpower)
    (yields_index.2 ⟨position, s₂, hposition, hclose, hplaced⟩) hbehind
    ⟨_, _, _, hget, hreaches.1.stands.extend hbehind.arena,
      hread.stands.extend (hcloses.trans hplace).arena⟩⟩

/-! ### Arguments -/

theorem not_continuesAbove_of_separator {q : Nat} {kind : TokenKind}
    (h : kind = .comma ∨ kind = .closeParen) : ¬ ContinuesAbove q kind := by
  rcases h with rfl | rfl
  · exact not_continuesAbove_of_closing (by decide)
  · exact not_continuesAbove_of_closing (by decide)

theorem complete_lastArgument {w : List Token} {tree : ExpressionTree}
    (h : Complete (.level 1) w [tree]) : Complete .arguments w [tree] := by
  intro fuel s rest hahead hfuel hnext
  obtain ⟨last, s', hlast, hread⟩ := h.yields fuel .loosest hahead hfuel (by decide) (by decide)
    (not_continuesAbove_of_separator hnext)
  exact ⟨[], s, last, s', .refl, hlast, hread.reads.length_le, hread.reads,
    last.id, [], rfl, hread.stands, rfl⟩

theorem complete_moreArguments {comma : Token} {v w : List Token} {trees : List ExpressionTree}
    {tree : ExpressionTree} (hcomma : comma.kind = .comma) (hfront : Complete .arguments v trees)
    (h : Complete (.level 1) w [tree]) :
    Complete .arguments (v ++ comma :: w) (trees ++ [tree]) := by
  intro fuel s rest hahead hfuel hnext
  have hnext₁ : kindAt s.ending (comma :: w ++ rest) = .comma := hcomma
  obtain ⟨items, s₁, last, s₂, hrounds, hlast, hle, hreads, hall⟩ :=
    hfront fuel s _ (hahead.front (by rw [hnext₁]; nofun)) hfuel (Or.inl hnext₁)
  have hahead₂ := hahead.behind hreads
  obtain ⟨htake, hahead₃⟩ := hahead₂.take
  have hlength := length_lt_of_reads htake
  have hlength₂ := hreads.length_le
  have hround : Yields (commaStep (nested fuel .loosest) items) s₁ (.more (items ++ [last]))
      s₂.advance.2 :=
    yields_commaStep.2 ⟨last, s₂, hlast, Or.inl ⟨by rw [hahead₂.current, hcomma], rfl, rfl⟩⟩
  obtain ⟨next, s', hyields, hread⟩ := h.yields fuel .loosest hahead₃ (by omega) (by decide)
    (by decide) (by
      rw [htake.ending, hreads.ending]
      exact not_continuesAbove_of_separator hnext)
  have hbehind := htake.trans hread.reads
  refine ⟨items ++ [last], _, next, s', hrounds.tail hround (by omega), hyields,
    hread.reads.length_le, hreads.trans hbehind, ?_⟩
  rw [List.map_append]
  exact (hall.extend hbehind.arena).concat hread.stands

/-! ### Derivations -/

/-- **Every derivation** is followed by the parser. -/
theorem complete_of_derives {phrase : Phrase} {w : List Token} {trees : List ExpressionTree}
    (h : Derives phrase w trees) : Complete phrase w trees := by
  induction h with
  | infixed table _ _ ihl ihr => exact complete_infixed table ihl ihr
  | tighter low high _ ih =>
      intro fuel s rest power hahead hfuel hpower hlevel hstops
      refine ih fuel s rest power hahead hfuel hpower (by omega) fun hcontinues => hstops ?_
      exact hcontinues.loosen (by omega)
  | prefixed table _ ih =>
      intro fuel s rest power hahead hfuel _ _ hstops
      exact reaches_prefixed table ih hahead hfuel hstops
  | postfixed _ ih =>
      intro fuel s rest power hahead hfuel hpower _ _
      exact ih fuel s rest power hahead hfuel hpower
  | memberPrefixed _ dot table _ ihl ihr => exact complete_memberPrefixed dot table ihl ihr
  | primary _ ih =>
      intro fuel s rest power hahead hfuel _
      exact ih fuel s rest power hahead hfuel
  | member _ dot _ ihl ihr => exact complete_member dot ihl ihr
  | index _ opens _ closes ihl ih => exact complete_index opens closes ihl ih
  | literal value => exact complete_literal value
  | name kind => exact complete_name kind
  | emptyCall kind opens closes => exact complete_emptyCall kind opens closes
  | call kind opens inner closes ih => exact complete_call kind opens closes inner ih
  | grouping opens _ closes ih => exact complete_grouping opens closes ih
  | lastArgument _ ih => exact complete_lastArgument ih
  | moreArguments _ separates _ ihf ih => exact complete_moreArguments separates ihf ih

/-- **Completeness.** If a phrase of the level just above a binding power is ahead, and what stands
behind it does not bind tighter and does not make a call of its last name, then the expression
parser takes the phrase and returns its tree. -/
theorem expression_complete {power : BindingPower} (hpower : power ≠ .member) {s : State}
    {w rest : List Token} {tree : ExpressionTree} (hahead : Ahead s w rest)
    (h : Derives (.level power.levelAbove) w [tree])
    (hstops : ¬ ContinuesAbove power.level (kindAt s.ending rest)) :
    ∃ placed s', Yields (expression Grammar.standard power) s placed s' ∧
      ReadsTree s w tree placed s' := by
  obtain ⟨placed, s', hyields, hread⟩ := (complete_of_derives h).yields (s.unread.length + 1) power hahead
    (Nat.lt_succ_self _) hpower (Nat.le_refl _) hstops
  exact ⟨placed, s', yields_recursive.2 hyields, hread⟩

end Parser

end ProcLang
