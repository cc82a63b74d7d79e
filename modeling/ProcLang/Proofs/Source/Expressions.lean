import ProcLang.Proofs.Expression.Completeness
import ProcLang.Proofs.Expression.Keeps
import ProcLang.Proofs.Parser.Achieves
import ProcLang.Proofs.Source.Stands

/-!
# ProcLang.Proofs.Source.Expressions

**An expression that was written down is read back** (`takes_expression`). The words of an
expression are a phrase of the grammar (`derives_words`): parentheses stand exactly where the place
of an operand asks for a tighter phrase. What the grammar derives is read by the parser
(`expression_complete`), and no error is recorded on the way.
-/

namespace ProcLang

/-- Every integer among words is a signed number of 64 bits. -/
theorem literalsFit_of_words {tokens : List Token} {words : List Word}
    (h : List.Forall₂ Token.Is tokens words) : LiteralsFit tokens := by
  intro token hmem hkind
  induction h with
  | nil => nomatch hmem
  | @cons first word _ _ hword _ ih =>
      rcases List.mem_cons.1 hmem with rfl | hmem
      · rw [hword.2]
        rw [hword.1] at hkind
        obtain ⟨kind, text, hwritten⟩ := word
        cases hwritten with
        | name | real | line => nomatch hkind
        | reserved entry =>
            have hnone : ∀ entry ∈ Token.keywordEntries, entry.2 ≠ .integerLiteral := by decide
            exact absurd hkind (hnone _ entry)
        | integer _ fits => exact fits
        | operator entry =>
            have hnone : ∀ entry ∈ Token.operatorEntries, entry.2 ≠ .integerLiteral := by decide
            exact absurd hkind (hnone _ entry)
      · exact ih hmem

namespace Source

/-! ### Written expressions are phrases -/

/-- The symbol of the grammar for the expressions of a level. -/
def symbol (level : Nat) : Phrase :=
  if level ≤ 7 then .level level else if level = 8 then .postfixed else .primary

/-- A tight expression stands wherever a looser one may. -/
theorem derives_loosen {place level : Nat} {tokens : List Token} {tree : ExpressionTree}
    (low : 1 ≤ place) (hle : place ≤ level) (h : Derives (symbol level) tokens [tree]) :
    Derives (symbol place) tokens [tree] := by
  by_cases hplace : place ≤ 7
  · have hlevel : Derives (.level place) tokens [tree] := by
      by_cases hlow : level ≤ 7
      · rw [symbol, if_pos hlow] at h
        exact h.loosen low hle (by omega)
      · rw [symbol, if_neg hlow] at h
        split at h
        · exact h.level_of_postfixed low (by omega)
        · exact (Derives.primary h).level_of_postfixed low (by omega)
    rwa [symbol, if_pos hplace]
  · rw [symbol, if_neg (by omega : ¬ level ≤ 7)] at h
    rw [symbol, if_neg hplace]
    split
    · split at h
      · exact h
      · exact .primary h
    · rwa [if_neg (by omega : ¬ level = 8)] at h

theorem binaryLevel_pos (operator : BinaryOperator) : 1 ≤ binaryLevel operator := by
  cases operator <;> decide

theorem Expression.level_pos (e : Expression) : 1 ≤ e.level := by
  cases e with
  | binary operator _ _ => exact binaryLevel_pos operator
  | integer | real | boolean | name | call | unary => exact Nat.le_add_left 1 _

/-- The words of an expression are those of a phrase with its tree. -/
def Expression.IsPhrase (e : Expression) : Prop :=
  ∀ tokens, List.Forall₂ Token.Is tokens e.words → Derives (symbol e.level) tokens [e.tree]

/-- In its place, with parentheses or without, an expression is a phrase for that place. -/
theorem derives_enclosed {e : Expression} {place : Nat} (low : 1 ≤ place) (h : e.IsPhrase)
    {tokens : List Token}
    (htokens : List.Forall₂ Token.Is tokens (enclosed place e.level e.words)) :
    Derives (symbol place) tokens [e.tree] := by
  rw [enclosed] at htokens
  split at htokens
  · rename_i hle
    exact derives_loosen low hle (h _ htokens)
  · rename_i hlooser
    obtain ⟨opening, _, hopening, htail, rfl⟩ := List.forall₂_cons_right_iff.1 htokens
    obtain ⟨inner, _, rfl, hinner, hlast⟩ := exists_append_of_forall₂ htail
    obtain ⟨closing, rfl, hclosing⟩ := exists_singleton_of_forall₂ hlast
    have hphrase : Derives (symbol 1) inner [e.tree] :=
      derives_loosen (Nat.le_refl _) e.level_pos (h _ hinner)
    have hgroup : Derives (symbol (max place 9)) (opening :: inner ++ [closing]) [e.tree] := by
      rw [symbol, if_neg (by omega), if_neg (by omega)]
      exact .grouping hopening.1 hphrase hclosing.1
    exact derives_loosen low (Nat.le_max_left _ _) hgroup

/-- Without a place that asks for more, an expression is a phrase of the loosest level. -/
theorem Expression.IsPhrase.loosest {e : Expression} (h : e.IsPhrase) {tokens : List Token}
    (htokens : List.Forall₂ Token.Is tokens e.words) : Derives (.level 1) tokens [e.tree] :=
  derives_loosen (Nat.le_refl 1) e.level_pos (h tokens htokens)

/-- Expressions with commas between them, behind others, are the arguments of a call. -/
theorem derives_commas {front : List Token} {before : List ExpressionTree}
    (hfront : Parser.ArgumentFront front before) {e : Expression} {es : List Expression}
    (h : ∀ x ∈ e :: es, Expression.IsPhrase x) {tokens : List Token}
    (htokens : List.Forall₂ Token.Is tokens (commas (Expression.wordLists (e :: es)))) :
    Derives .arguments (front ++ tokens) (before ++ Expression.trees (e :: es)) := by
  induction es generalizing e front before tokens with
  | nil => exact hfront.concat ((h e List.mem_cons_self).loosest htokens)
  | cons next rest ih =>
      obtain ⟨own, _, rfl, hown, htail⟩ := exists_append_of_forall₂ htokens
      obtain ⟨comma, others, hcomma, hothers, rfl⟩ := List.forall₂_cons_right_iff.1 htail
      have hfirst := hfront.concat ((h e List.mem_cons_self).loosest hown)
      have hrest := ih (.others hfirst hcomma.1) (fun x hx => h x (List.mem_cons_of_mem _ hx))
        hothers
      simpa [Expression.trees] using hrest

theorem words_binary {operator : BinaryOperator} (h : operator ≠ .index) (left right : Expression) :
    (Expression.binary operator left right).words =
      enclosed (binaryLevel operator) left.level left.words ++
        .of (binaryToken operator) (binaryToken_fixed operator) ::
          enclosed (binaryLevel operator + 1) right.level right.words := by
  cases operator <;> first | rfl | exact absurd rfl h

theorem isPhrase_binary {operator : BinaryOperator} {left right : Expression}
    (hleft : left.IsPhrase) (hright : right.IsPhrase) :
    (Expression.binary operator left right).IsPhrase := by
  intro tokens htokens
  by_cases hindex : operator = .index
  · subst hindex
    obtain ⟨v, _, rfl, hv, htail⟩ := exists_append_of_forall₂ htokens
    obtain ⟨opening, _, hopening, hrest, rfl⟩ := List.forall₂_cons_right_iff.1 htail
    obtain ⟨w, _, rfl, hw, hlast⟩ := exists_append_of_forall₂ hrest
    obtain ⟨closing, rfl, hclosing⟩ := exists_singleton_of_forall₂ hlast
    have hphrase : Derives .postfixed (v ++ opening :: w ++ [closing]) _ :=
      .index (derives_enclosed (by decide) hleft hv) hopening.1 (hright.loosest hw) hclosing.1
    rwa [List.append_assoc] at hphrase
  · rw [words_binary hindex] at htokens
    obtain ⟨v, _, rfl, hv, htail⟩ := exists_append_of_forall₂ htokens
    obtain ⟨op, w, hop, hw, rfl⟩ := List.forall₂_cons_right_iff.1 htail
    have hlhs := derives_enclosed (binaryLevel_pos operator) hleft hv
    have hrhs := derives_enclosed (Nat.le_add_left 1 _) hright hw
    by_cases hmember : operator = .member
    · subst hmember
      exact .member hlhs hop.1 hrhs
    · have hmem := mem_infixOperators hmember hindex
      have hlevel := (level_of_mem hmem).2
      have htable : (op.kind, binaryLevel operator, operator) ∈ infixOperators := hop.1 ▸ hmem
      rw [symbol, if_pos (by omega)] at hlhs hrhs
      rw [Expression.level, symbol, if_pos (by omega)]
      exact .infixed htable hlhs hrhs

mutual

/-- **What is written for an expression** is a phrase of the grammar with its tree. -/
theorem derives_words : ∀ e : Expression, e.IsPhrase
  | .integer value => by
      intro tokens htokens
      obtain ⟨token, rfl, htoken⟩ := exists_singleton_of_forall₂ htokens
      have hliteral : IsLiteral token (.integer (Binary64.digitsValue token.text.toList)) :=
        .integer htoken.1
      rw [htoken.2, integerWord, digitsValue_repr] at hliteral
      exact .literal hliteral
  | .real literal => by
      intro tokens htokens
      obtain ⟨token, rfl, htoken⟩ := exists_singleton_of_forall₂ htokens
      have hpoint : Parser.splitAtPoint token.text.toList =
          Parser.splitAtPoint literal.text.toList :=
        congrArg (Parser.splitAtPoint ·.toList) htoken.2
      exact .literal (.real htoken.1 hpoint)
  | .boolean value => by
      intro tokens htokens
      obtain ⟨token, rfl, htoken⟩ := exists_singleton_of_forall₂ htokens
      cases value with
      | true => exact .literal (.truth htoken.1)
      | false => exact .literal (.falsity htoken.1)
  | .name n => by
      intro tokens htokens
      obtain ⟨token, rfl, htoken⟩ := exists_singleton_of_forall₂ htokens
      have hname : Derives .primary [token] [.name token.text] := .name htoken.1
      rwa [htoken.2] at hname
  | .call n arguments => by
      intro tokens htokens
      obtain ⟨token, _, htoken, htail, rfl⟩ := List.forall₂_cons_right_iff.1 htokens
      obtain ⟨opening, _, hopening, hrest, rfl⟩ := List.forall₂_cons_right_iff.1 htail
      obtain ⟨inner, _, rfl, hinner, hlast⟩ := exists_append_of_forall₂ hrest
      obtain ⟨closing, rfl, hclosing⟩ := exists_singleton_of_forall₂ hlast
      have hphrases := derives_each arguments
      cases arguments with
      | nil =>
          obtain rfl := List.forall₂_nil_right_iff.1 hinner
          have hcall : Derives .primary [token, opening, closing] [.call token.text []] :=
            .emptyCall htoken.1 hopening.1 hclosing.1
          rwa [htoken.2] at hcall
      | cons e es =>
          have harguments := derives_commas .nothing hphrases hinner
          have hcall := Derives.call htoken.1 hopening.1 harguments hclosing.1
          rwa [htoken.2] at hcall
  | .unary operator operand => by
      intro tokens htokens
      obtain ⟨op, w, hop, hw, rfl⟩ := List.forall₂_cons_right_iff.1 htokens
      have htable : (op.kind, operator) ∈ prefixOperators := hop.1 ▸ mem_prefixOperators operator
      exact .prefixed htable (derives_enclosed (by decide) (derives_words operand) hw)
  | .binary _ left right => isPhrase_binary (derives_words left) (derives_words right)

theorem derives_each : ∀ es : List Expression, ∀ e ∈ es, e.IsPhrase
  | [] => nofun
  | e :: es => List.forall_mem_cons.2 ⟨derives_words e, derives_each es⟩

end

/-! ### The parser of expressions -/

open ProcLang.Parser

/-- Words behind an expression that do not go on with it. -/
def Closes (rest : List Word) : Prop :=
  ¬ ContinuesAbove BindingPower.loosest.level (nextKind rest) ∧ nextKind rest ≠ .openParen

/-- What opens no tail and no argument list closes an expression. -/
theorem closes_of_kind {rest : List Word} (htail : Grammar.standardTail (nextKind rest) = none)
    (hopen : nextKind rest ≠ .openParen) : Closes rest := by
  refine ⟨fun hcontinues => ?_, hopen⟩
  obtain ⟨power, rule, hrule, -⟩ := continuesAbove_iff.1 hcontinues
  rw [htail] at hrule
  nomatch hrule

theorem closes_of_newline {rest : List Word} (h : nextKind rest = .newline) : Closes rest :=
  closes_of_kind (by rw [h]; rfl) (by rw [h]; nofun)

/-- **An expression that was written down is read back.** -/
theorem takes_expression (e : Expression) : Takes (expression Grammar.standard .loosest) e.words
    Closes (fun a placed => e.Stands a placed.id ∧ a.get? placed.id = some placed.node) := by
  intro s rest hs hcloses
  obtain ⟨w, r, hunread, hw, hr⟩ := exists_append_of_forall₂ hs.unread
  have hkind : kindAt s.ending r = nextKind rest :=
    State.Spells.current_kind (s := { s with unread := r }) ⟨hs.ending, hr⟩
  have hahead : Ahead s w r :=
    ⟨hunread, hs.ending, literalsFit_of_words hw, fun _ _ _ => hkind ▸ hcloses.2⟩
  have hpower : BindingPower.loosest ≠ .member := by decide
  obtain ⟨placed, s', hrun, hread⟩ := expression_complete hpower hahead
    ((derives_words e).loosest hw) (hkind ▸ hcloses.1)
  obtain ⟨⟨herrors, -⟩, hget⟩ := expression_keeps _ _ _ _ hrun
  refine ⟨placed, s', hrun, ⟨⟨hread.reads.ending_kind hs.ending, ?_⟩, hread.reads.arena, herrors⟩,
    hread.stands, hget⟩
  rwa [hahead.rest_of_reads hread.reads]

end Source

end ProcLang
