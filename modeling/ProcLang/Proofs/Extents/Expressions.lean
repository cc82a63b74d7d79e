import ProcLang.Proofs.Expression.Derivation
import ProcLang.Proofs.Extents.Ranges

/-!
# ProcLang.Proofs.Extents.Expressions

**Which tokens an expression was read from.** `ReadFrom a (.operand id front behind) core` says that the
expression `id` was read from the tokens `front ++ core ++ behind`, of which those in front and behind are
parentheses around it, and that it covers just the others: its span is their extent. Parentheses around an
operand lie within the tokens of the whole, unless nothing else is beside them.

If these are tokens of a text, then the span of the expression touches no other token of the text, it is
on one line, and the spans of the operands lie within it, one behind the other (`Delimited`).
-/

namespace ProcLang

open Arena Token

open scoped Position

/-- The token is an operator with two operands, or the point of a member access. -/
def Token.IsInfix (token : Token) (operator : BinaryOperator) : Prop :=
  (∃ q, (token.kind, q, operator) ∈ infixOperators) ∨ token.kind = .dot ∧ operator = .member

/-- An expression of some form is there, and its span is the extent of some tokens. -/
def Arena.Covers (a : Arena) (id : ExpressionId) (kind : ExpressionKind) (w : List Token) : Prop :=
  ∃ node, a.get? id = some node ∧ node.kind = kind ∧ node.span = extent w

/-- What is read from tokens: an expression with the parentheses around it, or arguments. -/
inductive Part where
  | operand (id : ExpressionId) (front behind : List Token)
  | arguments (ids : List ExpressionId)

/-- The tokens that an expression covers, or the tokens of arguments. What the names are linked to does
not matter, and a bare name may have turned into a call. -/
inductive ReadFrom (a : Arena) : Part → List Token → Prop
  | literal {id : ExpressionId} {token : Token} {node : Expression}
      (value : Parser.literalNode token = .ok node) (covers : a.Covers id node.kind [token]) :
      ReadFrom a (.operand id [] []) [token]
  | name {id : ExpressionId} {token : Token} {target : Option VariableId}
      (kind : token.kind = .identifier) (covers : a.Covers id (.identifier token.text target) [token]) :
      ReadFrom a (.operand id [] []) [token]
  | impliedCall {id : ExpressionId} {token : Token} {target : Option RoutineId}
      (kind : token.kind = .identifier) (covers : a.Covers id (.call token.text target []) [token]) :
      ReadFrom a (.operand id [] []) [token]
  | call {id : ExpressionId} {token opening closing : Token} {target : Option RoutineId}
      {ids : List ExpressionId} {w : List Token} (kind : token.kind = .identifier)
      (opens : opening.kind = .openParen) (inner : ReadFrom a (.arguments ids) w)
      (closes : closing.kind = .closeParen)
      (covers : a.Covers id (.call token.text target ids) (token :: opening :: w ++ [closing])) :
      ReadFrom a (.operand id [] []) (token :: opening :: w ++ [closing])
  | unary {id e : ExpressionId} {op : Token} {operator : UnaryOperator} {front w behind : List Token}
      (table : (op.kind, operator) ∈ prefixOperators) (inner : ReadFrom a (.operand e front behind) w)
      (covers : a.Covers id (.unary operator e) (op :: front ++ w)) :
      ReadFrom a (.operand id [] behind) (op :: front ++ w)
  | binary {id left right : ExpressionId} {op : Token} {operator : BinaryOperator}
      {front v inside inside' w behind : List Token} (table : op.IsInfix operator)
      (lhs : ReadFrom a (.operand left front inside) v)
      (rhs : ReadFrom a (.operand right inside' behind) w)
      (covers : a.Covers id (.binary operator left right) (v ++ inside ++ op :: (inside' ++ w))) :
      ReadFrom a (.operand id front behind) (v ++ inside ++ op :: (inside' ++ w))
  | index {id left position : ExpressionId} {opening closing : Token}
      {front v inside front' w behind' : List Token} (lhs : ReadFrom a (.operand left front inside) v)
      (opens : opening.kind = .openBracket) (inner : ReadFrom a (.operand position front' behind') w)
      (closes : closing.kind = .closeBracket)
      (covers : a.Covers id (.binary .index left position)
        (v ++ inside ++ opening :: (front' ++ w ++ behind' ++ [closing]))) :
      ReadFrom a (.operand id front []) (v ++ inside ++ opening :: (front' ++ w ++ behind' ++ [closing]))
  | grouping {id : ExpressionId} {opening closing : Token} {front w behind : List Token}
      (opens : opening.kind = .openParen) (inner : ReadFrom a (.operand id front behind) w)
      (closes : closing.kind = .closeParen) :
      ReadFrom a (.operand id (opening :: front) (behind ++ [closing])) w
  | noArguments : ReadFrom a (.arguments []) []
  | lastArgument {id : ExpressionId} {front w behind : List Token}
      (inner : ReadFrom a (.operand id front behind) w) :
      ReadFrom a (.arguments [id]) (front ++ w ++ behind)
  | moreArguments {ids : List ExpressionId} {id : ExpressionId} {comma : Token}
      {v front w behind : List Token} (others : ReadFrom a (.arguments ids) v) (some : ids ≠ [])
      (separates : comma.kind = .comma) (inner : ReadFrom a (.operand id front behind) w) :
      ReadFrom a (.arguments (ids ++ [id])) (v ++ comma :: (front ++ w ++ behind))

/-- All tokens that a part was read from, those around it included. -/
def Part.tokens (core : List Token) : Part → List Token
  | .operand _ front behind => front ++ core ++ behind
  | .arguments _ => core

theorem Arena.Covers.extend {a b : Arena} {id : ExpressionId} {kind : ExpressionKind} {w : List Token}
    (h : a.Covers id kind w) (hext : a.ExtendedBy b) : b.Covers id kind w := by
  obtain ⟨node, hget, hnode⟩ := h
  exact ⟨node, hext _ _ _ hget, hnode⟩

/-- An operator is neither the end of a line nor that of the text. -/
theorem Token.IsInfix.kind_ne {token : Token} {operator : BinaryOperator}
    (h : token.IsInfix operator) : token.kind ≠ .newline ∧ token.kind ≠ .endOfFile := by
  have htable : ∀ entry ∈ infixOperators, entry.1 ≠ .newline ∧ entry.1 ≠ .endOfFile := by decide
  rcases h with ⟨q, hmem⟩ | ⟨hdot, -⟩
  · exact htable _ hmem
  · rw [hdot]
    exact ⟨nofun, nofun⟩

/-- A literal covers its token, and has no operands. -/
theorem Parser.literalNode_covers {token : Token} {node : Expression}
    (h : Parser.literalNode token = .ok node) :
    node.span = token.span ∧ node.kind.operands = [] ∧ token.kind ≠ .newline ∧
      token.kind ≠ .endOfFile := by
  unfold literalNode at h
  simp only at h
  split at h
  · rename_i hkind
    split at h
    · cases h
      exact ⟨rfl, rfl, by simp [hkind], by simp [hkind]⟩
    · cases h
  · rename_i hkind
    cases h
    exact ⟨rfl, rfl, by simp [hkind], by simp [hkind]⟩
  · rename_i hkind
    cases h
    exact ⟨rfl, rfl, by simp [hkind], by simp [hkind]⟩
  · rename_i hkind
    cases h
    exact ⟨rfl, rfl, by simp [hkind], by simp [hkind]⟩
  · cases h

namespace ReadFrom

variable {a b : Arena} {part : Part} {id : ExpressionId} {ids : List ExpressionId}
  {front core behind w : List Token} {node : Expression} {p q : Position}

theorem extend (h : ReadFrom a part w) (hext : a.ExtendedBy b) : ReadFrom b part w := by
  induction h with
  | literal value covers => exact .literal value (covers.extend hext)
  | name kind covers => exact .name kind (covers.extend hext)
  | impliedCall kind covers => exact .impliedCall kind (covers.extend hext)
  | call kind opens _ closes covers ih => exact .call kind opens ih closes (covers.extend hext)
  | unary table _ covers ih => exact .unary table ih (covers.extend hext)
  | binary table _ _ covers ihl ihr => exact .binary table ihl ihr (covers.extend hext)
  | index _ opens _ closes covers ihl ihp => exact .index ihl opens ihp closes (covers.extend hext)
  | grouping opens _ closes ih => exact .grouping opens ih closes
  | noArguments => exact .noArguments
  | lastArgument _ ih => exact .lastArgument ih
  | moreArguments _ some separates _ iho ihi => exact .moreArguments iho some separates ihi

/-- An expression covers the extent of its tokens. -/
theorem exists_node (h : ReadFrom a (.operand id front behind) core) :
    core ≠ [] ∧ ∃ node, a.get? id = some node ∧ node.span = extent core := by
  generalize hpart : Part.operand id front behind = part at h
  induction h generalizing front behind with
  | literal _ covers | name _ covers | impliedCall _ covers | call _ _ _ _ covers
  | unary _ _ covers | binary _ _ _ covers | index _ _ _ _ covers =>
      cases hpart
      obtain ⟨node, hget, -, hspan⟩ := covers
      exact ⟨by simp, node, hget, hspan⟩
  | grouping _ _ _ ih =>
      cases hpart
      exact ih rfl
  | noArguments | lastArgument | moreArguments => cases hpart

theorem span_eq (h : ReadFrom a (.operand id front behind) core) (hget : a.get? id = some node) :
    node.span = extent core := by
  obtain ⟨-, found, hfound, hspan⟩ := h.exists_node
  obtain rfl := Option.some.inj (hget.symm.trans hfound)
  exact hspan

/-- The tokens around an expression are parentheses. -/
theorem parens (h : ReadFrom a (.operand id front behind) core) :
    (∀ token ∈ front, token.kind = .openParen) ∧ ∀ token ∈ behind, token.kind = .closeParen := by
  generalize hpart : Part.operand id front behind = part at h
  induction h generalizing id front behind with
  | literal | name | impliedCall | call =>
      cases hpart
      exact ⟨List.forall_mem_nil _, List.forall_mem_nil _⟩
  | unary _ _ _ ih =>
      cases hpart
      exact ⟨List.forall_mem_nil _, (ih rfl).2⟩
  | binary _ _ _ _ ihl ihr =>
      cases hpart
      exact ⟨(ihl rfl).1, (ihr rfl).2⟩
  | index _ _ _ _ _ ihl _ =>
      cases hpart
      exact ⟨(ihl rfl).1, List.forall_mem_nil _⟩
  | grouping opens _ closes ih =>
      cases hpart
      exact ⟨List.forall_mem_cons.2 ⟨opens, (ih rfl).1⟩,
        List.forall_mem_append.2 ⟨(ih rfl).2, List.forall_mem_singleton.2 closes⟩⟩
  | noArguments | lastArgument | moreArguments => cases hpart

/-- No expression reaches over the end of a line. -/
theorem newline_not_mem (h : ReadFrom a part w) :
    ∀ token ∈ part.tokens w, token.kind ≠ .newline := by
  have hkind : ∀ {token : Token} {kind : TokenKind}, token.kind = kind → kind ≠ .newline →
      token.kind ≠ .newline := fun heq hne => heq ▸ hne
  induction h with
  | literal value _ =>
      simpa [Part.tokens] using (Parser.literalNode_covers value).2.2.1
  | name kind _ | impliedCall kind _ => simp [Part.tokens, kind]
  | call kind opens _ closes _ ih =>
      simp only [Part.tokens, List.nil_append, List.append_nil, List.cons_append,
        List.forall_mem_cons, List.forall_mem_append] at ih ⊢
      exact ⟨hkind kind nofun, hkind opens nofun, ih, hkind closes nofun, List.forall_mem_nil _⟩
  | unary table _ _ ih =>
      have htable : ∀ entry ∈ prefixOperators, entry.1 ≠ .newline := by decide
      simp only [Part.tokens, List.nil_append, List.append_assoc, List.cons_append,
        List.forall_mem_cons, List.forall_mem_append] at ih ⊢
      exact ⟨htable _ table, ih⟩
  | binary table _ _ _ ihl ihr =>
      simp only [Part.tokens, List.append_assoc, List.cons_append, List.forall_mem_cons,
        List.forall_mem_append] at ihl ihr ⊢
      exact ⟨ihl.1, ihl.2.1, ihl.2.2, table.kind_ne.1, ihr⟩
  | index _ opens _ closes _ ihl ihp =>
      simp only [Part.tokens, List.append_assoc, List.cons_append, List.nil_append,
        List.forall_mem_cons, List.forall_mem_append] at ihl ihp ⊢
      exact ⟨ihl.1, ihl.2.1, ihl.2.2, hkind opens nofun, ihp.1, ihp.2.1, ihp.2.2,
        hkind closes nofun, List.forall_mem_nil _⟩
  | grouping opens _ closes ih =>
      simp only [Part.tokens, List.append_assoc, List.cons_append, List.forall_mem_cons,
        List.forall_mem_append] at ih ⊢
      exact ⟨hkind opens nofun, ih.1, ih.2.1, ih.2.2, hkind closes nofun, List.forall_mem_nil _⟩
  | noArguments => exact List.forall_mem_nil _
  | lastArgument _ ih => exact ih
  | moreArguments _ _ separates _ iho ihi =>
      simp only [Part.tokens, List.append_assoc, List.forall_mem_cons,
        List.forall_mem_append] at iho ihi ⊢
      exact ⟨iho, hkind separates nofun, ihi⟩

/-! ### Operands -/

/-- An expression lies where its tokens do. -/
theorem ranged_operand (h : ReadFrom a (.operand id front behind) core) (hcore : Between p core q) :
    a.Ranged p [.expression id] q := by
  obtain ⟨hne, node, hget, hspan⟩ := h.exists_node
  refine .singleton (span?_of hget) ?_
  rw [show Node.span .expression node = extent core from hspan]
  exact hcore.extent hne

/-- Arguments lie where their tokens do, one behind the other. -/
theorem ranged_arguments (h : ReadFrom a (.arguments ids) w) (hapart : Apart w) (hw : Between p w q) :
    a.Ranged p (ids.map .expression) q := by
  generalize hpart : Part.arguments ids = part at h
  induction h generalizing ids q with
  | literal | name | impliedCall | call | unary | binary | index | grouping => cases hpart
  | noArguments =>
      cases hpart
      exact .nil
  | lastArgument inner _ =>
      cases hpart
      exact inner.ranged_operand (hw.subset (by simp))
  | @moreArguments ids id comma v _ _ _ _ _ _ inner iho _ =>
      cases hpart
      obtain ⟨hothers, hlast⟩ := hw.split hapart
      obtain ⟨hp, hq⟩ := hw comma (by simp)
      have hinner := inner.ranged_operand (hlast.subset (by simp))
      rw [List.map_append]
      refine (iho (hapart.sublist (List.sublist_append_left ..)) hothers rfl).append hinner
        comma.start_le_stop (le_trans hp comma.start_le_stop) (le_trans comma.start_le_stop hq)

/-- **Operands lie within the expression**, one behind the other. -/
theorem ranged_operands (h : ReadFrom a (.operand id front behind) core) (hapart : Apart core)
    (hget : a.get? id = some node) :
    a.Ranged node.span.start (Node.children .expression node) node.span.stop := by
  rw [Node.children, h.span_eq hget]
  have hkind : ∀ {id kind w}, a.Covers id kind w → a.get? id = some node → node.kind = kind := by
    rintro id kind w ⟨found, hfound, hkind, -⟩ hget
    obtain rfl := Option.some.inj (hfound.symm.trans hget)
    exact hkind
  generalize hpart : Part.operand id front behind = part at h
  induction h generalizing id front behind with
  | literal value covers =>
      cases hpart
      rw [hkind covers hget, (Parser.literalNode_covers value).2.1]
      exact .nil
  | name _ covers | impliedCall _ covers =>
      cases hpart
      rw [hkind covers hget]
      exact .nil
  | @call _ token opening closing _ _ w _ _ inner _ covers _ =>
      cases hpart
      rw [hkind covers hget]
      have hstretch : w <:+: token :: opening :: w ++ [closing] := ⟨[token, opening], [closing], rfl⟩
      exact inner.ranged_arguments (hapart.stretch hstretch) (hapart.between.subset hstretch.subset)
  | unary _ inner covers _ =>
      cases hpart
      rw [hkind covers hget]
      exact inner.ranged_operand (hapart.between.subset (by simp))
  | @binary _ _ _ op _ _ _ _ _ _ _ _ lhs rhs covers _ _ =>
      cases hpart
      rw [hkind covers hget]
      obtain ⟨hleft, hright⟩ := hapart.between.split hapart
      obtain ⟨hstart, hstop⟩ := hapart.between op (by simp)
      exact (lhs.ranged_operand (hleft.subset (by simp))).beside
        (rhs.ranged_operand (hright.subset (by simp))) hstart hstop
  | @index _ _ _ opening _ _ _ _ _ _ _ lhs _ inner _ covers _ _ =>
      cases hpart
      rw [hkind covers hget]
      obtain ⟨hleft, hright⟩ := hapart.between.split hapart
      obtain ⟨hstart, hstop⟩ := hapart.between opening (by simp)
      exact (lhs.ranged_operand (hleft.subset (by simp))).beside
        (inner.ranged_operand (hright.subset (by simp))) hstart hstop
  | grouping _ _ _ ih =>
      cases hpart
      exact ih hapart hget rfl
  | noArguments | lastArgument | moreArguments => cases hpart

end ReadFrom

/-! ### Expressions in a text -/

/-- An expression was read from tokens of a text. -/
def Arena.WrittenIn (a : Arena) (source : String) (id : ExpressionId) : Prop :=
  ∃ before front core behind after,
    (tokenStream source).tokens = before ++ (front ++ core ++ behind) ++ after ∧
      ReadFrom a (.operand id front behind) core

/-- **What the span of an expression says.** It begins where a token begins and stops where one stops, on
the same line. The tokens that the expression was read from lie within it, except for parentheses around
the whole, and all other tokens of the text lie outside. The operands lie within it, one behind the
other. -/
structure Delimited (source : String) (a : Arena) (id : ExpressionId) (e : Expression) : Prop where
  tokens : ∃ before front core behind after,
    (tokenStream source).tokens = before ++ (front ++ core ++ behind) ++ after ∧
      ReadFrom a (.operand id front behind) core ∧
      (∀ token ∈ front, token.kind = .openParen) ∧ (∀ token ∈ behind, token.kind = .closeParen) ∧
      (∃ first ∈ core, e.span.start = first.start) ∧ (∃ last ∈ core, e.span.stop = last.stop) ∧
      (∀ token ∈ core, e.span.start ≤ token.start ∧ token.stop ≤ e.span.stop) ∧
      (∀ token ∈ before ++ front, token.stop ≤ e.span.start) ∧
      ∀ token ∈ behind ++ after, e.span.stop ≤ token.start
  ordered : e.span.start < e.span.stop
  line : e.span.start.line = e.span.stop.line
  operands : a.Ranged e.span.start (Node.children .expression e) e.span.stop

theorem Arena.WrittenIn.delimited {source : String} {a : Arena} {id : ExpressionId} {e : Expression}
    (h : a.WrittenIn source id) (hget : a.get? id = some e) : Delimited source a id e := by
  obtain ⟨before, front, core, behind, after, htokens, hread⟩ := h
  have hsplit : (tokenStream source).tokens = (before ++ front) ++ core ++ (behind ++ after) := by
    simp [htokens]
  have hapart : Apart _ := apart_tokens source
  rw [hsplit] at hapart
  have hcore : Apart core := hapart.stretch ⟨_, _, rfl⟩
  obtain ⟨hfront, -, hbehind⟩ := List.pairwise_append.1 hapart
  have hspan := hread.span_eq hget
  obtain ⟨hne, -⟩ := hread.exists_node
  obtain ⟨first, hfirst, hstart⟩ := exists_startOf hne
  obtain ⟨last, hlast, hstop⟩ := exists_stopOf hne
  rw [extent, hstart, hstop] at hspan
  have hline : ∀ token ∈ core, token.kind ≠ .newline := fun token ht =>
    hread.newline_not_mem token (by simp [Part.tokens, ht])
  have hstretch : core <:+: tokenize source := by
    refine ⟨before ++ front, behind ++ after ++ [(tokenStream source).ending], ?_⟩
    rw [tokenize, hsplit, List.append_assoc _ (behind ++ after)]
  have hmem : first ∈ (tokenStream source).tokens := by simp [hsplit, hfirst]
  refine ⟨⟨before, front, core, behind, after, htokens, hread, hread.parens.1, hread.parens.2,
    ⟨first, hfirst, congrArg Span.start hspan⟩, ⟨last, hlast, congrArg Span.stop hspan⟩, ?_, ?_, ?_⟩,
    ?_, ?_, hread.ranged_operands hcore hget⟩
  · rw [hspan, ← hstart, ← hstop]
    exact hcore.between
  · intro token ht
    rw [hspan]
    exact (List.pairwise_append.1 hfront).2.2 token ht first hfirst
  · intro token ht
    rw [hspan]
    exact hbehind last (List.mem_append_right _ hlast) token ht
  · rw [hspan]
    exact lt_of_lt_of_le (start_lt_stop hmem (hline first hfirst)) (hstop ▸ hcore.le_stopOf hfirst)
  · rw [hspan, stop_line]
    exact line_eq_of_stretch hstretch hline hfirst hlast

end ProcLang
