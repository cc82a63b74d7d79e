import ProcLang.Proofs.SpelledOut.Follows

/-!
# ProcLang.Proofs.SpelledOut.Parser

**The parser reads a text with parentheses behind the chosen names** (`parse_spellOut`) as the tree of the
first text with these names spelled out.

Each function of the parser is followed through its text, as for two runs in lockstep. The runs differ in one
place: behind a chosen name the second one takes two parentheses more and makes an empty call
(`followsAt_nameOrCall`). The span of the call ends behind the parentheses, on the same line as the name.
-/

namespace ProcLang

/-- Names are read where identifiers stand, and nowhere else. -/
def Grammar.Named (g : Grammar) : Prop := ∀ kind, g.operand kind = some .name → kind = .identifier

theorem Grammar.standard_named : Grammar.standard.Named := by
  intro kind hrule
  cases kind with
  | identifier => rfl
  | _ => nomatch hrule

namespace Parser

variable {chosen : Position → Bool} {s : State}

/-! ### Expressions -/

/-- Two expressions with the same id, on the same lines. One of them may be a name and the other one a
call. -/
structure Placed.Retold (e e' : Placed) : Prop where
  id : e.id = e'.id
  span : e.node.span.Matches Blur.lines e'.node.span
  isCallLike : e.node.isCallLike = e'.node.isCallLike

instance : Std.Refl Placed.Retold := ⟨fun _ => ⟨rfl, Std.Refl.refl _, rfl⟩⟩

theorem Placed.Retold.ids {es es' : List Placed} (h : List.Forall₂ Placed.Retold es es') :
    es.map (·.id) = es'.map (·.id) := by
  induction h with
  | nil => rfl
  | cons hfirst _ ih => rw [List.map_cons, List.map_cons, hfirst.id, ih]

namespace Follows

theorem place {node node' : Expression} (hbare : Node.bare? .expression node = none)
    (h : Node.mapPlaces Blur.lines.keep .expression node = Node.mapPlaces Blur.lines.keep .expression node') :
    Follows chosen Placed.Retold (place node) (place node') := by
  obtain ⟨hspan, -, -, hkind⟩ := Expression.mk.inj h
  refine seq (add .expression hbare h) fun _ => pure ⟨rfl, Span.matches_iff.2 hspan, ?_⟩
  rw [Expression.isCallLike, Expression.isCallLike, hkind]

/-- An expression of a given form. -/
theorem placePlain {kind : ExpressionKind} (hbare : ∀ name, kind ≠ .identifier name none)
    {span span' : Span} (h : span.Matches Blur.lines span') :
    Follows chosen Placed.Retold (Parser.place (.plain kind span)) (Parser.place (.plain kind span')) := by
  refine place ?_ (congrArg (Expression.plain kind) (Span.matches_iff.1 h))
  rw [Node.bare?, Expression.plain]
  split
  · exact absurd ‹_› (hbare _)
  · rfl

end Follows

/-- A literal is no name. -/
theorem bare?_literalNode {token : Token} {node : Expression} (h : literalNode token = .ok node) :
    Node.bare? .expression node = none := by
  unfold literalNode at h
  dsimp only at h
  split at h
  · split at h
    · rw [← Except.ok.inj h]
      rfl
    · nomatch h
  · rw [← Except.ok.inj h]
    rfl
  · rw [← Except.ok.inj h]
    rfl
  · rw [← Except.ok.inj h]
    rfl
  · nomatch h

theorem follows_literal : Follows chosen Placed.Retold literal literal := by
  refine .current_bind fun token token' htoken => ?_
  rcases literalNode_matches (.same htoken) with ⟨cause, cause', hcause, hcause', -⟩ |
    ⟨node, node', hok, hok', hnode⟩
  · rw [hcause, hcause']
    exact .never fun _ _ _ => yields_raisePast
  · rw [hok, hok']
    exact .seq .skip fun _ => .place (bare?_literalNode hok) hnode

section

variable {expression expression' : BindingPower → Parser Placed}
  (hexpression : ∀ power, Follows chosen Placed.Retold (expression power) (expression' power))

include hexpression

theorem follows_arguments :
    Follows chosen (List.Forall₂ Placed.Retold) (arguments expression) (arguments expression') := by
  refine .current_bind fun token token' htoken => ?_
  rw [htoken.kind]
  exact .ite _ (.pure .nil) (.commaSeparated (hexpression _))

omit hexpression

/-! ### Names and calls -/

/-- The expression that a name is in the tree. -/
def bareName (name : Token) : Expression := .plain (.identifier name.text none) name.span

theorem spellOut_bareName {name : Token} (h : chosen name.start = true) :
    Node.spellOut chosen .expression (bareName name) = Expression.plain (.call name.text none []) name.span :=
  if_pos h

/-- The rest of a call behind its name. -/
def callBehind (expression : BindingPower → Parser Placed) (name : Token) : Parser Placed := do
  skip
  let arguments ← arguments expression
  discard <| expect .closeParen "`,` or `)`"
  let span ← spanFrom name.start
  place (.plain (.call name.text none (arguments.map (·.id))) span)

/-- An opening parenthesis behind a name makes it a call. -/
theorem yields_nameOrCall_iff {e : Placed} {s' : State} : Yields (nameOrCall expression) s e s' ↔
    Yields (if s.advance.2.current.kind = .openParen then callBehind expression s.current
      else place (bareName s.current)) s.advance.2 e s' := by
  unfold nameOrCall callBehind bareName
  rw [yields_advance_bind, yields_current_bind, State.advance_fst]

/-- **The parentheses behind a chosen name** make it an empty call. -/
theorem yields_emptyCall {t : State} {name opening closing : Token} {rest : List Token}
    (hunread : t.unread = name :: opening :: closing :: rest) (hopening : opening.kind = .openParen)
    (hclosing : closing.kind = .closeParen) (expression : BindingPower → Parser Placed) :
    ∃ t', t.Skips [name, opening, closing] t' ∧ t'.lastStop = closing.stop ∧
      ∀ node, node = .plain (.call name.text none []) ⟨name.start, closing.stop⟩ →
        Yields (nameOrCall expression) t ⟨(t'.arena.add .expression node).1, node⟩
          (t'.added .expression node) := by
  have hadvance : ∀ {t : State} {token : Token} {more : List Token}, t.unread = token :: more →
      t.Skips [token] t.advance.2 :=
    fun hunread => ⟨(State.reads_advance hunread).2.2, State.advance_arena _, State.advance_errors _⟩
  obtain ⟨-, hunread₁, -⟩ := State.reads_advance hunread
  obtain ⟨-, hunread₂, -⟩ := State.reads_advance hunread₁
  have hcurrent₁ := State.current_of_unread hunread₁
  have hcurrent₂ := State.current_of_unread hunread₂
  refine ⟨_, (hadvance hunread).trans ((hadvance hunread₁).trans (hadvance hunread₂)), ?_, ?_⟩
  · rw [State.advance_of_unread hunread₂]
    exact State.Matches.noteComment_lastStop _
  · rintro node rfl
    have hstop : t.advance.2.advance.2.advance.2.lastStop = closing.stop := by
      rw [State.advance_of_unread hunread₂]
      exact State.Matches.noteComment_lastStop _
    rw [yields_nameOrCall_iff, hcurrent₁, if_pos hopening, State.current_of_unread hunread, callBehind,
      yields_skip_bind, yields_bind]
    refine ⟨[], t.advance.2.advance.2, ?_, ?_⟩
    · rw [arguments, yields_current_bind, hcurrent₂, if_pos hclosing]
      exact yields_pure.2 ⟨rfl, rfl⟩
    · rw [yields_discard_expect_bind, hcurrent₂, yields_spanFrom_bind, hstop, place, yields_add_bind]
      exact ⟨hclosing, yields_pure.2 ⟨rfl, rfl⟩⟩

include hexpression

theorem follows_callBehind {name name' : Token} (hname : name.Same Blur.lines name') :
    Follows chosen Placed.Retold (callBehind expression name) (callBehind expression' name') := by
  refine .seq .skip fun _ => .bind (follows_arguments hexpression) fun items items' hitems => ?_
  rw [Placed.Retold.ids hitems, hname.text]
  exact .seq (.dropped _ _) fun _ => .bind (.spanFrom hname.start) fun _ _ hspan =>
    .placePlain (by nofun) hspan

omit hexpression

/-- In the longer text a name is read as an expression that stands for the bare name in the first one. -/
def PlacesName (chosen : Position → Bool) (expression : BindingPower → Parser Placed) (s t : State)
    (name : Token) : Prop :=
  ∃ e t', Yields (nameOrCall expression) t e t' ∧
    (s.advance.2.added .expression (bareName name)).Spelled chosen t' ∧
    Placed.Retold ⟨(s.advance.2.arena.add .expression (bareName name)).1, bareName name⟩ e

/-- A bare name that is placed is the one that was taken. -/
theorem faithful_of_name {token : Token} {rest : List Token} (hunread : s.unread = token :: rest)
    (h : (s.advance.2.added .expression (bareName token)).Faithful chosen) :
    s.Faithful chosen := by
  obtain ⟨-, hrest, hreads⟩ := State.reads_advance hunread
  refine ⟨s.advance_errors ▸ h.errors, hreads.ending ▸ h.ending, fun p hp hpassed => ?_⟩
  rw [hunread, List.map_cons] at hpassed
  have hname := h.passed p hp (hrest ▸ List.not_mem_of_not_mem_cons hpassed)
  rcases Arena.nameAt_add.1 hname with hold | hplaced
  · exact s.advance_arena ▸ hold
  · exact absurd (Option.some.inj hplaced ▸ List.mem_cons_self) hpassed

section

variable {t : State} {token : Token} {rest : List Token} (hunread : s.unread = token :: rest)
  (hst : s.Spelled chosen t)

include hunread hst

/-- The name that was taken does not stand in front of it. -/
theorem behind_name : ∀ p, Node.bare? .expression (bareName token) = some p →
    p ∉ s.advance.2.unread.map (·.start) := by
  intro p hp
  have hdistinct := hst.distinct
  rw [hunread] at hdistinct
  rw [(State.reads_advance hunread).2.1, ← Option.some.inj hp]
  exact (List.nodup_cons.1 hdistinct).1

/-- A name that is not chosen is placed in both trees. -/
theorem placed_name (hkind : token.kind = .identifier) (hkept : token.isChosen chosen = false)
    (hplain : s.advance.2.current.kind ≠ .openParen) :
    PlacesName chosen expression' s t token := by
  have hst₁ := hst.advance_of_kept (by
    rw [hunread]
    rintro _ ⟨⟩
    exact hkept)
  have hcurrent := hst.current
  rw [State.current_of_unread hunread] at hcurrent
  have hstays : ∀ p, Node.bare? .expression (bareName token) = some p →
      chosen p = false := by
    intro p hp
    rw [Token.isChosen, hkind] at hkept
    rw [← Option.some.inj hp]
    exact hkept
  have hnode : Node.mapPlaces Blur.lines.keep .expression
      (Node.spellOut chosen .expression (bareName token)) =
      Node.mapPlaces Blur.lines.keep .expression (bareName t.current) := by
    rw [Node.spellOut_eq_self hstays, bareName, hcurrent.text]
    exact congrArg (Expression.plain _) (Span.matches_iff.1 hcurrent.span)
  obtain ⟨hid, hadded⟩ := hst₁.add hnode (behind_name hunread hst)
  refine ⟨⟨_, bareName t.current⟩, _, yields_nameOrCall_iff.2 ?_, hadded, hid, hcurrent.span, rfl⟩
  rw [if_neg (hst₁.current.kind ▸ hplain), place, yields_add_bind]
  exact yields_pure.2 ⟨rfl, rfl⟩

/-- A chosen name is placed in the first tree, and an empty call in the second one. -/
theorem placed_call {name opening closing : Token} {rest' : List Token}
    (hunread' : t.unread = name :: opening :: closing :: rest') (hchosen : token.isChosen chosen = true)
    (same : token.Same Blur.lines name) (hopening : opening.kind = .openParen)
    (hclosing : closing.kind = .closeParen) (hline : closing.stop.line = token.stop.line)
    (hrest : Token.Spelled chosen rest rest') :
    PlacesName chosen expression' s t token := by
  obtain ⟨-, hunread₁, hreads⟩ := State.reads_advance hunread
  obtain ⟨t₁, hskips, hstop, hrun⟩ := yields_emptyCall hunread' hopening hclosing expression'
  have hlast : Blur.lines.keep token.stop = Blur.lines.keep closing.stop :=
    congrArg (Position.mk · 0) hline.symm
  have hlastStop : s.advance.2.lastStop = token.stop := by
    rw [State.advance_of_unread hunread]
    exact State.Matches.noteComment_lastStop _
  have htokens : t₁.unread = rest' :=
    (List.append_cancel_left (show [name, opening, closing] ++ rest' = [name, opening, closing] ++ t₁.unread
      from hunread'.symm.trans hskips.reads.unread)).symm
  have hdistinct := hst.distinct
  have hbehind := hst.behind
  rw [hunread] at hdistinct hbehind
  -- the parentheses are taken with the name, and so all three are gone in both states
  have hst₁ : s.advance.2.Spelled chosen t₁ :=
    { unread := by rwa [hunread₁, htokens]
      ending := by
        rw [hreads.ending, hskips.reads.ending]
        exact hst.ending
      lastStop := by rw [hlastStop, hstop, hlast]
      arena := by rw [State.advance_arena, hskips.arena, hst.arena]
      errors := by rw [hskips.errors, hst.errors]
      distinct := by
        rw [hunread₁]
        exact (List.nodup_cons.1 hdistinct).2
      behind := by
        rw [State.advance_arena, hunread₁]
        exact fun p hp hmem => hbehind p hp (List.mem_cons_of_mem _ hmem) }
  have hspan : token.span.Matches Blur.lines ⟨name.start, closing.stop⟩ := ⟨same.start, hlast⟩
  have hnode : Node.mapPlaces Blur.lines.keep .expression
      (Node.spellOut chosen .expression (bareName token)) =
      Node.mapPlaces Blur.lines.keep .expression
        (Expression.plain (.call name.text none []) ⟨name.start, closing.stop⟩) := by
    rw [spellOut_bareName (Bool.and_eq_true_iff.1 hchosen).2, same.text]
    exact congrArg (Expression.plain _) (Span.matches_iff.1 hspan)
  obtain ⟨hid, hadded⟩ := hst₁.add hnode (behind_name hunread hst)
  exact ⟨_, _, hrun _ rfl, hadded, hid, hspan, rfl⟩

/-- **A name** is placed in both trees, or spelled out in the second one. -/
theorem spelled_name (hkind : token.kind = .identifier) (hplain : s.advance.2.current.kind ≠ .openParen) :
    PlacesName chosen expression' s t token := by
  have hspelled := hst.unread
  rw [hunread] at hspelled
  generalize hunread' : t.unread = tokens' at hspelled
  cases hspelled with
  | kept hkept _ _ => exact placed_name hunread hst hkind hkept hplain
  | spelled hchosen same hopening hclosing hline hrest =>
      exact placed_call hunread hst hunread' hchosen same hopening hclosing hline hrest

end

include hexpression

/-- **A name or a call.** A name that is chosen is followed by parentheses in the longer text. -/
theorem followsAt_nameOrCall (hkind : s.current.kind = .identifier) :
    FollowsAt chosen Placed.Retold (nameOrCall expression) (nameOrCall expression') s := by
  intro e s' hrun hfaithful
  rw [yields_nameOrCall_iff] at hrun
  split at hrun
  · rename_i hopen
    have hfollows : ∀ {name : Token}, s.current.Same Blur.lines name →
        FollowsAt chosen Placed.Retold (callBehind expression s.current) (callBehind expression' name)
          s.advance.2 := fun hname => follows_callBehind hexpression hname _
    obtain ⟨hfaithful₁, -⟩ := hfollows (Std.Refl.refl _) hrun hfaithful
    refine ⟨hfaithful₁.of_advance, fun t hst => ?_⟩
    have hst₁ := hst.advance hfaithful₁
    obtain ⟨e', t', hrun', hst', he⟩ := (hfollows hst.current hrun hfaithful).2 _ hst₁
    refine ⟨e', t', ?_, hst', he⟩
    rw [yields_nameOrCall_iff, if_pos (hst₁.current.kind.symm.trans hopen)]
    exact hrun'
  · rename_i hplain
    rw [place, yields_add_bind] at hrun
    obtain ⟨rfl, rfl⟩ := yields_pure.1 hrun
    obtain ⟨w, hskips⟩ := s.exists_skips_advance
    have hending : s.ending.kind = .endOfFile := hskips.reads.ending ▸ hfaithful.ending
    obtain ⟨rest, hunread⟩ := State.exists_unread_of_current hending (by rw [hkind]; decide)
    exact ⟨faithful_of_name hunread hfaithful, fun t hst => spelled_name hunread hst hkind hplain⟩

/-! ### Operands and tails -/

theorem follows_grouping :
    Follows chosen Placed.Retold (grouping expression) (grouping expression') :=
  .seq .skip fun _ => .bind (hexpression _) fun _ _ hinner => .seq (.dropped _ _) fun _ => .pure hinner

theorem follows_unary : Follows chosen Placed.Retold (unary expression) (unary expression') := by
  refine .current_bind fun token token' htoken => ?_
  rw [htoken.kind]
  split
  · exact .never fun _ _ _ => yields_raisePast
  · refine .seq .skip fun _ => .bind (hexpression _) fun operand operand' hoperand => ?_
    rw [hoperand.id]
    exact .placePlain (by nofun) ⟨htoken.start, hoperand.span.stop⟩

theorem followsAt_operand {rule : OperandRule} (hname : rule = .name → s.current.kind = .identifier) :
    FollowsAt chosen Placed.Retold (operand expression rule) (operand expression' rule) s := by
  cases rule with
  | literal => exact follows_literal s
  | name => exact followsAt_nameOrCall hexpression (hname rfl)
  | grouping => exact follows_grouping hexpression s
  | unary => exact follows_unary hexpression s

section

variable {left left' : Placed} (hleft : left.Retold left') (power : BindingPower)

include hleft

theorem follows_binary :
    Follows chosen Placed.Retold (binary expression left power) (binary expression' left' power) := by
  refine .current_bind fun token token' htoken => ?_
  rw [htoken.kind]
  split
  · exact .never fun _ _ _ => yields_raisePast
  · refine .seq .skip fun _ => .bind (hexpression _) fun right right' hright => ?_
    rw [hleft.id, hright.id]
    exact .placePlain (by nofun) ⟨hleft.span.start, hright.span.stop⟩

theorem follows_member :
    Follows chosen Placed.Retold (member expression left power) (member expression' left' power) := by
  refine .seq .skip fun _ => .bind (hexpression _) fun field field' hfield => ?_
  rw [hleft.id, hfield.id]
  exact .placePlain (by nofun) ⟨hleft.span.start, hfield.span.stop⟩

theorem follows_index :
    Follows chosen Placed.Retold (index expression left) (index expression' left') := by
  refine .seq .skip fun _ => .bind (hexpression _) fun position position' hposition => ?_
  rw [hleft.id, hposition.id]
  exact .seq (.dropped _ _) fun _ => .bind (.spanFrom hleft.span.start) fun _ _ hspan =>
    .placePlain (by nofun) hspan

theorem follows_tail (rule : TailRule) :
    Follows chosen Placed.Retold (tail expression rule left power) (tail expression' rule left' power) := by
  cases rule with
  | binary => exact follows_binary hexpression hleft power
  | member => exact follows_member hexpression hleft power
  | index => exact follows_index hexpression hleft

end

theorem follows_expressionStep {g : Grammar} (hg : g.Named) (power : BindingPower) :
    Follows chosen Placed.Retold (expressionStep expression g power)
      (expressionStep expression' g power) := by
  intro s
  refine .current_bind fun token' htoken => ?_
  rw [htoken.kind.symm]
  split
  · exact Follows.never (fun _ _ _ => yields_refuse) s
  · rename_i rule hrule
    have hname : rule = .name → s.current.kind = .identifier := fun heq => hg _ (heq ▸ hrule)
    refine (followsAt_operand hexpression hname).bind fun first first' hfirst => ?_
    refine .loop (fun left left' hleft => ?_) hfirst
    refine .current_bind fun token token' htoken => ?_
    rw [htoken.kind]
    split
    · exact .pure (.done hleft)
    · refine .ite _ ?_ (.pure (.done hleft))
      exact .bind (follows_tail hexpression hleft _ _) fun _ _ hnext => .pure (.more hnext)

end

/-- **Expressions** are followed. -/
theorem follows_expression {g : Grammar} (hg : g.Named) (power : BindingPower) :
    Follows chosen Placed.Retold (expression g power) (expression g power) :=
  .recursive (fun _ _ hself => follows_expressionStep hself hg) power

/-! ### Types and declarations of variables -/

theorem follows_terminator : Follows chosen Eq terminator terminator := by
  refine .current_bind fun token token' htoken => ?_
  rw [htoken.kind]
  split
  · exact .skip
  · exact .skip
  · exact .pure rfl
  · exact .pure rfl
  · exact .pure rfl
  · exact .reject

theorem follows_primitiveType : Follows chosen Eq primitiveType primitiveType := by
  refine .bind .advance fun token token' htoken => ?_
  rw [htoken.kind]
  exact .add .type rfl (congrArg (TypeNode.mk · _) (Span.matches_iff.1 htoken.span))

theorem follows_namedType : Follows chosen Eq namedType namedType := by
  refine .bind (.expect _ _) fun token token' htoken => ?_
  rw [htoken.text]
  exact .add .type rfl (congrArg (TypeNode.mk · _) (Span.matches_iff.1 htoken.span))

section

variable {g : Grammar} (hg : g.Named) {type type' : Parser TypeId}

include hg

theorem follows_initializer : Follows chosen Eq (initializer g) (initializer g) := by
  refine .current_bind fun token token' htoken => ?_
  rw [htoken.kind]
  refine .ite _ ?_ (.pure rfl)
  exact .seq .skip fun _ => .bind (follows_expression hg _) fun _ _ hvalue =>
    .pure (congrArg some hvalue.id)

theorem follows_arrayLength : Follows chosen Eq (arrayLength g) (arrayLength g) := by
  refine .current_bind fun token token' htoken => ?_
  rw [htoken.kind]
  refine .ite _ ?_ (.pure rfl)
  exact .seq .skip fun _ => .bind (follows_expression hg _) fun _ _ hlength =>
    .seq (.dropped _ _) fun _ => .pure (congrArg some hlength.id)

variable (htype : Follows chosen Eq type type')

include htype

omit hg in
theorem follows_annotated : Follows chosen Eq ( annotation type) ( annotation type') := by
  refine .current_bind fun token token' htoken => ?_
  rw [htoken.kind]
  refine .ite _ ?_ (.pure rfl)
  exact .seq .skip fun _ => .map htype fun _ _ hid => congrArg some hid

theorem follows_variableDeclWith :
    Follows chosen Eq (variableDeclWith g type) (variableDeclWith g type') := by
  refine .bind .advance fun first first' hfirst => .bind (.expect _ _) fun name name' hname => ?_
  rw [hname.text]
  exact .seq (follows_annotated htype) fun _ => .seq (follows_initializer hg) fun _ =>
    .bind (.spanFrom hfirst.start) fun _ _ hspan => .seq follows_terminator fun _ =>
      .add .variable rfl (congrArg (Variable.mk · _ _ _) (Span.matches_iff.1 hspan))

theorem follows_arrayType : Follows chosen Eq (arrayType g type) (arrayType g type') :=
  .bind .advance fun _ _ hfirst => .seq (follows_arrayLength hg) fun _ => .seq htype fun _ =>
    .bind (.spanFrom hfirst.start) fun _ _ hspan =>
      .add .type rfl (congrArg (TypeNode.mk · _) (Span.matches_iff.1 hspan))

theorem follows_recordFields : Follows chosen Eq (recordFields g type) (recordFields g type') := by
  refine .loop (fun fields _ hfields => ?_) rfl
  subst hfields
  refine .current_bind fun token token' htoken => ?_
  rw [htoken.kind]
  split
  · exact .skipRound _
  · exact .skipRound _
  · exact .seq (follows_variableDeclWith hg htype) fun _ => .pure (.more rfl)
  · exact .pure (.done rfl)

theorem follows_recordType : Follows chosen Eq (recordType g type) (recordType g type') :=
  .bind .advance fun _ _ hfirst => .seq (follows_recordFields hg htype) fun _ =>
    .seq (.dropped _ _) fun _ => .bind (.spanFrom hfirst.start) fun _ _ hspan =>
      .add .type rfl (congrArg (TypeNode.mk · _) (Span.matches_iff.1 hspan))

theorem follows_typeStep : Follows chosen Eq (typeStep g type) (typeStep g type') := by
  refine .current_bind fun token token' htoken => ?_
  rw [htoken.kind]
  split
  · exact .reject
  · rename_i rule hrule
    cases rule with
    | primitive => exact follows_primitiveType
    | named => exact follows_namedType
    | array => exact follows_arrayType hg htype
    | record => exact follows_recordType hg htype

end

section

variable {g : Grammar} (hg : g.Named)

include hg

/-- **Types** are followed. -/
theorem follows_type : Follows chosen Eq (type g) (type g) :=
  .recursive (fun _ _ hself _ => follows_typeStep hg (hself ())) ()

theorem follows_variableDecl : Follows chosen Eq (variableDecl g) (variableDecl g) :=
  follows_variableDeclWith hg (follows_type hg)

theorem follows_typeDecl : Follows chosen Eq (typeDecl g) (typeDecl g) := by
  refine .bind .advance fun first first' hfirst => .bind (.expect _ _) fun name name' hname => ?_
  rw [hname.text]
  exact .seq (.dropped _ _) fun _ => .seq (follows_type hg) fun _ =>
    .bind (.spanFrom hfirst.start) fun _ _ hspan => .seq follows_terminator fun _ =>
      .add .typeDecl rfl (congrArg (TypeDecl.mk · _ _) (Span.matches_iff.1 hspan))

end

/-! ### Statements and bodies -/

/-- Statements of one form. -/
theorem Follows.addStatement (kind : StatementKind) {span span' : Span} (h : span.Matches Blur.lines span') :
    Follows chosen Eq (Parser.add .statement ⟨span, kind⟩) (Parser.add .statement ⟨span', kind⟩) :=
  .add .statement rfl (congrArg (Statement.mk · kind) (Span.matches_iff.1 h))

theorem follows_counter {name name' : Token} (hname : name.Same Blur.lines name') :
    Follows chosen Eq (counter name) (counter name') := by
  have hspan := Span.matches_iff.1 hname.span
  unfold counter
  rw [hname.text]
  exact .seq (.add .type rfl (congrArg (TypeNode.mk · _) hspan)) fun _ =>
    .add .variable rfl (congrArg (Variable.mk · _ _ _) hspan)

section

variable {g : Grammar} (hg : g.Named) {body body' : Parser BodyId}

include hg

theorem follows_expressionStatement :
    Follows chosen Eq (expressionStatement g) (expressionStatement g) := by
  refine .current_bind fun token token' htoken => ?_
  refine .bind (follows_expression hg _) fun first first' hfirst => ?_
  refine .current_bind fun next next' hnext => ?_
  rw [hfirst.id, hfirst.isCallLike, hnext.kind]
  refine .ite _ ?_ (.ite _ ?_ ?_)
  · refine .seq .skip fun _ => .bind (follows_expression hg _) fun value value' hvalue => ?_
    rw [hvalue.id]
    exact .bind (.spanFrom htoken.start) fun _ _ hspan => .addStatement _ hspan
  · exact .bind (.spanFrom htoken.start) fun _ _ hspan => .addStatement _ hspan
  · exact .never fun _ _ _ => yields_raise

theorem follows_resultValue : Follows chosen Eq (resultValue g) (resultValue g) := by
  refine .current_bind fun token token' htoken => ?_
  rw [htoken.kind]
  split
  · exact .pure rfl
  · exact .pure rfl
  · exact .pure rfl
  · exact .pure rfl
  · exact .pure rfl
  · exact .bind (follows_expression hg _) fun _ _ hvalue => .pure (congrArg some hvalue.id)

theorem follows_returning : Follows chosen Eq (returning g) (returning g) :=
  .bind .advance fun _ _ hfirst => .seq (follows_resultValue hg) fun _ =>
    .bind (.spanFrom hfirst.start) fun _ _ hspan => .addStatement _ hspan

variable (hbody : Follows chosen Eq body body')

include hbody

omit hg in
theorem follows_closedBody : Follows chosen Eq (closedBody body) (closedBody body') :=
  .seq hbody fun _ => .seq (.dropped _ _) fun _ => .pure rfl

theorem follows_whileLoop : Follows chosen Eq (whileLoop g body) (whileLoop g body') := by
  refine .bind .advance fun first first' hfirst => ?_
  refine .bind (follows_expression hg _) fun condition condition' hcondition => ?_
  rw [hcondition.id]
  exact .seq (.dropped _ _) fun _ => .seq (follows_closedBody hbody) fun _ =>
    .bind (.spanFrom hfirst.start) fun _ _ hspan => .addStatement _ hspan

theorem follows_forLoop : Follows chosen Eq (forLoop g body) (forLoop g body') := by
  refine .bind .advance fun start start' hstart => .bind (.expect _ _) fun name name' hname => ?_
  refine .seq (.dropped _ _) fun _ => .current_bind fun token token' htoken => ?_
  rw [htoken.kind]
  refine .skipIf _ (.bind (follows_expression hg _) fun first first' hfirst => ?_)
  refine .seq (.dropped _ _) fun _ => .bind (follows_expression hg _) fun last last' hlast => ?_
  rw [hfirst.id, hlast.id]
  exact .seq (.dropped _ _) fun _ => .seq (follows_counter hname) fun _ =>
    .seq (follows_closedBody hbody) fun _ => .bind (.spanFrom hstart.start) fun _ _ hspan =>
      .addStatement _ hspan

omit hg in
theorem follows_elseBranch : Follows chosen Eq (elseBranch body) (elseBranch body') := by
  refine .current_bind fun token token' htoken => ?_
  rw [htoken.kind]
  refine .ite _ ?_ (.pure rfl)
  exact .seq .skip fun _ => .map hbody fun _ _ hid => congrArg some hid

theorem follows_branch : Follows chosen Eq (branch g body) (branch g body') := by
  refine .bind .advance fun first first' hfirst => ?_
  refine .bind (follows_expression hg _) fun condition condition' hcondition => ?_
  rw [hcondition.id]
  exact .seq (.dropped _ _) fun _ => .seq hbody fun _ => .seq (follows_elseBranch hbody) fun _ =>
    .seq (.dropped _ _) fun _ => .bind (.spanFrom hfirst.start) fun _ _ hspan =>
      .addStatement _ hspan

theorem follows_statementWith : Follows chosen Eq (statementWith g body) (statementWith g body') := by
  refine .current_bind fun token token' htoken => ?_
  rw [htoken.kind]
  split
  · rename_i rule hrule
    cases rule with
    | whileLoop => exact follows_whileLoop hg hbody
    | forLoop => exact follows_forLoop hg hbody
    | branch => exact follows_branch hg hbody
    | returning => exact follows_returning hg
  · exact follows_expressionStatement hg

theorem follows_bodyItem (items : BodyItems) :
    Follows chosen Eq (bodyItem g body items) (bodyItem g body' items) := by
  refine .current_bind fun token token' htoken => ?_
  rw [htoken.kind]
  split
  · exact .seq (follows_variableDecl hg) fun _ => .pure rfl
  · exact .seq (follows_typeDecl hg) fun _ => .pure rfl
  · exact .never fun _ _ _ => yields_refuse
  · exact .seq (follows_statementWith hg hbody) fun _ => .pure rfl

theorem follows_bodyItems : Follows chosen Eq (bodyItems g body) (bodyItems g body') := by
  refine .loop (fun items _ hitems => ?_) rfl
  subst hitems
  refine .current_bind fun token token' htoken => ?_
  rw [htoken.kind]
  split
  · exact .skipRound _
  · exact .skipRound _
  · exact .pure (.done rfl)
  · exact .pure (.done rfl)
  · refine .never fun s x s' hrun => ?_
    rw [yields_current_bind] at hrun
    exact yields_raise hrun
  · exact .seq (.recovering _ _ _ (follows_bodyItem hg hbody items)) fun _ => .pure (.more rfl)

theorem follows_bodyStep : Follows chosen Eq (bodyStep g body) (bodyStep g body') :=
  .current_bind fun _ _ hfirst => .seq (follows_bodyItems hg hbody) fun _ =>
    .bind (.spanFrom hfirst.start) fun _ _ hspan => .seq (.note _ _) fun _ =>
      .add .body rfl (congrArg (Body.mk · _ _) (Span.matches_iff.1 hspan))

end

section

variable {g : Grammar} (hg : g.Named)

include hg

/-- **Bodies** are followed. -/
theorem follows_body : Follows chosen Eq (body g) (body g) :=
  .recursive (fun _ _ hself _ => follows_bodyStep hg (hself ())) ()

/-! ### Programs -/

theorem follows_parameter : Follows chosen Eq (parameter g) (parameter g) := by
  refine .bind (.expect _ _) fun name name' hname => ?_
  rw [hname.text]
  exact .seq (.dropped _ _) fun _ => .seq (follows_type hg) fun _ =>
    .bind (.spanFrom hname.start) fun _ _ hspan =>
      .add .variable rfl (congrArg (Variable.mk · _ _ _) (Span.matches_iff.1 hspan))

theorem follows_parameters : Follows chosen Eq (parameters g) (parameters g) := by
  refine .current_bind fun token token' htoken => ?_
  rw [htoken.kind]
  refine .ite _ (.pure rfl) ?_
  have hlist := Follows.commaSeparated (@follows_parameter chosen _ hg)
  rwa [List.forall₂_eq_eq_eq] at hlist

theorem follows_routineDecl : Follows chosen Eq (routineDecl g) (routineDecl g) := by
  refine .bind .advance fun first first' hfirst => .bind (.expect _ _) fun name name' hname => ?_
  rw [hname.text]
  exact .seq (.dropped _ _) fun _ => .seq (follows_parameters hg) fun _ =>
    .seq (.dropped _ _) fun _ => .seq (follows_annotated (follows_type hg)) fun _ =>
      .seq (.dropped _ _) fun _ => .seq (follows_body hg) fun _ =>
        .seq (.dropped _ _) fun _ => .bind (.spanFrom hfirst.start) fun _ _ hspan =>
          .add .routine rfl (congrArg (Routine.mk · _ _ _ _) (Span.matches_iff.1 hspan))

theorem follows_declaration : Follows chosen Eq (declaration g) (declaration g) := by
  refine .current_bind fun token token' htoken => ?_
  rw [htoken.kind]
  split
  · exact .map (follows_routineDecl hg) fun _ _ hid => congrArg _ hid
  · exact .map (follows_variableDecl hg) fun _ _ hid => congrArg _ hid
  · exact .map (follows_typeDecl hg) fun _ _ hid => congrArg _ hid
  · exact .never fun _ _ _ => yields_refuse

theorem follows_declarations : Follows chosen Eq (declarations g) (declarations g) := by
  refine .loop (fun found _ hfound => ?_) rfl
  subst hfound
  refine .current_bind fun token token' htoken => ?_
  rw [htoken.kind]
  split
  · exact .pure (.done rfl)
  · exact .skipRound _
  · exact .skipRound _
  · refine .seq (.recovering _ _ _ ?_) fun _ => .pure (.more rfl)
    exact .seq (follows_declaration hg) fun _ => .pure rfl

end

/-- In the empty tree there is no name. -/
theorem not_nameAt_empty {p : Position} : ¬ Arena.empty.NameAt p := by
  rintro ⟨family, id, node, hget, hbare⟩
  cases family with
  | routine | «variable» | typeDecl | type | body | statement => cases hbare
  | expression =>
      rw [Arena.get?, show Arena.empty.table .expression = #[] from rfl, Array.getElem?_empty] at hget
      cases hget

/-- Before their first tokens. -/
theorem State.spelled_ofSource (chosen : Position → Bool) (source : String) :
    (State.ofSource source).Spelled chosen (State.ofSource (Token.spellOut chosen source)) := by
  obtain ⟨htokens, hending⟩ := Token.tokenStream_spelled chosen source
  have hdistinct := Token.tokenStream_starts_nodup source
  have hempty : Arena.empty.spellOut chosen = Arena.empty := by simp [Arena.spellOut, Arena.empty]
  unfold State.ofSource
  generalize Token.tokenStream source = stream at htokens hending hdistinct ⊢
  generalize Token.tokenStream (Token.spellOut chosen source) = stream' at htokens hending ⊢
  exact State.Spelled.noteComment ⟨htokens, hending, rfl, congrArg _ hempty, rfl, hdistinct, fun p hp =>
    absurd hp not_nameAt_empty⟩

end Parser

/-- **Parsing a text with parentheses behind the chosen names.** If the first text has no errors and there is
a bare name at each chosen place, then the text with parentheses has no errors, and its tree is the first one
with these names spelled out. -/
theorem parse_spellOut {chosen : Position → Bool} {source : String} (herrors : (parse source).errors = [])
    (hnames : ∀ p, chosen p = true → (parse source).arena.NameAt p) :
    (parse (Token.spellOut chosen source)).errors = [] ∧
      (parse source).arena.SpelledOut chosen (parse (Token.spellOut chosen source)).arena := by
  obtain ⟨found, s, program, hfound, hdeclarations, -, harena, hlist⟩ := Parser.exists_yields_program source
  obtain ⟨found', t, program', hfound', hdeclarations', -, harena', hlist'⟩ :=
    Parser.exists_yields_program (Token.spellOut chosen source)
  obtain ⟨w, all, lost, hbuilt, -⟩ := ((Parser.declarations_constructs _ (Parser.sane_ofSource source)).yields
    ⟨.refl _, Nat.lt_succ_self _, nofun, nofun⟩ hfound).built
  have hget : ∀ {family : Family} (id : NodeId family), (parse source).arena.get? id = s.arena.get? id := by
    intro family id
    rw [harena]
    exact s.arena.get?_program program id
  have hfaithful : s.Faithful chosen := by
    refine ⟨Array.toList_eq_nil_iff.1 (hlist.symm.trans herrors), ?_, fun p hp _ => ?_⟩
    · rw [hbuilt.reads.ending]
      exact (Parser.sane_ofSource source).ending
    · obtain ⟨family, id, node, hnode, hbare⟩ := hnames p hp
      exact ⟨family, id, node, (hget id).symm.trans hnode, hbare⟩
  have hfollows := Parser.follows_declarations Grammar.standard_named _ hfound hfaithful
  obtain ⟨_, t', hrun', hspelled, rfl⟩ := hfollows.2 _ (Parser.State.spelled_ofSource chosen source)
  -- the parser has one outcome, so this is the run that made the second tree
  have hsame := hrun'.symm.trans hfound'
  obtain ⟨hvalue, rfl⟩ := Prod.mk.inj hsame
  obtain rfl := Except.ok.inj hvalue
  refine ⟨by rw [hlist', hspelled.errors], ?_, fun id => ?_⟩
  · rw [harena, harena', hdeclarations, hdeclarations']
  · rw [hget, harena', t'.arena.get?_program]
    exact (Arena.SpelledOut.of_noColumn chosen hspelled.arena).get? id

end ProcLang
