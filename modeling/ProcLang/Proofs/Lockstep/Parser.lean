import ProcLang.Parse.Program
import ProcLang.Proofs.Lockstep.Agrees
import ProcLang.Proofs.Parser.Program

/-!
# ProcLang.Proofs.Lockstep.Parser

**The parser does the same in two runs that match** (`blind_program`). Each function of the parser is
followed through its text: what it decides, it decides by the kinds of tokens, and semicolons and line
breaks decide alike; places only get into spans and diagnostics. A semicolon and a line break are told
apart where a token is rejected and nowhere else.

A name is taken without a look at its kind. It is never a separator, since the grammar has no operand
that begins with one (`Grammar.Neutral`).
-/

namespace ProcLang

/-- No construct begins or goes on with a semicolon or a line break. -/
structure Grammar.Neutral (g : Grammar) : Prop where
  statement : g.statement .semicolon = none ∧ g.statement .newline = none
  operand : g.operand .semicolon = none ∧ g.operand .newline = none
  tail : g.tail .semicolon = none ∧ g.tail .newline = none
  type : g.type .semicolon = none ∧ g.type .newline = none

theorem Grammar.standard_neutral : Grammar.standard.Neutral :=
  ⟨⟨rfl, rfl⟩, ⟨rfl, rfl⟩, ⟨rfl, rfl⟩, ⟨rfl, rfl⟩⟩

variable {b : Blur}

theorem Span.matches_iff {span span' : Span} :
    span.Matches b span' ↔ span.mapPlaces b.keep = span'.mapPlaces b.keep := by
  constructor
  · intro h
    rw [Span.mapPlaces, Span.mapPlaces, h.start, h.stop]
  · intro h
    obtain ⟨hstart, hstop⟩ := Span.mk.inj h
    exact ⟨hstart, hstop⟩

namespace Parser

/-! ### Expressions -/

/-- Two expressions that differ in places only, with the same id. -/
structure Placed.Matches (b : Blur) (e e' : Placed) : Prop where
  id : e.id = e'.id
  node : Node.mapPlaces b.keep .expression e.node = Node.mapPlaces b.keep .expression e'.node

instance : Std.Refl (Placed.Matches b) := ⟨fun _ => ⟨rfl, rfl⟩⟩

namespace Placed.Matches

variable {e e' : Placed}

theorem parts (h : e.Matches b e') :
    e.node.span.mapPlaces b.keep = e'.node.span.mapPlaces b.keep ∧ e.node.kind = e'.node.kind := by
  obtain ⟨hspan, -, -, hkind⟩ := Expression.mk.inj h.node
  exact ⟨hspan, hkind⟩

theorem span (h : e.Matches b e') : e.node.span.Matches b e'.node.span :=
  Span.matches_iff.2 h.parts.1

theorem isCallLike (h : e.Matches b e') : e.node.isCallLike = e'.node.isCallLike := by
  rw [Expression.isCallLike, Expression.isCallLike, h.parts.2]

theorem ids {es es' : List Placed} (h : List.Forall₂ (Placed.Matches b) es es') :
    es.map (·.id) = es'.map (·.id) := by
  induction h with
  | nil => rfl
  | cons hfirst _ ih => rw [List.map_cons, List.map_cons, hfirst.id, ih]

end Placed.Matches

namespace Agrees

theorem place {node node' : Expression}
    (h : Node.mapPlaces b.keep .expression node = Node.mapPlaces b.keep .expression node') :
    Agrees b (Placed.Matches b) (place node) (place node') :=
  seq (add .expression h) fun _ => pure ⟨rfl, h⟩

/-- An expression of a given form. -/
theorem placePlain (kind : ExpressionKind) {span span' : Span} (h : span.Matches b span') :
    Agrees b (Placed.Matches b) (Parser.place (.plain kind span)) (Parser.place (.plain kind span')) :=
  place (congrArg (Expression.plain kind) (Span.matches_iff.1 h))

end Agrees

/-- Literals in the same place. Neither of the separators is a literal. -/
theorem literalNode_matches {token token' : Token} (h : token.Matches b token') :
    (∃ cause cause', literalNode token = .error cause ∧ literalNode token' = .error cause' ∧
        cause.Matches b cause') ∨
      ∃ node node', literalNode token = .ok node ∧ literalNode token' = .ok node' ∧
        Node.mapPlaces b.keep .expression node = Node.mapPlaces b.keep .expression node' := by
  have hcause := h.cause "literal"
  have hspan := Span.matches_iff.1 h.span
  cases h with
  | same h =>
      have hnode : ∀ constant type kind,
          Node.mapPlaces b.keep .expression ⟨token.span, constant, type, kind⟩ =
            Node.mapPlaces b.keep .expression ⟨token'.span, constant, type, kind⟩ :=
        fun _ _ _ => congrArg (fun span => Expression.mk span _ _ _) hspan
      unfold literalNode
      rw [h.kind, h.text]
      split
      · dsimp only
        split
        · exact Or.inr ⟨_, _, rfl, rfl, hnode _ _ _⟩
        · exact Or.inl ⟨_, _, rfl, rfl, .same _⟩
      · exact Or.inr ⟨_, _, rfl, rfl, hnode _ _ _⟩
      · exact Or.inr ⟨_, _, rfl, rfl, hnode _ _ _⟩
      · exact Or.inr ⟨_, _, rfl, rfl, hnode _ _ _⟩
      · exact Or.inl ⟨_, _, rfl, rfl, hcause⟩
  | exchanged h =>
      refine Or.inl ⟨_, _, ?_, ?_, hcause⟩
      · unfold literalNode
        rw [h.kind]
      · unfold literalNode
        rw [h.kind']

theorem blind_literal : Blind b (Placed.Matches b) literal := by
  refine .bind .current fun token token' htoken => ?_
  rcases literalNode_matches htoken with ⟨cause, cause', hcause, hcause', hmatch⟩ |
    ⟨node, node', hok, hok', hnode⟩
  · rw [hcause, hcause']
    exact .raisePast ⟨hmatch, htoken.start⟩
  · rw [hok, hok']
    exact .seq .skip fun _ => .place hnode

section

variable {expression : BindingPower → Parser Placed}
  (hexpression : ∀ power, Blind b (Placed.Matches b) (expression power))

include hexpression

theorem blind_arguments : Blind b (List.Forall₂ (Placed.Matches b)) (arguments expression) :=
  .bind .current fun _ _ htoken =>
    .ite (htoken.kind_iff rfl) (.pure .nil) (.commaSeparated (hexpression _))

/-- A name is taken in both runs, unless the current token is exchanged. -/
theorem agreesAt_nameOrCall {s t : State} (hst : s.Matches b t) (h : s.current.Same b t.current) :
    AgreesAt b (Placed.Matches b) (nameOrCall expression) (nameOrCall expression) s t := by
  refine (AgreesAt.advance hst h).bind fun name name' hname => ?_
  refine .bind .current fun token token' htoken => ?_
  rw [hname.text]
  refine .ite (htoken.kind_iff rfl) ?_ (.placePlain _ hname.span)
  refine .seq .skip fun _ => .bind (blind_arguments hexpression) fun items items' hitems => ?_
  rw [Placed.Matches.ids hitems]
  exact .seq (.dropped (by decide)) fun _ => .bind (.spanFrom hname.start) fun span span' hspan =>
    .placePlain _ hspan

theorem blind_grouping : Blind b (Placed.Matches b) (grouping expression) :=
  .seq .skip fun _ => .bind (hexpression _) fun _ _ hinner => .seq (.dropped (by decide)) fun _ =>
    .pure hinner

theorem blind_unary : Blind b (Placed.Matches b) (unary expression) := by
  refine .bind .current fun token token' htoken => ?_
  have hcause := htoken.cause "unary operator"
  refine htoken.kinds.elim (fun kind => ?_) (.raisePast ⟨hcause, htoken.start⟩)
  split
  · exact .raisePast ⟨hcause, htoken.start⟩
  · refine .seq .skip fun _ => .bind (hexpression _) fun operand operand' hoperand => ?_
    rw [hoperand.id]
    exact .placePlain _ ⟨htoken.start, hoperand.span.stop⟩

theorem agreesAt_operand (rule : OperandRule) {s t : State} (hst : s.Matches b t)
    (h : s.current.Same b t.current) :
    AgreesAt b (Placed.Matches b) (operand expression rule) (operand expression rule) s t := by
  cases rule with
  | literal => exact blind_literal hst
  | name => exact agreesAt_nameOrCall hexpression hst h
  | grouping => exact blind_grouping hexpression hst
  | unary => exact blind_unary hexpression hst

section

variable {left left' : Placed} (hleft : left.Matches b left') (power : BindingPower)

include hleft

theorem agrees_binary :
    Agrees b (Placed.Matches b) (binary expression left power) (binary expression left' power) := by
  refine .bind .current fun token token' htoken => ?_
  have hcause := htoken.cause "operator"
  refine htoken.kinds.elim (fun kind => ?_) (.raisePast ⟨hcause, htoken.start⟩)
  split
  · exact .raisePast ⟨hcause, htoken.start⟩
  · refine .seq .skip fun _ => .bind (hexpression _) fun right right' hright => ?_
    rw [hleft.id, hright.id]
    exact .placePlain _ ⟨hleft.span.start, hright.span.stop⟩

theorem agrees_member :
    Agrees b (Placed.Matches b) (member expression left power) (member expression left' power) := by
  refine .seq .skip fun _ => .bind (hexpression _) fun field field' hfield => ?_
  rw [hleft.id, hfield.id]
  exact .placePlain _ ⟨hleft.span.start, hfield.span.stop⟩

theorem agrees_index :
    Agrees b (Placed.Matches b) (index expression left) (index expression left') := by
  refine .seq .skip fun _ => .bind (hexpression _) fun position position' hposition => ?_
  rw [hleft.id, hposition.id]
  exact .seq (.dropped (by decide)) fun _ => .bind (.spanFrom hleft.span.start)
    fun span span' hspan => .placePlain _ hspan

theorem agrees_tail (rule : TailRule) :
    Agrees b (Placed.Matches b) (tail expression rule left power) (tail expression rule left' power) := by
  cases rule with
  | binary => exact agrees_binary hexpression hleft power
  | member => exact agrees_member hexpression hleft power
  | index => exact agrees_index hexpression hleft

end

theorem blind_expressionStep {g : Grammar} (hg : g.Neutral) (power : BindingPower) :
    Blind b (Placed.Matches b) (expressionStep expression g power) := by
  intro s t hst
  refine AgreesAt.current ?_
  cases hst.current with
  | exchanged h =>
      rw [h.kind, h.kind', hg.operand.1, hg.operand.2]
      exact Agrees.refuse _ hst
  | same h =>
      rw [h.kind]
      split
      · exact Agrees.refuse _ hst
      · refine (agreesAt_operand hexpression _ hst h).bind fun first first' hfirst => ?_
        refine .loop (fun left left' hleft => ?_) hfirst
        refine .bind .current fun token token' htoken => ?_
        refine htoken.kinds.elim (fun kind => ?_) ?_
        · split
          · exact .pure (.done hleft)
          · refine .ite Iff.rfl ?_ (.pure (.done hleft))
            exact .bind (agrees_tail hexpression hleft _ _) fun _ _ hnext => .pure (.more hnext)
        · rw [hg.tail.1, hg.tail.2]
          exact .pure (.done hleft)

end

/-- **Expressions** are read the same way. -/
theorem blind_expression {g : Grammar} (hg : g.Neutral) (power : BindingPower) :
    Blind b (Placed.Matches b) (expression g power) :=
  .recursive (fun _ hself => blind_expressionStep hself hg) power

/-! ### Types and declarations of variables -/

theorem blind_terminator : Blind b Eq terminator := by
  refine .bind .current fun token token' htoken => ?_
  refine htoken.kinds.elim (fun kind => ?_) .skip
  split
  · exact .skip
  · exact .skip
  · exact .pure rfl
  · exact .pure rfl
  · exact .pure rfl
  · exact .reject (by decide)

theorem blind_primitiveType : Blind b Eq primitiveType := by
  refine .bind .advance fun token token' htoken => ?_
  have hspan := Span.matches_iff.1 htoken.span
  refine htoken.kinds.elim (fun kind => ?_) ?_
  · exact .add .type (congrArg (TypeNode.mk · _) hspan)
  · exact .add .type (congrArg (TypeNode.mk · _) hspan)

theorem blind_namedType : Blind b Eq namedType := by
  refine .bind (.expect (by decide)) fun token token' htoken => ?_
  rw [htoken.text]
  exact .add .type (congrArg (TypeNode.mk · _) (Span.matches_iff.1 htoken.span))

section

variable {g : Grammar} (hg : g.Neutral) {type : Parser TypeId}

include hg

theorem blind_initializer : Blind b Eq (initializer g) := by
  refine .bind .current fun token token' htoken => .ite (htoken.kind_iff rfl) ?_ (.pure rfl)
  exact .seq .skip fun _ => .bind (blind_expression hg _) fun _ _ hvalue =>
    .pure (congrArg some hvalue.id)

theorem blind_arrayLength : Blind b Eq (arrayLength g) := by
  refine .bind .current fun token token' htoken => .ite (htoken.kind_iff rfl) ?_ (.pure rfl)
  exact .seq .skip fun _ => .bind (blind_expression hg _) fun _ _ hlength =>
    .seq (.dropped (by decide)) fun _ => .pure (congrArg some hlength.id)

omit hg in
theorem blind_annotated (htype : Blind b Eq type) : Blind b Eq ( annotation type) := by
  refine .bind .current fun token token' htoken => .ite (htoken.kind_iff rfl) ?_ (.pure rfl)
  exact .seq .skip fun _ => .map htype fun _ _ hid => congrArg some hid

variable (htype : Blind b Eq type)

include htype

theorem blind_variableDeclWith : Blind b Eq (variableDeclWith g type) := by
  refine .bind .advance fun first first' hfirst => .bind (.expect (by decide)) fun name name' hname => ?_
  rw [hname.text]
  exact .seq (blind_annotated htype) fun _ => .seq (blind_initializer hg) fun _ =>
    .bind (.spanFrom hfirst.start) fun _ _ hspan => .seq blind_terminator fun _ =>
      .add .variable (congrArg (Variable.mk · _ _ _) (Span.matches_iff.1 hspan))

theorem blind_arrayType : Blind b Eq (arrayType g type) :=
  .bind .advance fun _ _ hfirst => .seq (blind_arrayLength hg) fun _ => .seq htype fun _ =>
    .bind (.spanFrom hfirst.start) fun _ _ hspan =>
      .add .type (congrArg (TypeNode.mk · _) (Span.matches_iff.1 hspan))

theorem blind_recordFields : Blind b Eq (recordFields g type) := by
  refine .loop (fun fields _ hfields => ?_) rfl
  subst hfields
  have hskip : Blind b (Round.Matches Eq) (do skip; return Round.more fields) :=
    .seq .skip fun _ => .pure (.more rfl)
  refine .bind .current fun token token' htoken => ?_
  refine htoken.kinds.elim (fun kind => ?_) hskip
  split
  · exact hskip
  · exact hskip
  · exact .seq (blind_variableDeclWith hg htype) fun _ => .pure (.more rfl)
  · exact .pure (.done rfl)

theorem blind_recordType : Blind b Eq (recordType g type) :=
  .bind .advance fun _ _ hfirst => .seq (blind_recordFields hg htype) fun _ =>
    .seq (.dropped (by decide)) fun _ => .bind (.spanFrom hfirst.start) fun _ _ hspan =>
      .add .type (congrArg (TypeNode.mk · _) (Span.matches_iff.1 hspan))

theorem blind_typeStep : Blind b Eq (typeStep g type) := by
  refine .bind .current fun token token' htoken => ?_
  refine htoken.kinds.elim (fun kind => ?_) ?_
  · split
    · exact .reject (by decide)
    · rename_i rule hrule
      cases rule with
      | primitive => exact blind_primitiveType
      | named => exact blind_namedType
      | array => exact blind_arrayType hg htype
      | record => exact blind_recordType hg htype
  · rw [hg.type.1, hg.type.2]
    exact .reject (by decide)

end

section

variable {g : Grammar} (hg : g.Neutral)

include hg

/-- **Types** are read the same way. -/
theorem blind_type : Blind b Eq (type g) :=
  .recursive (fun _ hself _ => blind_typeStep hg (hself ())) ()

theorem blind_variableDecl : Blind b Eq (variableDecl g) := blind_variableDeclWith hg (blind_type hg)

theorem blind_typeDecl : Blind b Eq (typeDecl g) := by
  refine .bind .advance fun first first' hfirst => .bind (.expect (by decide)) fun name name' hname => ?_
  rw [hname.text]
  exact .seq (.dropped (by decide)) fun _ => .seq (blind_type hg) fun _ =>
    .bind (.spanFrom hfirst.start) fun _ _ hspan => .seq blind_terminator fun _ =>
      .add .typeDecl (congrArg (TypeDecl.mk · _ _) (Span.matches_iff.1 hspan))

end

/-! ### Statements and bodies -/

/-- Statements of one form. -/
theorem Agrees.addStatement (kind : StatementKind) {span span' : Span} (h : span.Matches b span') :
    Agrees b Eq (Parser.add .statement ⟨span, kind⟩) (Parser.add .statement ⟨span', kind⟩) :=
  .add .statement (congrArg (Statement.mk · kind) (Span.matches_iff.1 h))

theorem agrees_counter {name name' : Token} (hname : name.Same b name') :
    Agrees b Eq (counter name) (counter name') := by
  have hspan := Span.matches_iff.1 hname.span
  unfold counter
  rw [hname.text]
  exact .seq (.add .type (congrArg (TypeNode.mk · _) hspan)) fun _ =>
    .add .variable (congrArg (Variable.mk · _ _ _) hspan)

section

variable {g : Grammar} (hg : g.Neutral) {body : Parser BodyId}

include hg

theorem blind_expressionStatement : Blind b Eq (expressionStatement g) := by
  refine .bind .current fun token token' htoken => ?_
  refine .bind (blind_expression hg _) fun first first' hfirst => ?_
  refine .bind .current fun next next' hnext => ?_
  rw [hfirst.id, hfirst.isCallLike]
  refine .ite (hnext.kind_iff rfl) ?_ (.ite Iff.rfl ?_ ?_)
  · refine .seq .skip fun _ => .bind (blind_expression hg _) fun value value' hvalue => ?_
    rw [hvalue.id]
    exact .bind (.spanFrom htoken.start) fun _ _ hspan => .addStatement _ hspan
  · exact .bind (.spanFrom htoken.start) fun _ _ hspan => .addStatement _ hspan
  · exact .raise ⟨.same _, htoken.start⟩

theorem blind_resultValue : Blind b Eq (resultValue g) := by
  refine .bind .current fun token token' htoken => ?_
  refine htoken.kinds.elim (fun kind => ?_) (.pure rfl)
  split
  · exact .pure rfl
  · exact .pure rfl
  · exact .pure rfl
  · exact .pure rfl
  · exact .pure rfl
  · exact .bind (blind_expression hg _) fun _ _ hvalue => .pure (congrArg some hvalue.id)

theorem blind_returning : Blind b Eq (returning g) :=
  .bind .advance fun _ _ hfirst => .seq (blind_resultValue hg) fun _ =>
    .bind (.spanFrom hfirst.start) fun _ _ hspan => .addStatement _ hspan

variable (hbody : Blind b Eq body)

include hbody

omit hg in
theorem blind_closedBody : Blind b Eq (closedBody body) :=
  .seq hbody fun _ => .seq (.dropped (by decide)) fun _ => .pure rfl

theorem blind_whileLoop : Blind b Eq (whileLoop g body) := by
  refine .bind .advance fun first first' hfirst => ?_
  refine .bind (blind_expression hg _) fun condition condition' hcondition => ?_
  rw [hcondition.id]
  exact .seq (.dropped (by decide)) fun _ => .seq (blind_closedBody hbody) fun _ =>
    .bind (.spanFrom hfirst.start) fun _ _ hspan => .addStatement _ hspan

theorem blind_forLoop : Blind b Eq (forLoop g body) := by
  refine .bind .advance fun start start' hstart => .bind (.expect (by decide)) fun name name' hname => ?_
  refine .seq (.dropped (by decide)) fun _ => .bind .current fun token token' htoken => ?_
  have hreverse : (token.kind == .kwReverse) = (token'.kind == .kwReverse) := by
    rw [Bool.eq_iff_iff, beq_iff_eq, beq_iff_eq]
    exact htoken.kind_iff rfl
  rw [hreverse]
  refine .skipIf _ (.bind (blind_expression hg _) fun first first' hfirst => ?_)
  refine .seq (.dropped (by decide)) fun _ => .bind (blind_expression hg _) fun last last' hlast => ?_
  rw [hfirst.id, hlast.id]
  exact .seq (.dropped (by decide)) fun _ => .seq (agrees_counter hname) fun _ =>
    .seq (blind_closedBody hbody) fun _ => .bind (.spanFrom hstart.start) fun _ _ hspan =>
      .addStatement _ hspan

omit hg in
theorem blind_elseBranch : Blind b Eq (elseBranch body) := by
  refine .bind .current fun token token' htoken => .ite (htoken.kind_iff rfl) ?_ (.pure rfl)
  exact .seq .skip fun _ => .map hbody fun _ _ hid => congrArg some hid

theorem blind_branch : Blind b Eq (branch g body) := by
  refine .bind .advance fun first first' hfirst => ?_
  refine .bind (blind_expression hg _) fun condition condition' hcondition => ?_
  rw [hcondition.id]
  exact .seq (.dropped (by decide)) fun _ => .seq hbody fun _ => .seq (blind_elseBranch hbody) fun _ =>
    .seq (.dropped (by decide)) fun _ => .bind (.spanFrom hfirst.start) fun _ _ hspan =>
      .addStatement _ hspan

theorem blind_statementWith : Blind b Eq (statementWith g body) := by
  refine .bind .current fun token token' htoken => ?_
  refine htoken.kinds.elim (fun kind => ?_) ?_
  · split
    · rename_i rule hrule
      cases rule with
      | whileLoop => exact blind_whileLoop hg hbody
      | forLoop => exact blind_forLoop hg hbody
      | branch => exact blind_branch hg hbody
      | returning => exact blind_returning hg
    · exact blind_expressionStatement hg
  · rw [hg.statement.1, hg.statement.2]
    exact blind_expressionStatement hg

theorem blind_bodyItem (items : BodyItems) : Blind b Eq (bodyItem g body items) := by
  have hstatement : Blind b Eq (do
      let id ← statementWith g body
      return ({ items with statements := items.statements ++ [id] } : BodyItems)) :=
    .seq (blind_statementWith hg hbody) fun _ => .pure rfl
  refine .bind .current fun token token' htoken => ?_
  refine htoken.kinds.elim (fun kind => ?_) hstatement
  split
  · exact .seq (blind_variableDecl hg) fun _ => .pure rfl
  · exact .seq (blind_typeDecl hg) fun _ => .pure rfl
  · exact .refuse _
  · exact hstatement

theorem blind_bodyItems : Blind b Eq (bodyItems g body) := by
  refine .loop (fun items _ hitems => ?_) rfl
  subst hitems
  have hskip : Blind b (Round.Matches Eq) (do skip; return Round.more items) :=
    .seq .skip fun _ => .pure (.more rfl)
  refine .bind .current fun token token' htoken => ?_
  refine htoken.kinds.elim (fun kind => ?_) hskip
  split
  · exact hskip
  · exact hskip
  · exact .pure (.done rfl)
  · exact .pure (.done rfl)
  · exact .bind .current fun _ _ hend => .raise ⟨.same _, hend.start⟩
  · exact .seq (.recovering rfl rfl (blind_bodyItem hg hbody items)) fun _ => .pure (.more rfl)

theorem blind_bodyStep : Blind b Eq (bodyStep g body) :=
  .bind .current fun _ _ hfirst => .seq (blind_bodyItems hg hbody) fun _ =>
    .bind (.spanFrom hfirst.start) fun _ _ hspan => .seq (.note _ _) fun _ =>
      .add .body (congrArg (Body.mk · _ _) (Span.matches_iff.1 hspan))

end

section

variable {g : Grammar} (hg : g.Neutral)

include hg

/-- **Bodies** are read the same way. -/
theorem blind_body : Blind b Eq (body g) :=
  .recursive (fun _ hself _ => blind_bodyStep hg (hself ())) ()

/-! ### Programs -/

theorem blind_parameter : Blind b Eq (parameter g) := by
  refine .bind (.expect (by decide)) fun name name' hname => ?_
  rw [hname.text]
  exact .seq (.dropped (by decide)) fun _ => .seq (blind_type hg) fun _ =>
    .bind (.spanFrom hname.start) fun _ _ hspan =>
      .add .variable (congrArg (Variable.mk · _ _ _) (Span.matches_iff.1 hspan))

theorem blind_parameters : Blind b Eq (parameters g) := by
  refine .bind .current fun token token' htoken => .ite (htoken.kind_iff rfl) (.pure rfl) ?_
  have hlist := Agrees.commaSeparated (blind_parameter (b := b) hg)
  rwa [List.forall₂_eq_eq_eq] at hlist

theorem blind_routineDecl : Blind b Eq (routineDecl g) := by
  refine .bind .advance fun first first' hfirst => .bind (.expect (by decide)) fun name name' hname => ?_
  rw [hname.text]
  exact .seq (.dropped (by decide)) fun _ => .seq (blind_parameters hg) fun _ =>
    .seq (.dropped (by decide)) fun _ => .seq (blind_annotated (blind_type hg)) fun _ =>
      .seq (.dropped (by decide)) fun _ => .seq (blind_body hg) fun _ =>
        .seq (.dropped (by decide)) fun _ => .bind (.spanFrom hfirst.start) fun _ _ hspan =>
          .add .routine (congrArg (Routine.mk · _ _ _ _) (Span.matches_iff.1 hspan))

theorem blind_declaration : Blind b Eq (declaration g) := by
  refine .bind .current fun token token' htoken => ?_
  refine htoken.kinds.elim (fun kind => ?_) (.refuse _)
  split
  · exact .map (blind_routineDecl hg) fun _ _ hid => congrArg _ hid
  · exact .map (blind_variableDecl hg) fun _ _ hid => congrArg _ hid
  · exact .map (blind_typeDecl hg) fun _ _ hid => congrArg _ hid
  · exact .refuse _

theorem blind_declarations : Blind b Eq (declarations g) := by
  refine .loop (fun found _ hfound => ?_) rfl
  subst hfound
  have hskip : Blind b (Round.Matches Eq) (do skip; return Round.more found) :=
    .seq .skip fun _ => .pure (.more rfl)
  refine .bind .current fun token token' htoken => ?_
  refine htoken.kinds.elim (fun kind => ?_) hskip
  split
  · exact .pure (.done rfl)
  · exact hskip
  · exact hskip
  · refine .seq (.recovering rfl rfl ?_) fun _ => .pure (.more rfl)
    exact .seq (blind_declaration hg) fun _ => .pure rfl

/-- **Programs** are read the same way. -/
theorem blind_program : Blind b Eq (program g) := by
  refine .bind .current fun first first' hfirst => .seq (blind_declarations hg) fun found => ?_
  refine .bind (.spanFrom hfirst.start) fun span span' hspan => ?_
  refine .seq (.modify (fun s t hst => ?_) fun _ _ hd => hd) fun _ => .bind .get fun _ _ _ => .note _ _
  refine ⟨hst.unread, hst.ending, hst.lastStop, ?_, hst.errors⟩
  change { s.arena.mapPlaces b.keep with program := ⟨span.mapPlaces b.keep, found⟩ } =
    { t.arena.mapPlaces b.keep with program := ⟨span'.mapPlaces b.keep, found⟩ }
  rw [hst.arena, Span.matches_iff.1 hspan]

end

/-- Before their first tokens, two texts match if their tokens do. -/
theorem State.matches_ofSource {source source' : String}
    (htokens : List.Forall₂ (Token.Matches b) (Token.tokenStream source).tokens
      (Token.tokenStream source').tokens)
    (hending : (Token.tokenStream source).ending.Matches b (Token.tokenStream source').ending) :
    (State.ofSource source).Matches b (State.ofSource source') :=
  State.Matches.noteComment ⟨htokens, hending, rfl, rfl, .nil⟩

end Parser

/-- **Parsing two texts whose tokens match.** Unless a semicolon that is exchanged has been rejected, the
trees are the same but for places, and the errors match. -/
theorem parse_matches {source source' : String}
    (htokens : List.Forall₂ (Token.Matches b) (Token.tokenStream source).tokens
      (Token.tokenStream source').tokens)
    (hending : (Token.tokenStream source).ending.Matches b (Token.tokenStream source').ending)
    (hrejected : ∀ d ∈ (parse source).errors, ∀ token, b.exchanged token → d.rejects token = false) :
    (parse source).arena.mapPlaces b.keep = (parse source').arena.mapPlaces b.keep ∧
      List.Forall₂ (Diagnostic.Matches b) (parse source).errors (parse source').errors := by
  have hstates := Parser.State.matches_ofSource htokens hending
  have hparallel := (Parser.blind_program Grammar.standard_neutral hstates).parallel
  -- the parser of programs does not fail, so a rejection would have been recorded
  obtain ⟨_, _, _, -, -, ⟨s, hs, -, harena, herrors⟩, -, -⟩ := Parser.exists_yields_program source
  obtain ⟨_, _, _, -, -, ⟨t, ht, -, harena', herrors'⟩, -, -⟩ := Parser.exists_yields_program source'
  rw [Parser.Yields] at hs ht
  rw [hs, ht] at hparallel
  rw [← harena, ← harena', ← herrors, ← herrors']
  rcases hparallel.matches_or_rejected with hmatch | ⟨d, token, hexchanged, hrejects, hd⟩
  · exact ⟨hmatch.arena, hmatch.errors⟩
  · have hrecorded : d ∈ (parse source).errors := by
      rw [← herrors, Array.mem_toList_iff]
      exact hd.resolve_left (by simp)
    exact absurd (hrejected d hrecorded token hexchanged) (by simp [hrejects])

end ProcLang
