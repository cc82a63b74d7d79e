import ProcLang.Parse.Program
import ProcLang.Proofs.Expression.Derivation
import ProcLang.Proofs.Parser.Constructs

/-!
# ProcLang.Proofs.Parser.Tree

**What the parser builds are trees** (`declarations_consumes`), whatever the text is: every node
below what it gives is there, none is shared, no two names begin at the same place, and every node
that it has added is one of them, or was lost after an error. No loop and no recursion of the
parser meets its bound, and so all its errors are errors of the text.

Each rule of the parser has one lemma. It takes the parts in the order in which they are read; the
node that is added at the end has them as its children.
-/

namespace ProcLang

namespace Parser

open State

variable {m n : Nat}

/-! ### Expressions -/

/-- The root that the parser of expressions leaves. -/
def Placed.root (placed : Placed) : Visit := .expression placed.id

theorem Constructs.place {vs : List Visit} {node : Expression} {next : Option Token}
    (hchildren : (Node.children .expression node).Perm vs) (hraw : Node.Raw .expression node) :
    Constructs ⟨m, vs, (Node.start? .expression node).toList, next, none⟩ (place node)
      fun placed => plain m [placed.root] := by
  rw [Parser.place, bind_pure_comp]
  exact .map (.add hchildren hraw rfl)

/-- A literal has no operands, is no name, and is as the parser makes it. -/
theorem literalNode_raw {token : Token} {node : Expression} (h : literalNode token = .ok node) :
    Node.children .expression node = [] ∧ Node.start? .expression node = none ∧
      Node.Raw .expression node := by
  unfold literalNode at h
  simp only at h
  split at h
  · split at h
    · cases h
      exact ⟨rfl, rfl, rfl⟩
    · cases h
  · cases h
    exact ⟨rfl, rfl, rfl⟩
  · cases h
    exact ⟨rfl, rfl, rfl⟩
  · cases h
    exact ⟨rfl, rfl, rfl⟩
  · cases h

/-- A literal that cannot be read is an error of the text. -/
theorem literalNode_isInternal {token : Token} {cause : Cause}
    (h : literalNode token = .error cause) : cause.isInternal = false := by
  unfold literalNode at h
  simp only at h
  split at h
  · split at h
    · cases h
    · cases h
      rfl
  all_goals
    cases h
    try rfl

theorem literal_consumes : ConsumesNext n literal (fun placed => [placed.root]) := by
  refine fun m _ token hkind => .current_bind fun t ht => ?_
  obtain rfl := ht token rfl
  split
  · rename_i cause hcause
    have hd : Diagnostic.isInternal ⟨cause, token.start⟩ = false := literalNode_isInternal hcause
    exact .fails (.raisePast hd) fun _ _ _ => yields_raisePast
  · rename_i node hnode
    obtain ⟨hchildren, hstart, hraw⟩ := literalNode_raw hnode
    have hplace : Constructs ⟨m, [], (Node.start? .expression node).toList, none, none⟩ (place node)
        fun placed => plain m [placed.root] := .place (.of_eq hchildren) hraw
    rw [hstart] at hplace
    exact .skip_bind hkind hplace

/-- Items with commas between them are built side by side. -/
theorem commaSeparated_builds {α : Type} {item : Parser α} (root : α → Visit)
    (hitem : Builds n item (fun x => [root x])) :
    Builds n (commaSeparated item) (fun items => items.map root) := by
  refine fun m hm => Constructs.loop (fun items => items.map root)
    (fun k hk items => ?_) []
  refine .call_bind hitem (Nat.le_trans hk hm) fun x => .current_bind fun token _ => ?_
  have heq : items.map root ++ [root x] = (items ++ [x]).map root := by simp
  split
  · rename_i hcomma
    exact .skip_bind (by rw [hcomma]; nofun) (.more (.of_eq heq))
  · exact .done (.of_eq heq)

section

variable {self : BindingPower → Parser Placed}

theorem arguments_builds (hself : ∀ power, Builds n (self power) (fun placed => [placed.root])) :
    Builds n (arguments self) (fun items => items.map Placed.root) := by
  refine fun m hm => .current_bind fun token _ => ?_
  split
  · exact .pure (.refl _) (Nat.le_refl m)
  · exact .forget (commaSeparated_builds Placed.root (hself .loosest) m hm)

theorem nameOrCall_consumes
    (hself : ∀ power, Builds n (self power) (fun placed => [placed.root])) :
    ConsumesNext n (nameOrCall self) (fun placed => [placed.root]) := by
  refine fun m hm name hkind => .name_bind hkind (.current_bind fun token _ => ?_)
  split
  · refine .move_bind .skip fun _ => ?_
    refine .call_bind (arguments_builds hself) hm fun items => ?_
    refine .move_bind (.discard (.expect _ _)) fun _ => .span_bind fun stop => ?_
    exact .place (.of_eq (by simp [Node.children, Expression.plain, ExpressionKind.operands,
      Placed.root, Function.comp_def])) rfl
  · exact .place (.refl _) rfl

theorem grouping_consumes
    (hself : ∀ power, Builds n (self power) (fun placed => [placed.root])) :
    ConsumesNext n (grouping self) (fun placed => [placed.root]) := by
  refine fun m hm token hkind => .skip_bind hkind ?_
  refine .call_bind (hself .loosest) hm fun inner => ?_
  exact .move_bind (.discard (.expect _ _)) fun _ => .pure (.refl _) (Nat.le_refl m)

theorem unary_consumes (hself : ∀ power, Builds n (self power) (fun placed => [placed.root])) :
    ConsumesNext n (unary self) (fun placed => [placed.root]) := by
  refine fun m hm token hkind => .current_bind fun t ht => ?_
  obtain rfl := ht token rfl
  split
  · exact .fails (.raisePast rfl) fun _ _ _ => yields_raisePast
  · refine .skip_bind hkind (.call_bind (hself .unary) hm fun operand => ?_)
    exact .place (.refl _) rfl

theorem operand_consumes (hself : ∀ power, Builds n (self power) (fun placed => [placed.root]))
    (rule : OperandRule) : ConsumesNext n (operand self rule) (fun placed => [placed.root]) := by
  cases rule with
  | literal => exact literal_consumes
  | name => exact nameOrCall_consumes hself
  | grouping => exact grouping_consumes hself
  | unary => exact unary_consumes hself

/-- A tail makes what is to the left of it its first child. -/
theorem tail_constructs (hself : ∀ power, Builds n (self power) (fun placed => [placed.root]))
    (rule : TailRule) (left : Placed) (power : BindingPower) (hm : m ≤ n) {token : Token}
    (hkind : token.kind ≠ .endOfFile) :
    Constructs ⟨m + 1, [left.root], [], some token, none⟩ (tail self rule left power)
      fun placed => plain m [placed.root] := by
  cases rule with
  | binary =>
      refine .current_bind fun t ht => ?_
      obtain rfl := ht token rfl
      split
      · exact .fails (.raisePast rfl) fun _ _ _ => yields_raisePast
      · refine .skip_bind hkind (.call_bind (hself power) hm fun right => ?_)
        exact .place (.refl _) rfl
  | member =>
      refine .skip_bind hkind (.call_bind (hself power) hm fun field => ?_)
      exact .place (.refl _) rfl
  | index =>
      refine .skip_bind hkind (.call_bind (hself .loosest) hm fun position => ?_)
      refine .move_bind (.discard (.expect _ _)) fun _ => .span_bind fun stop => ?_
      exact .place (.refl _) rfl

/-- Neither an operand nor a tail begins with the end of the text. -/
theorem standardOperand_ne_endOfFile {kind : TokenKind} {rule : OperandRule}
    (h : Grammar.standardOperand kind = some rule) : kind ≠ .endOfFile := by
  rintro rfl
  nomatch h

theorem standardTail_ne_endOfFile {kind : TokenKind} {tail : BindingPower × TailRule}
    (h : Grammar.standardTail kind = some tail) : kind ≠ .endOfFile := by
  rintro rfl
  nomatch h

theorem expressionStep_consumes
    (hself : ∀ power, Builds n (self power) (fun placed => [placed.root])) (power : BindingPower) :
    Constructs (plain (n + 1) []) (expressionStep self Grammar.standard power)
      fun placed => plain n [placed.root] := by
  refine .current_bind fun token _ => ?_
  rw [show Grammar.standard.operand = Grammar.standardOperand from rfl]
  cases hrule : Grammar.standardOperand token.kind with
  | none => exact .fails (.refuse _) fun _ _ _ => yields_refuse
  | some rule =>
      have hkind := standardOperand_ne_endOfFile hrule
      refine .bind (operand_consumes hself rule n (Nat.le_refl n) token hkind) fun first => ?_
      refine Constructs.loop (fun left => [left.root]) (fun m hm left => ?_) first
      refine .current_bind fun token _ => ?_
      split
      · exact .done (.refl _)
      · rename_i tailPower rule htail
        have hkind := standardTail_ne_endOfFile htail
        split
        · rw [bind_pure_comp]
          exact .map (tail_constructs hself rule left tailPower (Nat.le_of_lt hm) hkind)
        · exact .done (.refl _)

end

/-- The parser of expressions builds trees. -/
theorem expression_consumes (power : BindingPower) :
    Consumes n (expression Grammar.standard power) (fun placed => [placed.root]) :=
  .recursive (fun hself power => expressionStep_consumes hself power) power

theorem expression_builds (power : BindingPower) :
    Builds n (expression Grammar.standard power) (fun placed => [placed.root]) :=
  (expression_consumes power).builds

/-! ### Types and declarations of variables -/

theorem terminator_moves : Moves terminator := by
  refine .bind .current fun token => ?_
  split
  · exact .skip
  · exact .skip
  · exact .pure _
  · exact .pure _
  · exact .pure _
  · exact .rejects _

theorem primitiveType_consumes : ConsumesNext n primitiveType (fun id => [.type id]) := by
  refine fun m _ token hkind => .advance_bind hkind ?_
  have hprimitive : ∀ kind : TypeKind, kind = .integer ∨ kind = .real ∨ kind = .boolean →
      Constructs (plain m []) (add .type ⟨token.span, kind⟩) fun id => plain m [.type id] := by
    intro kind hkind
    rcases hkind with rfl | rfl | rfl
    · exact .add (.refl _) nofun rfl
    · exact .add (.refl _) nofun rfl
    · exact .add (.refl _) nofun rfl
  refine hprimitive _ ?_
  split
  · exact Or.inl rfl
  · exact Or.inr (Or.inl rfl)
  · exact Or.inr (Or.inr rfl)

theorem namedType_consumes : ConsumesNext n namedType (fun id => [.type id]) := by
  refine fun m _ token _ => .expect_name_bind fun name => .add (.refl _) ?_ rfl
  intro name target h
  injection h with _ h
  exact h.symm

theorem initializer_builds :
    Builds n (initializer Grammar.standard) (fun value => value.toList.map Visit.expression) := by
  refine fun m hm => .current_bind fun token _ => ?_
  split
  · refine .move_bind .skip fun _ => .call_bind (expression_builds .loosest) hm fun value => ?_
    exact .pure (.refl _) (Nat.le_refl m)
  · exact .pure (.refl _) (Nat.le_refl m)

theorem arrayLength_builds :
    Builds n (arrayLength Grammar.standard) (fun length => length.toList.map Visit.expression) := by
  refine fun m hm => .current_bind fun token _ => ?_
  split
  · refine .move_bind .skip fun _ => .call_bind (expression_builds .loosest) hm fun length => ?_
    exact .move_bind (.discard (.expect _ _)) fun _ => .pure (.refl _) (Nat.le_refl m)
  · exact .pure (.refl _) (Nat.le_refl m)

section

variable {type : Parser TypeId}

theorem annotation_builds (htype : Builds n type (fun id => [.type id])) :
    Builds n ( annotation type) (fun id => id.toList.map Visit.type) := by
  refine fun m hm => .current_bind fun token _ => ?_
  split
  · exact .move_bind .skip fun _ => .map (htype m hm)
  · exact .pure (.refl _) (Nat.le_refl m)

theorem variableDeclWith_consumes (htype : Builds n type (fun id => [.type id])) :
    ConsumesNext n (variableDeclWith Grammar.standard type) (fun id => [.variable id]) := by
  refine fun m hm token hkind => .advance_bind hkind (.move_bind (.expect _ _) fun name => ?_)
  refine .call_bind (annotation_builds htype) hm fun declaredType => ?_
  refine .call_bind initializer_builds hm fun value => .span_bind fun stop => ?_
  exact .move_bind terminator_moves fun _ => .add (.refl _) trivial rfl

theorem arrayType_consumes (htype : Builds n type (fun id => [.type id])) :
    ConsumesNext n (arrayType Grammar.standard type) (fun id => [.type id]) := by
  refine fun m hm token hkind => .advance_bind hkind ?_
  refine .call_bind arrayLength_builds hm fun length => ?_
  refine .call_bind htype hm fun element => .span_bind fun stop => ?_
  exact .add (.refl _) nofun rfl

theorem recordFields_builds (htype : Builds n type (fun id => [.type id])) :
    Builds n (recordFields Grammar.standard type) (fun fields => fields.map Visit.variable) := by
  refine fun m hm => Constructs.loop (fun fields => fields.map Visit.variable)
    (fun k hk fields => ?_) []
  refine .current_bind fun token _ => ?_
  split
  · rename_i hkind
    exact .skip_bind (by rw [hkind]; nofun) (.more (.refl _))
  · rename_i hkind
    exact .skip_bind (by rw [hkind]; nofun) (.more (.refl _))
  · rename_i hkind
    refine .next_bind (variableDeclWith_consumes htype) (Nat.le_of_lt (Nat.lt_of_lt_of_le hk hm))
      (by rw [hkind]; nofun) fun id => .more (.of_eq ?_)
    simp
  · exact .done (.refl _)

theorem recordType_consumes (htype : Builds n type (fun id => [.type id])) :
    ConsumesNext n (recordType Grammar.standard type) (fun id => [.type id]) := by
  refine fun m hm token hkind => .advance_bind hkind ?_
  refine .call_bind (recordFields_builds htype) hm fun fields => ?_
  refine .move_bind (.discard (.expect _ _)) fun _ => .span_bind fun stop => ?_
  exact .add (.refl _) nofun rfl

/-- A type does not begin with the end of the text. -/
theorem standardType_ne_endOfFile {kind : TokenKind} {rule : TypeRule}
    (h : Grammar.standardType kind = some rule) : kind ≠ .endOfFile := by
  rintro rfl
  nomatch h

theorem typeStep_consumes (htype : Builds n type (fun id => [.type id])) :
    Constructs (plain (n + 1) []) (typeStep Grammar.standard type)
      fun id => plain n [.type id] := by
  refine .current_bind fun token _ => ?_
  split
  · refine .fails (.rejects _) fun s id s' hrun => ?_
    obtain ⟨d, s₁, -, hthrow⟩ := yields_bind.1 hrun
    exact yields_throw hthrow
  · rename_i rule hrule
    have hkind := standardType_ne_endOfFile hrule
    have hconsumes : ConsumesNext n (typeByRule Grammar.standard type rule)
        (fun id => [.type id]) := by
      cases rule with
      | primitive => exact primitiveType_consumes
      | named => exact namedType_consumes
      | array => exact arrayType_consumes htype
      | record => exact recordType_consumes htype
    exact hconsumes n (Nat.le_refl n) token hkind

end

theorem type_builds : Builds n (type Grammar.standard) (fun id => [.type id]) :=
  (Consumes.recursive (fun hself _ => typeStep_consumes (hself ())) ()).builds

theorem variableDecl_consumes :
    ConsumesNext n (variableDecl Grammar.standard) (fun id => [.variable id]) :=
  variableDeclWith_consumes type_builds

theorem typeDecl_consumes :
    ConsumesNext n (typeDecl Grammar.standard) (fun id => [.typeDecl id]) := by
  refine fun m hm token hkind => .advance_bind hkind (.move_bind (.expect _ _) fun name => ?_)
  refine .move_bind (.discard (.expect _ _)) fun _ => .call_bind type_builds hm fun type => ?_
  exact .span_bind fun stop => .move_bind terminator_moves fun _ => .add (.refl _) trivial rfl

/-! ### Statements and bodies -/

theorem counter_builds (name : Token) : Builds n (counter name) (fun id => [.variable id]) := by
  have htype : Builds n (add .type ⟨name.span, .integer⟩) (fun id => [.type id]) :=
    fun m _ => .add (.refl _) nofun rfl
  exact fun m hm => .call_bind htype hm fun type => .add (.refl _) trivial rfl

/-- What is declared is a counter. -/
theorem counter_isCounter {name : Token} {s s' : State} {id : VariableId}
    (h : Yields (counter name) s id s') : s'.arena.IsCounter id := by
  obtain ⟨t, s₁, htype, hvariable⟩ := yields_bind.1 h
  obtain ⟨rfl, rfl⟩ := yields_add.1 htype
  obtain ⟨rfl, rfl⟩ := yields_add.1 hvariable
  exact ⟨_, _, _, Arena.get?_add _ .variable _, rfl, rfl,
    Arena.extendedBy_add _ .variable _ _ _ _ (s.arena.get?_add .type _), rfl⟩

/-- The counter of a loop is declared before the loop is there. -/
theorem Constructs.counter_bind {β : Type} {name : Token} {vs : List Visit}
    {reserved : List Position} {next : Option Token} {f : VariableId → Parser β} {h : β → Situation}
    (hf : ∀ id, Constructs ⟨m, vs ++ [.variable id], reserved, none, some id⟩ (f id) h) :
    Constructs ⟨m, vs, reserved, next, none⟩ (counter name >>= f) h := by
  intro s₀ hsane
  have hcall : Constructs ⟨m, vs, reserved, next, none⟩ (counter name) fun id =>
      ⟨m, vs ++ [.variable id], reserved, none, none⟩ :=
    .beside (.forget (counter_builds name m (Nat.le_refl m)))
  have hcounter : Ensures (counter name) (Situation.Holds ⟨m, vs, reserved, next, none⟩ s₀)
      (fun id => Situation.Holds ⟨m, vs ++ [.variable id], reserved, none, some id⟩ s₀)
      (Remains s₀ []) := by
    refine ⟨fun {s id s'} hs hrun => ?_, (hcall s₀ hsane).fails⟩
    refine { (hcall s₀ hsane).yields hs hrun with isCounter := fun x hx => ?_ }
    obtain rfl := Option.some.inj hx
    exact counter_isCounter hrun
  exact hcounter.bind fun id => hf id s₀ hsane

theorem resultValue_builds :
    Builds n (resultValue Grammar.standard) (fun value => value.toList.map Visit.expression) := by
  refine fun m hm => .current_bind fun token _ => ?_
  split
  all_goals first
    | exact .pure (.refl _) (Nat.le_refl m)
    | exact .call_bind (expression_builds .loosest) hm fun value =>
        .pure (.refl _) (Nat.le_refl m)

theorem expressionStatement_consumes :
    ConsumesNext n (expressionStatement Grammar.standard) (fun id => [.statement id]) := by
  refine fun m hm token hkind => .current_bind fun t ht => ?_
  obtain rfl := ht token rfl
  refine .next_bind (expression_consumes .loosest).consumesNext hm hkind fun first => ?_
  refine .current_bind fun token _ => ?_
  split
  · refine .move_bind .skip fun _ => .call_bind (expression_builds .loosest) hm fun value => ?_
    exact .span_bind fun stop => .add (.refl _) trivial rfl
  · split
    · exact .span_bind fun stop => .add (.refl _) trivial rfl
    · exact .fails (.raise rfl) fun _ _ _ => yields_raise

theorem returning_consumes :
    ConsumesNext n (returning Grammar.standard) (fun id => [.statement id]) := by
  refine fun m hm token hkind => .advance_bind hkind ?_
  refine .call_bind resultValue_builds hm fun value => .span_bind fun stop => ?_
  refine .add (.of_eq ?_) trivial rfl
  simp [Node.children, StatementKind.expressions, StatementKind.counter?, StatementKind.bodies]

section

variable {body : Parser BodyId}

theorem closedBody_builds (hbody : Builds n body (fun id => [.body id])) :
    Builds n (closedBody body) (fun id => [.body id]) :=
  fun m hm => .call_bind hbody hm fun _ => .move_bind (.discard (.expect _ _)) fun _ =>
    .pure (.refl _) (Nat.le_refl m)

theorem whileLoop_consumes (hbody : Builds n body (fun id => [.body id])) :
    ConsumesNext n (whileLoop Grammar.standard body) (fun id => [.statement id]) := by
  refine fun m hm token hkind => .advance_bind hkind ?_
  refine .call_bind (expression_builds .loosest) hm fun condition => ?_
  refine .move_bind (.discard (.expect _ _)) fun _ => ?_
  refine .call_bind (closedBody_builds hbody) hm fun inner => .span_bind fun stop => ?_
  exact .add (.refl _) trivial rfl

theorem forLoop_consumes (hbody : Builds n body (fun id => [.body id])) :
    ConsumesNext n (forLoop Grammar.standard body) (fun id => [.statement id]) := by
  refine fun m hm start hkind => .advance_bind hkind (.move_bind (.expect _ _) fun name => ?_)
  refine .move_bind (.discard (.expect _ _)) fun _ => .move_bind .current fun token => ?_
  have hrest : ∀ reverse : Bool, Constructs (plain m []) (do
      let first ← expression Grammar.standard .loosest
      discard <| expect .dotDot "`..`"
      let last ← expression Grammar.standard .loosest
      discard <| expect .kwLoop "`loop`"
      let counter ← counter name
      let inner ← closedBody body
      let span ← spanFrom start.start
      add .statement ⟨span, .forLoop counter first.id last.id reverse inner⟩)
      fun id => plain m [.statement id] := by
    intro reverse
    refine .call_bind (expression_builds .loosest) hm fun first => ?_
    refine .move_bind (.discard (.expect _ _)) fun _ => ?_
    refine .call_bind (expression_builds .loosest) hm fun last => ?_
    refine .move_bind (.discard (.expect _ _)) fun _ => .counter_bind fun counter => ?_
    refine .call_bind (closedBody_builds hbody) hm fun inner => .span_bind fun stop => ?_
    exact .add (.refl _) trivial rfl
  dsimp only
  split
  · exact .move_bind .skip fun _ => hrest _
  · exact hrest _

theorem elseBranch_builds (hbody : Builds n body (fun id => [.body id])) :
    Builds n (elseBranch body) (fun id => id.toList.map Visit.body) := by
  refine fun m hm => .current_bind fun token _ => ?_
  split
  · exact .move_bind .skip fun _ => .map (hbody m hm)
  · exact .pure (.refl _) (Nat.le_refl m)

theorem branch_consumes (hbody : Builds n body (fun id => [.body id])) :
    ConsumesNext n (branch Grammar.standard body) (fun id => [.statement id]) := by
  refine fun m hm token hkind => .advance_bind hkind ?_
  refine .call_bind (expression_builds .loosest) hm fun condition => ?_
  refine .move_bind (.discard (.expect _ _)) fun _ => .call_bind hbody hm fun thenBody => ?_
  refine .call_bind (elseBranch_builds hbody) hm fun elseBody => ?_
  refine .move_bind (.discard (.expect _ _)) fun _ => .span_bind fun stop => ?_
  exact .add (.refl _) trivial rfl

theorem statementWith_consumes (hbody : Builds n body (fun id => [.body id])) :
    ConsumesNext n (statementWith Grammar.standard body) (fun id => [.statement id]) := by
  refine fun m hm token hkind => .current_bind fun t ht => ?_
  obtain rfl := ht token rfl
  split
  · rename_i rule _
    cases rule with
    | whileLoop => exact whileLoop_consumes hbody m hm token hkind
    | forLoop => exact forLoop_consumes hbody m hm token hkind
    | branch => exact branch_consumes hbody m hm token hkind
    | returning => exact returning_consumes m hm token hkind
  · exact expressionStatement_consumes m hm token hkind

/-- The roots of what a body holds. -/
def BodyItems.roots (items : BodyItems) : List Visit :=
  items.declarations.map Declaration.visit ++ items.statements.map Visit.statement

/-- No routine is declared among the items of a body. -/
def BodyItems.Local (items : BodyItems) : Prop := ∀ id, .routine id ∉ items.declarations

theorem bodyItem_extends (hbody : Builds n body (fun id => [.body id])) (items : BodyItems)
    (hm : m ≤ n) {token : Token} (hkind : token.kind ≠ .endOfFile) :
    Extends token m items.roots (bodyItem Grammar.standard body items) BodyItems.roots := by
  refine .current_bind ?_
  split
  · refine .call variableDecl_consumes hm hkind fun id => ?_
    simp only [BodyItems.roots, List.map_append, List.append_assoc, List.map_cons, List.map_nil]
    exact List.Perm.append_left _ List.perm_append_comm
  · refine .call typeDecl_consumes hm hkind fun id => ?_
    simp only [BodyItems.roots, List.map_append, List.append_assoc, List.map_cons, List.map_nil]
    exact List.Perm.append_left _ List.perm_append_comm
  · exact .refuse _
  · refine .call (statementWith_consumes hbody) hm hkind fun id => .of_eq ?_
    simp [BodyItems.roots]

/-- An item of a body is no routine. -/
theorem bodyItem_local {items items' : BodyItems} {s s' : State}
    (h : Yields (bodyItem Grammar.standard body items) s items' s') (hlocal : items.Local) :
    items'.Local := by
  simp only [bodyItem, yields_current_bind] at h
  split at h
  · obtain ⟨id, s₁, -, h⟩ := yields_bind.1 h
    obtain ⟨rfl, -⟩ := yields_pure.1 h
    intro r hmem
    simpa using (List.mem_append.1 hmem).resolve_left (hlocal r)
  · obtain ⟨id, s₁, -, h⟩ := yields_bind.1 h
    obtain ⟨rfl, -⟩ := yields_pure.1 h
    intro r hmem
    simpa using (List.mem_append.1 hmem).resolve_left (hlocal r)
  · exact absurd h yields_refuse
  · obtain ⟨id, s₁, -, h⟩ := yields_bind.1 h
    obtain ⟨rfl, -⟩ := yields_pure.1 h
    exact hlocal

/-- The step of the loop for the items of a body. -/
def bodyRound (body : Parser BodyId) (items : BodyItems) : Parser (Round BodyItems) := do
  match (← current).kind with
  | .newline | .semicolon =>
      skip
      return .more items
  | .kwEnd | .kwElse => return .done items
  | .endOfFile => raise ⟨.unterminatedBody, (← current).start⟩
  | _ =>
      let items ← recovering [.newline, .semicolon] [.kwEnd, .kwElse] items
        (bodyItem Grammar.standard body items)
      return .more items

theorem bodyItems_eq (body : Parser BodyId) :
    bodyItems Grammar.standard body = loop (bodyRound body) ⟨[], []⟩ := rfl

theorem bodyRound_constructs (hbody : Builds n body (fun id => [.body id])) (hm : m ≤ n)
    (items : BodyItems) :
    Constructs (plain (m + 1) items.roots) (bodyRound body items)
      (Round.situation BodyItems.roots m) := by
  refine .current_bind fun token _ => ?_
  split
  · rename_i hkind
    exact .skip_bind (by rw [hkind]; nofun) (.more (.refl _))
  · rename_i hkind
    exact .skip_bind (by rw [hkind]; nofun) (.more (.refl _))
  · exact .done (.refl _)
  · exact .done (.refl _)
  · exact .move_bind .current fun token => .fails (.raise rfl) fun _ _ _ => yields_raise
  · rename_i hend helse hkind
    rw [bind_pure_comp]
    refine .map ((bodyItem_extends hbody items hm hkind).recovering hkind ?_ rfl)
    simpa [Token.isOneOf] using ⟨hend, helse⟩

theorem bodyRound_local {items : BodyItems} {s s' : State} {round : Round BodyItems}
    (h : Yields (bodyRound body items) s round s') (hlocal : items.Local) :
    round.value.Local := by
  simp only [bodyRound, yields_current_bind] at h
  split at h
  · rw [yields_skip_bind] at h
    obtain ⟨rfl, -⟩ := yields_pure.1 h
    exact hlocal
  · rw [yields_skip_bind] at h
    obtain ⟨rfl, -⟩ := yields_pure.1 h
    exact hlocal
  · obtain ⟨rfl, -⟩ := yields_pure.1 h
    exact hlocal
  · obtain ⟨rfl, -⟩ := yields_pure.1 h
    exact hlocal
  · exact absurd h yields_raise
  · obtain ⟨items', s₁, hitems, h⟩ := yields_bind.1 h
    obtain ⟨rfl, -⟩ := yields_pure.1 h
    rcases yields_recovering hitems with hitem | rfl
    · exact bodyItem_local hitem hlocal
    · exact hlocal

theorem bodyItems_local {items : BodyItems} {s s' : State}
    (h : Yields (bodyItems Grammar.standard body) s items s') : items.Local := by
  rw [bodyItems_eq] at h
  obtain ⟨v, s₁, hlocal, hlast⟩ := h.loop_invariant (motive := fun items _ => items.Local)
    (fun id hmem => nomatch hmem) fun _ _ _ _ hlocal hround => bodyRound_local hround hlocal
  exact bodyRound_local hlast hlocal

theorem bodyItems_constructs (hbody : Builds n body (fun id => [.body id])) :
    Constructs (plain (n + 1) []) (bodyItems Grammar.standard body)
      fun items => plain (n + 1) items.roots := by
  rw [bodyItems_eq]
  exact .loop _ (fun m hm items => bodyRound_constructs hbody (Nat.le_of_lt_succ hm) items) ⟨[], []⟩

theorem bodyStep_builds (hbody : Builds n body (fun id => [.body id])) :
    Constructs (plain (n + 1) []) (bodyStep Grammar.standard body)
      fun id => plain (n + 1) [.body id] := by
  refine .move_bind .current fun start s₀ hsane => ?_
  refine ((bodyItems_constructs hbody s₀ hsane).and_yields
    fun _ _ _ => bodyItems_local).bind fun items => ?_
  by_cases hlocal : items.Local
  · have hrest : Constructs (plain (n + 1) items.roots) (do
        let span ← spanFrom start.start
        note (.bodyParsed start.start items.declarations.length items.statements.length)
        add .body ⟨span, items.declarations, items.statements⟩)
        fun id => plain (n + 1) [.body id] :=
      .span_bind fun stop => .move_bind (.note _) fun _ => .add (.refl _) hlocal rfl
    exact (hrest s₀ hsane).weaken (fun _ hs => hs.1) (fun _ _ hs => hs) fun _ hs => hs
  · exact ⟨fun hs => absurd hs.2 hlocal, fun hs => absurd hs.2 hlocal⟩

end

theorem body_builds : Builds n (body Grammar.standard) (fun id => [.body id]) :=
  .recursive (fun hself _ => bodyStep_builds (hself ())) ()

/-! ### Programs -/

theorem parameter_builds : Builds n (parameter Grammar.standard) (fun id => [.variable id]) := by
  refine fun m hm => .move_bind (.expect _ _) fun name => ?_
  refine .move_bind (.discard (.expect _ _)) fun _ => .call_bind type_builds hm fun type => ?_
  exact .span_bind fun stop => .add (.refl _) trivial rfl

theorem parameters_builds :
    Builds n (parameters Grammar.standard) (fun ids => ids.map Visit.variable) := by
  refine fun m hm => .current_bind fun token _ => ?_
  split
  · exact .pure (.refl _) (Nat.le_refl m)
  · exact .forget (commaSeparated_builds Visit.variable parameter_builds m hm)

theorem routineDecl_consumes :
    ConsumesNext n (routineDecl Grammar.standard) (fun id => [.routine id]) := by
  refine fun m hm token hkind => .advance_bind hkind (.move_bind (.expect _ _) fun name => ?_)
  refine .move_bind (.discard (.expect _ _)) fun _ => .call_bind parameters_builds hm fun ids => ?_
  refine .move_bind (.discard (.expect _ _)) fun _ => ?_
  refine .call_bind (annotation_builds type_builds) hm fun returnType => ?_
  refine .move_bind (.discard (.expect _ _)) fun _ => .call_bind body_builds hm fun inner => ?_
  refine .move_bind (.discard (.expect _ _)) fun _ => .span_bind fun stop => ?_
  exact .add (.refl _) trivial rfl

theorem declaration_consumes :
    ConsumesNext n (declaration Grammar.standard) (fun d => [d.visit]) := by
  refine fun m hm token hkind => .current_bind fun t ht => ?_
  obtain rfl := ht token rfl
  split
  · exact .map (routineDecl_consumes m hm token hkind)
  · exact .map (variableDecl_consumes m hm token hkind)
  · exact .map (typeDecl_consumes m hm token hkind)
  · exact .fails (.refuse _) fun _ _ _ => yields_refuse

/-- The step of the loop over the declarations of a program. -/
def declarationsRound (found : List Declaration) : Parser (Round (List Declaration)) := do
  match (← current).kind with
  | .endOfFile => return .done found
  | .newline | .semicolon =>
      skip
      return .more found
  | _ =>
      let found ← recovering [.newline, .semicolon] [] found (do
        let next ← declaration Grammar.standard
        return found ++ [next])
      return .more found

theorem declarations_eq :
    declarations Grammar.standard = loop declarationsRound [] := rfl

theorem declarationsRound_constructs (found : List Declaration) :
    Constructs (plain (m + 1) (found.map Declaration.visit)) (declarationsRound found)
      (Round.situation (fun all => all.map Declaration.visit) m) := by
  refine .current_bind fun token _ => ?_
  split
  · exact .done (.refl _)
  · rename_i hkind
    exact .skip_bind (by rw [hkind]; nofun) (.more (.refl _))
  · rename_i hkind
    exact .skip_bind (by rw [hkind]; nofun) (.more (.refl _))
  · rename_i hkind _ _
    rw [bind_pure_comp]
    have hnext : Extends token m (found.map Declaration.visit) (do
        let next ← declaration Grammar.standard
        return found ++ [next]) (fun all => all.map Declaration.visit) := by
      refine .call declaration_consumes (Nat.le_refl m) hkind fun next => .of_eq ?_
      rw [List.map_append, List.map_singleton]
    exact .map (hnext.recovering hkind rfl rfl)

/-- Whatever the text is, its declarations are trees. -/
theorem declarations_constructs :
    Constructs (plain n []) (declarations Grammar.standard)
      fun found => plain n (found.map Declaration.visit) := by
  rw [declarations_eq]
  exact .loop _ (fun m _ found => declarationsRound_constructs found) []

end Parser

end ProcLang
