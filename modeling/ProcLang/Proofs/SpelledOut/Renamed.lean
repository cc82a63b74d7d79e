import ProcLang.Check.Calls
import ProcLang.Check.Constants
import ProcLang.Check.ReturnPaths
import ProcLang.Check.Typing
import ProcLang.Proofs.Tree.Height
import ProcLang.Proofs.Tree.Slots

/-!
# ProcLang.Proofs.SpelledOut.Renamed

**A tree inside of another one.** `s.Renamed f t` says that the arena `t` holds all nodes of `s`, where the
expression `e` of `s` has the id `f e`. There may be more expressions in `t`, but nothing in the image of
`s` refers to them.

Whatever is read of a node in `s` is read of its image in `t`, and a change of a node in `s` is a change of
its image (`Renamed.put`). Reading an expression may be a fault in `s` where it is none in `t`, so what is
read of expressions is said of successful readings only (`Carries`).
-/

namespace ProcLang

variable {f : ExpressionId → ExpressionId}

/-! ### Ids -/

/-- The id of a node, with another one for an expression. -/
def NodeId.rename (f : ExpressionId → ExpressionId) : {family : Family} → NodeId family → NodeId family
  | .routine, id => id
  | .variable, id => id
  | .typeDecl, id => id
  | .type, id => id
  | .body, id => id
  | .statement, id => id
  | .expression, id => f id

/-- The visit of a node, with another id for an expression. -/
def Visit.rename (f : ExpressionId → ExpressionId) : Visit → Visit
  | .expression id => .expression (f id)
  | v => v

theorem Visit.rename_of {family : Family} (id : NodeId family) :
    (Visit.of id).rename f = Visit.of (id.rename f) := by
  cases family <;> rfl

theorem Visit.rename_injective (hf : Function.Injective f) : Function.Injective (Visit.rename f) := by
  intro v w h
  cases v <;> cases w <;> simp only [rename, expression.injEq, reduceCtorEq] at h ⊢
  all_goals first | exact h | exact hf h

theorem NodeId.rename_of_ne {family : Family} (h : family ≠ .expression) (id : NodeId family) :
    id.rename f = id := by
  cases family with
  | expression => exact absurd rfl h
  | routine | «variable» | typeDecl | type | body | statement => rfl

/-- What typing an expression finds, with another id for the field. -/
def Derivation.rename (f : ExpressionId → ExpressionId) (d : Derivation) : Derivation :=
  ⟨d.type, d.field.map fun p => (f p.1, p.2)⟩

section

variable (kind : TypeKind)

@[simp] theorem TypeKind.isInteger_mapExpressions : (kind.mapExpressions f).isInteger = kind.isInteger := by
  cases kind <;> rfl

@[simp] theorem TypeKind.isBoolean_mapExpressions : (kind.mapExpressions f).isBoolean = kind.isBoolean := by
  cases kind <;> rfl

@[simp] theorem TypeKind.isNumeric_mapExpressions : (kind.mapExpressions f).isNumeric = kind.isNumeric := by
  cases kind <;> rfl

theorem arithmeticType_mapExpressions (left right : TypeKind) :
    arithmeticType (left.mapExpressions f) (right.mapExpressions f) = arithmeticType left right := by
  simp [arithmeticType]

theorem UnaryOperator.applies_mapExpressions (operator : UnaryOperator) :
    operator.applies (kind.mapExpressions f) = operator.applies kind := by
  cases operator <;> simp [applies]

end

/-! ### Reading -/

/-- If something is read on one side, its image is read on the other one. -/
def Carries {α β : Type} (e : α → β) (x : Except Fault α) (y : Except Fault β) : Prop :=
  ∀ v, x = .ok v → y = .ok (e v)

/-- The same of findings: if something is found on one side, or a cause for a diagnostic, then so it is on
the other one. -/
def Judges {α β : Type} (e : α → β) (x : Judgement α) (y : Judgement β) : Prop :=
  Carries (Except.map e) x.run y.run

section

variable {α β γ δ : Type} {e : α → β} {e' : γ → δ}

namespace Carries

theorem pure (v : α) : Carries e (Except.ok v) (Except.ok (e v)) := by
  rintro _ ⟨⟩
  rfl

theorem error (fault : Fault) (y : Except Fault β) : Carries e (Except.error fault) y := nofun

theorem bind {x : Except Fault α} {y : Except Fault β} {g : α → Except Fault γ} {g' : β → Except Fault δ}
    (hx : Carries e x y) (hg : ∀ v, Carries e' (g v) (g' (e v))) : Carries e' (x >>= g) (y >>= g') := by
  intro w hw
  cases x with
  | error fault => nomatch hw
  | ok v =>
      rw [hx v rfl]
      exact hg v w hw

end Carries

namespace Judges

theorem pure (v : α) : Judges e (pure v) (pure (e v)) := Carries.pure _

theorem throw (cause : Cause) : Judges e (throw cause) (throw cause) := Carries.pure _

/-- A reading before a finding. -/
theorem read {x : Except Fault α} {y : Except Fault β} {g : α → Judgement γ} {g' : β → Judgement δ}
    (hx : Carries e x y) (hg : ∀ v, Judges e' (g v) (g' (e v))) :
    Judges e' (liftM x >>= g) (liftM y >>= g') := by
  intro w hw
  cases x with
  | error fault => nomatch hw
  | ok v =>
      rw [hx v rfl]
      exact hg v w hw

theorem bind {x : Judgement α} {y : Judgement β} {g : α → Judgement γ} {g' : β → Judgement δ}
    (hx : Judges e x y) (hg : ∀ v, Judges e' (g v) (g' (e v))) : Judges e' (x >>= g) (y >>= g') := by
  intro w hw
  cases hrun : x.run with
  | error fault =>
      rw [ExceptT.run_bind, hrun] at hw
      nomatch hw
  | ok found =>
      rw [ExceptT.run_bind, hrun] at hw
      rw [ExceptT.run_bind, hx found hrun]
      cases found with
      | error cause => 
          exact Carries.pure (e := Except.map e') (.error cause) w hw
      | ok v => exact hg v w hw

end Judges

end

/-! ### Trees -/

/-- The arena `t` holds the nodes of `s`, and `f e` is the id of the expression `e` there. -/
structure Arena.Renamed (f : ExpressionId → ExpressionId) (s t : Arena) : Prop where
  injective : Function.Injective f
  declarations : t.program.declarations = s.program.declarations
  get? : ∀ {family : Family} (id : NodeId family),
    t.get? (id.rename f) = (s.get? id).map (Node.mapExpressions f family)
  count_le : s.count .expression ≤ t.count .expression

namespace Arena.Renamed

variable {s t : Arena} (h : s.Renamed f t) {family : Family}

include h

theorem count_eq (hfamily : family ≠ .expression) : t.count family = s.count family := by
  have hbeyond : ∀ index, t.count family ≤ index ↔ s.count family ≤ index := by
    intro index
    have hget := h.get? (⟨index⟩ : NodeId family)
    rw [NodeId.rename_of_ne hfamily] at hget
    rw [count, count, ← Array.getElem?_eq_none_iff, ← Array.getElem?_eq_none_iff]
    rw [Arena.get?, Arena.get?] at hget
    rw [hget, Option.map_eq_none_iff]
  exact Nat.le_antisymm ((hbeyond _).2 (Nat.le_refl _)) ((hbeyond _).1 (Nat.le_refl _))

theorem size_le : s.size ≤ t.size := by
  refine size_le_of_count_le fun family => ?_
  by_cases hfamily : family = .expression
  · subst hfamily
    exact h.count_le
  · exact Nat.le_of_eq (h.count_eq hfamily).symm

/-- **A node and its image** are changed alike. -/
theorem put {id : NodeId family} {old : Node family} (hold : s.get? id = some old) (node : Node family) :
    (s.put id node).Renamed f (t.put (id.rename f) (Node.mapExpressions f family node)) where
  injective := h.injective
  declarations := by
    have hkeeps : ∀ (a : Arena) (id : NodeId family) (node : Node family),
        (a.put id node).program = a.program := fun _ _ _ => by cases family <;> rfl
    rw [hkeeps, hkeeps, h.declarations]
  get? {other} kept := by
    by_cases hsame : Visit.of kept = Visit.of id
    · obtain rfl : other = family := Visit.family_eq_of_eq hsame
      obtain rfl := Visit.of_injective hsame
      have hget := h.get? kept
      rw [hold, Option.map_some] at hget
      rw [get?_put_self hold, get?_put_self hget, Option.map_some]
    · have hne : Visit.of (kept.rename f) ≠ Visit.of (id.rename f) := by
        rw [← Visit.rename_of, ← Visit.rename_of]
        exact fun heq => hsame (Visit.rename_injective h.injective heq)
      rw [get?_put_of_ne _ hsame, get?_put_of_ne _ hne, h.get?]
  count_le := by
    rw [count_put, count_put]
    exact h.count_le

/-! ### Single nodes -/

theorem get (i : NodeId family) :
    Carries (Node.mapExpressions f family) (s.get i) (t.get (i.rename f)) := by
  intro node hget
  rw [Arena.get] at hget ⊢
  cases hfound : s.get? i with
  | none =>
      rw [hfound] at hget
      nomatch hget
  | some found =>
      rw [hfound] at hget
      cases hget
      rw [h.get?, hfound]
      rfl

/-! ### Types -/

theorem resolveType (i : TypeId) : Carries id (s.resolveType i) (t.resolveType i) := by
  have hwithin : ∀ hops i, Carries id (s.resolveWithin hops i) (t.resolveWithin hops i) := by
    intro hops
    induction hops with
    | zero => exact fun _ => .pure _
    | succ hops ih =>
        refine fun i => .bind (h.get i) fun ⟨span, kind⟩ => ?_
        cases kind with
        | named name target =>
            cases target with
            | none => exact .pure _
            | some d => exact .bind (h.get d) fun _ => ih _
        | integer | real | boolean | array | record => exact .pure _
  have hcount : t.count .typeDecl = s.count .typeDecl := h.count_eq nofun
  rw [Arena.resolveType, Arena.resolveType, hcount]
  exact hwithin _ i

theorem sameType (left right : TypeId) : Carries id (s.sameType left right) (t.sameType left right) := by
  have hwithin : ∀ layers left right,
      Carries id (s.sameWithin layers left right) (t.sameWithin layers left right) := by
    intro layers
    induction layers with
    | zero => exact fun _ _ => .pure _
    | succ layers ih =>
        refine fun left right => .bind (h.resolveType left) fun l => .bind (h.resolveType right) fun r => ?_
        cases l with
        | none => exact .pure _
        | some l =>
            cases r with
            | none => exact .pure _
            | some r =>
                dsimp only [id_eq]
                split
                · exact .pure _
                · refine .bind (h.get l) fun ⟨_, kind⟩ => .bind (h.get r) fun ⟨_, kind'⟩ => ?_
                  cases kind <;> cases kind' <;> first | exact .pure _ | exact ih _ _
  have hcount : t.count .type = s.count .type := h.count_eq nofun
  rw [Arena.sameType, Arena.sameType, hcount]
  exact hwithin _ left right

theorem typeName (i : TypeId) : Carries id (s.typeName i) (t.typeName i) := by
  have hwithin : ∀ layers i, Carries id (s.typeNameWithin layers i) (t.typeNameWithin layers i) := by
    intro layers
    induction layers with
    | zero => exact fun _ => .error _ _
    | succ layers ih =>
        refine fun i => .bind (h.get i) fun ⟨span, kind⟩ => ?_
        cases kind with
        | array length element => exact .bind (ih element) fun _ => .pure _
        | named | integer | real | boolean | record => exact .pure _
  have hcount : t.count .type = s.count .type := h.count_eq nofun
  rw [Arena.typeName, Arena.typeName, hcount]
  exact hwithin _ i

theorem variableType (i : VariableId) : Carries id (s.variableType i) (t.variableType i) := by
  refine .bind (h.get i) fun ⟨span, name, declaredType, initializer⟩ => ?_
  cases declaredType with
  | some type => exact .pure _
  | none =>
      cases initializer with
      | none => exact .pure _
      | some e => exact .bind (h.get e) fun _ => .pure _

/-! ### Constants and returns -/

theorem isConstant (i : ExpressionId) : Carries id (s.isConstant i) (t.isConstant (f i)) := by
  refine .bind (h.get i) fun ⟨span, constant, type, kind⟩ => ?_
  cases kind with
  | unary operator operand => exact .bind (h.get operand) fun _ => .pure _
  | binary operator left right =>
      refine .bind (h.get left) fun l => ?_
      dsimp only [Node.mapExpressions]
      split
      · exact .bind (h.get right) fun _ => .pure _
      · exact .pure _
  | integer | real | boolean | identifier | call => exact .pure _

theorem bodyReturns (i : BodyId) : Carries id (s.bodyReturns i) (t.bodyReturns i) := by
  have hany : ∀ {returns returns' : StatementId → Except Fault Bool},
      (∀ i, Carries id (returns i) (returns' i)) →
      ∀ is, Carries id (anyReturns returns is) (anyReturns returns' is) := by
    intro returns returns' hreturns is
    induction is with
    | nil => exact .pure _
    | cons i rest ih =>
        refine .bind (hreturns i) fun found => ?_
        cases found with
        | true => exact .pure _
        | false => exact ih
  have hwithin : ∀ depth i, Carries id (s.bodyReturnsWithin depth i) (t.bodyReturnsWithin depth i) := by
    intro depth
    induction depth with
    | zero => exact fun _ => .error _ _
    | succ depth ih =>
        refine fun i => .bind (h.get i) fun body => hany (fun i => ?_) body.statements
        refine .bind (h.get i) fun ⟨span, kind⟩ => ?_
        cases kind with
        | branch condition thenBody elseBody =>
            cases elseBody with
            | none => exact .pure _
            | some elseBody =>
                refine .bind (ih thenBody) fun found => ?_
                cases found with
                | true => exact ih elseBody
                | false => exact .pure _
        | assignment | whileLoop | forLoop | returning | call => exact .pure _
  have hcount : t.count .body = s.count .body := h.count_eq nofun
  rw [Arena.bodyReturns, Arena.bodyReturns, hcount]
  exact hwithin _ i

/-! ### Typing -/

theorem kindOf (type : Option TypeId) :
    Carries (Option.map (TypeKind.mapExpressions f)) (s.kindOf type) (t.kindOf type) := by
  cases type with
  | none => exact .pure none
  | some i =>
      refine .bind (h.resolveType i) fun resolved => ?_
      cases resolved with
      | none => exact .pure none
      | some r => exact .bind (h.get r) fun type => .pure (some type.kind)

theorem expressionKindOf (i : ExpressionId) :
    Carries (Option.map (TypeKind.mapExpressions f)) (s.expressionKindOf i) (t.expressionKindOf (f i)) :=
  .bind (h.get i) fun e => h.kindOf e.type

theorem sameTypes (left right : Option TypeId) :
    Carries id (s.sameTypes left right) (t.sameTypes left right) := by
  cases left with
  | none => exact .pure _
  | some l =>
      cases right with
      | none => exact .pure _
      | some r => exact h.sameType l r

theorem deriveUnary (operator : UnaryOperator) (operand : ExpressionId) :
    Judges (Derivation.rename f) (s.deriveUnary operator operand) (t.deriveUnary operator (f operand)) := by
  refine .read (h.get operand) fun e => .read (h.kindOf e.type) fun kind => ?_
  cases kind with
  | none => cases operator <;> exact .pure (Derivation.plain _)
  | some kind =>
      dsimp only [Option.map_some]
      rw [UnaryOperator.applies_mapExpressions]
      split
      · cases operator <;> exact .pure (Derivation.plain _)
      · exact .throw _

theorem deriveKnown (operator : BinaryOperator) (left right : TypeKind) (leftType rightType : Option TypeId) :
    Judges id (s.deriveKnown operator left right leftType rightType)
      (t.deriveKnown operator (left.mapExpressions f) (right.mapExpressions f) leftType rightType) := by
  have hresult : ∀ (valid : Bool) (type : TypeId), Judges id
      (if valid then Pure.pure type
        else MonadExcept.throw (.invalidOperands operator.text) : Judgement TypeId)
      (if valid then Pure.pure type else MonadExcept.throw (.invalidOperands operator.text)) := by
    rintro (_ | _) type
    · exact .throw _
    · exact .pure _
  unfold Arena.deriveKnown
  simp only [TypeKind.isInteger_mapExpressions, TypeKind.isBoolean_mapExpressions,
    TypeKind.isNumeric_mapExpressions, arithmeticType_mapExpressions]
  cases operator with
  | add | subtract | multiply | divide =>
      dsimp only
      cases arithmeticType left right with
      | none => exact .throw _
      | some type => exact .pure _
  | equal | notEqual =>
      dsimp only
      split
      · exact .pure _
      · exact .read (h.sameTypes leftType rightType) fun valid => hresult valid boolean
  | modulo | less | lessEqual | greater | greaterEqual | or | xor | and | member | index => exact hresult _ _

theorem deriveBinary (operator : BinaryOperator) (left right : ExpressionId) :
    Judges (Derivation.rename f) (s.deriveBinary operator left right)
      (t.deriveBinary operator (f left) (f right)) := by
  refine .read (h.get left) fun l => .read (h.get right) fun r => ?_
  refine .read (h.kindOf l.type) fun leftKind => .read (h.kindOf r.type) fun rightKind => ?_
  cases leftKind with
  | none => exact .pure (Derivation.plain _)
  | some leftKind =>
      cases rightKind with
      | none => exact .pure (Derivation.plain _)
      | some rightKind =>
          exact .bind (h.deriveKnown operator leftKind rightKind l.type r.type) fun type =>
            .pure (Derivation.plain (some type))

/-- The type of an element of an array. -/
theorem deriveElement (array : ExpressionId) : Judges (Derivation.rename f)
    (do match ← s.expressionKindOf array with
        | none => return .plain none
        | some (.array _ element) => return .plain (some element)
        | some _ => throw .notAnArray)
    (do match ← t.expressionKindOf (f array) with
        | none => return .plain none
        | some (.array _ element) => return .plain (some element)
        | some _ => throw .notAnArray) := by
  refine .read (h.expressionKindOf array) fun kind => ?_
  cases kind with
  | none => exact .pure (Derivation.plain none)
  | some kind =>
      cases kind with
      | array length element => exact .pure (Derivation.plain (some element))
      | integer | real | boolean | named | record => exact .throw _

theorem deriveIndex (array position : ExpressionId) :
    Judges (Derivation.rename f) (s.deriveIndex array position) (t.deriveIndex (f array) (f position)) := by
  refine .read (h.expressionKindOf position) fun kind => ?_
  cases kind with
  | none => exact h.deriveElement array
  | some kind =>
      dsimp only [Option.map_some]
      rw [TypeKind.isInteger_mapExpressions]
      split
      · exact h.deriveElement array
      · exact .throw _

theorem findField (name : String) (fields : List VariableId) :
    Carries id (s.findField name fields) (t.findField name fields) := by
  induction fields with
  | nil => exact .pure _
  | cons field rest ih =>
      refine .bind (h.get field) fun node => ?_
      dsimp only [Node.mapExpressions]
      split
      · exact .pure _
      · exact ih

theorem deriveMember (record field : ExpressionId) :
    Judges (Derivation.rename f) (s.deriveMember record field) (t.deriveMember (f record) (f field)) := by
  refine .read (h.get field) fun ⟨span, constant, type, kind⟩ => ?_
  cases kind with
  | identifier name target =>
      refine .read (h.expressionKindOf record) fun kind => ?_
      cases kind with
      | none => exact .pure (Derivation.plain none)
      | some kind =>
          cases kind with
          | record fields =>
              refine .read (h.findField name fields) fun found => ?_
              cases found with
              | none => exact .throw _
              | some declaration =>
                  exact .read (h.variableType declaration) fun type =>
                    .pure (⟨type, some (field, declaration)⟩ : Derivation)
          | integer | real | boolean | named | array => exact .throw _
  | unary | binary | integer | real | boolean | call => exact .pure (Derivation.plain none)

/-- **The type of an expression** is that of its image. -/
theorem deriveType (i : ExpressionId) :
    Judges (Derivation.rename f) (s.deriveType i) (t.deriveType (f i)) := by
  refine .read (h.get i) fun ⟨span, constant, type, kind⟩ => ?_
  cases kind with
  | integer | real | boolean => exact .pure (Derivation.plain _)
  | identifier name target =>
      cases target with
      | none => exact .pure (Derivation.plain _)
      | some x => exact .read (h.variableType x) fun type => .pure (Derivation.plain type)
  | call name target arguments =>
      cases target with
      | none => exact .pure (Derivation.plain _)
      | some r => exact .read (h.get r) fun routine => .pure (Derivation.plain routine.returnType)
  | unary operator operand => exact h.deriveUnary operator operand
  | binary operator left right =>
      cases operator with
      | member => exact h.deriveMember left right
      | index => exact h.deriveIndex left right
      | _ => exact h.deriveBinary _ left right

/-! ### Changing -/

/-- **A change of a node** is a change of its image. -/
theorem modify {i : NodeId family} {g g' : Node family → Node family} {u : Arena}
    (hg : ∀ node, g' (Node.mapExpressions f family node) = Node.mapExpressions f family (g node))
    (hu : s.modify i g = .ok u) : ∃ w, t.modify (i.rename f) g' = .ok w ∧ u.Renamed f w := by
  rw [Arena.modify] at hu ⊢
  cases hfound : s.get? i with
  | none =>
      rw [hfound] at hu
      nomatch hu
  | some found =>
      rw [hfound] at hu
      cases hu
      rw [h.get?, hfound, Option.map_some]
      refine ⟨_, rfl, ?_⟩
      rw [hg]
      exact h.put hfound _

theorem bindField {d : Derivation} {u : Arena} (hu : s.bindField d = .ok u) :
    ∃ w, t.bindField (d.rename f) = .ok w ∧ u.Renamed f w := by
  obtain ⟨type, _ | ⟨field, declaration⟩⟩ := d
  · cases hu
    exact ⟨t, rfl, h⟩
  · refine h.modify (fun node => ?_) hu
    obtain ⟨span, constant, type, kind⟩ := node
    cases kind <;> rfl

/-- **What typing an expression finds and changes** it finds and changes in the image. -/
theorem settleType {i : ExpressionId} {outcome : Except Cause (Option TypeId)} {u : Arena}
    (hu : s.settleType i = .ok (outcome, u)) :
    ∃ w, t.settleType (f i) = .ok (outcome, w) ∧ u.Renamed f w := by
  rw [Arena.settleType] at hu ⊢
  cases hderive : (s.deriveType i).run with
  | error fault =>
      rw [hderive] at hu
      nomatch hu
  | ok found =>
      rw [hderive] at hu
      rw [h.deriveType i found hderive]
      cases found with
      | error cause =>
          cases hu
          exact ⟨t, rfl, h⟩
      | ok d =>
          cases hbind : s.bindField d with
          | error fault =>
              simp only [bind, Except.bind, hbind] at hu
              nomatch hu
          | ok bound =>
              simp only [bind, Except.bind, hbind] at hu
              cases hu
              obtain ⟨w, hw, hrenamed⟩ := h.bindField hbind
              refine ⟨w, ?_, hrenamed⟩
              simp only [bind, Except.bind, Except.map, hw]
              rfl

end Arena.Renamed

end ProcLang
