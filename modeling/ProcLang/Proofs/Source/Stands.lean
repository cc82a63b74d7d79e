import ProcLang.Proofs.Source.Syntax

/-!
# ProcLang.Proofs.Source.Stands

**When the nodes of an arena are a program as it is written.** A node stands for what is written if
it is of the same form, has the same names and values, and its children stand for its parts. Spans
and ids are free; links are not set yet.

A node goes on to stand for what it stands for while the arena grows.
-/

namespace ProcLang

namespace Source

variable {a b : Arena}

def Expression.Stands (a : Arena) (e : Expression) (id : ExpressionId) : Prop :=
  ProcLang.Stands a e.tree id

mutual

def TypeForm.Stands (a : Arena) : TypeForm → TypeId → Prop
  | .integer, id => ∃ span, a.get? id = some ⟨span, .integer⟩
  | .real, id => ∃ span, a.get? id = some ⟨span, .real⟩
  | .boolean, id => ∃ span, a.get? id = some ⟨span, .boolean⟩
  | .named name, id => ∃ span, a.get? id = some ⟨span, .named name.text none⟩
  | .array length element, id => ∃ span l e, a.get? id = some ⟨span, .array l e⟩ ∧
      Option.Rel (Expression.Stands a) length l ∧ element.Stands a e
  | .record fields, id => ∃ span ids, a.get? id = some ⟨span, .record ids⟩ ∧
      FieldsStand a fields ids

def Variable.Stands (a : Arena) : Variable → VariableId → Prop
  | .mk name type initializer, id => ∃ span t value, a.get? id = some ⟨span, name.text, t, value⟩ ∧
      AnnotationStands a type t ∧ Option.Rel (Expression.Stands a) initializer value

/-- There is a node for a type where a type is written. -/
def AnnotationStands (a : Arena) : Option TypeForm → Option TypeId → Prop
  | none, id => id = none
  | some type, id => ∃ t, id = some t ∧ type.Stands a t

/-- There is one node for each field. -/
def FieldsStand (a : Arena) : List Variable → List VariableId → Prop
  | [], ids => ids = []
  | field :: fields, ids => ∃ id rest, ids = id :: rest ∧ field.Stands a id ∧
      FieldsStand a fields rest

end

def LocalDeclaration.Stands (a : Arena) : LocalDeclaration → ProcLang.Declaration → Prop
  | .variable declared, .variable id => declared.Stands a id
  | .type name form, .type id => ∃ span type, a.get? id = some ⟨span, name.text, type⟩ ∧
      form.Stands a type
  | _, _ => False

/-- The counter of a loop is an integer without an initial value. -/
def CounterStands (a : Arena) (name : Name) (id : VariableId) : Prop :=
  ∃ span t typeSpan, a.get? id = some ⟨span, name.text, some t, none⟩ ∧
    a.get? t = some ⟨typeSpan, .integer⟩

mutual

def Statement.Stands (a : Arena) : Statement → StatementId → Prop
  | .assignment target value, id => ∃ span t v, a.get? id = some ⟨span, .assignment t v⟩ ∧
      target.Stands a t ∧ value.Stands a v
  | .whileLoop condition body, id => ∃ span c inner,
      a.get? id = some ⟨span, .whileLoop c inner⟩ ∧ condition.Stands a c ∧ body.Stands a inner
  | .forLoop counter first last reverse body, id => ∃ span x f l inner,
      a.get? id = some ⟨span, .forLoop x f l reverse inner⟩ ∧ CounterStands a counter x ∧
        first.Stands a f ∧ last.Stands a l ∧ body.Stands a inner
  | .branch condition thenBody elseBody, id => ∃ span c t e,
      a.get? id = some ⟨span, .branch c t e⟩ ∧ condition.Stands a c ∧ thenBody.Stands a t ∧
        ElseStands a elseBody e
  | .returning value, id => ∃ span v, a.get? id = some ⟨span, .returning v⟩ ∧
      Option.Rel (Expression.Stands a) value v
  | .call callee, id => ∃ span c, a.get? id = some ⟨span, .call c⟩ ∧
      callee.expression.Stands a c

def Body.Stands (a : Arena) : Body → BodyId → Prop
  | .mk declarations statements, id => ∃ span ds ids, a.get? id = some ⟨span, ds, ids⟩ ∧
      List.Forall₂ (LocalDeclaration.Stands a) declarations ds ∧ StatementsStand a statements ids

/-- There is a node for the other branch where one is written. -/
def ElseStands (a : Arena) : Option Body → Option BodyId → Prop
  | none, id => id = none
  | some body, id => ∃ inner, id = some inner ∧ body.Stands a inner

/-- There is one node for each statement. -/
def StatementsStand (a : Arena) : List Statement → List StatementId → Prop
  | [], ids => ids = []
  | statement :: statements, ids => ∃ id rest, ids = id :: rest ∧ statement.Stands a id ∧
      StatementsStand a statements rest

end

/-- A parameter has a type and no initial value. -/
def Parameter.Stands (a : Arena) (parameter : Parameter) (id : VariableId) : Prop :=
  ∃ span t, a.get? id = some ⟨span, parameter.name.text, some t, none⟩ ∧ parameter.type.Stands a t

def Routine.Stands (a : Arena) (routine : Routine) (id : RoutineId) : Prop :=
  ∃ span parameters result body,
    a.get? id = some ⟨span, routine.name.text, parameters, result, body⟩ ∧
      List.Forall₂ (Parameter.Stands a) routine.parameters parameters ∧
        AnnotationStands a routine.returnType result ∧ routine.body.Stands a body

def Declaration.Stands (a : Arena) : Declaration → ProcLang.Declaration → Prop
  | .routine declared, .routine id => declared.Stands a id
  | .plain declared, d => declared.Stands a d
  | _, _ => False

/-- **The tree of an arena is a program**, up to spans and ids. -/
def Program.Stands (a : Arena) (program : Program) : Prop :=
  List.Forall₂ (Declaration.Stands a) program a.program.declarations

theorem FieldsStand.of_forall₂ {fields : List Variable} {ids : List VariableId}
    (h : List.Forall₂ (Variable.Stands a) fields ids) : FieldsStand a fields ids := by
  induction h with
  | nil => rfl
  | cons hfield _ hfields => exact ⟨_, _, rfl, hfield, hfields⟩

theorem StatementsStand.of_forall₂ {statements : List Statement} {ids : List StatementId}
    (h : List.Forall₂ (Statement.Stands a) statements ids) : StatementsStand a statements ids := by
  induction h with
  | nil => rfl
  | cons hstatement _ hstatements => exact ⟨_, _, rfl, hstatement, hstatements⟩

/-! ### Growing arenas -/

theorem rel_extend {α β : Type} {R S : α → β → Prop} (h : ∀ x y, R x y → S x y) {x : Option α}
    {y : Option β} (hxy : Option.Rel R x y) : Option.Rel S x y := by
  cases hxy with
  | some hxy => exact .some (h _ _ hxy)
  | none => exact .none

theorem Expression.Stands.extend (h : a.ExtendedBy b) {e : Expression} {id : ExpressionId}
    (hstands : e.Stands a id) : e.Stands b id :=
  ProcLang.Stands.extend h hstands

theorem rel_stands_extend (h : a.ExtendedBy b) {e : Option Expression} {id : Option ExpressionId}
    (hstands : Option.Rel (Expression.Stands a) e id) : Option.Rel (Expression.Stands b) e id :=
  rel_extend (fun _ _ hstands => hstands.extend h) hstands

mutual

theorem TypeForm.Stands.extend (h : a.ExtendedBy b) :
    ∀ {form : TypeForm} {id : TypeId}, form.Stands a id → form.Stands b id
  | .integer, _, ⟨span, hget⟩ => ⟨span, h _ _ _ hget⟩
  | .real, _, ⟨span, hget⟩ => ⟨span, h _ _ _ hget⟩
  | .boolean, _, ⟨span, hget⟩ => ⟨span, h _ _ _ hget⟩
  | .named _, _, ⟨span, hget⟩ => ⟨span, h _ _ _ hget⟩
  | .array _ _, _, ⟨span, l, e, hget, hlength, helement⟩ =>
      ⟨span, l, e, h _ _ _ hget, rel_stands_extend h hlength, helement.extend h⟩
  | .record _, _, ⟨span, ids, hget, hfields⟩ =>
      ⟨span, ids, h _ _ _ hget, FieldsStand.extend h hfields⟩

theorem Variable.Stands.extend (h : a.ExtendedBy b) :
    ∀ {x : Variable} {id : VariableId}, x.Stands a id → x.Stands b id
  | .mk _ _ _, _, ⟨span, t, value, hget, htype, hvalue⟩ =>
      ⟨span, t, value, h _ _ _ hget, AnnotationStands.extend h htype, rel_stands_extend h hvalue⟩

theorem AnnotationStands.extend (h : a.ExtendedBy b) : ∀ {form : Option TypeForm}
    {id : Option TypeId}, AnnotationStands a form id → AnnotationStands b form id
  | none, _, hnone => hnone
  | some _, _, ⟨t, hid, htype⟩ => ⟨t, hid, htype.extend h⟩

theorem FieldsStand.extend (h : a.ExtendedBy b) : ∀ {fields : List Variable}
    {ids : List VariableId}, FieldsStand a fields ids → FieldsStand b fields ids
  | [], _, hnil => hnil
  | _ :: _, _, ⟨id, rest, hids, hfield, hfields⟩ =>
      ⟨id, rest, hids, hfield.extend h, FieldsStand.extend h hfields⟩

end

theorem LocalDeclaration.Stands.extend (h : a.ExtendedBy b) {d : LocalDeclaration}
    {id : ProcLang.Declaration} (hstands : d.Stands a id) : d.Stands b id := by
  cases d with
  | «variable» declared =>
      cases id with
      | «variable» id => exact Variable.Stands.extend h hstands
      | routine | type => exact hstands
  | type name form =>
      cases id with
      | type id =>
          obtain ⟨span, t, hget, htype⟩ := hstands
          exact ⟨span, t, h _ _ _ hget, htype.extend h⟩
      | routine | «variable» => exact hstands

theorem CounterStands.extend (h : a.ExtendedBy b) {name : Name} {id : VariableId}
    (hstands : CounterStands a name id) : CounterStands b name id := by
  obtain ⟨span, t, typeSpan, hget, htype⟩ := hstands
  exact ⟨span, t, typeSpan, h _ _ _ hget, h _ _ _ htype⟩

mutual

theorem Statement.Stands.extend (h : a.ExtendedBy b) :
    ∀ {statement : Statement} {id : StatementId}, statement.Stands a id → statement.Stands b id
  | .assignment _ _, _, ⟨span, t, v, hget, htarget, hvalue⟩ =>
      ⟨span, t, v, h _ _ _ hget, htarget.extend h, hvalue.extend h⟩
  | .whileLoop _ _, _, ⟨span, c, inner, hget, hcondition, hbody⟩ =>
      ⟨span, c, inner, h _ _ _ hget, hcondition.extend h, hbody.extend h⟩
  | .forLoop _ _ _ _ _, _, ⟨span, x, f, l, inner, hget, hcounter, hfirst, hlast, hbody⟩ =>
      ⟨span, x, f, l, inner, h _ _ _ hget, hcounter.extend h, hfirst.extend h, hlast.extend h,
        hbody.extend h⟩
  | .branch _ _ _, _, ⟨span, c, t, e, hget, hcondition, hthen, helse⟩ =>
      ⟨span, c, t, e, h _ _ _ hget, hcondition.extend h, hthen.extend h, ElseStands.extend h helse⟩
  | .returning _, _, ⟨span, v, hget, hvalue⟩ => ⟨span, v, h _ _ _ hget, rel_stands_extend h hvalue⟩
  | .call _, _, ⟨span, c, hget, hcallee⟩ => ⟨span, c, h _ _ _ hget, hcallee.extend h⟩

theorem Body.Stands.extend (h : a.ExtendedBy b) :
    ∀ {body : Body} {id : BodyId}, body.Stands a id → body.Stands b id
  | .mk _ _, _, ⟨span, ds, ids, hget, hdeclarations, hstatements⟩ =>
      ⟨span, ds, ids, h _ _ _ hget, hdeclarations.imp fun _ _ hstands => hstands.extend h,
        StatementsStand.extend h hstatements⟩

theorem ElseStands.extend (h : a.ExtendedBy b) : ∀ {body : Option Body} {id : Option BodyId},
    ElseStands a body id → ElseStands b body id
  | none, _, hnone => hnone
  | some _, _, ⟨inner, hid, hbody⟩ => ⟨inner, hid, hbody.extend h⟩

theorem StatementsStand.extend (h : a.ExtendedBy b) : ∀ {statements : List Statement}
    {ids : List StatementId}, StatementsStand a statements ids → StatementsStand b statements ids
  | [], _, hnil => hnil
  | _ :: _, _, ⟨id, rest, hids, hstatement, hstatements⟩ =>
      ⟨id, rest, hids, hstatement.extend h, StatementsStand.extend h hstatements⟩

end

theorem Parameter.Stands.extend (h : a.ExtendedBy b) {parameter : Parameter} {id : VariableId}
    (hstands : parameter.Stands a id) : parameter.Stands b id := by
  obtain ⟨span, t, hget, htype⟩ := hstands
  exact ⟨span, t, h _ _ _ hget, htype.extend h⟩

theorem Routine.Stands.extend (h : a.ExtendedBy b) {routine : Routine} {id : RoutineId}
    (hstands : routine.Stands a id) : routine.Stands b id := by
  obtain ⟨span, parameters, result, body, hget, hparameters, hresult, hbody⟩ := hstands
  exact ⟨span, parameters, result, body, h _ _ _ hget,
    hparameters.imp fun _ _ hstands => hstands.extend h, hresult.extend h, hbody.extend h⟩

theorem Declaration.Stands.extend (h : a.ExtendedBy b) {d : Declaration} {id : ProcLang.Declaration}
    (hstands : d.Stands a id) : d.Stands b id := by
  cases d with
  | routine declared =>
      cases id with
      | routine id => exact Routine.Stands.extend h hstands
      | «variable» | type => exact hstands
  | plain declared =>
      simp only [Declaration.Stands] at hstands
      exact LocalDeclaration.Stands.extend h hstands

end Source

end ProcLang
