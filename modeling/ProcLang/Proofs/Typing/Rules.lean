import ProcLang.Proofs.Typing.Sound

/-!
# ProcLang.Proofs.Typing.Rules

**The typing rules.** `a.HasType e t` says that the expression `e` has the type `t`. The rules read
the forms of expressions, the links and the declared types, but no type that is stored on an
expression. Types count for what they mean, whatever names they were given (`Means`).

Only one rule can apply to an expression, and its form says which one (`hasType_iff`).
-/

namespace ProcLang

open Arena

variable {a b : Arena}

/-! ### What types mean -/

/-- The form that a type has once its names have been followed. -/
inductive Arena.Means (a : Arena) : TypeId → TypeKind → Prop
  | proper {t : TypeId} {node : TypeNode} (hget : a.get? t = some node) (hproper : node.kind.Proper) :
      Means a t node.kind
  | named {t : TypeId} {node : TypeNode} {name : String} {d : TypeDeclId} {declaration : TypeDecl}
      {kind : TypeKind} (hget : a.get? t = some node) (hkind : node.kind = .named name (some d))
      (hd : a.get? d = some declaration) (h : Means a declaration.type kind) : Means a t kind

/-- A type means one thing. -/
theorem Arena.Means.unique {t : TypeId} {kind kind' : TypeKind} (h : a.Means t kind)
    (h' : a.Means t kind') : kind = kind' := by
  induction h with
  | proper hget hproper =>
      cases h' with
      | proper hget' _ => rw [Option.some.inj (hget.symm.trans hget')]
      | named hget' hkind' _ _ =>
          obtain rfl := Option.some.inj (hget.symm.trans hget')
          exact absurd hkind' (hproper _ _)
  | named hget hkind hd _ ih =>
      cases h' with
      | proper hget' hproper =>
          obtain rfl := Option.some.inj (hget.symm.trans hget')
          exact absurd hkind (hproper _ _)
      | named hget' hkind' hd' h' =>
          obtain rfl := Option.some.inj (hget.symm.trans hget')
          cases hkind.symm.trans hkind'
          obtain rfl := Option.some.inj (hd.symm.trans hd')
          exact ih h'

/-- What a type means can be read from the types and their declarations alone. -/
theorem Arena.Means.congr (htypes : b.table .type = a.table .type)
    (hdeclarations : b.table .typeDecl = a.table .typeDecl) {t : TypeId} {kind : TypeKind}
    (h : a.Means t kind) : b.Means t kind := by
  have hget : ∀ id : TypeId, b.get? id = a.get? id := fun id => by rw [get?, htypes, get?]
  have hget' : ∀ id : TypeDeclId, b.get? id = a.get? id := fun id => by
    rw [get?, hdeclarations, get?]
  induction h with
  | proper hnode hproper => exact .proper ((hget _).trans hnode) hproper
  | named hnode hkind hd _ ih => exact .named ((hget _).trans hnode) hkind ((hget' _).trans hd) ih

/-- What a type means does not depend on what is known about expressions. -/
theorem Arena.RefinedBy.means_iff (h : a.RefinedBy b) {t : TypeId} {kind : TypeKind} :
    b.Means t kind ↔ a.Means t kind :=
  ⟨.congr (h.others .type nofun).symm (h.others .typeDecl nofun).symm,
    .congr (h.others .type nofun) (h.others .typeDecl nofun)⟩

/-- Following names leads to what a type means. -/
theorem means_of_resolveWithin {hops : Nat} {t r : TypeId} (h : a.resolveWithin hops t = .ok (some r)) :
    ∃ node, a.get? r = some node ∧ a.Means t node.kind := by
  induction hops generalizing t with
  | zero => cases h
  | succ hops ih =>
      rw [resolveWithin] at h
      cases hget : a.get? t with
      | none => simp [Arena.get, hget, bind, Except.bind] at h
      | some node =>
          simp only [get_eq_ok.2 hget, bind, Except.bind] at h
          cases hkind : node.kind with
          | named name target =>
              rw [hkind] at h
              cases target with
              | none => cases h
              | some d =>
                  cases hd : a.get? d with
                  | none => simp [Arena.get, hd] at h
                  | some declaration =>
                      simp only [get_eq_ok.2 hd] at h
                      obtain ⟨found, hr, hmeans⟩ := ih h
                      exact ⟨found, hr, .named hget hkind hd hmeans⟩
          | integer | real | boolean | array | record =>
              rw [hkind] at h
              cases h
              exact ⟨node, hget, .proper hget (by rw [hkind]; rintro _ _ ⟨⟩)⟩

/-- **In a sound tree a type means what is found by looking through its names.** -/
theorem Arena.Sound.kindOf_iff (h : a.Sound) {t : TypeId} (hhas : a.Has (.type t)) {kind : TypeKind} :
    a.kindOf (some t) = .ok (some kind) ↔ a.Means t kind := by
  obtain ⟨r, node, hr, hnode, -⟩ := h.resolved t hhas
  obtain ⟨found, hfound, hmeans⟩ := means_of_resolveWithin hr
  obtain rfl := Option.some.inj (hnode.symm.trans hfound)
  have hkind : a.kindOf (some t) = .ok (some node.kind) := by
    simp [kindOf, hr, get_eq_ok.2 hnode, bind, Except.bind, pure, Except.pure]
  rw [hkind]
  constructor
  · intro heq
    cases heq
    exact hmeans
  · intro hother
    rw [hmeans.unique hother]

/-! ### The rules -/

/-- The rules of the operators with one operand. -/
inductive Arena.UnaryRule (a : Arena) : UnaryOperator → TypeId → TypeId → Prop
  | not {t : TypeId} (ht : a.Means t .boolean) : UnaryRule a .not t boolean
  | sign {operator : UnaryOperator} {t : TypeId} {kind : TypeKind} (hsign : operator ≠ .not)
      (ht : a.Means t kind) (hnumeric : kind.isNumeric = true) : UnaryRule a operator t t

/-- The sorts of operators with two operands. Each sort has its own rules. -/
inductive BinaryOperator.Sort where
  | arithmetic
  | modulo
  | equality
  | ordering
  | logical
  | member
  | index

/-- The sort of an operator. -/
def BinaryOperator.sort : BinaryOperator → BinaryOperator.Sort
  | add | subtract | multiply | divide => .arithmetic
  | modulo => .modulo
  | equal | notEqual => .equality
  | less | lessEqual | greater | greaterEqual => .ordering
  | or | xor | and => .logical
  | member => .member
  | index => .index

/-- The rules of the operators with two operands, but for member access. -/
inductive Arena.BinaryRule (a : Arena) : BinaryOperator → TypeId → TypeId → TypeId → Prop
  | integers {operator : BinaryOperator} {t u : TypeId}
      (hsort : operator.sort = .arithmetic ∨ operator.sort = .modulo) (ht : a.Means t .integer)
      (hu : a.Means u .integer) : BinaryRule a operator t u integer
  | reals {operator : BinaryOperator} {t u : TypeId} {left right : TypeKind}
      (hsort : operator.sort = .arithmetic) (ht : a.Means t left) (hu : a.Means u right)
      (hleft : left.isNumeric = true) (hright : right.isNumeric = true)
      (hreal : ¬ (left = .integer ∧ right = .integer)) : BinaryRule a operator t u real
  | numbers {operator : BinaryOperator} {t u : TypeId} {left right : TypeKind}
      (hsort : operator.sort = .equality ∨ operator.sort = .ordering) (ht : a.Means t left)
      (hu : a.Means u right) (hleft : left.isNumeric = true) (hright : right.isNumeric = true) :
      BinaryRule a operator t u boolean
  | alike {operator : BinaryOperator} {t u : TypeId} (hsort : operator.sort = .equality)
      (hsame : a.sameType t u = .ok true) : BinaryRule a operator t u boolean
  | truths {operator : BinaryOperator} {t u : TypeId} (hsort : operator.sort = .logical)
      (ht : a.Means t .boolean) (hu : a.Means u .boolean) : BinaryRule a operator t u boolean
  | element {operator : BinaryOperator} {t u : TypeId} {length : Option ExpressionId}
      {element : TypeId} (hsort : operator.sort = .index) (ht : a.Means t (.array length element))
      (hu : a.Means u .integer) : BinaryRule a operator t u element

/-- **The typing rules.** -/
inductive Arena.HasType (a : Arena) : ExpressionId → TypeId → Prop
  | literal {e : ExpressionId} {node : Expression} {t : TypeId} (hget : a.get? e = some node)
      (ht : node.kind.literalType = some t) : HasType a e t
  | name {e : ExpressionId} {node : Expression} {name : String} {x : VariableId} {v : Variable}
      {t : TypeId} (hget : a.get? e = some node) (hkind : node.kind = .identifier name (some x))
      (hx : a.get? x = some v) (ht : v.declaredType = some t) : HasType a e t
  | call {e : ExpressionId} {node : Expression} {name : String} {r : RoutineId}
      {arguments : List ExpressionId} {routine : Routine} {types : ExpressionId → TypeId} {t : TypeId}
      (hget : a.get? e = some node) (hkind : node.kind = .call name (some r) arguments)
      (hr : a.get? r = some routine) (ht : routine.returnType = some t)
      (harguments : ∀ o ∈ arguments, HasType a o (types o)) : HasType a e t
  | unary {e : ExpressionId} {node : Expression} {operator : UnaryOperator} {operand : ExpressionId}
      {u t : TypeId} (hget : a.get? e = some node) (hkind : node.kind = .unary operator operand)
      (hoperand : HasType a operand u) (hrule : a.UnaryRule operator u t) : HasType a e t
  | binary {e : ExpressionId} {node : Expression} {operator : BinaryOperator}
      {left right : ExpressionId} {u w t : TypeId} (hget : a.get? e = some node)
      (hkind : node.kind = .binary operator left right) (hleft : HasType a left u)
      (hright : HasType a right w) (hrule : a.BinaryRule operator u w t) : HasType a e t
  | field {e : ExpressionId} {node : Expression} {record f : ExpressionId} {u : TypeId}
      {fields : List VariableId} {field : Expression} {name : String} {target : Option VariableId}
      {x : VariableId} {v : Variable} {t : TypeId} (hget : a.get? e = some node)
      (hkind : node.kind = .binary .member record f) (hrecord : HasType a record u)
      (hu : a.Means u (.record fields)) (hfield : a.get? f = some field)
      (hname : field.kind = .identifier name target)
      (hfound : a.findField name fields = .ok (some x)) (hx : a.get? x = some v)
      (ht : v.declaredType = some t) : HasType a e t

/-- The rule of member access, as the forms of the access and of the name behind the point say. -/
def Arena.FieldRule (a : Arena) (record f : ExpressionId) (t : TypeId) : Prop :=
  ∃ u fields field name target x v, a.HasType record u ∧ a.Means u (.record fields) ∧
    a.get? f = some field ∧ field.kind = .identifier name target ∧
    a.findField name fields = .ok (some x) ∧ a.get? x = some v ∧ v.declaredType = some t

/-- **The form of an expression says which rule can apply to it.** -/
theorem hasType_iff {e : ExpressionId} {node : Expression} (hget : a.get? e = some node) {t : TypeId} :
    a.HasType e t ↔ match node.kind with
      | .integer _ | .real _ | .boolean _ => node.kind.literalType = some t
      | .identifier _ target => ∃ x v, target = some x ∧ a.get? x = some v ∧ v.declaredType = some t
      | .call _ target arguments => ∃ r routine, target = some r ∧ a.get? r = some routine ∧
          routine.returnType = some t ∧ ∃ types : ExpressionId → TypeId,
            ∀ o ∈ arguments, a.HasType o (types o)
      | .unary operator operand => ∃ u, a.HasType operand u ∧ a.UnaryRule operator u t
      | .binary operator left right =>
          (∃ u w, a.HasType left u ∧ a.HasType right w ∧ a.BinaryRule operator u w t) ∨
            operator = .member ∧ a.FieldRule left right t := by
  constructor
  · intro h
    cases h with
    | literal hget' ht =>
        obtain rfl := Option.some.inj (hget.symm.trans hget')
        cases hkind : node.kind with
        | integer | real | boolean =>
            rw [hkind] at ht
            exact ht
        | identifier | call | unary | binary =>
            rw [hkind] at ht
            nomatch ht
    | name hget' hkind hx ht =>
        obtain rfl := Option.some.inj (hget.symm.trans hget')
        rw [hkind]
        exact ⟨_, _, rfl, hx, ht⟩
    | call hget' hkind hr ht harguments =>
        obtain rfl := Option.some.inj (hget.symm.trans hget')
        rw [hkind]
        exact ⟨_, _, rfl, hr, ht, _, harguments⟩
    | unary hget' hkind hoperand hrule =>
        obtain rfl := Option.some.inj (hget.symm.trans hget')
        rw [hkind]
        exact ⟨_, hoperand, hrule⟩
    | binary hget' hkind hleft hright hrule =>
        obtain rfl := Option.some.inj (hget.symm.trans hget')
        rw [hkind]
        exact Or.inl ⟨_, _, hleft, hright, hrule⟩
    | field hget' hkind hrecord hu hfield hname hfound hx ht =>
        obtain rfl := Option.some.inj (hget.symm.trans hget')
        rw [hkind]
        exact Or.inr ⟨rfl, _, _, _, _, _, _, _, hrecord, hu, hfield, hname, hfound, hx, ht⟩
  · intro h
    cases hkind : node.kind with
    | integer | real | boolean =>
        rw [hkind] at h
        exact .literal hget (hkind ▸ h)
    | identifier name target =>
        rw [hkind] at h
        obtain ⟨x, v, rfl, hx, ht⟩ := h
        exact .name hget hkind hx ht
    | call name target arguments =>
        rw [hkind] at h
        obtain ⟨r, routine, rfl, hr, ht, types, harguments⟩ := h
        exact .call hget hkind hr ht harguments
    | unary operator operand =>
        rw [hkind] at h
        obtain ⟨u, hoperand, hrule⟩ := h
        exact .unary hget hkind hoperand hrule
    | binary operator left right =>
        rw [hkind] at h
        rcases h with ⟨u, w, hleft, hright, hrule⟩ | ⟨rfl, hfield⟩
        · exact .binary hget hkind hleft hright hrule
        · obtain ⟨u, fields, field, name, target, x, v, hrecord, hu, hfield, hname, hfound, hx, ht⟩ :=
            hfield
          exact .field hget hkind hrecord hu hfield hname hfound hx ht

end ProcLang
