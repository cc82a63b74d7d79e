import ProcLang.Proofs.Tree.Forest
import Mathlib.Logic.Function.Basic

/-!
# ProcLang.Proofs.Tree.Slots

**The slots for expressions.** `Node.mapExpressions f family node` is the node with `f` applied to
the expression in each of its slots: the initial value of a variable, the length of an array, the
expressions of a statement, the operands of an expression. All else stays, and no slot is left out
(`Node.mapExpressions_congr`). Storing another expression in one slot changes the function at the
expression that the slot held (`StatementKind.setExpression_mapExpressions`,
`ExpressionKind.setOperand_mapExpressions`).
-/

namespace ProcLang

variable {f g : ExpressionId → ExpressionId} {e new : ExpressionId}

/-- A type with another length. -/
def TypeKind.mapExpressions (f : ExpressionId → ExpressionId) : TypeKind → TypeKind
  | .array length element => .array (length.map f) element
  | .record fields => .record fields
  | .named name target => .named name target
  | .integer => .integer
  | .real => .real
  | .boolean => .boolean

/-- A statement with other expressions. -/
def StatementKind.mapExpressions (f : ExpressionId → ExpressionId) : StatementKind → StatementKind
  | .assignment target value => .assignment (f target) (f value)
  | .whileLoop condition body => .whileLoop (f condition) body
  | .forLoop counter first last reverse body => .forLoop counter (f first) (f last) reverse body
  | .branch condition thenBody elseBody => .branch (f condition) thenBody elseBody
  | .returning value => .returning (value.map f)
  | .call callee => .call (f callee)

/-- An expression with other operands. -/
def ExpressionKind.mapExpressions (f : ExpressionId → ExpressionId) :
    ExpressionKind → ExpressionKind
  | .unary operator operand => .unary operator (f operand)
  | .binary operator left right => .binary operator (f left) (f right)
  | .call name target arguments => .call name target (arguments.map f)
  | .integer value => .integer value
  | .real value => .real value
  | .boolean value => .boolean value
  | .identifier name target => .identifier name target

/-- A node with other expressions in its slots. -/
def Node.mapExpressions (f : ExpressionId → ExpressionId) :
    (family : Family) → Node family → Node family
  | .variable, node => { node with initializer := node.initializer.map f }
  | .type, node => { node with kind := node.kind.mapExpressions f }
  | .statement, node => { node with kind := node.kind.mapExpressions f }
  | .expression, node => { node with kind := node.kind.mapExpressions f }
  | .routine, node => node
  | .typeDecl, node => node
  | .body, node => node

/-! ### Lists of expressions -/

@[simp] theorem StatementKind.expressions_mapExpressions (kind : StatementKind) :
    (kind.mapExpressions f).expressions = kind.expressions.map f := by
  cases kind with
  | returning value => cases value <;> rfl
  | _ => rfl

@[simp] theorem StatementKind.counter?_mapExpressions (kind : StatementKind) :
    (kind.mapExpressions f).counter? = kind.counter? := by
  cases kind <;> rfl

@[simp] theorem StatementKind.bodies_mapExpressions (kind : StatementKind) :
    (kind.mapExpressions f).bodies = kind.bodies := by
  cases kind <;> rfl

@[simp] theorem ExpressionKind.operands_mapExpressions (kind : ExpressionKind) :
    (kind.mapExpressions f).operands = kind.operands.map f := by
  cases kind <;> rfl

theorem StatementKind.mapExpressions_congr {kind : StatementKind}
    (h : ∀ e ∈ kind.expressions, f e = g e) : kind.mapExpressions f = kind.mapExpressions g := by
  cases kind with
  | returning value =>
      cases value with
      | none => rfl
      | some e => exact congrArg (fun e => returning (some e)) (h e List.mem_cons_self)
  | _ => simp_all [mapExpressions, expressions]

theorem ExpressionKind.mapExpressions_congr {kind : ExpressionKind}
    (h : ∀ e ∈ kind.operands, f e = g e) : kind.mapExpressions f = kind.mapExpressions g := by
  cases kind with
  | call name target arguments =>
      exact congrArg (ExpressionKind.call name target) (List.map_congr_left h)
  | _ => simp_all [mapExpressions, operands]

/-- **No slot is left out**: a node depends on what stands in its slots only. -/
theorem Node.mapExpressions_congr {family : Family} {node : Node family}
    (h : ∀ e, .expression e ∈ Node.children family node → f e = g e) :
    Node.mapExpressions f family node = Node.mapExpressions g family node := by
  cases family with
  | «variable» =>
      obtain ⟨span, name, declaredType, _ | value⟩ := node
      · rfl
      · have hvalue := h value (List.mem_append_right _ List.mem_cons_self)
        simp [mapExpressions, hvalue]
  | type =>
      obtain ⟨span, kind⟩ := node
      cases kind with
      | array length element =>
          cases length with
          | none => rfl
          | some e =>
              have hlength := h e (List.mem_append_left _ List.mem_cons_self)
              simp [mapExpressions, TypeKind.mapExpressions, hlength]
      | _ => rfl
  | statement =>
      have hkind : node.kind.mapExpressions f = node.kind.mapExpressions g :=
        StatementKind.mapExpressions_congr fun e he => h e
          (List.mem_append_left _ (List.mem_append_left _ (List.mem_map_of_mem he)))
      simp [mapExpressions, hkind]
  | expression =>
      have hkind : node.kind.mapExpressions f = node.kind.mapExpressions g :=
        ExpressionKind.mapExpressions_congr fun e he => h e (List.mem_map_of_mem he)
      simp [mapExpressions, hkind]
  | routine | typeDecl | body => rfl

/-- Nothing changes if every expression stays. -/
theorem Node.mapExpressions_id (family : Family) (node : Node family) :
    Node.mapExpressions id family node = node := by
  cases family with
  | «variable» => simp [mapExpressions]
  | type =>
      obtain ⟨span, kind⟩ := node
      cases kind <;> simp [mapExpressions, TypeKind.mapExpressions]
  | statement =>
      obtain ⟨span, kind⟩ := node
      cases kind <;> simp [mapExpressions, StatementKind.mapExpressions]
  | expression =>
      obtain ⟨span, constant, type, kind⟩ := node
      cases kind <;> simp [mapExpressions, ExpressionKind.mapExpressions]
  | routine | typeDecl | body => rfl

/-! ### Storing in a slot -/

/-- Overwriting one place of a list without repetitions. -/
theorem set_map_eq_map_update {es : List ExpressionId} {index : Nat} (hnodup : es.Nodup)
    (hslot : es[index]? = some e) :
    (es.map f).set index new = es.map (Function.update f e new) := by
  obtain ⟨hlt, rfl⟩ := List.getElem?_eq_some_iff.1 hslot
  refine List.ext_getElem (by simp) fun j hj hj' => ?_
  rw [List.getElem_map, List.getElem_set, List.getElem_map]
  split
  · rename_i heq
    subst heq
    rw [Function.update_self]
  · rename_i hne
    rw [Function.update_of_ne fun heq => hne ((hnodup.getElem_inj_iff).1 heq).symm]

/-- Of two expressions that differ, another one is stored in the place of one. -/
theorem map_update_pair {x y : ExpressionId} {index : Nat} (new : ExpressionId)
    (hnodup : [x, y].Nodup) (hslot : [x, y][index]? = some e) :
    index = 0 ∧ Function.update f e new x = new ∧ Function.update f e new y = f y ∨
      index = 1 ∧ Function.update f e new x = f x ∧ Function.update f e new y = new := by
  have hne : x ≠ y := by simpa using hnodup
  rcases index with _ | _ | index
  · obtain rfl : x = e := by simpa using hslot
    exact Or.inl ⟨rfl, Function.update_self .., Function.update_of_ne hne.symm ..⟩
  · obtain rfl : y = e := by simpa using hslot
    exact Or.inr ⟨rfl, Function.update_of_ne hne .., Function.update_self ..⟩
  · simp at hslot

theorem map_update_single {x : ExpressionId} {index : Nat} (new : ExpressionId)
    (hslot : [x][index]? = some e) :
    index = 0 ∧ Function.update f e new x = new := by
  rcases index with _ | index
  · obtain rfl : x = e := by simpa using hslot
    exact ⟨rfl, Function.update_self ..⟩
  · simp at hslot

/-- Another expression in a slot of a statement. -/
theorem StatementKind.setExpression_mapExpressions {kind : StatementKind} {index : Nat}
    (hnodup : kind.expressions.Nodup) (hslot : kind.expressions[index]? = some e) :
    (kind.mapExpressions f).setExpression index new =
      kind.mapExpressions (Function.update f e new) := by
  cases kind with
  | assignment target value =>
      obtain ⟨rfl, hx, hy⟩ | ⟨rfl, hx, hy⟩ := map_update_pair (f := f) new hnodup hslot <;>
        simp only [mapExpressions, setExpression, hx, hy]
  | forLoop counter first last reverse body =>
      obtain ⟨rfl, hx, hy⟩ | ⟨rfl, hx, hy⟩ := map_update_pair (f := f) new hnodup hslot <;>
        simp only [mapExpressions, setExpression, hx, hy]
  | returning value =>
      cases value with
      | none => simp [expressions] at hslot
      | some e =>
          obtain ⟨rfl, hx⟩ := map_update_single (f := f) new hslot
          simp only [mapExpressions, Option.map_some, setExpression, hx]
  | whileLoop condition body | branch condition thenBody elseBody | call callee =>
      obtain ⟨rfl, hx⟩ := map_update_single (f := f) new hslot
      simp only [mapExpressions, setExpression, hx]

/-- Another expression in a slot of an expression. -/
theorem ExpressionKind.setOperand_mapExpressions {kind : ExpressionKind} {index : Nat}
    (hnodup : kind.operands.Nodup) (hslot : kind.operands[index]? = some e) :
    (kind.mapExpressions f).setOperand index new =
      kind.mapExpressions (Function.update f e new) := by
  cases kind with
  | unary operator operand =>
      obtain ⟨rfl, hx⟩ := map_update_single (f := f) new hslot
      simp only [mapExpressions, setOperand, hx]
  | binary operator left right =>
      obtain ⟨rfl, hx, hy⟩ | ⟨rfl, hx, hy⟩ := map_update_pair (f := f) new hnodup hslot <;>
        simp only [mapExpressions, setOperand, hx, hy]
  | call name target arguments =>
      exact congrArg (ExpressionKind.call name target) (set_map_eq_map_update hnodup hslot)
  | integer | real | boolean | identifier => simp [operands] at hslot

end ProcLang
