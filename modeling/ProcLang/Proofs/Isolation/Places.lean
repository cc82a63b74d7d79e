import ProcLang.Proofs.Account.Programs
import Mathlib.Data.List.Zip

/-!
# ProcLang.Proofs.Isolation.Places

**Trees that differ inside of one body.** Nodes of two trees stand at the same place if the same steps
lead to them from the program; no step leads into the body that is left out (`SamePlace`). Two trees are
the same outside of a body (`SameOutside`) if at each place stand nodes that say the same. When names
have been resolved, their links are to lead to the same places besides (`SameLinked`).

What a node says itself is its `Form`: its names, operators and values, and how many nodes it owns. A
form has neither spans nor ids.
-/

namespace ProcLang

open Arena

/-! ### Forms -/

/-- What a node says itself. -/
inductive Form where
  | program (declarations : Nat)
  | routine (name : String) (parameters : Nat) (returns : Bool)
  | variable (name : String) (typed initialized : Bool)
  | typeDecl (name : String)
  | named (name : String)
  | integerType
  | realType
  | booleanType
  | array (sized : Bool)
  | record (fields : Nat)
  | body (declarations statements : Nat)
  | assignment
  | whileLoop
  | forLoop (reverse : Bool)
  | branch (otherwise : Bool)
  | returning (valued : Bool)
  | callStatement
  | unary (operator : UnaryOperator)
  | binary (operator : BinaryOperator)
  | integer (value : Int)
  | real (value : Binary64)
  | boolean (value : Bool)
  | identifier (name : String)
  | call (name : String) (arguments : Nat)
  deriving DecidableEq, Repr

def TypeKind.form : TypeKind → Form
  | named name _ => .named name
  | integer => .integerType
  | real => .realType
  | boolean => .booleanType
  | array length _ => .array length.isSome
  | record fields => .record fields.length

def StatementKind.form : StatementKind → Form
  | assignment _ _ => .assignment
  | whileLoop _ _ => .whileLoop
  | forLoop _ _ _ reverse _ => .forLoop reverse
  | branch _ _ elseBody => .branch elseBody.isSome
  | returning value => .returning value.isSome
  | call _ => .callStatement

def ExpressionKind.form : ExpressionKind → Form
  | unary operator _ => .unary operator
  | binary operator _ _ => .binary operator
  | integer value => .integer value
  | real value => .real value
  | boolean value => .boolean value
  | identifier name _ => .identifier name
  | call name _ arguments => .call name arguments.length

def Node.form : (family : Family) → Node family → Form
  | .routine, node => .routine node.name node.parameters.length node.returnType.isSome
  | .variable, node => .variable node.name node.declaredType.isSome node.initializer.isSome
  | .typeDecl, node => .typeDecl node.name
  | .type, node => node.kind.form
  | .body, node => .body node.declarations.length node.statements.length
  | .statement, node => node.kind.form
  | .expression, node => node.kind.form

namespace Arena

/-- The form of the node of a visit; nothing if there is no node. -/
def form (a : Arena) : Visit → List Form
  | .program => [.program a.program.declarations.length]
  | v => a.ofNode (fun family node => [Node.form family node]) v

/-- The nodes that the node of a visit is linked to. -/
def links (a : Arena) (v : Visit) : List Visit := a.ofNode Node.links v

theorem form_of_get? {a : Arena} {family : Family} {id : NodeId family} {node : Node family}
    (h : a.get? id = some node) : a.form (Visit.of id) = [Node.form family node] := by
  rw [← ofNode_of_get? h fun family node => [Node.form family node]]
  cases family <;> rfl

theorem links_of_get? {a : Arena} {family : Family} {id : NodeId family} {node : Node family}
    (h : a.get? id = some node) : a.links (Visit.of id) = Node.links family node :=
  ofNode_of_get? h Node.links

/-! ### Places -/

/-- The same steps lead from the programs of two arenas to the two nodes; none of them leads into the
body `x` of the first one, or into the body `y` of the second one. -/
inductive SamePlace (a b : Arena) (x y : BodyId) : Visit → Visit → Prop
  | program : SamePlace a b x y .program .program
  | child {v w v' w' : Visit} (h : SamePlace a b x y v w) (hv : v ≠ .body x) (hw : w ≠ .body y)
      (hchild : (v', w') ∈ (a.children v).zip (b.children w)) : SamePlace a b x y v' w'

/-- The trees of two arenas are the same outside of the contents of a body at one place, `x` in the
one and `y` in the other. -/
structure SameOutside (a b : Arena) (x y : BodyId) : Prop where
  place : SamePlace a b x y (.body x) (.body y)
  form : ∀ v w, SamePlace a b x y v w → v ≠ .body x → a.form v = b.form w

/-- What two links lead to is the same: nodes at the same place, or one of the shared types. -/
inductive SameLink (a b : Arena) (x y : BodyId) : Visit → Visit → Prop
  | place {v w : Visit} (h : SamePlace a b x y v w) : SameLink a b x y v w
  | shared {t : TypeId} (h : empty.Has (.type t)) : SameLink a b x y (.type t) (.type t)

/-- The trees are the same outside, and so are the links of what is outside. -/
structure SameLinked (a b : Arena) (x y : BodyId) : Prop extends SameOutside a b x y where
  links : ∀ v w, SamePlace a b x y v w → v ≠ .body x →
    List.Forall₂ (SameLink a b x y) (a.links v) (b.links w)

end Arena

/-! ### What a form says -/

/-- The family of the nodes of a form. -/
def Form.family : Form → Option Family
  | program _ => none
  | routine _ _ _ => some .routine
  | «variable» _ _ _ => some .variable
  | typeDecl _ => some .typeDecl
  | named _ | integerType | realType | booleanType | array _ | record _ => some .type
  | body _ _ => some .body
  | assignment | whileLoop | forLoop _ | branch _ | returning _ | callStatement => some .statement
  | unary _ | binary _ | integer _ | real _ | boolean _ | identifier _ | call _ _ => some .expression

theorem Node.family_form (family : Family) (node : Node family) :
    (Node.form family node).family = some family := by
  cases family with
  | type =>
      rw [Node.form]
      cases node.kind <;> rfl
  | statement =>
      rw [Node.form]
      cases node.kind <;> rfl
  | expression =>
      rw [Node.form]
      cases node.kind <;> rfl
  | routine | «variable» | typeDecl | body => rfl

/-- Nodes of one form are of one family. -/
theorem Node.family_eq {family family' : Family} {node : Node family} {node' : Node family'}
    (h : Node.form family node = Node.form family' node') : family = family' := by
  have hfamily := congrArg Form.family h
  rw [Node.family_form, Node.family_form] at hfamily
  exact Option.some.inj hfamily

section

variable {kind : ExpressionKind} {name : String}

theorem ExpressionKind.exists_identifier (h : kind.form = .identifier name) :
    ∃ target, kind = .identifier name target := by
  cases kind with
  | identifier other target =>
      obtain rfl := Form.identifier.inj h
      exact ⟨target, rfl⟩
  | unary | binary | integer | real | boolean | call => nomatch h

theorem ExpressionKind.exists_call {count : Nat} (h : kind.form = .call name count) :
    ∃ target arguments, kind = .call name target arguments := by
  cases kind with
  | call other target arguments =>
      obtain ⟨rfl, -⟩ := Form.call.inj h
      exact ⟨target, arguments, rfl⟩
  | unary | binary | integer | real | boolean | identifier => nomatch h

theorem ExpressionKind.exists_binary {operator : BinaryOperator} (h : kind.form = .binary operator) :
    ∃ left right, kind = .binary operator left right := by
  cases kind with
  | binary other left right =>
      obtain rfl := Form.binary.inj h
      exact ⟨left, right, rfl⟩
  | unary | call | integer | real | boolean | identifier => nomatch h

end

section

variable {kind : TypeKind}

theorem TypeKind.exists_named {name : String} (h : kind.form = .named name) :
    ∃ target, kind = .named name target := by
  cases kind with
  | named other target =>
      obtain rfl := Form.named.inj h
      exact ⟨target, rfl⟩
  | integer | real | boolean | array | record => nomatch h

theorem TypeKind.exists_array {sized : Bool} (h : kind.form = .array sized) :
    ∃ length element, kind = .array length element ∧ length.isSome = sized := by
  cases kind with
  | array length element => exact ⟨length, element, rfl, Form.array.inj h⟩
  | integer | real | boolean | named | record => nomatch h

theorem TypeKind.exists_record {count : Nat} (h : kind.form = .record count) :
    ∃ fields, kind = .record fields := by
  cases kind with
  | record fields => exact ⟨fields, rfl⟩
  | integer | real | boolean | named | array => nomatch h

end

theorem StatementKind.exists_call {kind : StatementKind} (h : kind.form = .callStatement) :
    ∃ callee, kind = .call callee := by
  cases kind with
  | call callee => exact ⟨callee, rfl⟩
  | assignment | whileLoop | forLoop | branch | returning => nomatch h

theorem length_toList {α β : Type} {x : Option α} {y : Option β} (h : x.isSome = y.isSome) :
    x.toList.length = y.toList.length := by
  cases x <;> cases y <;> simp_all

/-- Nodes of one form own as many nodes. -/
theorem Node.length_children {family : Family} {node node' : Node family}
    (h : Node.form family node = Node.form family node') :
    (Node.children family node).length = (Node.children family node').length := by
  cases family with
  | routine =>
      obtain ⟨-, hparameters, hreturns⟩ := Form.routine.inj h
      simp [Node.children, hparameters, length_toList hreturns]
  | «variable» =>
      obtain ⟨-, htyped, hinitialized⟩ := Form.variable.inj h
      simp [Node.children, length_toList htyped, length_toList hinitialized]
  | typeDecl => rfl
  | type =>
      rw [Node.form, Node.form] at h
      rw [Node.children, Node.children]
      cases hkind : node.kind <;> cases hkind' : node'.kind <;> rw [hkind, hkind'] at h <;>
        simp_all [TypeKind.form]
      -- the lengths of two arrays remain
      exact length_toList h
  | body =>
      obtain ⟨hdeclarations, hstatements⟩ := Form.body.inj h
      simp [Node.children, hdeclarations, hstatements]
  | statement =>
      rw [Node.form, Node.form] at h
      rw [Node.children, Node.children]
      cases hkind : node.kind <;> cases hkind' : node'.kind <;> rw [hkind, hkind'] at h <;>
        simp_all [StatementKind.form, StatementKind.expressions, StatementKind.counter?,
          StatementKind.bodies] <;> exact length_toList h
  | expression =>
      rw [Node.form, Node.form] at h
      rw [Node.children, Node.children]
      cases hkind : node.kind <;> cases hkind' : node'.kind <;> rw [hkind, hkind'] at h <;>
        simp_all [ExpressionKind.form, ExpressionKind.operands]

/-! ### Nodes at the same place -/

section

variable {a b : Arena} {x y : BodyId} {nodes nodes' : List Visit} {v w : Visit}

/-- What stands at a place is the program or a node of the tree. -/
theorem Arena.SamePlace.mem (htree : a.IsTree nodes) (h : SamePlace a b x y v w) :
    v = .program ∨ v ∈ nodes := by
  induction h with
  | program => exact Or.inl rfl
  | child _ _ _ hchild ih =>
      have hmem := (List.of_mem_zip hchild).1
      rcases ih with rfl | ih
      · exact Or.inr (htree.spans.mem_of_root hmem)
      · exact Or.inr (htree.spans.child_mem ih hmem)

theorem mem_zip_swap {α β : Type} {xs : List α} {ys : List β} {p : α} {q : β}
    (h : (p, q) ∈ xs.zip ys) : (q, p) ∈ ys.zip xs := by
  rw [← List.zip_swap]
  exact List.mem_map_of_mem (f := Prod.swap) h

/-- The same place, seen from the other side. -/
theorem Arena.SamePlace.symm (h : SamePlace a b x y v w) : SamePlace b a y x w v := by
  induction h with
  | program => exact .program
  | child _ hv hw hchild ih => exact .child ih hw hv (mem_zip_swap hchild)

/-- **Sameness** goes both ways. -/
theorem Arena.SameOutside.symm (h : SameOutside a b x y) (hhole : ∀ v w, SamePlace a b x y v w →
    (v = .body x ↔ w = .body y)) : SameOutside b a y x where
  place := h.place.symm
  form w v hplace hw :=
    (h.form v w hplace.symm fun hv => hw ((hhole v w hplace.symm).1 hv)).symm

/-- The form of a node that is there is not empty. -/
theorem Arena.exists_of_form {f : Form} (h : b.form w = [f]) :
    w = .program ∨ ∃ (family : Family) (id : NodeId family) (node : Node family),
      w = Visit.of id ∧ b.get? id = some node ∧ f = Node.form family node := by
  have hnode : ∀ {family : Family} (id : NodeId family), w = Visit.of id → ∃ node,
      b.get? id = some node ∧ f = Node.form family node := by
    rintro family id rfl
    cases hget : b.get? id with
    | some node =>
        rw [form_of_get? hget] at h
        exact ⟨node, rfl, (List.singleton_inj.1 h).symm⟩
    | none => cases family <;> simp [form, ofNode, Visit.of, hget] at h
  have hof : w = .program ∨ (∃ d, w = .declaration d) ∨ ∃ (family : Family) (id : NodeId family),
      w = Visit.of id := by
    cases w with
    | program => exact Or.inl rfl
    | declaration d => exact Or.inr (Or.inl ⟨d, rfl⟩)
    | routine id => exact Or.inr (Or.inr ⟨.routine, id, rfl⟩)
    | «variable» id => exact Or.inr (Or.inr ⟨.variable, id, rfl⟩)
    | typeDecl id => exact Or.inr (Or.inr ⟨.typeDecl, id, rfl⟩)
    | type id => exact Or.inr (Or.inr ⟨.type, id, rfl⟩)
    | body id => exact Or.inr (Or.inr ⟨.body, id, rfl⟩)
    | statement id => exact Or.inr (Or.inr ⟨.statement, id, rfl⟩)
    | expression id => exact Or.inr (Or.inr ⟨.expression, id, rfl⟩)
  rcases hof with rfl | ⟨d, rfl⟩ | ⟨family, id, rfl⟩
  · exact Or.inl rfl
  · cases h
  · obtain ⟨node, hget, hform⟩ := hnode id rfl
    exact Or.inr ⟨family, id, node, rfl, hget, hform⟩

namespace Arena.SameOutside

variable (hsame : SameOutside a b x y)

include hsame

/-- At the place of a node stands one of its form. -/
theorem exists_node {family : Family} {id : NodeId family} {node : Node family}
    (hget : a.get? id = some node) (h : SamePlace a b x y (Visit.of id) w)
    (hid : Visit.of id ≠ .body x) : ∃ (id' : NodeId family) (node' : Node family),
      w = Visit.of id' ∧ b.get? id' = some node' ∧
        Node.form family node = Node.form family node' := by
  have hform := hsame.form _ _ h hid
  rw [form_of_get? hget] at hform
  rcases exists_of_form hform.symm with rfl | ⟨family', id', node', rfl, hget', heq⟩
  · have hfamily := congrArg Form.family (List.singleton_inj.1 hform)
    rw [Node.family_form] at hfamily
    nomatch hfamily
  · obtain rfl := Node.family_eq heq
    exact ⟨id', node', rfl, hget', heq⟩

theorem program_eq (h : SamePlace a b x y .program w) : w = .program := by
  have hform := hsame.form _ _ h nofun
  rcases exists_of_form hform.symm with rfl | ⟨family', id', node', rfl, hget', heq⟩
  · rfl
  · have hfamily := congrArg Form.family heq
    rw [Node.family_form] at hfamily
    nomatch hfamily

/-- The nodes below two nodes at the same place are at the same places. -/
theorem children (htree : a.IsTree nodes) (h : SamePlace a b x y v w) (hv : v ≠ .body x)
    (hw : w ≠ .body y) :
    List.Forall₂ (SamePlace a b x y) (a.children v) (b.children w) := by
  refine List.forall₂_iff_zip.2 ⟨?_, fun hchild => .child h hv hw hchild⟩
  rcases h.mem htree with rfl | hmem
  · obtain rfl := hsame.program_eq h
    have hform := hsame.form _ _ h hv
    simpa [Arena.children] using Form.program.inj (List.singleton_inj.1 hform)
  · obtain ⟨family, id, rfl⟩ := (htree.spans.has_of_mem hmem).exists_of
    obtain ⟨node, hget⟩ := (htree.spans.has_of_mem hmem).exists_get?
    obtain ⟨id', node', rfl, hget', hform⟩ := hsame.exists_node hget h hv
    rw [children_of_get? hget, children_of_get? hget', Node.length_children hform]

end Arena.SameOutside

/-! ### One node at each place -/

section

variable (htree : a.IsTree nodes)

include htree

/-- What is below the program or a node belongs to the tree. -/
theorem Arena.IsTree.mem_of_place (hv : v = .program ∨ v ∈ nodes) (hw : w ∈ a.children v) :
    w ∈ nodes := by
  rcases hv with rfl | hv
  · exact htree.spans.mem_of_root hw
  · exact htree.spans.child_mem hv hw

theorem Arena.IsTree.parent_eq {child : Visit} (hv : v = .program ∨ v ∈ nodes)
    (hw : w = .program ∨ w ∈ nodes) (hchild : child ∈ a.children v) (hchild' : child ∈ a.children w) :
    v = w :=
  htree.isForest.parent_eq hv hw hchild hchild'

theorem Arena.IsTree.place_nodup (hv : v = .program ∨ v ∈ nodes) : (a.children v).Nodup := by
  rcases hv with rfl | hv
  · exact htree.spans.roots_nodup htree.nodup
  · exact htree.spans.children_nodup htree.nodup hv

omit htree in
theorem eq_of_mem_zip {α β : Type} {xs : List α} {ys : List β} (hnodup : xs.Nodup) {p : α} {q r : β}
    (hq : (p, q) ∈ xs.zip ys) (hr : (p, r) ∈ xs.zip ys) : q = r := by
  induction xs generalizing ys with
  | nil => nomatch hq
  | cons x xs ih =>
      cases ys with
      | nil => nomatch hq
      | cons y ys =>
          obtain ⟨hx, hxs⟩ := List.nodup_cons.1 hnodup
          rw [List.zip_cons_cons, List.mem_cons, Prod.mk.injEq] at hq hr
          rcases hq with ⟨rfl, rfl⟩ | hq
          · rcases hr with ⟨-, rfl⟩ | hr
            · rfl
            · exact absurd (List.of_mem_zip hr).1 hx
          · rcases hr with ⟨rfl, -⟩ | hr
            · exact absurd (List.of_mem_zip hq).1 hx
            · exact ih hxs hq hr

/-- **At the place of a node stands one node.** -/
theorem Arena.SamePlace.unique {w' : Visit} (h : SamePlace a b x y v w) (h' : SamePlace a b x y v w') :
    w = w' := by
  induction h generalizing w' with
  | program =>
      cases h' with
      | program => rfl
      | child h _ _ hchild =>
          exact absurd (htree.mem_of_place (h.mem htree) (List.of_mem_zip hchild).1)
            htree.spans.program_not_mem
  | child h _ _ hchild ih =>
      have hbelow := (List.of_mem_zip hchild).1
      cases h' with
      | program => exact absurd (htree.mem_of_place (h.mem htree) hbelow) htree.spans.program_not_mem
      | child h₂ _ _ hchild₂ =>
          obtain rfl := htree.parent_eq (h.mem htree) (h₂.mem htree) hbelow (List.of_mem_zip hchild₂).1
          obtain rfl := ih h₂
          exact eq_of_mem_zip (htree.place_nodup (h.mem htree)) hchild hchild₂

end

end

end ProcLang
