import ProcLang.Check.Names
import ProcLang.Proofs.Tree.Forest
import Mathlib.Data.List.Forall2
import Mathlib.Logic.Relation

/-!
# ProcLang.Proofs.Names.Site

**Lexical scoping, said without a walk.** A `Site` is a node of a tree together with the lists of
declarations of the scopes around it, the innermost first. `a.inside site` are the sites right below
one: it says where a scope begins, and which parts of a construct lie inside of it. What a name
stands for is a matter of the site alone (`innermost`).

`NamesResolved` is what name resolution is meant to do at a site: what stands in a slot where an
identifier stood, what a call and a named type are linked to, and what is reported of them. `Checked`
is what it finds out about a site besides.
-/

namespace ProcLang

/-- The variable that an entry declares, if it declares one. -/
def Declaration.variable? : Declaration → Option VariableId
  | .variable id => some id
  | _ => none

/-- The routine that an entry declares, if it declares one. -/
def Declaration.routine? : Declaration → Option RoutineId
  | .routine id => some id
  | _ => none

/-! ### Slots -/

/-- The expressions that a node owns and that are looked up where the node stands. The name behind
the point of a member access is not. -/
def Node.slots : (family : Family) → Node family → List ExpressionId
  | .variable, node => node.initializer.toList
  | .type, node =>
      match node.kind with
      | .array length _ => length.toList
      | _ => []
  | .statement, node => node.kind.expressions
  | .expression, node =>
      match node.kind with
      | .binary .member left _ => [left]
      | kind => kind.operands
  | .routine, _ | .typeDecl, _ | .body, _ => []

namespace Arena

/-- What a function of nodes gives for the node of a visit; nothing if there is no node. -/
def ofNode {α : Type} (a : Arena) (f : (family : Family) → Node family → List α) : Visit → List α
  | .program | .declaration _ => []
  | .routine id => (a.get? id).elim [] (f .routine)
  | .variable id => (a.get? id).elim [] (f .variable)
  | .typeDecl id => (a.get? id).elim [] (f .typeDecl)
  | .type id => (a.get? id).elim [] (f .type)
  | .body id => (a.get? id).elim [] (f .body)
  | .statement id => (a.get? id).elim [] (f .statement)
  | .expression id => (a.get? id).elim [] (f .expression)

theorem ofNode_of_get? {α : Type} {a : Arena} {family : Family} {id : NodeId family}
    {node : Node family} (h : a.get? id = some node)
    (f : (family : Family) → Node family → List α) : a.ofNode f (Visit.of id) = f family node := by
  cases family <;> simp [ofNode, Visit.of, h]

/-- The slots of the node of a visit. -/
def slots (a : Arena) (v : Visit) : List ExpressionId := a.ofNode Node.slots v

end Arena

/-! ### Sites -/

/-- A node, and the declarations of the scopes around it, the innermost first. The own scope of a
body is the innermost one of its site. -/
structure Site where
  scopes : List (List Declaration)
  visit : Visit
  deriving DecidableEq, Repr

namespace Arena

/-- The site of a body in given scopes. What its owner declares for it belongs to its own scope. -/
def bodySite (a : Arena) (seeds : List VariableId) (scopes : List (List Declaration)) (id : BodyId) :
    Site :=
  ⟨(seeds.map Declaration.variable ++ (a.get? id).elim [] Body.declarations) :: scopes, .body id⟩

/-- The sites right below a node in given scopes. A parameter is declared in the scope of the body,
but its type lies outside, and so does the type of the result. The counter of a loop has nothing
below it that has a name. -/
def insideNode (a : Arena) (scopes : List (List Declaration)) :
    (family : Family) → Node family → List Site
  | .routine, node =>
      (node.parameters.map Visit.variable ++ node.returnType.toList.map Visit.type).map
          (Site.mk scopes) ++
        [a.bodySite node.parameters scopes node.body]
  | .statement, node =>
      (node.kind.expressions.map Visit.expression).map (Site.mk scopes) ++
        node.kind.bodies.map (a.bodySite node.kind.counter?.toList scopes)
  | .expression, node => ((Node.slots .expression node).map Visit.expression).map (Site.mk scopes)
  | family, node => (Node.children family node).map (Site.mk scopes)

/-- The sites right below a site. -/
def inside (a : Arena) (site : Site) : List Site :=
  match site.visit with
  | .program => (a.program.declarations.map Declaration.visit).map (Site.mk site.scopes)
  | v => a.ofNode (a.insideNode site.scopes) v

/-- The sites at and below a site. -/
inductive Below (a : Arena) : Site → Site → Prop
  | here (site : Site) : Below a site site
  | inside {site child inner : Site} (hchild : child ∈ a.inside site) (h : Below a child inner) :
      Below a site inner

/-- The site of the program: its declarations are one scope, and there is none around it. -/
def top (a : Arena) : Site := ⟨[a.program.declarations], .program⟩

/-! ### Names -/

/-- The name that an entry declares. -/
def nameOf (a : Arena) (d : Declaration) : Option String :=
  match a.declarationName d with
  | .ok (name, _) => some name
  | .error _ => none

/-- No scope declares a name twice. -/
def DistinctNames (a : Arena) : Prop :=
  ∀ site, a.Below a.top site → ∀ scope ∈ site.scopes, (scope.map a.nameOf).Nodup

/-- The declaration of a name, of the sort that `select` picks, in the innermost scope that has
one. -/
def innermost {α : Type} (a : Arena) (select : Declaration → Option α) (name : String)
    (scopes : List (List Declaration)) : Option α :=
  scopes.findSome? fun scope => scope.findSome? fun d =>
    if a.nameOf d = some name then select d else none

/-- The routine of a name. Routines are declared by the program only. -/
def routineNamed (a : Arena) (name : String) : Option RoutineId :=
  a.innermost Declaration.routine? name [a.program.declarations]

end Arena

/-! ### What name resolution is meant to do -/

/-- A name that nothing has. -/
def Cause.isUndeclared : Cause → Bool
  | undeclaredName _ | undeclaredType _ | undeclaredRoutine _ => true
  | _ => false

/-- The reports of undeclared names at a place. -/
def undeclaredAt (ds : List Diagnostic) (p : Position) : List Diagnostic :=
  ds.filter fun d => d.position = p && d.cause.isUndeclared

section

variable (a b : Arena) (ds : List Diagnostic) (scopes : List (List Declaration))

/-- What stands, in the tree `b` after name resolution, in a slot where `e` stood in `a`. -/
inductive StandsFor (e : ExpressionId) : ExpressionId → Prop
  /-- The identifier is linked to the variable of its name. -/
  | linked {node linked : Expression} {name : String} {target : Option VariableId}
      {x : VariableId} (hnode : a.get? e = some node) (hkind : node.kind = .identifier name target)
      (hname : a.innermost Declaration.variable? name scopes = some x)
      (hlinked : b.get? e = some linked) (hlink : linked.kind = .identifier name (some x))
      (hspan : linked.span = node.span) (hsilent : undeclaredAt ds node.span.start = []) :
      StandsFor e e
  /-- There is no variable of its name, but a routine: a call has taken its place. -/
  | called {node : Expression} {name : String} {target : Option VariableId} {r : RoutineId}
      {call : ExpressionId} (hnode : a.get? e = some node)
      (hkind : node.kind = .identifier name target)
      (hvariable : a.innermost Declaration.variable? name scopes = none)
      (hname : a.routineNamed name = some r) (hfresh : a.count .expression ≤ call.index)
      (hcall : b.get? call = some (.plain (.call name (some r) []) node.span))
      (hsilent : undeclaredAt ds node.span.start = []) : StandsFor e call
  /-- There is neither: the identifier stays, and is reported once. -/
  | undeclared {node : Expression} {name : String} {target : Option VariableId}
      (hnode : a.get? e = some node) (hkind : node.kind = .identifier name target)
      (hvariable : a.innermost Declaration.variable? name scopes = none)
      (hroutine : a.routineNamed name = none) (hkept : b.get? e = some node)
      (hreport : undeclaredAt ds node.span.start = [⟨.undeclaredName name, node.span.start⟩]) :
      StandsFor e e
  /-- Every other expression stays where it is. -/
  | other {node : Expression} (hnode : a.get? e = some node)
      (hkind : ∀ name target, node.kind ≠ .identifier name target) : StandsFor e e

/-- What becomes of a call. -/
inductive CallLinked (node linked : Expression) (name : String) : Prop
  | linked {r : RoutineId} {arguments : List ExpressionId} (hname : a.routineNamed name = some r)
      (hlink : linked.kind = .call name (some r) arguments)
      (hsilent : undeclaredAt ds node.span.start = [])
  | undeclared {target : Option RoutineId} {arguments : List ExpressionId}
      (hname : a.routineNamed name = none) (hlink : linked.kind = .call name target arguments)
      (hreport : undeclaredAt ds node.span.start = [⟨.undeclaredRoutine name, node.span.start⟩])

/-- What becomes of a named type. -/
inductive TypeLinked (node linked : TypeNode) (name : String) : Prop
  | linked {t : TypeDeclId} (hname : a.innermost Declaration.type? name scopes = some t)
      (hlink : linked = { node with kind := .named name (some t) })
      (hsilent : undeclaredAt ds node.span.start = [])
  | undeclared (hname : a.innermost Declaration.type? name scopes = none) (hlink : linked = node)
      (hreport : undeclaredAt ds node.span.start = [⟨.undeclaredType name, node.span.start⟩])

end

/-- The names right at a site of the tree `a` are resolved in the tree `b`. -/
structure NamesResolved (a b : Arena) (ds : List Diagnostic) (site : Site) : Prop where
  slots : List.Forall₂ (StandsFor a b ds site.scopes) (a.slots site.visit) (b.slots site.visit)
  call : ∀ (id : ExpressionId) node name target arguments, site.visit = .expression id →
    a.get? id = some node → node.kind = .call name target arguments →
    ∃ linked, b.get? id = some linked ∧ CallLinked a ds node linked name
  type : ∀ (id : TypeId) node name target, site.visit = .type id → a.get? id = some node →
    node.kind = .named name target →
    ∃ linked, b.get? id = some linked ∧ TypeLinked a ds site.scopes node linked name

/-! ### What is checked besides -/

namespace Arena

/-- A type names a declaration, by itself or through layers of arrays, as the scopes around it
say. -/
inductive Names (a : Arena) (scopes : List (List Declaration)) : TypeId → TypeDeclId → Prop
  | named {id : TypeId} {node : TypeNode} {name : String} {target : Option TypeDeclId}
      {t : TypeDeclId} (hget : a.get? id = some node) (hkind : node.kind = .named name target)
      (hname : a.innermost Declaration.type? name scopes = some t) : Names a scopes id t
  | element {id : TypeId} {node : TypeNode} {length : Option ExpressionId} {element : TypeId}
      {t : TypeDeclId} (hget : a.get? id = some node) (hkind : node.kind = .array length element)
      (h : Names a scopes element t) : Names a scopes id t

/-- A type declaration leads to a declaration of the innermost scope. -/
def LeadsInside (a : Arena) (scopes : List (List Declaration)) (d e : TypeDeclId) : Prop :=
  .type e ∈ scopes.headD [] ∧ ∃ node, a.get? d = some node ∧ a.Names scopes node.type e

/-- No type declaration of the innermost scope leads back to itself. -/
def CircleFree (a : Arena) (scopes : List (List Declaration)) : Prop :=
  ∀ d, .type d ∈ scopes.headD [] → ¬ Relation.TransGen (a.LeadsInside scopes) d d

/-- What is checked at a site: the types that a scope declares are finite, and what is behind the
point of a member access is a name. -/
def Checked (a : Arena) (site : Site) : Prop :=
  match site.visit with
  | .program | .body _ => a.CircleFree site.scopes
  | .expression id => ∀ node left field, a.get? id = some node →
      node.kind = .binary .member left field →
      ∃ e name target, a.get? field = some e ∧ e.kind = .identifier name target
  | _ => True

end Arena

end ProcLang
