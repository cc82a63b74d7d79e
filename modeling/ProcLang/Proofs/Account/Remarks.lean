import ProcLang.Proofs.Names.Lexical

/-!
# ProcLang.Proofs.Account.Remarks

**What name resolution reports, said without a walk.** A `Remark` is a node and what is wrong with it.
`Account a sites remarks` lists all that there is to say at and below some sites, in the order in which
name resolution reports it: a rule for a scope that declares a name twice, one for a scope that does
not, and one for all other nodes. What is said of a node depends on the node and on the scopes around
it alone.

Of each circle of type declarations the first member is reported (`CircleHeads`).
-/

namespace ProcLang

/-! ### Remarks -/

/-- A node, and what is wrong with it. -/
structure Remark where
  visit : Visit
  cause : Cause

/-- The text of a node. -/
def Node.span : (family : Family) → Node family → Span
  | .routine, node => Routine.span node
  | .variable, node => Variable.span node
  | .typeDecl, node => TypeDecl.span node
  | .type, node => TypeNode.span node
  | .body, node => Body.span node
  | .statement, node => Statement.span node
  | .expression, node => Expression.span node

/-- A remark is reported where its node begins. -/
inductive Arena.Reports (a : Arena) : Remark → Diagnostic → Prop
  | intro {family : Family} {id : NodeId family} {node : Node family} (hget : a.get? id = some node)
      (cause : Cause) : Reports a ⟨Visit.of id, cause⟩ ⟨cause, (Node.span family node).start⟩

/-- What a report says of a node. -/
theorem Arena.Reports.exists_node {a : Arena} {family : Family} {id : NodeId family} {cause : Cause}
    {d : Diagnostic} (h : a.Reports ⟨Visit.of id, cause⟩ d) :
    ∃ node, a.get? id = some node ∧ d = ⟨cause, (Node.span family node).start⟩ := by
  generalize hvisit : Visit.of id = v at h
  cases h with
  | @intro family' id' node hget =>
      obtain rfl : family = family' := Visit.family_eq_of_eq hvisit
      obtain rfl := Visit.of_injective hvisit
      exact ⟨node, hget, rfl⟩

/-! ### Scopes -/

/-- The declarations whose names are checked at a site: those of the program or of a body. -/
def Site.opened (site : Site) : Option (List Declaration) :=
  match site.visit with
  | .program | .body _ => some (site.scopes.headD [])
  | _ => none

/-- The site is that of a type declaration. -/
def Site.declaresType (site : Site) : Bool :=
  match site.visit with
  | .typeDecl _ => true
  | _ => false

/-- The entries of a scope whose names were declared before, given the names in front of them with
the lines of their first declarations. -/
def repeatedAfter : List (String × Nat) → List ScopeEntry → List Remark
  | _, [] => []
  | seen, entry :: rest =>
      match seen.lookup entry.name with
      | some line =>
          ⟨entry.declaration.visit, .redeclaration entry.name line⟩ :: repeatedAfter seen rest
      | none => repeatedAfter ((entry.name, entry.start.line) :: seen) rest

/-- The declarations of a scope whose names were declared before. -/
def Arena.repeated (a : Arena) (scope : List Declaration) : List Remark :=
  repeatedAfter [] (a.entries scope)

/-! ### Circles -/

/-- Of each circle the first member in a list, given what is in front of the list. -/
inductive CircleHeads {α : Type} (leads : α → α → Prop) : List α → List α → List α → Prop
  | nil {seen : List α} : CircleHeads leads seen [] []
  | head {seen rest heads : List α} {x : α} (hcircle : Relation.TransGen leads x x)
      (hnew : ∀ y ∈ seen, ¬ Relation.TransGen leads x y)
      (hrest : CircleHeads leads (x :: seen) rest heads) :
      CircleHeads leads seen (x :: rest) (x :: heads)
  | pass {seen rest heads : List α} {x : α}
      (hpass : Relation.TransGen leads x x → ∃ y ∈ seen, Relation.TransGen leads x y)
      (hrest : CircleHeads leads (x :: seen) rest heads) : CircleHeads leads seen (x :: rest) heads

/-- The first members of the circles are determined by the list. -/
theorem CircleHeads.unique {α : Type} {leads : α → α → Prop} {seen xs heads heads' : List α}
    (h : CircleHeads leads seen xs heads) (h' : CircleHeads leads seen xs heads') : heads = heads' := by
  induction h generalizing heads' with
  | nil =>
      cases h'
      rfl
  | head hcircle hnew _ ih =>
      cases h' with
      | head _ _ hrest' => rw [ih hrest']
      | pass hpass' _ =>
          obtain ⟨y, hy, hxy⟩ := hpass' hcircle
          exact absurd hxy (hnew y hy)
  | pass hpass _ ih =>
      cases h' with
      | head hcircle' hnew' _ =>
          obtain ⟨y, hy, hxy⟩ := hpass hcircle'
          exact absurd hxy (hnew' y hy)
      | pass _ hrest' => exact ih hrest'

namespace Arena

/-- A type declaration is defined by itself. -/
def cyclic (a : Arena) (d : TypeDeclId) : Remark :=
  ⟨.typeDecl d, .cyclicType ((a.get? d).elim "" TypeDecl.name)⟩

/-! ### Single nodes -/

/-- The expression is a name. -/
def isName (a : Arena) (e : ExpressionId) : Bool :=
  match (a.get? e).map Expression.kind with
  | some (.identifier _ _) => true
  | _ => false

/-- The expression is the name of a variable of the scopes. -/
def isVariable (a : Arena) (scopes : List (List Declaration)) (e : ExpressionId) : Bool :=
  match (a.get? e).map Expression.kind with
  | some (.identifier name _) => (a.innermost Declaration.variable? name scopes).isSome
  | _ => false

/-- What is said of a node in front of what is inside. -/
def aheadNode (a : Arena) (site : Site) : (family : Family) → Node family → List Remark
  | .type, node =>
      match node.kind with
      | .named name _ =>
          match a.innermost Declaration.type? name site.scopes with
          | some _ => []
          | none => [⟨site.visit, .undeclaredType name⟩]
      | .record fields => a.repeated (fields.map Declaration.variable)
      | _ => []
  | .expression, node =>
      match node.kind with
      | .identifier name _ =>
          match a.innermost Declaration.variable? name site.scopes, a.routineNamed name with
          | none, none => [⟨site.visit, .undeclaredName name⟩]
          | _, _ => []
      | _ => []
  | _, _ => []

/-- What is said of a node behind what is inside. -/
def behindNode (a : Arena) (site : Site) : (family : Family) → Node family → List Remark
  | .statement, node =>
      match node.kind with
      | .call callee =>
          if a.isVariable site.scopes callee then [⟨site.visit, .invalidStatement⟩] else []
      | _ => []
  | .expression, node =>
      match node.kind with
      | .call name _ _ =>
          match a.routineNamed name with
          | some _ => []
          | none => [⟨site.visit, .undeclaredRoutine name⟩]
      | .binary .member _ field =>
          if a.isName field then [] else [⟨.expression field, .memberNotIdentifier⟩]
      | _ => []
  | _, _ => []

/-- What is said of the node of a site in front of what is inside. -/
def ahead (a : Arena) (site : Site) : List Remark := a.ofNode (a.aheadNode site) site.visit

/-- What is said of the node of a site behind what is inside. -/
def behind (a : Arena) (site : Site) : List Remark := a.ofNode (a.behindNode site) site.visit

/-! ### Accounts -/

/-- All that there is to say at and below some sites, in the order in which it is said. -/
inductive Account (a : Arena) : List Site → List Remark → Prop
  | nil : Account a [] []
  /-- Something else than a scope. -/
  | node {site : Site} {beside : List Site} {inner more : List Remark} (hopened : site.opened = none)
      (hinside : Account a (a.inside site) inner) (hbeside : Account a beside more) :
      Account a (site :: beside) (a.ahead site ++ inner ++ a.behind site ++ more)
  /-- A scope that declares no name twice: its types come first, and then the circles among them. -/
  | scope {site : Site} {beside : List Site} {declared : List Declaration} {heads : List TypeDeclId}
      {types others more : List Remark} (hopened : site.opened = some declared)
      (hdistinct : a.repeated declared = [])
      (htypes : Account a ((a.inside site).filter Site.declaresType) types)
      (hheads : CircleHeads (a.LeadsInside site.scopes) [] (declared.filterMap Declaration.type?) heads)
      (hothers : Account a ((a.inside site).filter fun child => !child.declaresType) others)
      (hbeside : Account a beside more) :
      Account a (site :: beside) (types ++ heads.map a.cyclic ++ others ++ more)
  /-- A scope that declares a name twice: nothing else is said. -/
  | repeated {site : Site} {beside : List Site} {declared : List Declaration} {more : List Remark}
      (hopened : site.opened = some declared) (hrepeated : a.repeated declared ≠ [])
      (hbeside : Account a beside more) : Account a (site :: beside) (a.repeated declared ++ more)

namespace Account

variable {a : Arena} {sites others : List Site} {remarks more : List Remark}

theorem append (h : a.Account sites remarks) (h' : a.Account others more) :
    a.Account (sites ++ others) (remarks ++ more) := by
  induction h with
  | nil => exact h'
  | node hopened hinside _ _ ih =>
      rw [List.append_assoc]
      exact .node hopened hinside ih
  | scope hopened hdistinct htypes hheads hothers _ _ _ ih =>
      rw [List.append_assoc]
      exact .scope hopened hdistinct htypes hheads hothers ih
  | repeated hopened hrepeated _ ih =>
      rw [List.append_assoc]
      exact .repeated hopened hrepeated ih

/-- A node on its own. -/
theorem single {site : Site} (hopened : site.opened = none) (h : a.Account (a.inside site) remarks) :
    a.Account [site] (a.ahead site ++ remarks ++ a.behind site) := by
  have haccount := Account.node hopened h .nil
  rwa [List.append_nil] at haccount

/-- **What there is to say is determined by the tree.** -/
theorem unique (h : a.Account sites remarks) (h' : a.Account sites more) : remarks = more := by
  induction h generalizing more with
  | nil =>
      cases h'
      rfl
  | node hopened _ _ ihInside ihBeside =>
      cases h' with
      | node _ hinside' hbeside' => rw [ihInside hinside', ihBeside hbeside']
      | scope hopened' | «repeated» hopened' => nomatch hopened.symm.trans hopened'
  | scope hopened hdistinct _ hheads _ _ ihTypes ihOthers ihBeside =>
      cases h' with
      | node hopened' => nomatch hopened.symm.trans hopened'
      | scope hopened' _ htypes' hheads' hothers' hbeside' =>
          obtain rfl := Option.some.inj (hopened.symm.trans hopened')
          rw [ihTypes htypes', hheads.unique hheads', ihOthers hothers', ihBeside hbeside']
      | «repeated» hopened' hrepeated' =>
          obtain rfl := Option.some.inj (hopened.symm.trans hopened')
          exact absurd hdistinct hrepeated'
  | «repeated» hopened hrepeated _ ih =>
      cases h' with
      | node hopened' => nomatch hopened.symm.trans hopened'
      | scope hopened' hdistinct' =>
          obtain rfl := Option.some.inj (hopened.symm.trans hopened')
          exact absurd hdistinct' hrepeated
      | «repeated» hopened' _ hbeside' =>
          obtain rfl := Option.some.inj (hopened.symm.trans hopened')
          rw [ih hbeside']

end Account

end Arena

end ProcLang
