import Mathlib.Data.List.Forall2
import ProcLang.Parse.State

/-!
# ProcLang.Proofs.Lockstep.Places

**What two runs of the parser may differ in.** A `Blur` says what is left of a place when trees and
diagnostics are compared, and which semicolons of the first text may be line breaks in the second one.
`Matches` relates what the two runs have to do with: tokens, spans and diagnostics. Trees are compared by
`a.mapPlaces keep`, the tree `a` with `keep p` for every place `p`; nodes have the same ids, names and
links in it.
-/

namespace ProcLang

/-- What is left of places, and the semicolons in whose place a line break may stand. -/
structure Blur where
  keep : Position → Position
  exchanged : Token → Prop

/-! ### Trees with other places -/

section

variable (keep : Position → Position)

/-- The span with other places. -/
def Span.mapPlaces (s : Span) : Span := ⟨keep s.start, keep s.stop⟩

/-- The node with other places. -/
def Node.mapPlaces : (family : Family) → Node family → Node family
  | .routine, node => { node with span := node.span.mapPlaces keep }
  | .variable, node => { node with span := node.span.mapPlaces keep }
  | .typeDecl, node => { node with span := node.span.mapPlaces keep }
  | .type, node => { node with span := node.span.mapPlaces keep }
  | .body, node => { node with span := node.span.mapPlaces keep }
  | .statement, node => { node with span := node.span.mapPlaces keep }
  | .expression, node => { node with span := node.span.mapPlaces keep }

namespace Arena

/-- The tree with other places. -/
def mapPlaces (a : Arena) : Arena where
  program := { a.program with span := a.program.span.mapPlaces keep }
  routineTable := a.routineTable.map (Node.mapPlaces keep .routine)
  variableTable := a.variableTable.map (Node.mapPlaces keep .variable)
  typeDeclTable := a.typeDeclTable.map (Node.mapPlaces keep .typeDecl)
  typeTable := a.typeTable.map (Node.mapPlaces keep .type)
  bodyTable := a.bodyTable.map (Node.mapPlaces keep .body)
  statementTable := a.statementTable.map (Node.mapPlaces keep .statement)
  expressionTable := a.expressionTable.map (Node.mapPlaces keep .expression)

variable (a : Arena) {family : Family}

@[simp] theorem count_mapPlaces (family : Family) : (a.mapPlaces keep).count family = a.count family := by
  cases family <;> simp [count, table, mapPlaces]

theorem mapTable_mapPlaces {g g' : Array (Node family) → Array (Node family)}
    (h : ∀ nodes, g' (nodes.map (Node.mapPlaces keep family)) = (g nodes).map (Node.mapPlaces keep family)) :
    (a.mapPlaces keep).mapTable family g' = (a.mapTable family g).mapPlaces keep := by
  cases family <;> simp only [mapTable, mapPlaces, h]

/-- A new node gets the same id, whatever the places are. -/
theorem add_mapPlaces (family : Family) (node : Node family) :
    (a.mapPlaces keep).add family (Node.mapPlaces keep family node) =
      ((a.add family node).1, (a.add family node).2.mapPlaces keep) := by
  rw [add, add, count_mapPlaces, a.mapTable_mapPlaces keep fun nodes => Array.map_push.symm]

end Arena

end

/-! ### Tokens, spans and diagnostics -/

section

variable (b : Blur)

/-- Tokens of one kind and one text, at places that are not told apart. -/
structure Token.Same (token token' : Token) : Prop where
  kind : token.kind = token'.kind
  text : token.text = token'.text
  start : b.keep token.start = b.keep token'.start
  stop : b.keep token.stop = b.keep token'.stop

/-- A semicolon and a line break, at places that are not told apart. -/
structure Token.Exchanged (token token' : Token) : Prop where
  exchanged : b.exchanged token
  kind : token.kind = .semicolon
  kind' : token'.kind = .newline
  start : b.keep token.start = b.keep token'.start
  stop : b.keep token.stop = b.keep token'.stop

/-- The tokens that stand in the same place of the two texts. -/
inductive Token.Matches (token token' : Token) : Prop
  | same (h : token.Same b token')
  | exchanged (h : token.Exchanged b token')

/-- Spans whose places are not told apart. -/
structure Span.Matches (span span' : Span) : Prop where
  start : b.keep span.start = b.keep span'.start
  stop : b.keep span.stop = b.keep span'.stop

/-- Causes that are the same, but for the name of a token that has been exchanged. -/
inductive Cause.Matches : Cause → Cause → Prop
  | same (cause : Cause) : Matches cause cause
  | exchanged {token : Token} (h : b.exchanged token) (expected found : String) :
      Matches (.unexpectedToken expected token.display) (.unexpectedToken expected found)

/-- Diagnostics about the same thing, at places that are not told apart. -/
structure Diagnostic.Matches (d e : Diagnostic) : Prop where
  cause : d.cause.Matches b e.cause
  place : b.keep d.position = b.keep e.position

instance : Std.Refl (Token.Same b) := ⟨fun _ => ⟨rfl, rfl, rfl, rfl⟩⟩

instance : Std.Refl (Token.Matches b) := ⟨fun token => .same (Std.Refl.refl token)⟩

instance : Std.Refl (Span.Matches b) := ⟨fun _ => ⟨rfl, rfl⟩⟩

instance : Std.Refl (Diagnostic.Matches b) := ⟨fun d => ⟨.same d.cause, rfl⟩⟩

instance reflForall₂ {α : Type} {R : α → α → Prop} [Std.Refl R] : Std.Refl (List.Forall₂ R) :=
  ⟨List.forall₂_refl⟩

end

/-- The kinds of tokens that stand in the same place. -/
inductive TokenKind.Matches : TokenKind → TokenKind → Prop
  | same (kind : TokenKind) : Matches kind kind
  | exchanged : Matches .semicolon .newline

/-- **Decisions by the kind** of a token are compared for each kind, and for the two separators. -/
@[elab_as_elim]
theorem TokenKind.Matches.elim {motive : TokenKind → TokenKind → Prop} {kind kind' : TokenKind}
    (h : kind.Matches kind') (same : ∀ kind, motive kind kind)
    (exchanged : motive .semicolon .newline) : motive kind kind' := by
  cases h with
  | same => exact same kind
  | exchanged => exact exchanged

/-- A semicolon or a line break. -/
def TokenKind.separates (kind : TokenKind) : Bool := kind = .semicolon || kind = .newline

variable {b : Blur}

namespace Token

variable {token token' : Token}

theorem Matches.start (h : token.Matches b token') : b.keep token.start = b.keep token'.start := by
  cases h with
  | same h => exact h.start
  | exchanged h => exact h.start

theorem Matches.span (h : token.Matches b token') : token.span.Matches b token'.span := by
  cases h with
  | same h => exact ⟨h.start, h.stop⟩
  | exchanged h => exact ⟨h.start, h.stop⟩

theorem Matches.kinds (h : token.Matches b token') : token.kind.Matches token'.kind := by
  cases h with
  | same h =>
      rw [h.kind]
      exact .same _
  | exchanged h =>
      rw [h.kind, h.kind']
      exact .exchanged

/-- No other kind takes the place of a kind that does not separate. -/
theorem Matches.kind_iff (h : token.Matches b token') {kind : TokenKind} (hkind : kind.separates = false) :
    token.kind = kind ↔ token'.kind = kind := by
  refine h.kinds.elim (fun _ => Iff.rfl) ?_
  constructor
  · rintro rfl
    nomatch hkind
  · rintro rfl
    nomatch hkind

theorem Matches.isOneOf (h : token.Matches b token') {kinds : List TokenKind}
    (hkinds : kinds.contains .semicolon = kinds.contains .newline) :
    token.isOneOf kinds = token'.isOneOf kinds :=
  h.kinds.elim (motive := fun kind kind' => kinds.contains kind = kinds.contains kind') (fun _ => rfl) hkinds

theorem Same.span (h : token.Same b token') : token.span.Matches b token'.span := ⟨h.start, h.stop⟩

theorem Same.display (h : token.Same b token') : token.display = token'.display := by
  rw [Token.display, Token.display, h.kind, h.text]

/-- Tokens that cannot stand where they do are named in the same way, unless they are exchanged. -/
theorem Matches.cause (h : token.Matches b token') (expected : String) :
    (Cause.unexpectedToken expected token.display).Matches b
      (Cause.unexpectedToken expected token'.display) := by
  cases h with
  | same h =>
      rw [h.display]
      exact .same _
  | exchanged h => exact .exchanged h.exchanged expected _

theorem Matches.unexpected (h : token.Matches b token') (expected : String) :
    (token.unexpected expected).Matches b (token'.unexpected expected) := by
  refine ⟨?_, h.start⟩
  have hcause := h.cause expected
  unfold Token.unexpected
  cases h with
  | same h =>
      dsimp only
      rw [h.kind, h.text]
      split
      · exact .same _
      · exact hcause
  | exchanged h =>
      dsimp only
      rw [h.kind, h.kind', if_neg (by decide), if_neg (by decide)]
      exact hcause

end Token

/-- Where no token is exchanged, causes are the same. -/
theorem Cause.Matches.eq {cause cause' : Cause} (h : cause.Matches b cause')
    (hnone : ∀ token, ¬ b.exchanged token) : cause = cause' := by
  cases h with
  | same => rfl
  | exchanged h => exact absurd h (hnone _)

/-- Diagnostics about the same thing have one name. -/
theorem Diagnostic.Matches.name {d e : Diagnostic} (h : d.Matches b e) : d.name = e.name := by
  obtain ⟨cause, place⟩ := d
  obtain ⟨cause', place'⟩ := e
  cases h.cause with
  | same => rfl
  | exchanged => rfl

end ProcLang
