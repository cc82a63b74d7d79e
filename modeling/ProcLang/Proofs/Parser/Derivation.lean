import ProcLang.Proofs.Expression.Derivation
import ProcLang.Proofs.Tree.Extension

/-!
# ProcLang.Proofs.Parser.Derivation

**The grammar of programs**, over the grammar of expressions. `a.Produces c w` says that the grammar
derives the tokens `w` for the construct `c`, which names nodes of the arena `a`. Every rule fixes
the node of its construct but for the span, takes the tokens of the parts in the order in which they
are written, and adds the words and marks of its own. So a derivation accounts for every token and
for every node.

Line breaks and semicolons belong to sequences only: to the fields of a record, the items of a body
and the declarations of a program. They leave no node. The declaration of a variable or a type and a
`return` without a value need one behind them unless they are the last of their sequence; such an
entry leaves its sequence *closed*, and a separator opens it again.
-/

namespace ProcLang

/-- The types that have words of their own. -/
def primitiveTypes : List (TokenKind × TypeKind) :=
  [(.kwInteger, .integer), (.kwReal, .real), (.kwBoolean, .boolean)]

/-- The kinds of tokens between the entries of a sequence. -/
def separators : List TokenKind := [.newline, .semicolon]

/-- What can stand in a sequence: a field, a declaration or a statement. -/
inductive SequenceEntry where
  | declaration (d : Declaration)
  | statement (id : StatementId)

namespace SequenceEntry

/-- The declarations of a sequence. -/
def declarations (entries : List SequenceEntry) : List Declaration :=
  entries.filterMap fun
    | .declaration d => some d
    | .statement _ => none

/-- The statements of a sequence. -/
def statements (entries : List SequenceEntry) : List StatementId :=
  entries.filterMap fun
    | .declaration _ => none
    | .statement id => some id

end SequenceEntry

/-- The symbols of the grammar, with the nodes that they are derived for. What may be left out is
given by an optional node. A sequence is open if another entry may follow, and an entry leaves it
open or closed. -/
inductive Construct where
  | expression (id : ExpressionId)
  | length (id : Option ExpressionId)
  | initializer (id : Option ExpressionId)
  | type (id : TypeId)
  | declaredType (id : Option TypeId)
  | parameter (id : VariableId)
  | parameters (ids : List VariableId)
  | direction (reverse : Bool)
  | entry ( isOpen : Bool) (entry : SequenceEntry)
  | sequence ( isOpen : Bool) (entries : List SequenceEntry)
  | body (id : BodyId)
  | elseBranch (id : Option BodyId)

/-- The rules of the grammar. -/
inductive Arena.Produces (a : Arena) : Construct → List Token → Prop
  /-- An expression is derived from the loosest level. -/
  | expression {id : ExpressionId} {w : List Token} {tree : ExpressionTree}
      (derives : Derives (.level 1) w [tree]) (stands : Stands a tree id) :
      Produces a (.expression id) w
  /-- `length ::=` -/
  | unstatedLength : Produces a (.length none) []
  /-- `length ::= [ expression ]` -/
  | statedLength {id : ExpressionId} {opening closing : Token} {w : List Token}
      (opens : opening.kind = .openBracket) (inner : Produces a (.expression id) w)
      (closes : closing.kind = .closeBracket) :
      Produces a (.length (some id)) (opening :: w ++ [closing])
  /-- `initializer ::=` -/
  | uninitialized : Produces a (.initializer none) []
  /-- `initializer ::= is expression` -/
  | initialized {id : ExpressionId} {word : Token} {w : List Token} (kind : word.kind = .kwIs)
      (value : Produces a (.expression id) w) : Produces a (.initializer (some id)) (word :: w)
  /-- `type ::= integer | real | boolean` -/
  | primitive {id : TypeId} {word : Token} {kind : TypeKind} {span : Span}
      (table : (word.kind, kind) ∈ primitiveTypes) (node : a.get? id = some ⟨span, kind⟩) :
      Produces a (.type id) [word]
  /-- `type ::= name` -/
  | named {id : TypeId} {name : Token} {span : Span} (kind : name.kind = .identifier)
      (node : a.get? id = some ⟨span, .named name.text none⟩) : Produces a (.type id) [name]
  /-- `type ::= array length type` -/
  | array {id element : TypeId} {length : Option ExpressionId} {word : Token} {v w : List Token}
      {span : Span} (kind : word.kind = .kwArray) (size : Produces a (.length length) v)
      (inner : Produces a (.type element) w)
      (node : a.get? id = some ⟨span, .array length element⟩) :
      Produces a (.type id) (word :: v ++ w)
  /-- `type ::= record sequence end`, a sequence of variables -/
  | record {id : TypeId} {fields : List VariableId} {isOpen : Bool} {word closing : Token}
      {w : List Token} {span : Span} (kind : word.kind = .kwRecord)
      (inner : Produces a (.sequence isOpen (fields.map fun x => .declaration (.variable x))) w)
      (closes : closing.kind = .kwEnd) (node : a.get? id = some ⟨span, .record fields⟩) :
      Produces a (.type id) (word :: w ++ [closing])
  /-- `declaredType ::=` -/
  | untyped : Produces a (.declaredType none) []
  /-- `declaredType ::= : type` -/
  | typed {id : TypeId} {mark : Token} {w : List Token} (kind : mark.kind = .colon)
      (inner : Produces a (.type id) w) : Produces a (.declaredType (some id)) (mark :: w)
  /-- `parameter ::= name : type` -/
  | parameter {id : VariableId} {type : TypeId} {name mark : Token} {w : List Token} {span : Span}
      (kind : name.kind = .identifier) (colon : mark.kind = .colon)
      (inner : Produces a (.type type) w)
      (node : a.get? id = some ⟨span, name.text, some type, none⟩) :
      Produces a (.parameter id) (name :: mark :: w)
  /-- `parameters ::=` -/
  | noParameters : Produces a (.parameters []) []
  /-- `parameters ::= parameter` -/
  | firstParameter {id : VariableId} {w : List Token} (first : Produces a (.parameter id) w) :
      Produces a (.parameters [id]) w
  /-- `parameters ::= parameters , parameter` -/
  | nextParameter {ids : List VariableId} {id : VariableId} {comma : Token} {v w : List Token}
      (some : ids ≠ []) (front : Produces a (.parameters ids) v) (mark : comma.kind = .comma)
      (next : Produces a (.parameter id) w) :
      Produces a (.parameters (ids ++ [id])) (v ++ comma :: w)
  /-- `entry ::= var name declaredType initializer`, which closes a sequence -/
  | variable {id : VariableId} {type : Option TypeId} {value : Option ExpressionId}
      {word name : Token} {v w : List Token} {span : Span} (kind : word.kind = .kwVar)
      (identifier : name.kind = .identifier) (declared : Produces a (.declaredType type) v)
      (initial : Produces a (.initializer value) w)
      (node : a.get? id = some ⟨span, name.text, type, value⟩) :
      Produces a (.entry false (.declaration (.variable id))) (word :: name :: v ++ w)
  /-- `entry ::= type name is type`, which closes a sequence -/
  | typeDecl {id : TypeDeclId} {type : TypeId} {word name mark : Token} {w : List Token}
      {span : Span} (kind : word.kind = .kwType) (identifier : name.kind = .identifier)
      (announces : mark.kind = .kwIs) (inner : Produces a (.type type) w)
      (node : a.get? id = some ⟨span, name.text, type⟩) :
      Produces a (.entry false (.declaration (.type id))) (word :: name :: mark :: w)
  /-- `entry ::= routine name ( parameters ) declaredType is body end` -/
  | routine {id : RoutineId} {parameters : List VariableId} {result : Option TypeId} {body : BodyId}
      {word name opening closing mark last : Token} {u v w : List Token} {span : Span}
      (kind : word.kind = .kwRoutine) (identifier : name.kind = .identifier)
      (opens : opening.kind = .openParen) (inner : Produces a (.parameters parameters) u)
      (closes : closing.kind = .closeParen) (declared : Produces a (.declaredType result) v)
      (announces : mark.kind = .kwIs) (block : Produces a (.body body) w)
      (ends : last.kind = .kwEnd)
      (node : a.get? id = some ⟨span, name.text, parameters, result, body⟩) :
      Produces a (.entry true (.declaration (.routine id)))
        (word :: name :: opening :: u ++ closing :: v ++ mark :: w ++ [last])
  /-- `entry ::= expression := expression` -/
  | assignment {id : StatementId} {target value : ExpressionId} {mark : Token} {v w : List Token}
      {span : Span} (lhs : Produces a (.expression target) v) (kind : mark.kind = .assign)
      (rhs : Produces a (.expression value) w)
      (node : a.get? id = some ⟨span, .assignment target value⟩) :
      Produces a (.entry true (.statement id)) (v ++ mark :: w)
  /-- `entry ::= expression`, which must be a call or a name -/
  | call {id : StatementId} {callee : ExpressionId} {expression : Expression} {w : List Token}
      {span : Span} (inner : Produces a (.expression callee) w)
      (stored : a.get? callee = some expression) (callLike : expression.isCallLike = true)
      (node : a.get? id = some ⟨span, .call callee⟩) : Produces a (.entry true (.statement id)) w
  /-- `entry ::= while expression loop body end` -/
  | whileLoop {id : StatementId} {condition : ExpressionId} {body : BodyId} {word mark last : Token}
      {v w : List Token} {span : Span} (kind : word.kind = .kwWhile)
      (test : Produces a (.expression condition) v) (begins : mark.kind = .kwLoop)
      (block : Produces a (.body body) w) (ends : last.kind = .kwEnd)
      (node : a.get? id = some ⟨span, .whileLoop condition body⟩) :
      Produces a (.entry true (.statement id)) (word :: v ++ mark :: w ++ [last])
  /-- `direction ::=` -/
  | upward : Produces a (.direction false) []
  /-- `direction ::= reverse` -/
  | downward {word : Token} (kind : word.kind = .kwReverse) : Produces a (.direction true) [word]
  /-- `entry ::= for name in direction expression .. expression loop body end`; the name declares
  an integer variable -/
  | forLoop {id : StatementId} {counter : VariableId} {type : TypeId} {lower upper : ExpressionId}
      {reverse : Bool} {body : BodyId} {word name mark dots begin last : Token}
      {t u v w : List Token} {span : Span} (kind : word.kind = .kwFor)
      (identifier : name.kind = .identifier) (announces : mark.kind = .kwIn)
      (order : Produces a (.direction reverse) t) (bottom : Produces a (.expression lower) u)
      (divides : dots.kind = .dotDot) (top : Produces a (.expression upper) v)
      (begins : begin.kind = .kwLoop) (block : Produces a (.body body) w)
      (ends : last.kind = .kwEnd)
      (counts : a.get? counter = some ⟨name.span, name.text, some type, none⟩)
      (integer : a.get? type = some ⟨name.span, .integer⟩)
      (node : a.get? id = some ⟨span, .forLoop counter lower upper reverse body⟩) :
      Produces a (.entry true (.statement id))
        (word :: name :: mark :: t ++ u ++ dots :: v ++ begin :: w ++ [last])
  /-- `entry ::= if expression then body elseBranch end` -/
  | branch {id : StatementId} {condition : ExpressionId} {thenBody : BodyId}
      {elseBody : Option BodyId} {word mark last : Token} {u v w : List Token} {span : Span}
      (kind : word.kind = .kwIf) (test : Produces a (.expression condition) u)
      (begins : mark.kind = .kwThen) (block : Produces a (.body thenBody) v)
      (other : Produces a (.elseBranch elseBody) w) (ends : last.kind = .kwEnd)
      (node : a.get? id = some ⟨span, .branch condition thenBody elseBody⟩) :
      Produces a (.entry true (.statement id)) (word :: u ++ mark :: v ++ w ++ [last])
  /-- `elseBranch ::=` -/
  | noElse : Produces a (.elseBranch none) []
  /-- `elseBranch ::= else body` -/
  | otherwise {id : BodyId} {word : Token} {w : List Token} (kind : word.kind = .kwElse)
      (block : Produces a (.body id) w) : Produces a (.elseBranch (some id)) (word :: w)
  /-- `entry ::= return`, which closes a sequence -/
  | bareReturn {id : StatementId} {word : Token} {span : Span} (kind : word.kind = .kwReturn)
      (node : a.get? id = some ⟨span, .returning none⟩) :
      Produces a (.entry false (.statement id)) [word]
  /-- `entry ::= return expression` -/
  | returning {id : StatementId} {value : ExpressionId} {word : Token} {w : List Token}
      {span : Span} (kind : word.kind = .kwReturn) (result : Produces a (.expression value) w)
      (node : a.get? id = some ⟨span, .returning (some value)⟩) :
      Produces a (.entry true (.statement id)) (word :: w)
  /-- `sequence ::=` -/
  | empty : Produces a (.sequence true []) []
  /-- `sequence ::= sequence (newline | ;)` -/
  | separator {isOpen : Bool} {entries : List SequenceEntry} {mark : Token} {w : List Token}
      (front : Produces a (.sequence isOpen entries) w) (kind : mark.kind ∈ separators) :
      Produces a (.sequence true entries) (w ++ [mark])
  /-- `sequence ::= sequence entry`, behind an open sequence -/
  | next {isOpen : Bool} {entries : List SequenceEntry} {entry : SequenceEntry} {v w : List Token}
      (front : Produces a (.sequence true entries) v) (last : Produces a (.entry isOpen entry) w) :
      Produces a (.sequence isOpen (entries ++ [entry])) (v ++ w)
  /-- `body ::= sequence`, in which no routine is declared -/
  | body {id : BodyId} {isOpen : Bool} {entries : List SequenceEntry} {w : List Token} {span : Span}
      (inner : Produces a (.sequence isOpen entries) w)
      (locals : ∀ r, .declaration (.routine r) ∉ entries)
      (node : a.get? id =
        some ⟨span, SequenceEntry.declarations entries, SequenceEntry.statements entries⟩) :
      Produces a (.body id) w

/-- The grammar derives some tokens for the program of an arena: a sequence of its declarations. -/
def Arena.ProducesProgram (a : Arena) (w : List Token) : Prop :=
  ∃ isOpen, a.Produces (.sequence isOpen (a.program.declarations.map .declaration)) w

/-! ### No token is illegal -/

/-- Operators are legal. -/
theorem infixOperators_ne_illegal {kind : TokenKind} {q : Nat} {operator : BinaryOperator}
    (h : (kind, q, operator) ∈ infixOperators) : kind ≠ .illegal := by
  have table : ∀ entry ∈ infixOperators, entry.1 ≠ .illegal := by decide
  exact table _ h

theorem prefixOperators_ne_illegal {kind : TokenKind} {operator : UnaryOperator}
    (h : (kind, operator) ∈ prefixOperators) : kind ≠ .illegal := by
  have table : ∀ entry ∈ prefixOperators, entry.1 ≠ .illegal := by decide
  exact table _ h

/-- There is no illegal token in an expression. -/
theorem Derives.kind_ne_illegal {phrase : Phrase} {w : List Token} {trees : List ExpressionTree}
    (h : Derives phrase w trees) : ∀ token ∈ w, token.kind ≠ .illegal := by
  induction h with
  | infixed table _ _ ihl ihr =>
      have hop := infixOperators_ne_illegal table
      simp_all [or_imp]
  | tighter _ _ _ ih | postfixed _ ih | primary _ ih | lastArgument _ ih => exact ih
  | prefixed table _ ih =>
      have hop := prefixOperators_ne_illegal table
      simp_all
  | memberPrefixed _ dot table _ ihl ihr =>
      have hop := prefixOperators_ne_illegal table
      simp_all [or_imp]
  | member _ dot _ ihl ihr | moreArguments _ dot _ ihl ihr => simp_all [or_imp]
  | index _ opens _ closes ihl ihr => simp_all [or_imp]
  | literal value => cases value <;> simp_all
  | name kind => simp [kind]
  | emptyCall kind opens closes => simp [kind, opens, closes]
  | call kind opens _ closes ih => simp_all [or_imp]
  | grouping opens _ closes ih => simp_all [or_imp]

namespace Arena

variable {a b : Arena}

/-- There is no illegal token in what is derived. -/
theorem Produces.kind_ne_illegal {c : Construct} {w : List Token} (h : a.Produces c w) :
    ∀ token ∈ w, token.kind ≠ .illegal := by
  induction h with
  | expression derives => exact derives.kind_ne_illegal
  | primitive table _ =>
      have hwords : ∀ entry ∈ primitiveTypes, entry.1 ≠ .illegal := by decide
      simpa using hwords _ table
  | separator _ kind ih =>
      have hmarks : ∀ kind ∈ separators, kind ≠ .illegal := by decide
      have hmark := hmarks _ kind
      simp_all [or_imp]
  | unstatedLength | uninitialized | untyped | noParameters | upward | noElse | empty => nofun
  | firstParameter _ ih | call _ _ _ _ ih | body _ _ _ ih => exact ih
  | _ => simp_all [or_imp]

/-- What is derived stays derived while the arena grows. -/
theorem Produces.extend (h : a.ExtendedBy b) {c : Construct} {w : List Token}
    (hproduces : a.Produces c w) : b.Produces c w := by
  induction hproduces with
  | expression derives stands => exact .expression derives (stands.extend h)
  | unstatedLength => exact .unstatedLength
  | statedLength opens _ closes ih => exact .statedLength opens ih closes
  | uninitialized => exact .uninitialized
  | initialized kind _ ih => exact .initialized kind ih
  | primitive table node => exact .primitive table (h _ _ _ node)
  | named kind node => exact .named kind (h _ _ _ node)
  | array kind _ _ node ihsize ih => exact .array kind ihsize ih (h _ _ _ node)
  | record kind _ closes node ih => exact .record kind ih closes (h _ _ _ node)
  | untyped => exact .untyped
  | typed kind _ ih => exact .typed kind ih
  | parameter kind colon _ node ih => exact .parameter kind colon ih (h _ _ _ node)
  | noParameters => exact .noParameters
  | firstParameter _ ih => exact .firstParameter ih
  | nextParameter hsome _ mark _ ihfront ih => exact .nextParameter hsome ihfront mark ih
  | «variable» kind identifier _ _ node ihtype ihvalue =>
      exact .variable kind identifier ihtype ihvalue (h _ _ _ node)
  | typeDecl kind identifier announces _ node ih =>
      exact .typeDecl kind identifier announces ih (h _ _ _ node)
  | routine kind identifier opens _ closes _ announces _ ends node ihinner ihtype ihblock =>
      exact .routine kind identifier opens ihinner closes ihtype announces ihblock ends
        (h _ _ _ node)
  | assignment _ kind _ node ihtarget ihvalue =>
      exact .assignment ihtarget kind ihvalue (h _ _ _ node)
  | call _ stored callLike node ih => exact .call ih (h _ _ _ stored) callLike (h _ _ _ node)
  | whileLoop kind _ begins _ ends node ihtest ihblock =>
      exact .whileLoop kind ihtest begins ihblock ends (h _ _ _ node)
  | upward => exact .upward
  | downward kind => exact .downward kind
  | forLoop kind identifier announces _ _ divides _ begins _ ends counts integer node ihorder
      ihbottom ihtop ihblock =>
      exact .forLoop kind identifier announces ihorder ihbottom divides ihtop begins ihblock ends
        (h _ _ _ counts) (h _ _ _ integer) (h _ _ _ node)
  | branch kind _ begins _ _ ends node ihtest ihblock ihother =>
      exact .branch kind ihtest begins ihblock ihother ends (h _ _ _ node)
  | noElse => exact .noElse
  | otherwise kind _ ih => exact .otherwise kind ih
  | bareReturn kind node => exact .bareReturn kind (h _ _ _ node)
  | returning kind _ node ih => exact .returning kind ih (h _ _ _ node)
  | empty => exact .empty
  | separator _ kind ih => exact .separator ih kind
  | next _ _ ihfront ih => exact .next ihfront ih
  | body _ locals node ih => exact .body ih locals (h _ _ _ node)

end Arena

end ProcLang
