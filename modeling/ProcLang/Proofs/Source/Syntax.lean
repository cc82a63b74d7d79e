import ProcLang.Parse.Expression
import ProcLang.Proofs.Expression.Derivation
import ProcLang.Proofs.Token.Words

/-!
# ProcLang.Proofs.Source.Syntax

**Programs as they are written**, without ids and spans. Every value of these types is a program
that can be written down: a `Name` is not reserved, an integer is a signed number of 64 bits, a real
is given by its text, a parameter has a type and no initial value, the counter of a loop is a name,
and what stands as a statement is an assignment, a call or a bare name.

`Program.text` writes a program down: each declaration and each statement on a line of its own, the
declarations of a body before its statements, and an operand in parentheses where its operator binds
looser than its place asks for.
-/

namespace ProcLang

namespace Token

/-- How the tokens of a kind are written that are all written alike. -/
def spelling (kind : TokenKind) : String :=
  (((keywordEntries ++ operatorEntries).find? fun entry => entry.2 = kind).map Prod.fst).getD "\n"

/-- The kinds of tokens that have a text of their own. -/
def variableKinds : List TokenKind :=
  [.endOfFile, .comment, .illegal, .identifier, .integerLiteral, .realLiteral]

theorem isWritten_spelling {kind : TokenKind} (h : kind ∉ variableKinds) :
    IsWritten kind (spelling kind) := by
  by_cases hline : kind = .newline
  · rw [hline]
    exact .line
  · have htable : ∀ entry ∈ TokenKind.names, entry.1 ∉ variableKinds → entry.1 ≠ .newline →
        (spelling entry.1, entry.1) ∈ keywordEntries ∨
          (spelling entry.1, entry.1) ∈ operatorEntries := by
      decide
    have hnamed : kind ∈ TokenKind.names.map Prod.fst := by cases kind <;> decide
    obtain ⟨entry, hmem, rfl⟩ := List.mem_map.1 hnamed
    rcases htable entry hmem h hline with hentry | hentry
    · exact .reserved hentry
    · refine .operator hentry fun hcomment => h ?_
      rw [hcomment]
      decide

end Token

/-- The word of a kind of which there is only one. -/
def Word.of (kind : TokenKind) (h : kind ∉ Token.variableKinds := by decide) : Word :=
  ⟨kind, Token.spelling kind, Token.isWritten_spelling h⟩

@[simp] theorem Word.of_kind {kind : TokenKind} (h : kind ∉ Token.variableKinds) :
    (Word.of kind h).kind = kind := rfl

namespace Source

/-- A line break is always written in the same way. -/
theorem newline_fixed : .newline ∉ Token.variableKinds := by decide

/-! ### Names and literals -/

/-- An identifier that is not a reserved word. -/
structure Name where
  text : String
  isWord : Token.IsWord text.toList
  free : ∀ kind, (text, kind) ∉ Token.keywordEntries

def Name.word (name : Name) : Word := ⟨.identifier, name.text, .name name.isWord name.free⟩

/-- A text that is read as one real literal. -/
structure RealText where
  text : String
  read : (Token.tokenStream text).tokens = [⟨.realLiteral, text, Position.origin, none⟩]

/-- Nothing but a number with a point is read as a real literal. -/
theorem RealText.isNumber (real : RealText) :
    Token.IsNumber real.text.toList ∧ '.' ∈ real.text.toList := by
  obtain ⟨pieces, gap, hcovers⟩ := Token.streamFrom_covers (real.text.toList.length + 1) []
    real.text.toList (Nat.lt_succ_self _)
  have htokens : pieces.map (·.token) = [⟨.realLiteral, real.text, Position.origin, none⟩] :=
    hcovers.tokens_eq.symm.trans real.read
  obtain ⟨piece, rfl, htoken⟩ := List.map_eq_singleton_iff.1 htokens
  have hfits := (hcovers.fits [] piece [] rfl).lexeme
  rw [htoken] at hfits
  -- the literal is the whole text, so nothing is behind it
  have hchars := congrArg List.length hcovers.chars_eq
  simp only [List.flatMap_cons, List.flatMap_nil, List.append_nil, Token.Piece.chars, htoken,
    List.length_append] at hchars
  obtain rfl : gap = [] := List.length_eq_zero_iff.1 (by omega)
  simp only [List.flatMap_nil, List.append_nil] at hfits
  generalize hkind : TokenKind.realLiteral = kind at hfits
  generalize real.text.toList = w at hfits ⊢
  cases hfits with
  | word _ table =>
      cases table with
      | reserved entry =>
          have hnone : ∀ entry ∈ Token.keywordEntries, .realLiteral ≠ entry.2 := by decide
          exact absurd hkind (hnone _ entry)
      | identifier => cases hkind
  | number _ munch =>
      split at hkind
      · exact ⟨munch.fits, ‹_›⟩
      · cases hkind
  | newline => cases hkind
  | operator _ _ _ entry =>
      have hnone : ∀ entry ∈ Token.operatorEntries, .realLiteral ≠ entry.2 := by decide
      exact absurd hkind (hnone _ entry)
  | illegal => cases hkind

def RealText.word (real : RealText) : Word :=
  ⟨.realLiteral, real.text, .real real.isNumber.1 real.isNumber.2⟩

/-- The decimal digits of a number denote it. -/
theorem digitsValue_repr (n : Nat) : Binary64.digitsValue n.repr.toList = n := by
  rw [Nat.toList_repr]
  exact Nat.ofDigitChars_eq_foldl.symm.trans Nat.ofDigitChars_ten_toDigits

theorem isDigits_repr (n : Nat) : Token.IsDigits n.repr.toList := by
  rw [Nat.toList_repr]
  refine ⟨Nat.toDigits_ne_nil, fun c hc => ?_⟩
  have hdigit := Nat.isDigit_of_mem_toDigits (by decide) (by decide) hc
  simpa [Char.isDigit, Token.isDigit, Char.le_def] using hdigit

/-- An integer in decimal digits. -/
def integerWord (value : Fin (Nat.pow 2 63)) : Word :=
  ⟨.integerLiteral, value.val.repr,
    .integer (isDigits_repr _) (by rw [digitsValue_repr]; exact value.isLt)⟩

/-! ### Expressions -/

/-- An expression as it is written. -/
inductive Expression where
  | integer (value : Fin (Nat.pow 2 63))
  | real (text : RealText)
  | boolean (value : Bool)
  | name (name : Name)
  | call (name : Name) (arguments : List Expression)
  | unary (operator : UnaryOperator) (operand : Expression)
  | binary (operator : BinaryOperator) (left right : Expression)

namespace Expression

mutual

/-- The tree of an expression, where a real literal is a number. -/
def tree : Expression → ExpressionTree
  | .integer value => .integer value.val
  | .real literal =>
      let (whole, fraction) := Parser.splitAtPoint literal.text.toList
      .real (.ofDecimal whole fraction)
  | .boolean value => .boolean value
  | .name n => .name n.text
  | .call n arguments => .call n.text (trees arguments)
  | .unary operator operand => .unary operator operand.tree
  | .binary operator left right => .binary operator left.tree right.tree

def trees : List Expression → List ExpressionTree
  | [] => []
  | e :: rest => e.tree :: trees rest

end

end Expression

/-! ### Types and variables -/

mutual

/-- A type as it is written. -/
inductive TypeForm where
  | integer
  | real
  | boolean
  | named (name : Name)
  | array (length : Option Expression) (element : TypeForm)
  | record (fields : List Variable)

/-- A declaration of a variable as it is written. -/
inductive Variable where
  | mk (name : Name) (type : Option TypeForm) (initializer : Option Expression)

end

/-- A declaration other than that of a routine. -/
inductive LocalDeclaration where
  | variable (declared : Variable)
  | type (name : Name) (form : TypeForm)

/-! ### Statements and bodies -/

/-- What can be called by a statement of its own. -/
inductive Callee where
  | name (name : Name)
  | call (name : Name) (arguments : List Expression)

def Callee.expression : Callee → Expression
  | name n => .name n
  | call n arguments => .call n arguments

mutual

/-- A statement as it is written. -/
inductive Statement where
  | assignment (target value : Expression)
  | whileLoop (condition : Expression) (body : Body)
  | forLoop (counter : Name) (first last : Expression) (reverse : Bool) (body : Body)
  | branch (condition : Expression) (thenBody : Body) (elseBody : Option Body)
  | returning (value : Option Expression)
  | call (callee : Callee)

/-- The declarations and the statements of a body as they are written. -/
inductive Body where
  | mk (declarations : List LocalDeclaration) (statements : List Statement)

end

/-! ### Programs -/

/-- A parameter as it is written. -/
structure Parameter where
  name : Name
  type : TypeForm

/-- A routine as it is written. -/
structure Routine where
  name : Name
  parameters : List Parameter
  returnType : Option TypeForm
  body : Body

/-- A declaration of a program. -/
inductive Declaration where
  | routine (declared : Routine)
  | plain (declared : LocalDeclaration)

/-- A program as it is written. -/
abbrev Program := List Declaration

/-! ### Writing expressions -/

/-- How an operator with two operands is written. -/
def binaryToken : BinaryOperator → TokenKind
  | .or => .kwOr
  | .xor => .kwXor
  | .and => .kwAnd
  | .equal => .equal
  | .notEqual => .notEqual
  | .less => .less
  | .lessEqual => .lessEqual
  | .greater => .greater
  | .greaterEqual => .greaterEqual
  | .add => .plus
  | .subtract => .minus
  | .multiply => .star
  | .divide => .slash
  | .modulo => .percent
  | .member => .dot
  | .index => .openBracket

/-- How an operator with one operand is written. -/
def unaryToken : UnaryOperator → TokenKind
  | .not => .kwNot
  | .plus => .plus
  | .minus => .minus

/-- The level of an operator: that of the table `infixOperators`, and the tightest one for member
access and indexing. -/
def binaryLevel : BinaryOperator → Nat
  | .or | .xor => 1
  | .and => 2
  | .equal | .notEqual => 3
  | .less | .lessEqual | .greater | .greaterEqual => 4
  | .add | .subtract => 5
  | .multiply | .divide | .modulo => 6
  | .member | .index => 8

/-- Apart from member access and indexing, operators are those of the table. -/
theorem mem_infixOperators {operator : BinaryOperator} (hmember : operator ≠ .member)
    (hindex : operator ≠ .index) :
    (binaryToken operator, binaryLevel operator, operator) ∈ infixOperators := by
  cases operator <;> first | decide | exact absurd rfl ‹_›

theorem mem_prefixOperators (operator : UnaryOperator) :
    (unaryToken operator, operator) ∈ prefixOperators := by
  cases operator <;> decide

theorem binaryToken_fixed (operator : BinaryOperator) :
    binaryToken operator ∉ Token.variableKinds := by
  cases operator <;> decide

theorem unaryToken_fixed (operator : UnaryOperator) :
    unaryToken operator ∉ Token.variableKinds := by
  cases operator <;> decide

/-- Lists of words with commas between them. -/
def commas : List (List Word) → List Word
  | [] => []
  | [words] => words
  | words :: rest => words ++ .of .comma :: commas rest

/-- The words of an expression of a level, in parentheses where its place asks for a higher one. -/
def enclosed (place level : Nat) (words : List Word) : List Word :=
  if place ≤ level then words else .of .openParen :: (words ++ [.of .closeParen])

namespace Expression

/-- The level of an expression: that of its operator, or the highest one without an operator. -/
def level : Expression → Nat
  | .binary operator _ _ => binaryLevel operator
  | .unary _ _ => 7
  | _ => 9

mutual

/-- An expression without parentheses around it. -/
def words : Expression → List Word
  | .integer value => [integerWord value]
  | .real literal => [literal.word]
  | .boolean value => [if value then .of .kwTrue else .of .kwFalse]
  | .name n => [n.word]
  | .call n arguments =>
      n.word :: .of .openParen :: (commas (wordLists arguments) ++ [.of .closeParen])
  | .unary operator operand =>
      .of (unaryToken operator) (unaryToken_fixed operator) ::
        enclosed 7 operand.level operand.words
  | .binary .index left right =>
      enclosed 8 left.level left.words ++ .of .openBracket :: (right.words ++ [.of .closeBracket])
  | .binary operator left right =>
      enclosed (binaryLevel operator) left.level left.words ++
        .of (binaryToken operator) (binaryToken_fixed operator) ::
          enclosed (binaryLevel operator + 1) right.level right.words

def wordLists : List Expression → List (List Word)
  | [] => []
  | e :: rest => e.words :: wordLists rest

end

end Expression

/-! ### Writing declarations -/

/-- What announces an expression, and the expression, if there is one. -/
def announced (announcement : List Word) : Option Expression → List Word
  | none => []
  | some e => announcement ++ e.words

/-- The length of an array in brackets, if it is stated. -/
def lengthWords : Option Expression → List Word
  | none => []
  | some length => .of .openBracket :: (length.words ++ [.of .closeBracket])

mutual

def TypeForm.words : TypeForm → List Word
  | .integer => [.of .kwInteger]
  | .real => [.of .kwReal]
  | .boolean => [.of .kwBoolean]
  | .named name => [name.word]
  | .array length element => .of .kwArray :: (lengthWords length ++ element.words)
  | .record fields => .of .kwRecord :: .of .newline :: (fieldWords fields ++ [.of .kwEnd])

def Variable.words : Variable → List Word
  | .mk name type initializer =>
      .of .kwVar :: name.word :: (annotationWords type ++ announced [.of .kwIs] initializer)

/-- The type of a declaration behind a colon, if it has one. -/
def annotationWords : Option TypeForm → List Word
  | none => []
  | some type => .of .colon :: type.words

/-- The fields of a record, each on a line of its own. -/
def fieldWords : List Variable → List Word
  | [] => []
  | field :: rest => field.words ++ .of .newline :: fieldWords rest

end

theorem fieldWords_eq (fields : List Variable) :
    fieldWords fields = fields.flatMap fun x => x.words ++ [.of .newline] := by
  induction fields with
  | nil => rfl
  | cons x fields ih => simp [fieldWords, ih]

def LocalDeclaration.words : LocalDeclaration → List Word
  | .variable declared => declared.words
  | .type name form => .of .kwType :: name.word :: .of .kwIs :: form.words

/-- The declarations of a body, each on a line of its own. -/
def localWords (declarations : List LocalDeclaration) : List Word :=
  declarations.flatMap fun d => d.words ++ [.of .newline]

/-! ### Writing statements -/

mutual

def Statement.words : Statement → List Word
  | .assignment target value => target.words ++ .of .assign :: value.words
  | .whileLoop condition body =>
      .of .kwWhile :: (condition.words ++ .of .kwLoop :: .of .newline ::
        (body.words ++ [.of .kwEnd]))
  | .forLoop counter first last reverse body =>
      .of .kwFor :: counter.word :: .of .kwIn :: ((if reverse then [.of .kwReverse] else []) ++
        (first.words ++ .of .dotDot :: (last.words ++ .of .kwLoop :: .of .newline ::
          (body.words ++ [.of .kwEnd]))))
  | .branch condition thenBody elseBody =>
      .of .kwIf :: (condition.words ++ .of .kwThen :: .of .newline ::
        (thenBody.words ++ (elseWords elseBody ++ [.of .kwEnd])))
  | .returning value => .of .kwReturn :: announced [] value
  | .call callee => callee.expression.words

/-- A body, line by line. -/
def Body.words : Body → List Word
  | .mk declarations statements => localWords declarations ++ statementWords statements

/-- The other branch of a conditional statement, if it has one. -/
def elseWords : Option Body → List Word
  | none => []
  | some body => .of .kwElse :: .of .newline :: body.words

/-- The statements of a body, each on a line of its own. -/
def statementWords : List Statement → List Word
  | [] => []
  | statement :: rest => statement.words ++ .of .newline :: statementWords rest

end

theorem statementWords_eq (statements : List Statement) :
    statementWords statements = statements.flatMap fun st => st.words ++ [.of .newline] := by
  induction statements with
  | nil => rfl
  | cons st statements ih => simp [statementWords, ih]

/-! ### Writing programs -/

def Parameter.words (parameter : Parameter) : List Word :=
  parameter.name.word :: .of .colon :: parameter.type.words

def Routine.words (routine : Routine) : List Word :=
  .of .kwRoutine :: routine.name.word :: .of .openParen ::
    (commas (routine.parameters.map Parameter.words) ++ .of .closeParen ::
      (annotationWords routine.returnType ++ .of .kwIs :: .of .newline ::
        (routine.body.words ++ [.of .kwEnd])))

def Declaration.words : Declaration → List Word
  | .routine declared => declared.words
  | .plain declared => declared.words

/-- A program, declaration by declaration. -/
def Program.words (program : Program) : List Word :=
  program.flatMap fun d => d.words ++ [.of .newline]

/-- A program written down. -/
def Program.text (program : Program) : String := String.ofList (layout program.words)

/-- The sum is in parentheses: it binds looser than the product it is a factor of. -/
example :
    Program.text [.plain (.variable (.mk
      ⟨"n", ⟨'n', [], by decide, rfl, nofun⟩, fun kind => by cases kind <;> decide⟩ (some .real)
      (some (.binary .multiply (.real ⟨"2.50", by decide⟩)
        (.binary .add (.integer 1) (.integer 3))))))] =
      "var n : real is 2.50 * ( 1 + 3 ) \n" := by
  decide

end Source

end ProcLang
