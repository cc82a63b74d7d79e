import ProcLang.Position

/-!
# ProcLang.Token

Tokens: the smallest pieces of a source text that mean something. A `Token` has a kind, its text
and the place where it starts; what stands in front of it is dropped, except that a token remembers
where the comment before it begins. Line breaks are tokens of their own, and so is the end of the
text. A character that begins no token is an illegal token, and so tokenizing never fails.
-/

namespace ProcLang

/-- The kinds of tokens: the end of the text, pieces with a text of their own, operators and
punctuation, and the reserved words. -/
inductive TokenKind where
  | endOfFile | comment | illegal | identifier | integerLiteral | realLiteral
  | less | greater | equal | lessEqual | greaterEqual | notEqual | assign
  | plus | minus | star | slash | percent
  | openParen | closeParen | openBracket | closeBracket
  | comma | dot | dotDot | semicolon | colon | newline
  | kwVar | kwType | kwRoutine | kwIs | kwInteger | kwReal | kwBoolean | kwRecord | kwArray
  | kwTrue | kwFalse | kwWhile | kwFor | kwLoop | kwEnd | kwReverse | kwIn
  | kwIf | kwThen | kwElse | kwNot | kwAnd | kwOr | kwXor | kwReturn
  deriving DecidableEq, Repr

namespace TokenKind

/-- Every kind with the name it is shown by. -/
def names : List (TokenKind × String) :=
  [(.endOfFile, "EOF"), (.comment, "Comment"), (.illegal, "Illegal"),
   (.identifier, "Identifier"), (.integerLiteral, "IntegerLiteral"),
   (.realLiteral, "RealLiteral"), (.less, "Less"), (.greater, "Greater"), (.equal, "Equal"),
   (.lessEqual, "LessEqual"), (.greaterEqual, "GreaterEqual"), (.notEqual, "NotEqual"),
   (.assign, "Assign"), (.plus, "Plus"), (.minus, "Minus"), (.star, "Star"), (.slash, "Slash"),
   (.percent, "Percent"), (.openParen, "OpenParen"), (.closeParen, "CloseParen"),
   (.openBracket, "OpenBracket"), (.closeBracket, "CloseBracket"), (.comma, "Comma"),
   (.dot, "Dot"), (.dotDot, "DotDot"), (.semicolon, "Semicolon"), (.colon, "Colon"),
   (.newline, "Newline"), (.kwVar, "Var"), (.kwType, "Type"), (.kwRoutine, "Routine"),
   (.kwIs, "Is"), (.kwInteger, "Integer"), (.kwReal, "Real"), (.kwBoolean, "Boolean"),
   (.kwRecord, "Record"), (.kwArray, "Array"), (.kwTrue, "True"), (.kwFalse, "False"),
   (.kwWhile, "While"), (.kwFor, "For"), (.kwLoop, "Loop"), (.kwEnd, "End"),
   (.kwReverse, "Reverse"), (.kwIn, "In"), (.kwIf, "If"), (.kwThen, "Then"), (.kwElse, "Else"),
   (.kwNot, "Not"), (.kwAnd, "And"), (.kwOr, "Or"), (.kwXor, "Xor"), (.kwReturn, "Return")]

/-- The name a kind is shown by. -/
def name (kind : TokenKind) : String := (names.lookup kind).getD ""

/-- The kind with a name. -/
def ofName? (name : String) : Option TokenKind :=
  (names.find? fun entry => entry.2 == name).map Prod.fst

instance : ToString TokenKind := ⟨name⟩

end TokenKind

/-- A piece of source text. -/
structure Token where
  kind : TokenKind
  text : String
  start : Position
  /-- Where the comment in front of the token begins, if there is one. -/
  comment : Option Position := none
  deriving DecidableEq, Repr

namespace Token

/-- The place just past the last character of a token. A line break and the end of the text stop
where they start. -/
def stop (token : Token) : Position :=
  match token.kind with
  | .newline | .endOfFile => token.start
  | _ => token.start.right token.text.length

/-- The stretch of text that a token covers. -/
def span (token : Token) : Span := ⟨token.start, token.stop⟩

/-- How a token is named in a message. -/
def display (token : Token) : String :=
  match token.kind with
  | .endOfFile => "end of file"
  | .newline => "line break"
  | _ => token.text

instance : ToString Token := ⟨display⟩

/-- The token is of one of the given kinds. -/
def isOneOf (token : Token) (kinds : List TokenKind) : Bool := kinds.contains token.kind

end Token

end ProcLang
