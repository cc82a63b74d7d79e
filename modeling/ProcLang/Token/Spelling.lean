import ProcLang.PrefixTree
import ProcLang.Token

/-!
# ProcLang.Token.Spelling

How tokens are spelled: the reserved words, the operators and punctuation, and the shapes of
identifiers and numbers. Letters and digits are those of ASCII.

A number needs a digit after its point, so that a range between two integers is read as a number,
two points and a number.
-/

namespace ProcLang

namespace Token

/-- The reserved words. -/
def keywordEntries : List (String × TokenKind) :=
  [("var", .kwVar), ("type", .kwType), ("routine", .kwRoutine), ("is", .kwIs),
   ("integer", .kwInteger), ("real", .kwReal), ("boolean", .kwBoolean), ("record", .kwRecord),
   ("array", .kwArray), ("true", .kwTrue), ("false", .kwFalse), ("while", .kwWhile),
   ("for", .kwFor), ("loop", .kwLoop), ("end", .kwEnd), ("reverse", .kwReverse), ("in", .kwIn),
   ("if", .kwIf), ("then", .kwThen), ("else", .kwElse), ("not", .kwNot), ("and", .kwAnd),
   ("or", .kwOr), ("xor", .kwXor), ("return", .kwReturn)]

/-- Operators and punctuation, with the mark that opens a comment. -/
def operatorEntries : List (String × TokenKind) :=
  [("//", .comment), ("<", .less), (">", .greater), ("=", .equal), ("<=", .lessEqual),
   (">=", .greaterEqual), ("/=", .notEqual), (":=", .assign), ("+", .plus), ("-", .minus),
   ("*", .star), ("/", .slash), ("%", .percent), ("(", .openParen), (")", .closeParen),
   ("[", .openBracket), ("]", .closeBracket), (",", .comma), (".", .dot), ("..", .dotDot),
   (";", .semicolon), (":", .colon)]

/-- The reserved words as a prefix tree. -/
def keywords : PrefixTree TokenKind := PrefixTree.ofList keywordEntries

/-- Operators and punctuation as a prefix tree. -/
def operators : PrefixTree TokenKind := PrefixTree.ofList operatorEntries

/-! ### Characters -/

/-- A character that separates tokens and is none. -/
def isGapChar (c : Char) : Bool := c == ' ' || c == '\t' || c == '\r'

/-- A decimal digit. -/
def isDigit (c : Char) : Bool := '0' ≤ c && c ≤ '9'

/-- A character that an identifier can begin with. -/
def isNameStart (c : Char) : Bool :=
  ('A' ≤ c && c ≤ 'Z') || ('a' ≤ c && c ≤ 'z') || c == '_'

/-- A character that can stand in an identifier after its first one. -/
def isNameChar (c : Char) : Bool := isNameStart c || isDigit c

/-! ### The token at the beginning of a text -/

/-- The kind of a word: its own if it is reserved, otherwise an identifier. -/
def wordKind (word : List Char) : TokenKind := (keywords.findChars word).getD .identifier

/-- The length of the fraction a text begins with, a point and digits; zero if it begins with no
fraction. -/
def fractionLength : List Char → Nat
  | '.' :: rest =>
      match (rest.takeWhile isDigit).length with
      | 0 => 0
      | n => n + 1
  | _ => 0

/-- The kind and the length of the number a text begins with. It is a real number if it has a
fraction; a number without digits before its point is a fraction alone. -/
def number? (cs : List Char) : Option (TokenKind × Nat) :=
  let whole := (cs.takeWhile isDigit).length
  match fractionLength (cs.drop whole), whole with
  | 0, 0 => none
  | 0, _ => some (.integerLiteral, whole)
  | fraction, _ => some (.realLiteral, whole + fraction)

/-- The kind and the length of the token that a text beginning with `c` and continuing with `rest`
starts with, given that it starts with neither a gap nor a comment. -/
def lexeme (c : Char) (rest : List Char) : TokenKind × Nat :=
  if isNameStart c then
    let word := c :: rest.takeWhile isNameChar
    (wordKind word, word.length)
  else
    match number? (c :: rest) with
    | some found => found
    | none =>
        if c = '\n' then (.newline, 1)
        else (operators.longestKey (c :: rest)).getD (.illegal, 1)

end Token

end ProcLang
