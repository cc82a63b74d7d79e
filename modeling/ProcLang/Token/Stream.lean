import ProcLang.Token.Spelling

/-!
# ProcLang.Token.Stream

From a text to its tokens. `readToken` splits a text into the gap at its beginning, the token after
the gap and the rest; a gap is made of blanks and at most one comment, which reaches to the end of
its line. `tokenStream` reads tokens until the text ends, and `tokenize` is the list of them with
the end of the text as its last token.
-/

namespace ProcLang

namespace Token

/-- The part of a text before its first line feed. -/
def restOfLine (cs : List Char) : List Char := cs.takeWhile (· ≠ '\n')

/-- The length of the comment a text begins with; a comment is opened by two slashes and reaches
to the end of the line. -/
def commentLength (cs : List Char) : Nat :=
  match cs with
  | '/' :: '/' :: _ => (restOfLine cs).length
  | _ => 0

/-- What reading one token gives: the token, the text after it and the place of that text. -/
structure Reading where
  token : Token
  rest : List Char
  next : Position

/-- The place after a token of the given kind and length. -/
def placeAfter (start : Position) (kind : TokenKind) (length : Nat) : Position :=
  match kind with
  | .newline => start.below
  | _ => start.right length

/-- Reads the first token of a text that begins at a place. The gap before the token is dropped. -/
def readToken (cs : List Char) (place : Position) : Reading :=
  let blanks := (cs.takeWhile isGapChar).length
  let afterBlanks := cs.drop blanks
  let commentStart := place.right blanks
  let skipped := commentLength afterBlanks
  let comment := if skipped = 0 then none else some commentStart
  let start := commentStart.right skipped
  match afterBlanks.drop skipped with
  | [] => ⟨⟨.endOfFile, "", start, comment⟩, [], start⟩
  | c :: rest =>
      let (kind, length) := lexeme c rest
      ⟨⟨kind, String.ofList ((c :: rest).take length), start, comment⟩,
        (c :: rest).drop length, placeAfter start kind length⟩

/-- The tokens of a text, and the token that stands for its end. -/
structure Stream where
  tokens : List Token
  ending : Token

/-- At most `fuel` tokens of a text that begins at a place. A text of `n` characters has at most
`n` tokens before its end. -/
def streamFrom : Nat → List Char → Position → Stream
  | 0, _, place => ⟨[], ⟨.endOfFile, "", place, none⟩⟩
  | fuel + 1, cs, place =>
      let reading := readToken cs place
      if reading.token.kind = .endOfFile then ⟨[], reading.token⟩
      else
        let after := streamFrom fuel reading.rest reading.next
        ⟨reading.token :: after.tokens, after.ending⟩

/-- All tokens of a source text. -/
def tokenStream (source : String) : Stream :=
  let cs := source.toList
  streamFrom (cs.length + 1) cs Position.origin

/-- All tokens of a source text, the end of the text being the last one. -/
def tokenize (source : String) : List Token :=
  let stream := tokenStream source
  stream.tokens ++ [stream.ending]

end Token

end ProcLang
