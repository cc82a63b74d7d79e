import ProcLang.Diagnostic
import ProcLang.Token.Stream

/-!
# ProcLang.Token.Lexer

Reading tokens one at a time, with a look at the next one before it is taken. A `Lexer` holds the
unread text and a buffer of at most one token. `peek` fills the buffer, `next` empties it, and the
end of the text is never taken: it can be read again and again. `scan` reads past the buffer, and
fails once the end of the text has been read. `position` and `atEnd` speak of the unread text, to
which a token in the buffer no longer belongs.
-/

namespace ProcLang

/-- An unread text, its place, a token that has been looked at, and whether the end of the text
has been read. -/
structure Lexer where
  rest : List Char
  place : Position
  buffer : Option Token
  finished : Bool

namespace Lexer

/-- A lexer before the first token of a source text. -/
def ofSource (source : String) : Lexer := ⟨source.toList, Position.origin, none, false⟩

/-- The place of the next unread character. -/
def position (lexer : Lexer) : Position := lexer.place

/-- No character is left unread. -/
def atEnd (lexer : Lexer) : Bool := lexer.rest.isEmpty

/-- Takes a token from the unread text and leaves the buffer as it is. -/
def read (lexer : Lexer) : Token × Lexer :=
  let reading := Token.readToken lexer.rest lexer.place
  (reading.token,
    { lexer with
        rest := reading.rest
        place := reading.next
        finished := lexer.finished || reading.token.kind == .endOfFile })

/-- The next token, which stays in the buffer. -/
def peek (lexer : Lexer) : Token × Lexer :=
  match lexer.buffer with
  | some token => (token, lexer)
  | none =>
      let (token, after) := lexer.read
      (token, { after with buffer := some token })

/-- The next token, which leaves the buffer unless it is the end of the text. -/
def next (lexer : Lexer) : Token × Lexer :=
  let (token, after) := lexer.peek
  (token, if token.kind = .endOfFile then after else { after with buffer := none })

/-- Takes a token from the unread text, past the buffer. Fails after the end of the text. -/
def scan (lexer : Lexer) : Except Diagnostic Token × Lexer :=
  if lexer.finished then (.error ⟨.alreadyAtEnd, lexer.position⟩, lexer)
  else
    let (token, after) := lexer.read
    (.ok token, after)

end Lexer

end ProcLang
