import ProcLang.Journal
import ProcLang.Token.Stream
import ProcLang.Tree.Arena

/-!
# ProcLang.Parse.State

The state of a parser and its elementary steps. A `Parser` reads tokens, adds nodes to an arena and
either gives a result or fails with a diagnostic; what it has read and added stays in either case.

Failing does not end the reading of a program: whoever can go on after an error records it and
skips tokens up to a place where the program makes sense again (`recovering`). A failure is noted
in the journal where it is raised, before any token is skipped. A comment is noted when the token
behind it becomes the current one.

Loops (`loop`) and recursion (`recursive`) are bounded by the number of unread tokens. Every round
of a loop and every nested call takes at least one token, so the bound is never what ends them.
-/

namespace ProcLang

namespace Parser

/-- The unread tokens, the token that ends them, the place where the last taken token stopped, and
what has been produced so far. -/
structure State where
  unread : List Token
  ending : Token
  lastStop : Position
  arena : Arena
  errors : Array Diagnostic
  journal : Journal

namespace State

/-- The next token, which is the end of the text if no other one is left. -/
def current (s : State) : Token := s.unread.headD s.ending

/-- The state with an event added to the journal. -/
def note (s : State) (event : Event) : State := { s with journal := s.journal.push event }

/-- Notes the comment in front of the current token, if there is one. -/
def noteComment (s : State) : State :=
  match s.current.comment with
  | some place => s.note (.commentSkipped place)
  | none => s

/-- Takes the current token. The end of the text stays where it is. -/
def advance (s : State) : Token × State :=
  match s.unread with
  | [] => (s.ending, s)
  | token :: rest => (token, { s with unread := rest, lastStop := token.stop }.noteComment)

/-- The state before the first token of a source text. -/
def ofSource (source : String) : State :=
  let stream := Token.tokenStream source
  State.noteComment ⟨stream.tokens, stream.ending, Position.origin, Arena.empty, #[], #[]⟩

end State

end Parser

/-- Reads tokens and adds nodes; gives a result or fails with a diagnostic. -/
abbrev Parser := ExceptT Diagnostic (StateM Parser.State)

/-- What is wrong with a token that cannot stand where it does. -/
def Token.unexpected (token : Token) (expected : String) : Diagnostic :=
  ⟨if token.kind = .illegal then .illegalToken token.text
    else .unexpectedToken expected token.display, token.start⟩

namespace Parser

/-! ### Tokens -/

/-- The current token. -/
def current : Parser Token := do return (← get).current

/-- Takes the current token. -/
def advance : Parser Token := modifyGet State.advance

/-- Takes the current token and drops it. -/
def skip : Parser Unit := discard advance

/-- The stretch of text from a place to where the last taken token stopped. -/
def spanFrom (start : Position) : Parser Span := do return ⟨start, (← get).lastStop⟩

/-! ### Failing -/

/-- Adds an event to the journal. -/
def note (event : Event) : Parser Unit := modify (·.note event)

/-- Fails, and leaves the current token. -/
def raise {α : Type} (d : Diagnostic) : Parser α := do
  note (.syntaxError d)
  throw d

/-- Fails, and takes the current token whatever it is. -/
def raisePast {α : Type} (d : Diagnostic) : Parser α := do
  note (.syntaxError d)
  skip
  throw d

/-- Fails because of the current token, and leaves it. -/
def refuse {α : Type} (expected : String) : Parser α := do
  raise ((← current).unexpected expected)

/-- What is wrong with the current token, which is taken unless it is a line break: recovery wants
to find the line break. -/
def reject (expected : String) : Parser Diagnostic := do
  let token ← current
  let d := token.unexpected expected
  note (.syntaxError d)
  if token.kind ≠ .newline then skip
  return d

/-- Takes a token of one of the given kinds. Fails at any other token, which is rejected. -/
def expectOneOf (kinds : List TokenKind) (expected : String) : Parser Token := do
  if (← current).isOneOf kinds then advance else throw (← reject expected)

/-- Takes a token of the given kind. -/
def expect (kind : TokenKind) (expected : String) : Parser Token := expectOneOf [kind] expected

/-! ### Nodes -/

/-- Adds a node to the arena. -/
def add (family : Family) (node : Node family) : Parser (NodeId family) :=
  modifyGet fun s =>
    let (id, arena) := s.arena.add family node
    (id, { s with arena })

/-! ### Recovery -/

/-- Adds a diagnostic to the errors of the program. -/
def record (d : Diagnostic) : Parser Unit :=
  modify fun s => { s with errors := s.errors.push d }

/-- At most `fuel` tokens of what `synchronize` drops. -/
def synchronizeWithin (consume stopBefore : List TokenKind) : Nat → Parser Unit
  | 0 => pure ()
  | fuel + 1 => do
      let token ← current
      if token.kind = .endOfFile || token.isOneOf stopBefore then return ()
      else
        skip
        if token.isOneOf consume then return () else synchronizeWithin consume stopBefore fuel

/-- Drops tokens up to the first one of the kinds `consume`, and that one too. Stops in front of
the kinds `stopBefore` and at the end of the text. -/
def synchronize (consume stopBefore : List TokenKind) : Parser Unit := do
  synchronizeWithin consume stopBefore ((← get).unread.length + 1)

/-- Runs a parser; if it fails, records the diagnostic and synchronizes. -/
def recovering (consume stopBefore : List TokenKind) (fallback : α) (p : Parser α) : Parser α :=
  tryCatch p fun d => do
    record d
    synchronize consume stopBefore
    return fallback

/-! ### Loops and recursion -/

/-- Fails where a bound on loops or recursion is used up. -/
def stuck {α : Type} : Parser α := do raise ⟨.alreadyAtEnd, (← current).start⟩

/-- What a round of a loop finds: a value to go on with, or the last value. -/
inductive Round (σ : Type) where
  | more (value : σ)
  | done (value : σ)

/-- At most `fuel` rounds of a loop. -/
def loopWithin {σ : Type} (step : σ → Parser (Round σ)) : Nat → σ → Parser σ
  | 0, _ => stuck
  | fuel + 1, value => do
      match ← step value with
      | .more next => loopWithin step fuel next
      | .done last => return last

/-- Repeats a step until it is done. A step that is not done takes a token. -/
def loop {σ : Type} (step : σ → Parser (Round σ)) (value : σ) : Parser σ := do
  loopWithin step ((← get).unread.length + 1) value

/-- A recursive parser unfolded to the depth `fuel`. -/
def unfold {ι α : Type} (f : (ι → Parser α) → ι → Parser α) : Nat → ι → Parser α
  | 0, _ => stuck
  | fuel + 1, i => f (unfold f fuel) i

/-- The parser that calls itself where `f` calls its argument. Before such a call `f` takes a
token. -/
def recursive {ι α : Type} (f : (ι → Parser α) → ι → Parser α) (i : ι) : Parser α := do
  unfold f ((← get).unread.length + 1) i

/-- One or more items with commas between them. -/
def commaSeparated {α : Type} (item : Parser α) : Parser (List α) :=
  loop (fun items => do
    let items := items ++ [← item]
    if (← current).kind = .comma then
      skip
      return .more items
    else return .done items) []

end Parser

end ProcLang
