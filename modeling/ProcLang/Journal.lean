import ProcLang.Diagnostic
import ProcLang.Stage

/-!
# ProcLang.Journal

The events that the stages note while they work, for whoever wants to follow them. Coarse events
have level `debug`, fine ones level `trace`. A journal is the sequence of events in the order in
which they happened.
-/

namespace ProcLang

/-- How fine an event is. -/
inductive EventLevel where
  | debug
  | trace
  deriving DecidableEq, Repr

/-- Something that a stage did. -/
inductive Event where
  /-- A comment was skipped. -/
  | commentSkipped (place : Position)
  /-- A syntax error was found. -/
  | syntaxError (diagnostic : Diagnostic)
  /-- A body was read up to its closing word. -/
  | bodyParsed (place : Position) (declarations statements : Nat)
  /-- The whole text was read. -/
  | programParsed (declarations errors : Nat)
  /-- A stage began to work on the tree. -/
  | stageStarted (stage : Stage)
  /-- A stage came to its end. -/
  | stageFinished (stage : Stage) (errors : Nat)
  /-- The names of the program were about to be declared. -/
  | programEntered
  /-- The names of a body were about to be declared. -/
  | scopeEntered (place : Position)
  /-- The names of a body went out of sight. -/
  | scopeLeft (place : Position)
  /-- A bare routine name was turned into a call. -/
  | nameTurnedCall (place : Position) (name : String)
  deriving DecidableEq, Repr

/-- The events so far, the oldest first. -/
abbrev Journal := Array Event

namespace Event

/-- How fine an event is: the summaries of the stages are coarse, all else is fine. -/
def level : Event → EventLevel
  | programParsed _ _ | stageStarted _ | stageFinished _ _ => .debug
  | _ => .trace

/-- An event in words. -/
def message : Event → String
  | commentSkipped place => "skipping comment at " ++ place.text
  | syntaxError diagnostic => "syntax error: " ++ diagnostic.text
  | bodyParsed place declarations statements =>
      "parsed body at " ++ place.text ++ ": " ++ toString declarations ++ " declaration(s), " ++
        toString statements ++ " statement(s)"
  | programParsed declarations errors =>
      "parsed " ++ toString declarations ++ " top level declaration(s), " ++ toString errors ++
        " syntax error(s)"
  | stageStarted stage => stage.text ++ " started"
  | stageFinished stage errors =>
      stage.text ++ " finished with " ++ toString errors ++ " error(s)"
  | programEntered => "entering program scope"
  | scopeEntered place => place.text ++ ": entering scope"
  | scopeLeft place => place.text ++ ": leaving scope"
  | nameTurnedCall place name =>
      place.text ++ ": rewriting " ++ Text.quote name ++ " into a call"

end Event

end ProcLang
