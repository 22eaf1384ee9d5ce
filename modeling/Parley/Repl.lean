import Parley.Report

/-! The interactive session. Every line runs in the same store; the latest result is bound to `_`. What
programs print and what the session itself shows go to the same output. -/

namespace Parley.Repl

open Parley.Interpreter

/-- The name of the text of every line. -/
def fileName : String := "<repl>"

/-- A session between two lines. -/
structure Session where
  store : Store
  /-- The value of the latest line that succeeded. -/
  last : Value
  deriving Repr, Inhabited

def Session.initial (traced : Bool) : Session := ⟨.initial traced, .nil⟩

/-- Runs one line; a blank one does nothing and has the value nil. -/
def evalLine (limit : Machine.Limit) (fuel : Nat) (line : String) (session : Session) :
    Option (Result × Session) :=
  let text := Text.strip line
  if text.isEmpty then some (.ended (.completed .nil), session)
  else
    match runText limit fuel text (some fileName) session.store with
    | none => none
    | some (.ended (.completed v), s) =>
      some (.ended (.completed v), ⟨s.define Store.globals "_" v, v⟩)
    | some (.ended (.returned v), s) =>
      some (.ended (.returned v), ⟨s.define Store.globals "_" v, v⟩)
    | some (result, s) => some (result, ⟨s, session.last⟩)

/-- What is shown of a value: nothing of nil. -/
def showValue (s : Store) (v : Value) : Except Abort String :=
  if v = .nil then .ok "" else (s.literal v).mapError TextFault.abort

/-- What is shown of a result, with colour codes. -/
def showResult (s : Store) (result : Result) : Except Abort String :=
  match result with
  | .refused (.refused e) => .ok (e.report (some fileName))
  | .refused (.integerTooLong e) => .error (.oversized e.message)
  | .ended (.completed v) => showValue s v
  | .ended (.returned v) => showValue s v
  | .ended (.failed e site) => .ok (e.report site (some fileName))
  | .ended (.crashed c) => .error (.crash c)

/-- What comes in at the prompt. -/
inductive Input where
  | line (text : String)
  | interrupt
  deriving DecidableEq, Repr

/-- What a text brings to the prompt line by line. A line that holds only the end-of-text character is
an interrupt. -/
def inputs (text : String) : List Input :=
  let pieces := Text.pieces (· == '\n') text.toList
  let lines := pieces.dropLast ++ (pieces.getLast?.toList.filter (· ≠ []))
  lines.map fun cs => if cs = ['\x03'] then .interrupt else .line (String.ofList cs)

def banner : String :=
  "Oops REPL v0.1.0\nStatements run as typed, the last result is available as _\n" ++
    "Type 'exit' or Ctrl-D to quit.\n\n"

def prompt : String := "oops> "

def isFarewell (line : String) : Bool :=
  ["exit", "quit", ":q"].contains (Text.strip line).toLower

/-- Adds text to the output of a session. -/
def Session.write (session : Session) (text : String) : Session :=
  { session with store := { session.store with output := session.store.output ++ text } }

/-- What happens after something came in. -/
inductive Next where
  | more (session : Session)
  /-- the session is over, perhaps because the interpreter itself ended -/
  | over (abort : Option Abort) (session : Session)
  deriving Repr

/-- Answers what came in at the prompt; `none` is the end of the input. The answer is added to the output
of the session. -/
def reply (limit : Machine.Limit) (fuel : Nat) (stream : Colour.Stream) (incoming : Option Input)
    (session : Session) : Option Next :=
  match incoming with
  | none => some (.over none (session.write "\nGoodbye!\n"))
  | some .interrupt =>
    some (.more (session.write "\nKeyboardInterrupt\nType 'exit' to quit.\n"))
  | some (.line line) =>
    if isFarewell line then some (.over none (session.write "Goodbye!\n"))
    else
      match evalLine limit fuel line session with
      | none => none
      | some (result, session) =>
        match showResult session.store result with
        | .error a => some (.over (some a) session)
        | .ok "" => some (.more session)
        | .ok text => some (.more (session.write (Colour.render text stream ++ "\n")))

/-- Prompts and answers until the session is over. -/
def answerAll (limit : Machine.Limit) (fuel : Nat) (stream : Colour.Stream) :
    List Input → Session → Option (Option Abort × Session)
  | [], session =>
    match reply limit fuel stream none (session.write prompt) with
    | none => none
    | some (.over abort session) => some (abort, session)
    | some (.more session) => some (none, session)
  | incoming :: rest, session =>
    match reply limit fuel stream (some incoming) (session.write prompt) with
    | none => none
    | some (.over abort session) => some (abort, session)
    | some (.more session) => answerAll limit fuel stream rest session

def Session.greeted (traced : Bool) : Session := (Session.initial traced).write banner

def interact (limit : Machine.Limit) (fuel : Nat) (stream : Colour.Stream) (traced : Bool)
    (incoming : List Input) : Option (Option Abort × Session) :=
  answerAll limit fuel stream incoming (.greeted traced)

end Parley.Repl
