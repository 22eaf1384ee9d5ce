import Parley.Machine.Run
import Parley.Parse

/-! Running programs. The statements of a program run one after another, each on an empty stack, and leave
their definitions in the store for those that follow. -/

namespace Parley.Interpreter

open Parley.Machine

/-- The depth of the stack that a program may use if nothing else is said. -/
def defaultLimit : Limit := .frames 20000

/-- Runs one task in the global scope. -/
def execute (limit : Limit) (fuel : Nat) (task : Task) (s : Store) : Option (Outcome × Store) :=
  run limit fuel (.initial task .global s)

/-- How a program ends. -/
inductive Ending where
  /-- all statements ran; the value of the last one -/
  | completed (value : Value)
  /-- a statement returned a value out of the program -/
  | returned (value : Value)
  | failed (error : Error) (site : Option Task)
  | crashed (crash : Crash)
  deriving Repr, Inhabited

/-- Runs statements until one fails or returns; `latest` is the value of the one before. -/
def runStatements (limit : Limit) (fuel : Nat) (latest : Value) :
    List Node → Store → Option (Ending × Store)
  | [], s => some (.completed latest, s)
  | n :: rest, s =>
    match execute limit fuel (.node n) s with
    | none => none
    | some (.value v, s) => runStatements limit fuel v rest s
    | some (.failure (.signal v _), s) => some (.returned v, s.log "oops.interp: top level return")
    | some (.failure (.error e site), s) =>
      some (.failed e site, s.log ("oops.interp: statement aborted: " ++ e.describe))
    | some (.crash c, s) => some (.crashed c, s)

def runProgram (limit : Limit) (fuel : Nat) (program : Node) (s : Store) :
    Option (Ending × Store) :=
  runStatements limit fuel .nil program.statements s

/-- What comes of a text: it is refused, or it runs to an ending. -/
inductive Result where
  | refused (failure : ParseFailure)
  | ended (ending : Ending)
  deriving Repr

def runText (limit : Limit) (fuel : Nat) (text : String) (file : Option String) (s : Store) :
    Option (Result × Store) :=
  match parseProgram text file with
  | .error e => some (.refused e, s)
  | .ok program => (runProgram limit fuel program s).map fun r => (.ended r.1, r.2)

end Parley.Interpreter
