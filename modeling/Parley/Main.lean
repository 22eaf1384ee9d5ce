import Parley.Command

/-! The program at a terminal. It reads the arguments, the source file and the lines of a session, and
writes what the command answers; a session is answered line by line. -/

namespace Parley.Terminal

open Parley.Command

/-- A number of steps that no run reaches. -/
def fuel : Nat := Nat.pow 2 62

/-- The exit code of a run that the interpreter itself could not finish. -/
def abortCode : UInt32 := 1

/-- What an abort says on the error stream. -/
def abortMessage : Abort → String
  | .oversized message => message
  | .crash .bottomless => "the value contains itself"
  | .crash .missingArgument => "an argument is missing"
  | .crash .missingLimit => "no limit is set for the stack"
  | .missingText => "no text was given"
  | .nullInPath => "the path holds a null character"

/-- Ends the program the way the command ended. -/
def conclude (exit : Exit) : IO UInt32 := do
  match exit with
  | .code n => return n.toUInt32
  | .aborted a =>
    (← IO.getStderr).putStrLn (abortMessage a)
    return abortCode

def present (finished : Option Finished) : IO UInt32 := do
  match finished with
  | none => return abortCode
  | some f =>
    (← IO.getStderr).putStr f.errors
    (← IO.getStdout).putStr f.output
    conclude f.exit

/-- Writes what a session has put out so far, and forgets it. -/
def flush (session : Repl.Session) : IO Repl.Session := do
  let out ← IO.getStdout
  (← IO.getStderr).putStr (session.store.trace.getD "")
  out.putStr session.store.output
  out.flush
  let store := { session.store with output := "", trace := session.store.trace.map fun _ => "" }
  return ⟨store, session.last⟩

/-- One line of the input, without its end. -/
def readLine : IO (Option Repl.Input) := do
  let line ← (← IO.getStdin).getLine
  return if line.isEmpty then none
    else some (.line (if line.back = '\n' then (line.dropEnd 1).toString else line))

/-- Answers line after line. -/
partial def answerLines (limit : Machine.Limit) (stream : Colour.Stream) (session : Repl.Session) :
    IO UInt32 := do
  let session ← flush (session.write Repl.prompt)
  match Repl.reply limit fuel stream (← readLine) session with
  | none => return abortCode
  | some (.more session) => answerLines limit stream session
  | some (.over abort session) =>
    discard (flush session)
    conclude (match abort with
      | none => .code 0
      | some a => .aborted a)

def readFile (path : String) : IO (Except FileError String) := do
  try
    return .ok (← IO.FS.readFile path)
  catch
    | .inappropriateType .. => return .error .isDirectory
    | .permissionDenied .. => return .error .denied
    | _ => return .error .missing

def run (args : List String) : IO UInt32 := do
  let noColour := (← IO.getEnv "NO_COLOR").isSome
  let shown : Colour.Stream := ⟨← (← IO.getStdout).isTty, noColour⟩
  let reported : Colour.Stream := ⟨← (← IO.getStderr).isTty, noColour⟩
  match plan args with
  | .stop finished => present (some finished)
  | .text o code => present (process reported fuel o code textName)
  | .file o path => present (processFile reported fuel o path (← readFile path))
  | .session o => answerLines o.limit shown (.greeted o.trace)

end Parley.Terminal

/-- The program. -/
def main (args : List String) : IO UInt32 := Parley.Terminal.run args
