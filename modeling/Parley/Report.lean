import Parley.Colour
import Parley.Interpreter
import Parley.Node.Outline

/-! Errors as they are reported: the place, the kind and the message, marked for colours. -/

namespace Parley

/-- The place of an error: its own if it names a file, its line in the given file if it has one, and
else the file alone. -/
def reportPlace (position : Option Position) (file : Option String) : String :=
  match position with
  | none => Position.fileName file
  | some p => if p.file.isSome then p.location else p.place file

/-- A report in one line, with colour codes. -/
def reportLine (kind message : String) (position : Option Position) (file : Option String) :
    String :=
  "\\-s-" ++ reportPlace position file ++ ":\\-n- \\-r-" ++ kind ++ "\\-n-: " ++ message

def ParseError.report (e : ParseError) (file : Option String) : String :=
  reportLine "ParseError" e.message (some e.position) file

/-- The position of the node where an error arose. -/
def sitePosition (site : Option Task) : Option Position :=
  (site.bind Task.node?).bind Node.position

/-- The report of an error of a running program. -/
def Error.report (e : Error) (site : Option Task) (file : Option String) : String :=
  reportLine e.kind e.message (sitePosition site) file

/-- What ends the interpreter itself. -/
inductive Abort where
  | crash (crash : Crash)
  /-- a number that is too long to be read or written -/
  | oversized (message : String)
  /-- a text to run was announced and not given -/
  | missingText
  /-- a path with a character that no path can hold -/
  | nullInPath
  deriving DecidableEq, Repr

/-- What a value without text does to whoever wants to show it. -/
def TextFault.abort : TextFault → Abort
  | .tooLong => .oversized Text.tooLongMessage
  | .bottomless => .crash .bottomless

end Parley
