import Parley.Command.Files
import Parley.Command.Options
import Parley.Grammar.Outline
import Parley.Repl

/-! The command: it runs a file or a text, shows its outline, or starts an interactive session. -/

namespace Parley.Command

open Parley.Interpreter Parley.Machine

/-- What surrounds a run of the command. -/
structure World where
  directory : Directory
  input : String
  stream : Colour.Stream
  deriving Repr, Inhabited

/-- How the command ends. -/
inductive Exit where
  | code (code : Nat)
  | aborted (abort : Abort)
  deriving DecidableEq, Repr

/-- What a run of the command leaves behind. -/
structure Finished where
  exit : Exit
  output : String
  errors : String
  deriving Repr

def usage : String :=
  "usage: oops [-h] [-c CODE] [--ast] [--lark] [--pos] [--trace]\n" ++
    "            [--max-depth MAX_DEPTH]\n            [source]\n"

def help : String :=
  usage ++ "\nOops language interpreter\n\npositional arguments:\n" ++
    "  source                Program file to run, starts the REPL when omitted\n\noptions:\n" ++
    "  -h, --help            show this help message and exit\n" ++
    "  -c CODE               Run source text and show the value of the last\n" ++
    "                        statement\n" ++
    "  --ast                 Show the parsed AST instead of running\n" ++
    "  --lark                Show Lark parse tree instead of running\n" ++
    "  --pos                 Show line:column positions with --lark\n" ++
    "  --trace               Log every message send while running\n" ++
    "  --max-depth MAX_DEPTH\n" ++
    "                        Deepest evaluation stack before StackOverflow (default\n" ++
    "                        20000)\n"

/-- The end of a command that was used wrongly. -/
def misused (message : String) : Finished :=
  ⟨.code 2, "", usage ++ "oops: error: " ++ message ++ "\n"⟩

/-- A marked report as a line for the error stream. -/
def reportTo (stream : Colour.Stream) (report : String) : String :=
  Colour.render report stream ++ "\n"

/-- Runs a program and reports its failure; the value of a text given on the command line is shown. -/
def runAndReport (stream : Colour.Stream) (fuel : Nat) (o : Options) (file : String)
    (program : Node) : Option Finished :=
  match runProgram o.limit fuel program (.initial o.trace) with
  | none => none
  | some (ending, s) =>
    let log := s.trace.getD ""
    match ending with
    | .crashed c => some ⟨.aborted (.crash c), s.output, log⟩
    | .failed e site =>
      some ⟨.code 1, s.output, log ++ reportTo stream (e.report site (some file))⟩
    | .completed v | .returned v =>
      if o.code.isNone then some ⟨.code 0, s.output, log⟩
      else match s.literal v with
        | .ok text => some ⟨.code 0, s.output ++ text ++ "\n", log⟩
        | .error fault => some ⟨.aborted fault.abort, s.output, log⟩

/-- Deals with a text as the options say. -/
def process (stream : Colour.Stream) (fuel : Nat) (o : Options) (text file : String) :
    Option Finished :=
  match parseProgram text (some file) with
  | .error (.integerTooLong e) => some ⟨.aborted (.oversized e.message), "", ""⟩
  | .error (.refused e) => some ⟨.code 1, "", reportTo stream (e.report (some file))⟩
  | .ok program =>
    if o.tree then
      match Grammar.readProgram text with
      | .ok body => some ⟨.code 0, body.outline o.places, ""⟩
      | .error _ => some ⟨.code 0, "", ""⟩
    else if o.outline then some ⟨.code 0, program.outline, ""⟩
    else runAndReport stream fuel o file program

/-- Deals with the contents of a file, if there are any. -/
def processFile (stream : Colour.Stream) (fuel : Nat) (o : Options) (path : String)
    (contents : Except FileError String) : Option Finished :=
  if path.toList.contains '\x00' then some ⟨.aborted .nullInPath, "", ""⟩
  else match contents with
    | .ok text => process stream fuel o (String.ofList (plainLines text.toList)) path
    | .error e => some (misused ("cannot read " ++ path ++ ": " ++ e.message))

/-- What the arguments come to. -/
inductive Plan where
  /-- nothing is run: help is shown, or a complaint -/
  | stop (finished : Finished)
  | text (options : Options) (code : String)
  | file (options : Options) (path : String)
  | session (options : Options)
  deriving Repr

/-- The name of a text that was given on the command line. -/
def textName : String := "<string>"

/-- Reads the arguments. An empty source is no source. -/
def plan (argv : List String) : Plan :=
  match readOptions argv with
  | .error .help => .stop ⟨.code 0, help, ""⟩
  | .error (.error message) => .stop (misused message)
  | .ok o =>
    match o.code, o.source.filter (· ≠ "") with
    | some _, some _ => .stop (misused "-c cannot be combined with a source file")
    | some (some code), none => .text o code
    | some none, none => .stop ⟨.aborted .missingText, "", ""⟩
    | none, some path => .file o path
    | none, none =>
      if o.outline || o.tree then .stop (misused "--ast and --lark need a source file or -c")
      else .session o

def converse (w : World) (fuel : Nat) (limit : Limit) (traced : Bool) : Option Finished :=
  (Repl.interact limit fuel w.stream traced (Repl.inputs w.input)).map fun (abort, session) =>
    let exit := match abort with
      | none => Exit.code 0
      | some a => .aborted a
    ⟨exit, session.store.output, session.store.trace.getD ""⟩

def run (w : World) (fuel : Nat) (argv : List String) : Option Finished :=
  match plan argv with
  | .stop finished => some finished
  | .text o code => process w.stream fuel o code textName
  | .file o path => processFile w.stream fuel o path (w.directory.read path)
  | .session o => converse w fuel o.limit o.trace

end Parley.Command
