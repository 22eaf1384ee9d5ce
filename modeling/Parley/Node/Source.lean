import Parley.Node
import Parley.Selector

/-! Nodes written back as program text. -/

namespace Parley

open Parley.Text

/-- A string as a literal: in double quotes, with quotes and backslashes escaped. -/
def stringLiteral (s : String) : String :=
  String.ofList ('"' :: s.toList.flatMap (fun c => if c = '"' || c = '\\' then ['\\', c] else [c])
    ++ ['"'])

def Atom.source : Atom → String
  | .integer n => toString n
  | .string s => stringLiteral s
  | .symbol name => "#" ++ name
  | .boolean true => "true"
  | .boolean false => "false"
  | .nil => "nil"
  | .variable name => name
  | .slot name => "@" ++ name
  | .self => "self"
  | .super => "super"

/-- What comes before the value of a statement. -/
def Target.source : Target → String
  | .define name operator => "let " ++ name ++ " " ++ operator ++ " "
  | .assign name => name ++ " = "
  | .slot name => "@" ++ name ++ " = "

/-- The words of a selector, each keyword followed by its argument. -/
def interleave : List (List Char) → List String → List String
  | [], _ => []
  | w :: ws, args =>
    if Selector.isPart w then
      match args with
      | [] => String.ofList w :: interleave ws []
      | a :: args => String.ofList w :: a :: interleave ws args
    else String.ofList w :: interleave ws args

/-- The text of a send from the texts of its parts. -/
def sendSource (receiver selector : String) (args : List String) : String :=
  if Selector.isBinary selector then
    "[" ++ receiver ++ " " ++ selector ++ " " ++ args.headD "" ++ "]"
  else
    "[" ++ " ".intercalate (receiver :: interleave (wordsOf selector.toList) args) ++ "]"

/-- The text of a block from its parameters and the text of its body. -/
def blockSource (params : List String) (body : String) : String :=
  let braces := "\x7b " ++ body ++ " \x7d"
  if params.isEmpty then braces
  else "|" ++ " ".intercalate (params.map (· ++ ":")) ++ "| " ++ braces

/-- The text of a suite from the texts of its statements: a program ends every statement with a
semicolon and a line break, a body only separates them. -/
def suiteSource (kind : SuiteKind) (statements : List String) : String :=
  match kind with
  | .sequence => "; ".intercalate statements
  | .program => String.join (statements.map (· ++ ";\n"))

mutual

def Node.source : Node → String
  | .atom _ a => a.source
  | .list _ items => "[" ++ ", ".intercalate (Node.sources items) ++ "]"
  | .store _ target value => target.source ++ value.source
  | .answer _ value => "return " ++ value.source
  | .send _ receiver selector args => sendSource receiver.source selector (Node.sources args)
  | .block _ params _ body => blockSource params (suiteSource .sequence (Node.sources body))
  | .suite _ kind statements => suiteSource kind (Node.sources statements)

def Node.sources : List Node → List String
  | [] => []
  | n :: ns => n.source :: Node.sources ns

end

end Parley
