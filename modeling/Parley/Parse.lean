import Parley.Grammar.Reading
import Parley.Node.Build
import Parley.Node.Source
import Parley.Text.Decimal

/-! From text to nodes: the concrete tree of a text is converted from the leaves up. Conversion itself
refuses only a block that names a parameter twice and an integer with too many digits. -/

namespace Parley

open Parley.Grammar

/-- What is wrong with a text. -/
inductive ParseProblem where
  | unexpected (text : String)
  | unexpectedCharacter (char : Char)
  | unterminatedString
  | unexpectedEnd
  | duplicateParameter (params : List String)
  deriving DecidableEq, Repr

def ParseProblem.message : ParseProblem → String
  | .unexpected text => "Unexpected " ++ Text.quoted text
  | .unexpectedCharacter char => "Unexpected character " ++ Text.quoted (String.singleton char)
  | .unterminatedString => "Unterminated string literal"
  | .unexpectedEnd => "Unexpected end of input"
  | .duplicateParameter params => BuildError.duplicateMessage params

/-- A refused text: what is wrong and where. -/
structure ParseError where
  problem : ParseProblem
  position : Position
  deriving DecidableEq, Repr

def ParseError.message (e : ParseError) : String := e.problem.message

/-- Why a text gives no node. An integer that is too long is not an error of the text: it ends the
reading program itself. -/
inductive ParseFailure where
  | refused (error : ParseError)
  | integerTooLong (error : Text.DecimalError)
  deriving DecidableEq, Repr

/-- The error that a refusal by the grammar amounts to; a stray quote begins a string that does not
end. -/
def ParseError.ofRefusal (file : Option String) : Refusal → ParseError
  | .unexpected text place => ⟨.unexpected text, place.position file⟩
  | .stray char place =>
    if char = '"' || char = '\'' then ⟨.unterminatedString, place.position file⟩
    else ⟨.unexpectedCharacter char, place.position file⟩
  | .unexpectedEnd place => ⟨.unexpectedEnd, place.position file⟩

/-- The characters between the quotes of a string literal, escapes resolved: a backslash before `n`,
`t`, `r` or `0` stands for a control character, before any other for that one. -/
def unescape : List Char → List Char
  | [] => []
  | '\\' :: c :: cs =>
    (match c with
      | 'n' => '\n'
      | 't' => '\t'
      | 'r' => '\r'
      | '0' => '\x00'
      | c => c) :: unescape cs
  | c :: cs => c :: unescape cs

def dropMark (s : String) : String := String.ofList (s.toList.drop 1)

/-- The expression that a word stands for. -/
def Atom.ofWord : String → Atom
  | "true" => .boolean true
  | "false" => .boolean false
  | "nil" => .nil
  | "self" => .self
  | "super" => .super
  | word => .variable word

/-- The expression that a single token stands for. -/
def Atom.ofToken (t : Token) : Except ParseFailure Atom :=
  match t.kind with
  | .integer =>
    match Text.readDigits t.text.toList with
    | .ok n => .ok (.integer n)
    | .error e => .error (.integerTooLong e)
  | .string => .ok (.string (String.ofList (unescape (t.text.toList.drop 1).dropLast)))
  | .symbol => .ok (.symbol (dropMark t.text))
  | .slot => .ok (.slot (dropMark t.text))
  | _ => .ok (.ofWord t.text)

/-- The target of an assignment, a name or an instance variable. -/
def Target.ofToken (t : Token) : Target :=
  match t.kind with
  | .slot => .slot (dropMark t.text)
  | _ => .assign t.text

mutual

/-- The node of a concrete tree of a file. -/
def Node.ofTree (file : Option String) : Tree → Except ParseFailure Node
  | .atom token => do
    return .atom (some ⟨file, token.span⟩) (← Atom.ofToken token)
  | .list span items => do
    return .list (some ⟨file, span⟩) (← Node.ofTrees file items)
  | .unary span receiver name => do
    return .send (some ⟨file, span⟩) (← Node.ofTree file receiver) name.text []
  | .binary span receiver operator argument => do
    let receiver ← Node.ofTree file receiver
    let argument ← Node.ofTree file argument
    return .send (some ⟨file, span⟩) receiver operator.text [argument]
  | .keyword span receiver name keywords arguments => do
    let receiver ← Node.ofTree file receiver
    let arguments ← Node.ofTrees file arguments
    let selector := Selector.make (name.map (·.text)) (keywords.map (·.text))
    return .send (some ⟨file, span⟩) receiver selector arguments
  | .block span params bodySpan body => do
    let names := params.map (·.text)
    let body ← Node.ofTrees file body
    if names.Nodup then
      return .block (some ⟨file, span⟩) names (bodySpan.map (⟨file, ·⟩)) body
    else
      throw (.refused ⟨.duplicateParameter names, Origin.position ⟨file, span⟩⟩)
  | .define span name operator value => do
    return .store (some ⟨file, span⟩) (.define name.text operator.text) (← Node.ofTree file value)
  | .assign span target _ value => do
    return .store (some ⟨file, span⟩) (.ofToken target) (← Node.ofTree file value)
  | .answer span value => do
    return .answer (some ⟨file, span⟩) (← Node.ofTree file value)

def Node.ofTrees (file : Option String) : List Tree → Except ParseFailure (List Node)
  | [] => return []
  | t :: ts => do
    let n ← Node.ofTree file t
    let ns ← Node.ofTrees file ts
    return n :: ns

end

def Node.ofBody (file : Option String) (body : Body) : Except ParseFailure Node := do
  return .suite (body.span.map (⟨file, ·⟩)) .program (← Node.ofTrees file body.statements)

/-- Reads a text with one of the grammar's readers and converts the result. -/
def parseWith {α : Type} (read : String → Except Refusal α)
    (convert : Option String → α → Except ParseFailure Node) (text : String)
    (file : Option String) : Except ParseFailure Node :=
  match read text with
  | .ok tree => convert file tree
  | .error refusal => .error (.refused (.ofRefusal file refusal))

def parseProgram (text : String) (file : Option String) : Except ParseFailure Node :=
  parseWith readProgram Node.ofBody text file

def parseExpression (text : String) (file : Option String) : Except ParseFailure Node :=
  parseWith readExpression Node.ofTree text file

end Parley
