import Parley.Node
import Parley.Selector
import Parley.Text.Quoted

/-! Checked construction of nodes from parts that may be anything: `none` stands for a part that is not
what belongs there. The checks make sure that a send has as many arguments as its selector takes and
that the parameters of a block are distinct. -/

namespace Parley

/-- Why parts do not make up a node. -/
inductive BuildError where
  | letValue
  | assignValue
  | returnValue
  | nameNotText
  | emptyName
  | listItems
  | statements
  | receiver
  | arguments
  | argumentCount (selector : String) (expected got : Nat)
  | body
  | duplicateParameter (params : List String)
  | notSeveral (sort : String)
  deriving DecidableEq, Repr

namespace BuildError

/-- Whether a part is of the wrong sort, rather than a value that does not fit. -/
def isWrongSort : BuildError → Bool
  | emptyName | argumentCount _ _ _ | duplicateParameter _ => false
  | _ => true

def duplicateMessage (params : List String) : String :=
  "Duplicate block parameter in " ++ Text.quotedList params

def message : BuildError → String
  | letValue => "Let value must be AstNode"
  | assignValue => "Assign value must be AstNode"
  | returnValue => "Return value must be AstNode"
  | nameNotText => "Variable name must be string"
  | emptyName => "Variable name cannot be empty"
  | listItems => "List items must be AstNode instances"
  | statements => "Statements must be AstNode instances"
  | receiver => "Message receiver must be AstNode"
  | arguments => "Message arguments must be AstNode instances"
  | argumentCount selector expected got =>
    "Selector #" ++ selector ++ " takes " ++ toString expected ++ " arguments, got " ++ toString got
  | body => "Block body must be a Sequence"
  | duplicateParameter params => duplicateMessage params
  | notSeveral sort => "'" ++ sort ++ "' object is not iterable"

end BuildError

/-- What stands where several things belong: so many of them, or one thing that has no members. -/
inductive Several (α : Type) where
  | members (all : List α)
  | single (sort : String)

namespace Several

def toExcept : Several α → Except BuildError (List α)
  | members all => .ok all
  | single sort => .error (.notSeveral sort)

end Several

namespace Node

/-- All parts, if each of them is there. -/
def allParts (parts : Several (Option Node)) (error : BuildError) : Except BuildError (List Node) := do
  match (← parts.toExcept).mapM id with
  | some nodes => .ok nodes
  | none => .error error

def mkVariable (name : Option String) : Except BuildError Node :=
  match name with
  | none => .error .nameNotText
  | some "" => .error .emptyName
  | some name => .ok (.atom none (.variable name))

def mkList (items : Several (Option Node)) : Except BuildError Node := do
  return .list none (← allParts items .listItems)

def mkStore (target : Target) (value : Option Node) : Except BuildError Node :=
  match value with
  | some value => .ok (.store none target value)
  | none => .error (if target matches .define _ _ then .letValue else .assignValue)

def mkAnswer (value : Option Node) : Except BuildError Node :=
  match value with
  | some value => .ok (.answer none value)
  | none => .error .returnValue

def mkSuite (kind : SuiteKind) (statements : Several (Option Node)) : Except BuildError Node := do
  return .suite none kind (← allParts statements .statements)

def mkSend (receiver : Option Node) (selector : String) (args : Several (Option Node)) :
    Except BuildError Node :=
  match receiver with
  | none => .error .receiver
  | some receiver => do
    let args ← allParts args .arguments
    if Selector.arity selector = args.length then .ok (.send none receiver selector args)
    else .error (.argumentCount selector (Selector.arity selector) args.length)

def mkBlock (params : Several String) (body : Option Node) : Except BuildError Node :=
  match body with
  | some (.suite origin .sequence statements) => do
    let params ← params.toExcept
    if params.Nodup then .ok (.block none params origin statements)
    else .error (.duplicateParameter params)
  | _ => .error .body

end Node

end Parley
