import Parley.Store

/-! The vocabulary of evaluation. To evaluate a task is to act again and again: to finish with a value, to
fail, or to request the value of a node and say in a `Work` what to do with it. The machine that
serves the requests is defined elsewhere and knows nothing of the language. -/

namespace Parley

/-- What surrounds the evaluation of a node: the frame for names, the receiver, and the activation
that a return goes back to, if a method is running. -/
structure Scope where
  env : FrameRef
  self : Value
  home : Option ActivationRef
  deriving DecidableEq, Repr, Inhabited

/-- The scope of a program's statements. -/
def Scope.global : Scope := ⟨Store.globals, .nil, none⟩

/-- What can be evaluated. -/
inductive Task where
  | node (node : Node)
  /-- a message whose receiver and arguments are values already -/
  | message (receiver : Value) (selector : String) (args : List Value)
  /-- the same, looked up above the class `owner` -/
  | superMessage (receiver : Value) (owner selector : String) (args : List Value)
  deriving Repr, Inhabited

def Task.node? : Task → Option Node
  | .node n => some n
  | _ => none

/-- What goes outward from a task instead of a value. -/
inductive Failure where
  /-- an error, with the task that was running when it arose -/
  | error (error : Error) (site : Option Task)
  /-- a return to an activation, or out of the program -/
  | signal (value : Value) (home : Option ActivationRef)
  deriving Repr, Inhabited

/-- What ends the whole run: no program can recover from it. -/
inductive Crash where
  /-- the text or the comparison of a list that contains itself, or the log text of an instance that holds
  itself -/
  | bottomless
  /-- a message without an argument that it needs -/
  | missingArgument
  /-- a request when no limit was set for the stack -/
  | missingLimit
  deriving DecidableEq, Repr, Inhabited

/-- What a task does with the value that it requested. -/
inductive Work where
  /-- the next item of a list; those done come latest first -/
  | items (done : List Value) (todo : List Node)
  | store (target : Target)
  | answer
  /-- the receiver of a send -/
  | receiver (selector : String) (args : List Node) (isSuper : Bool)
  /-- an argument of a send; those done come latest first -/
  | argument (receiver : Value) (selector : String) (done : List Value) (todo : List Node)
      (isSuper : Bool)
  | statements (todo : List Node)
  /-- the value of a method's body -/
  | method (activation : ActivationRef)
  /-- the value is the answer -/
  | result
  | repeating (answer : Value) (block : BlockRef) (left : Nat)
  | counting (answer : Value) (block : BlockRef) (next : Int) (left : Nat)
  | visiting (answer : Value) (block : BlockRef) (todo : List Value)
  | collecting (block : BlockRef) (done todo : List Value)
  /-- the condition of a loop -/
  | testing (expected : Bool) (condition : BlockRef) (body : Option Value)
  /-- the body of a loop -/
  | looping (expected : Bool) (condition : BlockRef) (body : Option Value)
  /-- the value of a block whose errors a handler takes -/
  | catching (handler : Value)
  deriving Repr, Inhabited

/-- Whether a failure of the requested node is handed back to the task that requested it. -/
def Work.isGuarded : Work → Bool
  | .method _ => true
  | .catching _ => true
  | _ => false

/-- What a task does next. -/
inductive Action where
  | finish (value : Value)
  | fail (failure : Failure)
  | crash (crash : Crash)
  | request (node : Node) (scope : Scope) (work : Work)
  deriving Repr, Inhabited

namespace Action

def error (e : Error) : Action := .fail (.error e none)

def refuse (selector : String) (reason : Reason) : Action :=
  error (.primitiveFailed selector reason)

end Action

/-- The answer of an operation that runs no other code: a value, or what happens instead of one. -/
abbrev Answer (α : Type) := Except Action α

/-- The action of an answer that leaves the store as it is. -/
def Answer.act (s : Store) (a : Answer Value) : Action × Store :=
  match a with
  | .ok v => (.finish v, s)
  | .error action => (action, s)

def argument (args : List Value) (i : Nat) : Answer Value :=
  match args[i]? with
  | some v => .ok v
  | none => .error (.crash .missingArgument)

def orError {α : Type} (x : Except Error α) : Answer α := x.mapError Action.error

end Parley
