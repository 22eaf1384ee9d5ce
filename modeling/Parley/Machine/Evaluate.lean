import Parley.Machine.Dispatch
import Parley.Text.Uppercase

/-! The meaning of nodes, one action at a time: `begin` is the first action of a task, `resume` the next
one after a requested value, `recover` the next one after a failure that was handed back. -/

namespace Parley.Machine

open Parley.Store

/-! Names -/

/-- The value of a name: its nearest binding, or the class of that name. -/
def variableValue (s : Store) (scope : Scope) (name : String) : Except Error Value :=
  match s.lookup? scope.env name with
  | some v => .ok v
  | none =>
    match s.classes.find? name with
    | some c => .ok (.cls (.registered c.name))
    | none =>
      if (name.toList.head?.map Text.isUppercase).getD false then .error (.unknownClass name)
      else .error (.unboundVariable name)

/-- The value of an instance variable of the receiver. -/
def slotValue (s : Store) (scope : Scope) (name : String) : Except Error Value :=
  match scope.self with
  | .object r =>
    match (s.object r).slots.get? name with
    | some v => .ok v
    | none => .error (.unknownSlot name)
  | _ => .error (.unknownSlot name)

def atomValue (s : Store) (scope : Scope) : Atom → Except Error Value
  | .integer n => .ok (.integer n)
  | .string t => .ok (.string t)
  | .symbol name => .ok (.string name)
  | .boolean b => .ok (.boolean b)
  | .nil => .ok .nil
  | .variable name => variableValue s scope name
  | .slot name => slotValue s scope name
  | .self => .ok scope.self
  | .super => .ok scope.self

/-- Puts a value where a statement says, and answers it. -/
def putValue (s : Store) (scope : Scope) (target : Target) (v : Value) : Action × Store :=
  match target with
  | .define name _ => (.finish v, s.define scope.env name v)
  | .assign name =>
    match s.holder? scope.env name with
    | some r => (.finish v, s.define r name v)
    | none => (.error (.unboundVariable name), s)
  | .slot name =>
    match scope.self with
    | .object r =>
      if (s.object r).slots.contains name then (.finish v, s.setSlot r name v)
      else (.error (.unknownSlot name), s)
    | _ => (.error (.unknownSlot name), s)

/-! Parts of nodes -/

/-- Goes on with the items of a list; those done come latest first. -/
def nextItem (s : Store) (scope : Scope) (done : List Value) : List Node → Action × Store
  | [] => s.finishList done.reverse
  | n :: todo => (.request n scope (.items done todo), s)

/-- Goes on with the statements of a suite; its value is the value of the latest. -/
def nextStatement (s : Store) (scope : Scope) (latest : Value) : List Node → Action × Store
  | [] => (.finish latest, s)
  | n :: todo => (.request n scope (.statements todo), s)

/-- Sends a message whose operands have values. A `super` send in a method starts above the class
that owns the method; outside of methods it is a plain send. -/
def sendFrom (s : Store) (scope : Scope) (receiver : Value) (selector : String)
    (args : List Value) (isSuper : Bool) : Action × Store :=
  match isSuper, scope.home with
  | true, some home => s.sendSuper receiver (s.activation home).method.owner selector args
  | _, _ => s.send receiver selector args

/-- Goes on with the arguments of a send; those done come latest first. -/
def nextArgument (s : Store) (scope : Scope) (receiver : Value) (selector : String)
    (done : List Value) (isSuper : Bool) : List Node → Action × Store
  | [] => sendFrom s scope receiver selector done.reverse isSuper
  | n :: todo => (.request n scope (.argument receiver selector done todo isSuper), s)

/-- Returns a value to the activation that the running code belongs to, if that has not ended. -/
def returnValue (s : Store) (scope : Scope) (v : Value) : Action :=
  match scope.home with
  | none => .fail (.signal v none)
  | some home =>
    if (s.activation home).alive then .fail (.signal v (some home)) else .error .invalidReturn

/-! The actions of a task -/

/-- The first action of a node. -/
def beginNode (s : Store) (scope : Scope) : Node → Action × Store
  | .atom _ a =>
    match atomValue s scope a with
    | .ok v => (.finish v, s)
    | .error e => (.error e, s)
  | .list _ items => nextItem s scope [] items
  | .store _ target value => (.request value scope (.store target), s)
  | .answer _ value => (.request value scope .answer, s)
  | .send _ receiver selector args =>
    (.request receiver scope (.receiver selector args receiver.isSuper), s)
  | .block _ params origin body =>
    let (v, s) := s.newBlock
      ⟨params, .suite origin .sequence body, scope.env, scope.self, scope.home⟩
    (.finish v, s)
  | .suite _ _ statements => nextStatement s scope .nil statements

/-- The first action of a task. -/
def begin (s : Store) (scope : Scope) : Task → Action × Store
  | .node n => beginNode s scope n
  | .message receiver selector args => s.send receiver selector args
  | .superMessage receiver owner selector args => s.sendSuper receiver owner selector args

/-- The next action of a task after a value that it requested. -/
def resume (s : Store) (scope : Scope) (v : Value) : Work → Action × Store
  | .items done todo => nextItem s scope (v :: done) todo
  | .store target => putValue s scope target v
  | .answer => (returnValue s scope v, s)
  | .receiver selector args isSuper => nextArgument s scope v selector [] isSuper args
  | .argument receiver selector done todo isSuper =>
    nextArgument s scope receiver selector (v :: done) isSuper todo
  | .statements todo => nextStatement s scope v todo
  | .method home => (.finish v, s.retire home)
  | .result => (.finish v, s)
  | .repeating answer block left => s.repeatBlock answer block left
  | .counting answer block next left => s.countBlock answer block next left
  | .visiting answer block todo => s.visitItems answer block todo
  | .collecting block done todo => s.collectItems block (v :: done) todo
  | .testing expected condition body => s.afterTest expected condition body v
  | .looping expected condition body => s.testLoop expected condition body
  | .catching _ => (.finish v, s)

/-- The next action of a task after a failure that was handed back to it. A method ends, and takes a
return to itself for its value; `catch:` hands an error to its handler. -/
def recover (s : Store) (failure : Failure) : Work → Action × Store
  | .method home =>
    match failure with
    | .signal v (some target) =>
      if target = home then (.finish v, s.retire home) else (.fail failure, s.retire home)
    | _ => (.fail failure, s.retire home)
  | .catching handler =>
    match failure with
    | .error e _ => s.handle e handler
    | .signal _ _ => (.fail failure, s)
  | _ => (.fail failure, s)

end Parley.Machine
