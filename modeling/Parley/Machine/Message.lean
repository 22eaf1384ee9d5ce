import Parley.Store

/-! What values answer without methods: primitives by the kind of the receiver, and the messages that
every class answers. `respondsTo` says beforehand whether a message will be understood. -/

namespace Parley

inductive Arithmetic where
  | add | subtract | multiply | divide | remainder
  deriving DecidableEq, Repr

inductive Comparison where
  | less | greater | lessEqual | greaterEqual
  deriving DecidableEq, Repr

inductive IntegerPrimitive where
  | arithmetic (op : Arithmetic)
  | compare (op : Comparison)
  | negated | abs | max | min | timesRepeat | toDo
  deriving DecidableEq, Repr

inductive StringPrimitive where
  | concat
  | compare (op : Comparison)
  | size | isEmpty | asInteger | reversed
  deriving DecidableEq, Repr

inductive BooleanPrimitive where
  | ifTrue | ifFalse | ifTrueElse | ifFalseElse | not | and | or
  deriving DecidableEq, Repr

inductive ListPrimitive where
  | size | isEmpty | at | atPut | add | first | last | includes | visit | collect
  deriving DecidableEq, Repr

inductive BlockPrimitive where
  | arity
  /-- a loop that goes on as long as its condition has the expected value -/
  | loop (expected : Bool)
  | recover
  deriving DecidableEq, Repr

inductive AnyPrimitive where
  | equal | notEqual | isNil | notNil | ifNil | ifNilElse
  | asString | printString | className | classOf | print | respondsTo
  deriving DecidableEq, Repr

/-- Operations that are built in, by the kind of value that they work on. -/
inductive Primitive where
  | integer (p : IntegerPrimitive)
  | string (p : StringPrimitive)
  | boolean (p : BooleanPrimitive)
  | list (p : ListPrimitive)
  | block (p : BlockPrimitive)
  /-- what nil does with the branch that is for nil -/
  | nilBranch
  | any (p : AnyPrimitive)
  deriving DecidableEq, Repr

def IntegerPrimitive.find? : String → Option IntegerPrimitive
  | "+" => some (.arithmetic .add)
  | "-" => some (.arithmetic .subtract)
  | "*" => some (.arithmetic .multiply)
  | "/" => some (.arithmetic .divide)
  | "%" => some (.arithmetic .remainder)
  | "<" => some (.compare .less)
  | ">" => some (.compare .greater)
  | "<=" => some (.compare .lessEqual)
  | ">=" => some (.compare .greaterEqual)
  | "negated" => some .negated
  | "abs" => some .abs
  | "max:" => some .max
  | "min:" => some .min
  | "timesRepeat:" => some .timesRepeat
  | "to: do:" => some .toDo
  | _ => none

def StringPrimitive.find? : String → Option StringPrimitive
  | "+" => some .concat
  | "<" => some (.compare .less)
  | ">" => some (.compare .greater)
  | "<=" => some (.compare .lessEqual)
  | ">=" => some (.compare .greaterEqual)
  | "size" => some .size
  | "isEmpty" => some .isEmpty
  | "asInteger" => some .asInteger
  | "reversed" => some .reversed
  | _ => none

def BooleanPrimitive.find? : String → Option BooleanPrimitive
  | "if:" => some .ifTrue
  | "ifTrue:" => some .ifTrue
  | "ifFalse:" => some .ifFalse
  | "if: else:" => some .ifTrueElse
  | "ifTrue: ifFalse:" => some .ifTrueElse
  | "ifFalse: ifTrue:" => some .ifFalseElse
  | "not" => some .not
  | "and:" => some .and
  | "or:" => some .or
  | _ => none

def ListPrimitive.find? : String → Option ListPrimitive
  | "size" => some .size
  | "isEmpty" => some .isEmpty
  | "at:" => some .at
  | "at: put:" => some .atPut
  | "add:" => some .add
  | "first" => some .first
  | "last" => some .last
  | "includes:" => some .includes
  | "do:" => some .visit
  | "collect:" => some .collect
  | _ => none

def BlockPrimitive.find? : String → Option BlockPrimitive
  | "arity" => some .arity
  | "whileTrue:" => some (.loop true)
  | "whileFalse:" => some (.loop false)
  | "catch:" => some .recover
  | _ => none

def AnyPrimitive.find? : String → Option AnyPrimitive
  | "==" => some .equal
  | "!=" => some .notEqual
  | "isNil" => some .isNil
  | "notNil" => some .notNil
  | "ifNil:" => some .ifNil
  | "ifNil: else:" => some .ifNilElse
  | "asString" => some .asString
  | "printString" => some .printString
  | "className" => some .className
  | "class" => some .classOf
  | "print" => some .print
  | "respondsTo:" => some .respondsTo
  | _ => none

namespace Primitive

/-- The primitives of the values of one kind. -/
def ofKind? (kind : Kind) (selector : String) : Option Primitive :=
  match kind with
  | .integer => (IntegerPrimitive.find? selector).map .integer
  | .string => (StringPrimitive.find? selector).map .string
  | .boolean => (BooleanPrimitive.find? selector).map .boolean
  | .list => (ListPrimitive.find? selector).map .list
  | .block => (BlockPrimitive.find? selector).map .block
  | .nil => if selector = "ifNil:" || selector = "ifNil: else:" then some .nilBranch else none
  | _ => none

/-- The primitive that a value of a kind answers a selector with. -/
def find? (kind : Kind) (selector : String) : Option Primitive :=
  (ofKind? kind selector).or ((AnyPrimitive.find? selector).map .any)

end Primitive

/-- The messages that classes answer themselves. -/
inductive ClassMessage where
  | new
  | subclass
  | subclassWith
  | define
  | name
  | superclass
  | slots
  | selectors
  /-- `new` with a keyword for each variable to set -/
  | newWith
  deriving DecidableEq, Repr

/-- The message of a selector to a class. -/
def ClassMessage.find? (selector : String) : Option ClassMessage :=
  match selector with
  | "new" => some .new
  | "subclass name:" => some .subclass
  | "subclass name: fields:" => some .subclassWith
  | "subclass name: ivars:" => some .subclassWith
  | "def: do:" => some .define
  | "name" => some .name
  | "superclass" => some .superclass
  | "ivars" => some .slots
  | "selectors" => some .selectors
  | selector => if Selector.isNewWith selector then some .newWith else none

/-- The selectors that classes announce, besides `new` with keywords. -/
def ClassMessage.announced : List String :=
  ["new", "subclass name:", "subclass name: fields:", "subclass name: ivars:", "def: do:", "name",
    "superclass", "ivars", "selectors"]

/-- Whether a message to a value finds something to run. -/
def Store.respondsTo (s : Store) (receiver : Value) (selector : String) : Except Error Bool :=
  let builtIn := (Primitive.find? receiver.kind selector).isSome
  match receiver with
  | .object r =>
    match s.classes.lookup (s.object r).cls.name selector with
    | .ok found => .ok (found.isSome || builtIn)
    | .error e => .error e
  | .cls _ =>
    .ok (ClassMessage.announced.contains selector || Selector.isNewWith selector || builtIn)
  | .block _ => .ok (Selector.isCall selector || builtIn)
  | _ => .ok builtIn

end Parley
