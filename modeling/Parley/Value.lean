/-! Values. Lists, blocks, instances and the frames and activations behind them live in a store and are
known by reference, so two references to the same list see each other's changes. -/

namespace Parley

/-- A list in the store. -/
structure ListRef where
  index : Nat
  deriving DecidableEq, Repr, Inhabited

/-- A block in the store. -/
structure BlockRef where
  index : Nat
  deriving DecidableEq, Repr, Inhabited

/-- An instance in the store. -/
structure ObjectRef where
  index : Nat
  deriving DecidableEq, Repr, Inhabited

/-- A frame of bindings in the store. -/
structure FrameRef where
  index : Nat
  deriving DecidableEq, Repr, Inhabited

/-- An activation of a method in the store. -/
structure ActivationRef where
  index : Nat
  deriving DecidableEq, Repr, Inhabited

/-- A class: one that is registered under its name, or one that was made outside any class table and
differs from all others, whatever its name. -/
inductive ClassRef where
  | registered (name : String)
  | detached (serial : Nat) (name : String)
  deriving DecidableEq, Repr, Inhabited

def ClassRef.name : ClassRef → String
  | registered name => name
  | detached _ name => name

/-- A value of the language. -/
inductive Value where
  | nil
  | boolean (value : Bool)
  | integer (value : Int)
  | string (value : String)
  | list (ref : ListRef)
  | block (ref : BlockRef)
  | object (ref : ObjectRef)
  | cls (ref : ClassRef)
  deriving DecidableEq, Repr, Inhabited

/-- The kinds of values. -/
inductive Kind where
  | nil | boolean | integer | string | list | block | object | cls
  deriving DecidableEq, Repr, Inhabited

def Value.kind : Value → Kind
  | nil => .nil
  | boolean _ => .boolean
  | integer _ => .integer
  | string _ => .string
  | list _ => .list
  | block _ => .block
  | object _ => .object
  | cls _ => .cls

def Kind.word : Kind → String
  | nil => "nil"
  | boolean => "boolean"
  | integer => "integer"
  | string => "string"
  | list => "list"
  | block => "block"
  | object => "instance"
  | cls => "class"

/-- The name that values of a kind without classes report as their class. -/
def Kind.title : Kind → String
  | nil => "Nil"
  | boolean => "Boolean"
  | integer => "Integer"
  | string => "String"
  | list => "List"
  | block => "Block"
  | object => "Instance"
  | cls => "Class"

end Parley
