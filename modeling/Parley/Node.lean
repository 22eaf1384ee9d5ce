import Parley.Source

/-! Programs as trees of nodes. Every node is an expression, statements included, and remembers where
it was written if it came from a text. -/

namespace Parley

/-- An expression without parts. -/
inductive Atom where
  | integer (value : Int)
  | string (value : String)
  /-- The name of a class, an instance variable or a selector; its value is the name as a string. -/
  | symbol (name : String)
  | boolean (value : Bool)
  | nil
  | variable (name : String)
  /-- An instance variable of the receiver. -/
  | slot (name : String)
  | self
  | super
  deriving DecidableEq, Repr, Inhabited

/-- Where a statement puts its value. -/
inductive Target where
  /-- A binding of the current frame; the operator is the spelling used, `=` or `:=`. -/
  | define (name operator : String)
  /-- The nearest binding that exists already. -/
  | assign (name : String)
  /-- An instance variable of the receiver. -/
  | slot (name : String)
  deriving DecidableEq, Repr, Inhabited

/-- What a suite of statements is: the body of a block or method, or a whole program. -/
inductive SuiteKind where
  | sequence
  | program
  deriving DecidableEq, Repr, Inhabited

/-- A node of a program. -/
inductive Node where
  | atom (origin : Option Origin) (atom : Atom)
  | list (origin : Option Origin) (items : List Node)
  | store (origin : Option Origin) (target : Target) (value : Node)
  /-- Returns a value from the method that the running code belongs to. -/
  | answer (origin : Option Origin) (value : Node)
  | send (origin : Option Origin) (receiver : Node) (selector : String) (args : List Node)
  | block (origin : Option Origin) (params : List String) (bodyOrigin : Option Origin)
      (body : List Node)
  | suite (origin : Option Origin) (kind : SuiteKind) (statements : List Node)
  deriving Repr, Inhabited

namespace Node

def origin : Node → Option Origin
  | atom o _ => o
  | list o _ => o
  | store o _ _ => o
  | answer o _ => o
  | send o _ _ _ => o
  | block o _ _ _ => o
  | suite o _ _ => o

def position (n : Node) : Option Position := n.origin.map Origin.position

/-- The statements of a suite; any other node is its own only statement. -/
def statements : Node → List Node
  | suite _ _ statements => statements
  | n => [n]

/-- Whether a node is the word `super`, which makes a send start above the class of the running
method. -/
def isSuper : Node → Bool
  | atom _ .super => true
  | _ => false

end Node

end Parley
