import Parley.Error
import Parley.Node
import Parley.OrderedMap
import Parley.Selector

/-! The classes of a running program. Classes are kept latest first and name their superclass, which was
there before them, so a walk to the root goes down the list. Nothing is ever removed. -/

namespace Parley

/-- Code under a selector of a class. -/
structure Method where
  selector : String
  params : List String
  body : Node
  /-- The class that the method was defined on. -/
  owner : String
  deriving Repr, Inhabited

/-- A method in messages. -/
def Method.label (m : Method) : String := "Method(" ++ m.owner ++ ">>#" ++ m.selector ++ ")"

/-- A class with what it declares itself. -/
structure Class where
  name : String
  /-- The superclass; only the root has none. -/
  parent : Option String
  fields : List String
  methods : OrderedMap String Method
  deriving Repr, Inhabited

def classLabel (name : String) : String := "Class(" ++ name ++ ")"

/-- The classes, latest first. -/
structure ClassTable where
  classes : List Class
  deriving Repr, Inhabited

namespace ClassTable

def rootName : String := "Object"

/-- The other name under which the root class is found. -/
def rootAlias : String := "Class"

/-- The table that holds the root class alone. -/
def initial : ClassTable := ⟨[⟨rootName, none, [], .empty⟩]⟩

/-- The name that a class is registered under, the alias of the root resolved. -/
def resolve (name : String) : String := if name = rootAlias then rootName else name

def find? (t : ClassTable) (name : String) : Option Class :=
  t.classes.find? fun c => c.name = resolve name

/-- The class of a name, which has to exist. -/
def get (t : ClassTable) (name : String) : Except Error Class :=
  match t.find? name with
  | some c => .ok c
  | none => .error (.unknownClass name)

def contains (t : ClassTable) (name : String) : Bool := (t.find? name).isSome

def size (t : ClassTable) : Nat := t.classes.length

/-- The classes in the order of their registration. -/
def toList (t : ClassTable) : List Class := t.classes.reverse

/-- The class of a registered name among some classes and its superclasses, most derived first. A
superclass stands after its subclasses. -/
def chain : List Class → String → List Class
  | [], _ => []
  | c :: older, name =>
    if c.name = name then
      c :: (match c.parent with
        | none => []
        | some parent => chain older parent)
    else chain older name

/-- A class and its superclasses, most derived first. -/
def ancestors (t : ClassTable) (name : String) : Except Error (List Class) := do
  let c ← t.get name
  return chain t.classes c.name

/-- The superclass of a class; the root has none. -/
def superclass (t : ClassTable) (name : String) : Except Error (Option Class) := do
  let c ← t.get name
  match c.parent with
  | none => return none
  | some parent => return some (← t.get parent)

/-- The names of all instance variables of a class, inherited ones first. -/
def slots (t : ClassTable) (name : String) : Except Error (List String) := do
  return (← t.ancestors name).reverse.flatMap (·.fields)

/-- The first field that is declared already, by a superclass or before it in the same list. -/
def firstRepeated (seen : List String) : List String → Option String
  | [] => none
  | f :: fs => if f ∈ seen then some f else firstRepeated (f :: seen) fs

/-- Registers a class under an existing one, with instance variables of its own. -/
def subclass (t : ClassTable) (parent name : String) (fields : List String) :
    Except Error (Class × ClassTable) := do
  let p ← t.get parent
  if t.contains name then
    throw (.duplicateClass name)
  match firstRepeated (← t.slots p.name) fields with
  | some f => throw (.duplicateSlot f name)
  | none =>
    let c : Class := ⟨name, some p.name, fields, .empty⟩
    return (c, ⟨c :: t.classes⟩)

/-- Installs a method, in place of one with the same selector. It has to take as many arguments as
its selector carries. The answer also says whether a method was replaced. -/
def define (t : ClassTable) (className selector : String) (params : List String) (body : Node) :
    Except Error (Method × Bool × ClassTable) := do
  let c ← t.get className
  if Selector.arity selector ≠ params.length then
    throw (.arityMismatch (Selector.arity selector) params.length)
  let m : Method := ⟨selector, params, body, c.name⟩
  let classes := t.classes.map fun d =>
    if d.name = c.name then { d with methods := d.methods.put selector m } else d
  return (m, c.methods.contains selector, ⟨classes⟩)

/-- The first definition of a selector along some classes. -/
def firstDefinition (classes : List Class) (selector : String) : Option Method :=
  classes.findSome? fun c => c.methods.get? selector

/-- The method that instances of a class answer a selector with. -/
def lookup (t : ClassTable) (className selector : String) : Except Error (Option Method) := do
  return firstDefinition (← t.ancestors className) selector

/-- The method above the class that owns the running one. -/
def lookupSuper (t : ClassTable) (owner selector : String) : Except Error (Option Method) := do
  match ← t.superclass owner with
  | none => return none
  | some c => t.lookup c.name selector

/-- The selectors that instances of a class answer through methods, in increasing order. -/
def selectors (t : ClassTable) (name : String) : Except Error (List String) := do
  let all := (← t.ancestors name).flatMap (·.methods.keys)
  return all.eraseDups.mergeSort (· ≤ ·)

end ClassTable

end Parley
