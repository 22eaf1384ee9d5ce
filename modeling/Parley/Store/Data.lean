import Parley.Store
import Parley.Text.Quoted

/-! Plain data brought in from outside as values, and taken out again. -/

namespace Parley

/-- Data that a value can be made from. -/
inductive Data where
  | nil
  | boolean (value : Bool)
  | integer (value : Int)
  | string (value : String)
  | list (items : List Data)
  /-- a class of its own, outside any class table -/
  | cls (name : String)
  /-- an instance of a class of its own, with these variables -/
  | object (className : String) (fields : List String)
  /-- a block over an empty frame of its own -/
  | block (params : List String) (body : Node)
  /-- something that no value stands for -/
  | foreign (sort : String)
  deriving Repr, Inhabited

/-- Data that no value stands for. -/
structure Unconvertible where
  sort : String
  deriving DecidableEq, Repr

def Unconvertible.message (e : Unconvertible) : String :=
  "Cannot convert Python " ++ e.sort ++ " to Oops Value"

mutual

/-- Data as it is written outside; a class, an instance, a block or anything foreign is not written. -/
def Data.text? : Data → Option String
  | .nil => some "None"
  | .boolean b => some (if b then "True" else "False")
  | .integer n => some (toString n)
  | .string t => some (Text.quoted t)
  | .list items => (Data.texts? items).map fun texts => "[" ++ ", ".intercalate texts ++ "]"
  | _ => none

/-- All data of a list as it is written outside. -/
def Data.texts? : List Data → Option (List String)
  | [] => some []
  | d :: ds => do return (← d.text?) :: (← Data.texts? ds)

end

namespace Store

mutual

/-- The value of some data, with what it needs added to the store. -/
def intern (s : Store) : Data → Except Unconvertible (Value × Store)
  | .nil => .ok (.nil, s)
  | .boolean b => .ok (.boolean b, s)
  | .integer n => .ok (.integer n, s)
  | .string t => .ok (.string t, s)
  | .list items => do
    let (values, s) ← s.internAll items
    return s.newList values.toArray
  | .cls name =>
    let (c, s) := s.newDetachedClass name
    .ok (.cls c, s)
  | .object className fields =>
    let (c, s) := s.newDetachedClass className
    .ok (s.newObject ⟨c, .ofList (fields.map (·, .nil))⟩)
  | .block params body =>
    let (env, s) := s.newFrame none []
    .ok (s.newBlock ⟨params, body, env, .nil, none⟩)
  | .foreign sort => .error ⟨sort⟩

def internAll (s : Store) : List Data → Except Unconvertible (List Value × Store)
  | [] => .ok ([], s)
  | d :: ds => do
    let (v, s) ← s.intern d
    let (vs, s) ← s.internAll ds
    return (v :: vs, s)

end

/-- The plain data of a value, lists at most `fuel` deep; there is none for blocks, instances and
classes. -/
def dataWithin (s : Store) : Nat → Value → Option Data
  | _, .nil => some .nil
  | _, .boolean b => some (.boolean b)
  | _, .integer n => some (.integer n)
  | _, .string t => some (.string t)
  | fuel + 1, .list r => ((s.list r).toList.mapM (s.dataWithin fuel)).map .list
  | _, _ => none

def data? (s : Store) (v : Value) : Option Data := s.dataWithin (s.lists.size + 1) v

end Store

end Parley
