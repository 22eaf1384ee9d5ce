import Parley.Node
import Parley.Text.Quoted

/-! Labels of nodes, and a program as an outline of labels, one line a node, children indented. -/

namespace Parley

open Parley.Text

def Node.title : Node → String
  | .atom _ (.integer _) => "Integer"
  | .atom _ (.string _) => "String"
  | .atom _ (.symbol _) => "Symbol"
  | .atom _ (.boolean true) => "TrueLiteral"
  | .atom _ (.boolean false) => "FalseLiteral"
  | .atom _ .nil => "NilLiteral"
  | .atom _ (.variable _) => "Variable"
  | .atom _ (.slot _) => "InstanceVariable"
  | .atom _ .self => "SelfRef"
  | .atom _ .super => "SuperRef"
  | .list _ _ => "ListLiteral"
  | .store _ (.define _ _) _ => "Let"
  | .store _ (.assign _) _ => "Assign"
  | .store _ (.slot _) _ => "AssignInstanceVariable"
  | .answer _ _ => "Return"
  | .send _ _ _ _ => "MessageSend"
  | .block _ _ _ _ => "BlockLiteral"
  | .suite _ .sequence _ => "Sequence"
  | .suite _ .program _ => "Program"

/-- What a label adds to the name of the kind. -/
def Node.detail : Node → String
  | .atom _ (.integer n) => toString n
  | .atom _ (.string s) => quoted s
  | .atom _ (.symbol name) => "#" ++ name
  | .atom _ (.variable name) => name
  | .atom _ (.slot name) => "@" ++ name
  | .atom _ _ => ""
  | .list _ items => toString items.length ++ " items"
  | .store _ (.define name _) _ => name
  | .store _ (.assign name) _ => name
  | .store _ (.slot name) _ => "@" ++ name
  | .answer _ _ => ""
  | .send _ _ selector _ => "#" ++ selector
  | .block _ params _ _ => quotedList params
  | .suite _ _ statements => toString statements.length ++ " statements"

/-- The label of a node, like `MessageSend(#foo:)`. -/
def Node.label (n : Node) : String := n.title ++ "(" ++ n.detail ++ ")"

/-- The body of a block as a node of its own. -/
def Node.bodyOf (origin : Option Origin) (body : List Node) : Node := .suite origin .sequence body

/-- A line of an outline, two spaces a level. -/
def outlineLine (depth : Nat) (text : String) : String :=
  String.join (List.replicate depth "  ") ++ text ++ "\n"

mutual

/-- The outline of a node at a depth. -/
def Node.outlineAt (depth : Nat) : Node → String
  | n@(.atom _ _) => outlineLine depth n.label
  | n@(.list _ items) => outlineLine depth n.label ++ Node.outlinesAt (depth + 1) items
  | n@(.store _ _ value) => outlineLine depth n.label ++ value.outlineAt (depth + 1)
  | n@(.answer _ value) => outlineLine depth n.label ++ value.outlineAt (depth + 1)
  | n@(.send _ receiver _ args) =>
    outlineLine depth n.label ++ receiver.outlineAt (depth + 1) ++
      Node.outlinesAt (depth + 1) args
  | n@(.block _ _ origin body) =>
    outlineLine depth n.label ++ outlineLine (depth + 1) (Node.bodyOf origin body).label ++
      Node.outlinesAt (depth + 2) body
  | n@(.suite _ _ statements) =>
    outlineLine depth n.label ++ Node.outlinesAt (depth + 1) statements

/-- The outlines of nodes at a depth, one after another. -/
def Node.outlinesAt (depth : Nat) : List Node → String
  | [] => ""
  | n :: ns => n.outlineAt depth ++ Node.outlinesAt depth ns

end

def Node.outline (n : Node) : String := n.outlineAt 0

end Parley
