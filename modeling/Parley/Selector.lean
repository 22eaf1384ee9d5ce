import Parley.Text.Blank

/-! Selectors: the names of messages. A selector is kept as one text, an optional leading name followed
by its keyword parts with single spaces between them: `id`, `set id:`, `foo: bar:`. A binary operator
is a selector by itself and takes one argument. -/

namespace Parley.Selector

open Parley.Text

/-- The binary operators. -/
def operators : List String := ["+", "-", "*", "/", "%", "<", ">", "<=", ">=", "==", "!="]

/-- Whether a selector is a binary operator. -/
def isBinary (s : String) : Bool := operators.contains s

def isPart (w : List Char) : Bool := w.getLast? == some ':'

/-- The selector with a leading name and keywords. -/
def make (name : Option String) (keywords : List String) : String :=
  " ".intercalate ((name.filter (· ≠ "")).toList ++ keywords.map (· ++ ":"))

/-- The keywords of a selector, without their colons. -/
def keywords (s : String) : List String :=
  ((wordsOf s.toList).filter isPart).map fun w => String.ofList w.dropLast

/-- How many arguments a message with this selector carries. -/
def arity (s : String) : Nat :=
  if isBinary s then 1 else (keywords s).length

/-- The parts of one word: each piece that a colon ends, and what is left after the last colon. -/
def parts (w : List Char) : List (List Char) :=
  let ps := pieces (· == ':') w
  ps.dropLast.map (· ++ [':']) ++ ps.getLast?.toList.filter (· ≠ [])

/-- A selector written by hand, like `foo:bar:` or `set  id:`, in its canonical spacing. -/
def normalize (s : String) : String :=
  let t := strip s
  if isBinary t then t
  else " ".intercalate (((wordsOf t.toList).flatMap parts).map String.ofList)

/-- The selectors that run a block: `call`, `call:` and `call` with keywords. -/
def isCall (s : String) : Bool :=
  s == "call" || "call:".toList.isPrefixOf s.toList || "call ".toList.isPrefixOf s.toList

/-- The selectors that create an instance and set some of its variables. -/
def isNewWith (s : String) : Bool := "new ".toList.isPrefixOf s.toList

end Parley.Selector
