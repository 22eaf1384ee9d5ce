import Parley.Text.Decimal

/-! The errors that a running program can meet, as causes, with the one wording of each. -/

namespace Parley

/-- Why a primitive refused its values. -/
inductive Reason where
  | expected (kind : String) (got : String)
  | expectedBoolean (got : String)
  | expectedName (got : String)
  | expectedNames (got : String)
  | divisionByZero
  | outside (index : Int) (size : Nat)
  /-- The text of an integer would have too many digits. -/
  | textTooLong
  | notInteger (error : Text.DecimalError)
  deriving DecidableEq, Repr

def Reason.message : Reason → String
  | expected kind got => "expected " ++ kind ++ ", got " ++ got
  | expectedBoolean got => "expected a boolean, got " ++ got
  | expectedName got => "expected a name, got " ++ got
  | expectedNames got => "expected a list of names, got " ++ got
  | divisionByZero => "division by zero"
  | outside index size => "index " ++ toString index ++ " outside 1.." ++ toString size
  | textTooLong => Text.tooLongMessage
  | notInteger error => error.message

/-- An error that a program can recover from. -/
inductive Error where
  | duplicateClass (name : String)
  | unknownClass (name : String)
  | duplicateSlot (name className : String)
  | doesNotUnderstand (selector className : String)
  | unknownSlot (name : String)
  | arityMismatch (expected got : Nat)
  | unboundVariable (name : String)
  | stackOverflow (limit : Int)
  | primitiveFailed (selector : String) (reason : Reason)
  /-- A return from a method that has ended already. -/
  | invalidReturn
  deriving DecidableEq, Repr

namespace Error

def kind : Error → String
  | duplicateClass _ => "DuplicateClass"
  | unknownClass _ => "UnknownClass"
  | duplicateSlot _ _ => "DuplicateIvar"
  | doesNotUnderstand _ _ => "DoesNotUnderstand"
  | unknownSlot _ => "UnknownIvar"
  | arityMismatch _ _ => "ArityMismatch"
  | unboundVariable _ => "UnboundVariable"
  | stackOverflow _ => "StackOverflow"
  | primitiveFailed _ _ => "PrimitiveFailed"
  | invalidReturn => "InvalidReturn"

def message : Error → String
  | duplicateClass name => "Class " ++ name ++ " is already defined"
  | unknownClass name => "Class " ++ name ++ " is not defined"
  | duplicateSlot name className =>
    "Instance variable @" ++ name ++ " is already declared for " ++ className
  | doesNotUnderstand selector className => className ++ " does not understand #" ++ selector
  | unknownSlot name => "Instance variable @" ++ name ++ " is not declared"
  | arityMismatch expected got =>
    "Expected " ++ toString expected ++ " arguments, got " ++ toString got
  | unboundVariable name => "Variable " ++ name ++ " is not bound"
  | stackOverflow limit => "Evaluation exceeded " ++ toString limit ++ " frames"
  | primitiveFailed selector reason => "#" ++ selector ++ " failed: " ++ reason.message
  | invalidReturn => "Cannot return from a method that already finished"

/-- An error in one line, as a handler receives it. -/
def describe (e : Error) : String := e.kind ++ ": " ++ e.message

end Error

end Parley
