import Parley.Text.Blank
import Parley.Text.DecimalDigit
import Parley.Text.Quoted

/-! Integers as decimal text. Neither direction handles more than `digitLimit` digits. Reading allows
blanks on both sides, a sign, single underscores between digits and the digits of every script. -/

namespace Parley.Text

/-- The most digits that are written or read. -/
def digitLimit : Nat := 4300

/-- The least natural number with more than `digitLimit` digits. -/
def tooLong : Nat := Nat.pow 10 digitLimit

/-- The decimal text of an integer, unless it has too many digits. -/
def decimal? (n : Int) : Option String :=
  if n.natAbs < tooLong then some (toString n) else none

/-- Why a text is not read as an integer. -/
inductive DecimalError where
  | malformed (text : String)
  | tooManyDigits (count : Nat)
  deriving DecidableEq, Repr

/-- How to lift the limit, as both refusals put it. -/
def limitAdvice : String := "use sys.set_int_max_str_digits() to increase the limit"

/-- The refusal to write a number that has too many digits. -/
def tooLongMessage : String :=
  "Exceeds the limit (4300 digits) for integer string conversion; " ++ limitAdvice

/-- The refused text is shown in quotes, cut to its first 200 characters. -/
def DecimalError.message : DecimalError → String
  | .malformed text =>
    "invalid literal for int() with base 10: " ++ String.ofList ((quoted text).toList.take 200)
  | .tooManyDigits count =>
    "Exceeds the limit (4300 digits) for integer string conversion: value has " ++ toString count ++
      " digits; " ++ limitAdvice

/-- The number written by ASCII digits, most significant first. -/
def digitsValue (ds : List Char) : Nat :=
  ds.foldl (fun n d => 10 * n + (d.toNat - '0'.toNat)) 0

/-- A run of digits as a number, unless there are too many, leading zeros counted. -/
def readDigits (ds : List Char) : Except DecimalError Nat :=
  if digitLimit < ds.length then .error (.tooManyDigits ds.length) else .ok (digitsValue ds)

/-- The ASCII character that a character of any script stands for in a number; one that stands for
nothing becomes a question mark. -/
def plainDigit (c : Char) : Char :=
  if c.toNat < 127 then c
  else if isBlank c then ' '
  else match digitValue? c with
    | some d => Nat.digitChar d
    | none => '?'

/-- The blanks that may surround a number, once foreign blanks have become spaces. -/
def isNumberBlank (c : Char) : Bool :=
  (0x09 ≤ c.toNat && c.toNat ≤ 0x0D) || c == ' '

/-- A run of digits and underscores in which every underscore stands between two digits. -/
def wellSpaced (cs : List Char) : Bool :=
  (pieces (· == '_') cs).all (· ≠ [])

/-- Takes a sign from the front: whether it is a minus, and the rest. -/
def takeSign : List Char → Bool × List Char
  | '+' :: cs => (false, cs)
  | '-' :: cs => (true, cs)
  | cs => (false, cs)

/-- Reads an integer. A run of digits that is too long is refused as such even when what follows it
would be refused too. -/
def readInteger (s : String) : Except DecimalError Int :=
  let cs := (s.toList.map plainDigit).dropWhile isNumberBlank
  let (negative, cs) := takeSign cs
  let isBody := fun c : Char => c.isDigit || c == '_'
  let body := cs.takeWhile isBody
  let after := cs.dropWhile isBody
  if wellSpaced body then
    match readDigits (body.filter Char.isDigit) with
    | .error e => .error e
    | .ok n =>
      if after.all isNumberBlank then .ok (if negative then -(n : Int) else n)
      else .error (.malformed s)
  else .error (.malformed s)

end Parley.Text
