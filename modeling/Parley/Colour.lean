/-! Colours in text. A code is a backslash and a dash, letters for colours and styles, and a dash:
`\-r-` is red, `\-rs-` red and strong. For a terminal codes become escape sequences, elsewhere they are
left out. -/

namespace Parley.Colour

/-- The letters of codes. -/
def isLetter (c : Char) : Bool := ['r', 'g', 'y', 'c', 's', 'd', 'n'].contains c

/-- The escape sequence of a letter: red, green, yellow, cyan, strong, dim, or back to normal. -/
def sequence (c : Char) : String :=
  match c with
  | 'r' => "\x1b[31m"
  | 'g' => "\x1b[32m"
  | 'y' => "\x1b[33m"
  | 'c' => "\x1b[36m"
  | 's' => "\x1b[1m"
  | 'd' => "\x1b[2m"
  | _ => "\x1b[0m"

/-- The sequence that goes back to normal. -/
def reset : String := sequence 'n'

/-- A piece of marked text. -/
inductive Segment where
  | char (c : Char)
  | code (letters : List Char)
  deriving DecidableEq, Repr

/-- The letters of a code after its backslash and dash, if a dash ends them. -/
def letters? (cs : List Char) : Option (List Char) :=
  let letters := cs.takeWhile isLetter
  if letters ≠ [] && (cs.dropWhile isLetter).head? = some '-' then some letters else none

/-- Cuts a text into characters and codes, from the left. -/
def segments : List Char → List Segment
  | [] => []
  | '\\' :: '-' :: cs =>
    match letters? cs with
    | some letters => .code letters :: segments (cs.drop (letters.length + 1))
    | none => .char '\\' :: segments ('-' :: cs)
  | c :: cs => .char c :: segments cs
  termination_by cs => cs.length
  decreasing_by all_goals simp only [List.length_cons, List.length_drop]; omega

/-- The text without codes. -/
def strip (text : String) : String :=
  String.ofList ((segments text.toList).filterMap fun
    | .char c => some c
    | .code _ => none)

/-- The text of a segment on a terminal. -/
def Segment.paint : Segment → String
  | .char c => String.singleton c
  | .code letters => String.join (letters.map sequence)

/-- Whether a segment is a code. -/
def Segment.isCode : Segment → Bool
  | .char _ => false
  | .code _ => true

/-- The text with escape sequences for codes; if there is any, the text ends by going back to
normal. -/
def apply (text : String) : String :=
  let parts := segments text.toList
  String.join (parts.map Segment.paint) ++ (if parts.any Segment.isCode then reset else "")

/-- Where text goes: whether it is a terminal, and whether the user wants no colours. -/
structure Stream where
  isTerminal : Bool
  noColour : Bool
  deriving DecidableEq, Repr, Inhabited

/-- A marked text as it goes to a stream. -/
def render (text : String) (stream : Stream) : String :=
  if stream.isTerminal && !stream.noColour then apply text else strip text

end Parley.Colour
