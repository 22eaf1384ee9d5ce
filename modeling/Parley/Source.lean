/-! Places in program text. Lines and columns count from one, a column is one character, only a line
feed ends a line, and the end of a span is the place after its last character. -/

namespace Parley

/-- A place in a text. -/
structure Point where
  line : Nat
  column : Nat
  deriving DecidableEq, Repr, Inhabited

namespace Point

def first : Point := ⟨1, 1⟩

def next (p : Point) (c : Char) : Point :=
  if c = '\n' then ⟨p.line + 1, 1⟩ else ⟨p.line, p.column + 1⟩

def after (p : Point) (cs : List Char) : Point := cs.foldl next p

/-- The next place on the same line. -/
def right (p : Point) : Point := ⟨p.line, p.column + 1⟩

end Point

/-- A stretch of text, its end excluded. -/
structure Span where
  start : Point
  stop : Point
  deriving DecidableEq, Repr, Inhabited

/-- Where a piece of a program was written: the name of its text, when that has one, and the
stretch. -/
structure Origin where
  file : Option String
  span : Span
  deriving DecidableEq, Repr, Inhabited

/-- What a report knows about a place; any part of it may be missing. -/
structure Position where
  file : Option String := none
  line : Option Int := none
  column : Option Int := none
  endLine : Option Int := none
  endColumn : Option Int := none
  deriving DecidableEq, Repr, Inhabited

/-- The position of a single place, without an end. -/
def Point.position (p : Point) (file : Option String) : Position :=
  { file := file, line := some p.line, column := some p.column }

def Origin.position (o : Origin) : Position :=
  { file := o.file
    line := some o.span.start.line
    column := some o.span.start.column
    endLine := some o.span.stop.line
    endColumn := some o.span.stop.column }

namespace Position

/-- The name of a text in reports; a text without a name is the input. -/
def fileName (file : Option String) : String :=
  match file with
  | none => "<input>"
  | some "" => "<input>"
  | some f => f

/-- A number of a position in a report. -/
def number : Option Int → String
  | some n => toString n
  | none => "None"

/-- The place as `file:line:column`, or the file alone when the line is not known. -/
def place (file : Option String) (p : Position) : String :=
  match p.line with
  | none => fileName file
  | some l => fileName file ++ ":" ++ toString l ++ ":" ++ number p.column

def location (p : Position) : String := place p.file p

/-- The position in words; empty when the line is not known. -/
def phrase (p : Position) : String :=
  match p.line with
  | none => ""
  | some l => if l = 0 then "" else "on line " ++ toString l

end Position

end Parley
