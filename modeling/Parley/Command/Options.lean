import Parley.Interpreter
import Parley.Text.Decimal

/-! The options of the command line. A long option may be shortened as long as no other begins the same
way, and may carry its value after an equals sign; a short one may carry its value directly. Two
dashes end the options; in the place of a value they leave the option without one. Numbers below zero
and texts with a space are not taken for options. -/

namespace Parley.Command

/-- The options. -/
inductive Flag where
  | help | code | outline | tree | places | trace | depth
  deriving DecidableEq, Repr

namespace Flag

/-- All spellings, in the order in which they are listed. -/
def spellings : List (String × Flag) :=
  [("-h", help), ("--help", help), ("-c", code), ("--ast", outline), ("--lark", tree),
    ("--pos", places), ("--trace", trace), ("--max-depth", depth)]

def ofSpelling? (s : String) : Option Flag :=
  (spellings.find? (·.1 = s)).map (·.2)

def takesValue : Flag → Bool
  | code | depth => true
  | _ => false

def name (f : Flag) : String :=
  "/".intercalate ((spellings.filter (·.2 = f)).map (·.1))

end Flag

/-- What the command line asks for. -/
structure Options where
  source : Option String := none
  /-- the text to run, if one was announced; it may still be missing -/
  code : Option (Option String) := none
  outline : Bool := false
  tree : Bool := false
  places : Bool := false
  trace : Bool := false
  limit : Machine.Limit := Interpreter.defaultLimit
  deriving DecidableEq, Repr, Inhabited

/-- Why the command does not go on: help was asked for, or the command line is wrong. -/
inductive Stop where
  | help
  | error (message : String)
  deriving DecidableEq, Repr

def complaint {α : Type} (f : Flag) (message : String) : Except Stop α :=
  .error (.error ("argument " ++ f.name ++ ": " ++ message))

/-- An option as it was spelled: which one, whether in its short form, and the value that was attached
to it. -/
structure Spelled where
  flag : Flag
  isShort : Bool
  attached : Option (List Char)
  deriving Repr

/-- What an argument of the command line is. -/
inductive Argument where
  | option (spelled : Spelled)
  | unknown (text : String)
  | plain (text : String)
  /-- two dashes, after which everything is plain -/
  | dashes
  deriving Repr

/-- The part before the first equals sign and, if there is one, the part after it. -/
def cutAtEquals (cs : List Char) : List Char × Option (List Char) :=
  match cs.dropWhile (· ≠ '=') with
  | [] => (cs, none)
  | _ :: value => (cs.takeWhile (· ≠ '='), some value)

/-- The options that a text may stand for, each with its spelling. -/
def candidates (cs : List Char) : List (String × Spelled) :=
  match cs with
  | '-' :: '-' :: _ =>
    let (start, value) := cutAtEquals cs
    (Flag.spellings.filter fun s => start.isPrefixOf s.1.toList).map fun s =>
      (s.1, ⟨s.2, false, value⟩)
  | _ =>
    (Flag.spellings.filter fun s => s.1.toList = cs.take 2).map fun s =>
      (s.1, ⟨s.2, true, some (cs.drop 2)⟩)

/-- Whether characters are decimal digits, of any script. -/
def allDigits (cs : List Char) : Bool := cs.all fun c => (Text.digitValue? c).isSome

/-- Whether a text is a number below zero, with or without a point. A line break may follow it. -/
def isNegativeNumber (cs : List Char) : Bool :=
  match cs with
  | '-' :: rest =>
    let body := if rest.getLast? = some '\n' then rest.dropLast else rest
    let whole := body.takeWhile (· ≠ '.')
    let fraction := body.dropWhile (· ≠ '.')
    allDigits whole &&
      (if fraction.isEmpty then !whole.isEmpty
        else allDigits (fraction.drop 1) && !(fraction.drop 1).isEmpty)
  | _ => false

/-- What an argument is, before two dashes. -/
def classify (text : String) : Except Stop Argument :=
  let cs := text.toList
  if cs.head? ≠ some '-' then .ok (.plain text)
  else match Flag.ofSpelling? text with
    | some f => .ok (.option ⟨f, (cs.drop 1).head? ≠ some '-', none⟩)
    | none =>
      if cs.length = 1 then .ok (.plain text)
      else
        let (start, value) := cutAtEquals cs
        match value, Flag.ofSpelling? (String.ofList start) with
        | some v, some f => .ok (.option ⟨f, (start.drop 1).head? ≠ some '-', some v⟩)
        | _, _ =>
          match candidates cs with
          | [(_, spelled)] => .ok (.option spelled)
          | [] =>
            if isNegativeNumber cs || cs.contains ' ' then .ok (.plain text)
            else .ok (.unknown text)
          | several =>
            .error (.error ("ambiguous option: " ++ text ++ " could match " ++
              ", ".intercalate (several.map (·.1))))

def classifyAll : List String → Except Stop (List Argument)
  | [] => .ok []
  | "--" :: rest => .ok (.dashes :: rest.map .plain)
  | text :: rest => do
    let a ← classify text
    let as ← classifyAll rest
    return a :: as

/-- What a text in the place of a value gives: itself, or nothing if it is two dashes. -/
def given (value : List Char) : Option String :=
  if value = ['-', '-'] then none else some (String.ofList value)

/-- What an option with an attached value comes to: options to act on with their values, and an option
that still waits for its value. -/
structure Expansion where
  actions : List (Flag × Option String)
  waiting : Option Flag
  deriving Repr

/-- The refusal of a value for an option that takes none. -/
def ignoredValue {α : Type} (f : Flag) (value : List Char) : Except Stop α :=
  complaint f ("ignored explicit argument " ++ Text.quoted (String.ofList value))

/-- Expands an option with an attached value. What is attached to a short option without a value is
a row of further short options. -/
def expand (f : Flag) (isShort : Bool) : List Char → Except Stop Expansion
  | [] => if f.takesValue then .ok ⟨[(f, some "")], none⟩ else ignoredValue f []
  | c :: more =>
    if f.takesValue then .ok ⟨[(f, given (c :: more))], none⟩
    else if !isShort then ignoredValue f (c :: more)
    else match Flag.ofSpelling? (String.ofList ['-', c]) with
      | none => ignoredValue f (c :: more)
      | some g =>
        if more = [] then .ok ⟨[(f, none)], some g⟩
        else do
          let e ← expand g true more
          return { e with actions := (f, none) :: e.actions }

def act (o : Options) (f : Flag) (value : Option String) : Except Stop Options :=
  match f with
  | .help => .error .help
  | .code => .ok { o with code := some value }
  | .outline => .ok { o with outline := true }
  | .tree => .ok { o with tree := true }
  | .places => .ok { o with places := true }
  | .trace => .ok { o with trace := true }
  | .depth =>
    match value with
    | none => .ok { o with limit := .unset }
    | some text =>
      match Text.readInteger text with
      | .ok n => .ok { o with limit := .frames n }
      | .error _ => complaint f ("invalid int value: " ++ Text.quoted text)

def actAll (o : Options) : List (Flag × Option String) → Except Stop Options
  | [] => .ok o
  | (f, value) :: rest => do actAll (← act o f value) rest

/-- The command line so far: what it asks for, whether the source may still come, and the arguments
that nothing takes. -/
structure Progress where
  options : Options := {}
  sourceOpen : Bool := true
  extras : List String := []
  deriving Repr, Inhabited

def Argument.text : Argument → String
  | .plain text => text
  | .unknown text => text
  | .dashes => "--"
  | .option _ => ""

/-- The arguments after the last option: the source, if it may still come, and what is left over. -/
def finishArguments (p : Progress) (args : List Argument) : Progress :=
  let leave (p : Progress) (rest : List Argument) : Progress :=
    { p with extras := p.extras ++ rest.map Argument.text }
  let take (text : String) (rest : List Argument) : Progress :=
    leave { p with options := { p.options with source := some text } } rest
  if p.sourceOpen then
    match args with
    | [] => p
    | .dashes :: [] => p
    | .dashes :: a :: rest => take a.text rest
    | a :: .dashes :: rest => take a.text rest
    | a :: rest => take a.text rest
  else leave p args

/-- Whether an argument is an option, known or not. -/
def Argument.isOption : Argument → Bool
  | .option _ => true
  | .unknown _ => true
  | _ => false

def readArguments (p : Progress) : List Argument → Except Stop Progress
  | [] => .ok p
  | a :: rest =>
    if !(a :: rest).any Argument.isOption then .ok (finishArguments p (a :: rest))
    else match a with
      | .unknown text => readArguments { p with extras := p.extras ++ [text] } rest
      | .dashes => readArguments p rest
      | .plain text =>
        if p.sourceOpen then
          readArguments { p with options := { p.options with source := some text }
                                 sourceOpen := false } rest
        else readArguments { p with extras := p.extras ++ [text] } rest
      | .option spelled => do
        let e ← match spelled.attached with
          | some value => expand spelled.flag spelled.isShort value
          | none => pure ⟨[], some spelled.flag⟩
        match e.waiting with
        | none =>
          let options ← actAll p.options e.actions
          readArguments { p with options := options } rest
        | some f =>
          if f.takesValue then
            match rest with
            | .plain value :: rest =>
              let options ← actAll p.options (e.actions ++ [(f, some value)])
              readArguments { p with options := options } rest
            | _ => complaint f "expected one argument"
          else
            let options ← actAll p.options (e.actions ++ [(f, none)])
            readArguments { p with options := options } rest

/-- Reads a command line. Arguments that nothing takes are complained about at the end. -/
def readOptions (argv : List String) : Except Stop Options := do
  let p ← readArguments {} (← classifyAll argv)
  if p.extras.isEmpty then return p.options
  else throw (.error ("unrecognized arguments: " ++ " ".intercalate p.extras))

end Parley.Command
