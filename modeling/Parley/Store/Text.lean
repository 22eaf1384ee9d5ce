import Parley.Node.Source
import Parley.Store

/-! The text of values. Two forms are for programs: `literal` writes a value as it would be written in
source, `display` shows a string as it is. A third, `inspect`, is for logs. A list that contains itself
has no literal: the text would be endless. -/

namespace Parley

open Parley.Text

/-- Why a value has no text. -/
inductive TextFault where
  /-- an integer has too many digits -/
  | tooLong
  /-- a list contains itself -/
  | bottomless
  deriving DecidableEq, Repr

def integerText (n : Int) : Except TextFault String :=
  match decimal? n with
  | some t => .ok t
  | none => .error .tooLong

/-- The letters whose names begin with a vowel take `an`; the dotless letter counts as `I`. -/
def takesAn (name : String) : Bool :=
  match name.toList with
  | [] => false
  | c :: _ => ['A', 'E', 'I', 'O', 'U', 'a', 'e', 'i', 'o', 'u', 'ı'].contains c

/-- The text of an instance of a class. -/
def instanceText (className : String) : String :=
  (if takesAn className then "an " else "a ") ++ className

namespace Block

def source (b : Block) : String := blockSource b.params b.body.source

/-- A block in logs. -/
def label (b : Block) : String := "Block(" ++ quotedList b.params ++ ")"

end Block

namespace Store

/-- The literal of a value inside the lists of `path`, at most `fuel` lists deep. -/
def literalWithin (s : Store) : Nat → List ListRef → Value → Except TextFault String
  | _, _, .nil => .ok "nil"
  | _, _, .boolean b => .ok (if b then "true" else "false")
  | _, _, .integer n => integerText n
  | _, _, .string t => .ok (stringLiteral t)
  | _, _, .block r => .ok (s.block r).source
  | _, _, .object r => .ok (instanceText (s.object r).cls.name)
  | _, _, .cls c => .ok c.name
  | 0, _, .list _ => .error .bottomless
  | fuel + 1, path, .list r =>
    if r ∈ path then .error .bottomless
    else
      match (s.list r).toList.mapM (s.literalWithin fuel (r :: path)) with
      | .ok texts => .ok ("[" ++ ", ".intercalate texts ++ "]")
      | .error e => .error e

/-- A value as it would be written in source. Lists nested deeper than there are lists contain one
another. -/
def literal (s : Store) (v : Value) : Except TextFault String :=
  s.literalWithin (s.lists.size + 1) [] v

/-- A value as it is shown: a string is its own text. -/
def display (s : Store) (v : Value) : Except TextFault String :=
  match v with
  | .string t => .ok t
  | v => s.literal v

/-- The log text of a value. A list inside itself is shown as `[...]`. Instances in a ring without a
list between them have no text: `since` are the instances entered after the latest list. -/
def inspectWithin (s : Store) :
    Nat → List ListRef → List ObjectRef → Value → Except TextFault String
  | _, _, _, .nil => .ok "Value(None)"
  | _, _, _, .boolean b => .ok (if b then "Value(True)" else "Value(False)")
  | _, _, _, .integer n => (integerText n).map fun t => "Value(" ++ t ++ ")"
  | _, _, _, .string t => .ok ("Value(" ++ quoted t ++ ")")
  | _, _, _, .block r => .ok ("Value(" ++ (s.block r).label ++ ")")
  | _, _, _, .cls c => .ok ("Value(" ++ classLabel c.name ++ ")")
  | 0, _, _, .list _ => .error .bottomless
  | 0, _, _, .object _ => .error .bottomless
  | fuel + 1, path, _, .list r =>
    if r ∈ path then .ok "Value([...])"
    else
      match (s.list r).toList.mapM (s.inspectWithin fuel (r :: path) []) with
      | .ok texts => .ok ("Value([" ++ ", ".intercalate texts ++ "])")
      | .error e => .error e
  | fuel + 1, path, since, .object r =>
    if r ∈ since then .error .bottomless
    else
      let o := s.object r
      let slot := fun e : String × Value =>
        (s.inspectWithin fuel path (r :: since) e.2).map fun t => "@" ++ e.1 ++ "=" ++ t
      match o.slots.entries.mapM slot with
      | .ok texts =>
        .ok ("Value(Instance(" ++ o.cls.name ++ ", " ++ ", ".intercalate texts ++ "))")
      | .error e => .error e

def inspect (s : Store) (v : Value) : Except TextFault String :=
  s.inspectWithin ((s.lists.size + 1) * (s.objects.size + 1)) [] [] v

def inspectAll (s : Store) (vs : List Value) : Except TextFault String :=
  (vs.mapM s.inspect).map fun texts => "[" ++ ", ".intercalate texts ++ "]"

/-! Labels -/

/-- A frame in messages: how many frames lie around it, and the names that it binds itself. -/
def frameLabel (s : Store) (env : FrameRef) : String :=
  "Environment(depth=" ++ toString (s.depth env) ++ ", names=" ++
    quotedList (s.frame env).bindings.keys ++ ")"

def activationLabel (s : Store) (r : ActivationRef) : String :=
  let a := s.activation r
  "Activation(" ++ a.method.label ++ ", " ++ (if a.alive then "alive" else "dead") ++ ")"

/-- The whole store in messages. -/
def label (s : Store) : String := "Interpreter<" ++ toString s.classes.size ++ " classes>"

end Store

end Parley
