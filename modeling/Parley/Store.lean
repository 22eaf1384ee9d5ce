import Parley.ClassTable
import Parley.Value

/-! The store: everything that a running program can change. Objects are only ever added, and a frame's
parent is older than the frame, so a walk outward ends at a frame without parent. -/

namespace Parley

/-- One frame of bindings. -/
structure Frame where
  /-- The frame around it. -/
  parent : Option FrameRef
  bindings : OrderedMap String Value
  deriving Repr, Inhabited

/-- A block with what it captured where it was made: the frame, the receiver and the activation that
a return in it goes back to. -/
structure Block where
  params : List String
  body : Node
  env : FrameRef
  receiver : Value
  home : Option ActivationRef
  deriving Repr, Inhabited

/-- An instance: its class and one slot for each instance variable. -/
structure Object where
  cls : ClassRef
  slots : OrderedMap String Value
  deriving Repr, Inhabited

/-- One run of a method. It is alive until the method ends, and for good if a crash ends the run first. -/
structure Activation where
  method : Method
  receiver : Value
  alive : Bool
  deriving Repr, Inhabited

structure Store where
  frames : Array Frame
  lists : Array (Array Value)
  objects : Array Object
  blocks : Array Block
  activations : Array Activation
  classes : ClassTable
  /-- How many classes were made outside the class table. -/
  detached : Nat
  /-- What the program has printed. -/
  output : String
  /-- The log of the run, when one is kept. -/
  trace : Option String
  deriving Repr, Inhabited

namespace Store

/-- The frame of the global bindings. -/
def globals : FrameRef := ⟨0⟩

/-- The store of a fresh program: an empty global frame and the root class. -/
def initial (traced : Bool) : Store :=
  { frames := #[⟨none, .empty⟩]
    lists := #[]
    objects := #[]
    blocks := #[]
    activations := #[]
    classes := .initial
    detached := 0
    output := ""
    trace := if traced then some "" else none }

/-! Reading -/

def frame (s : Store) (r : FrameRef) : Frame := s.frames.getD r.index default

def list (s : Store) (r : ListRef) : Array Value := s.lists.getD r.index #[]

def object (s : Store) (r : ObjectRef) : Object := s.objects.getD r.index default

def block (s : Store) (r : BlockRef) : Block := s.blocks.getD r.index default

def activation (s : Store) (r : ActivationRef) : Activation := s.activations.getD r.index default

/-! Adding -/

/-- A new frame around which `parent` lies. -/
def newFrame (s : Store) (parent : Option FrameRef) (bindings : List (String × Value)) :
    FrameRef × Store :=
  (⟨s.frames.size⟩, { s with frames := s.frames.push ⟨parent, .ofList bindings⟩ })

def newList (s : Store) (items : Array Value) : Value × Store :=
  (.list ⟨s.lists.size⟩, { s with lists := s.lists.push items })

def newObject (s : Store) (o : Object) : Value × Store :=
  (.object ⟨s.objects.size⟩, { s with objects := s.objects.push o })

def newBlock (s : Store) (b : Block) : Value × Store :=
  (.block ⟨s.blocks.size⟩, { s with blocks := s.blocks.push b })

def newActivation (s : Store) (method : Method) (receiver : Value) : ActivationRef × Store :=
  (⟨s.activations.size⟩, { s with activations := s.activations.push ⟨method, receiver, true⟩ })

def newDetachedClass (s : Store) (name : String) : ClassRef × Store :=
  (.detached s.detached name, { s with detached := s.detached + 1 })

/-! Changing -/

def setList (s : Store) (r : ListRef) (i : Nat) (v : Value) : Store :=
  { s with lists := s.lists.modify r.index (·.setIfInBounds i v) }

def pushList (s : Store) (r : ListRef) (v : Value) : Store :=
  { s with lists := s.lists.modify r.index (·.push v) }

def setSlot (s : Store) (r : ObjectRef) (name : String) (v : Value) : Store :=
  { s with objects := s.objects.modify r.index fun o => { o with slots := o.slots.put name v } }

def retire (s : Store) (r : ActivationRef) : Store :=
  { s with activations := s.activations.modify r.index fun a => { a with alive := false } }

def print (s : Store) (text : String) : Store := { s with output := s.output ++ text ++ "\n" }

/-- Adds a line to the log, if one is kept. -/
def log (s : Store) (line : String) : Store :=
  { s with trace := s.trace.map (· ++ line ++ "\n") }

/-! Bindings along a chain of frames -/

/-- The nearest frame from frame `i` outward that binds a name. -/
def holderFrom (frames : Array Frame) (name : String) (i : Nat) : Option Nat :=
  match frames[i]? with
  | none => none
  | some f =>
    if f.bindings.contains name then some i
    else match f.parent with
      | none => none
      | some p => if p.index < i then holderFrom frames name p.index else none
  termination_by i

def holder? (s : Store) (env : FrameRef) (name : String) : Option FrameRef :=
  (holderFrom s.frames name env.index).map (⟨·⟩)

def lookup? (s : Store) (env : FrameRef) (name : String) : Option Value :=
  match s.holder? env name with
  | none => none
  | some r => (s.frame r).bindings.get? name

def define (s : Store) (env : FrameRef) (name : String) (v : Value) : Store :=
  { s with frames := s.frames.modify env.index fun f =>
      { f with bindings := f.bindings.put name v } }

/-- Gives a name that is bound already a new value in the nearest frame that binds it. -/
def assign? (s : Store) (env : FrameRef) (name : String) (v : Value) : Option Store :=
  (s.holder? env name).map fun r => s.define r name v

def depthFrom (frames : Array Frame) (i : Nat) : Nat :=
  match frames[i]? with
  | none => 0
  | some f =>
    match f.parent with
    | none => 0
    | some p => if p.index < i then depthFrom frames p.index + 1 else 0
  termination_by i

def depth (s : Store) (env : FrameRef) : Nat := depthFrom s.frames env.index

/-! Names -/

/-- The name that a value reports as its class. -/
def className (s : Store) : Value → String
  | .object r => (s.object r).cls.name
  | .cls c => c.name ++ " class"
  | v => v.kind.title

end Store

end Parley
