import Parley.Machine.Primitive

/-! Sending messages. Classes answer their own messages, instances look a method up along the superclasses
of their class, blocks answer the calls, and whatever is left goes to the primitives. -/

namespace Parley

namespace Store

/-- Runs a method's body for a receiver. Its parameters are bound in a fresh frame inside the global
one, so that nothing of the sender's frames is visible. -/
def invoke (s : Store) (m : Method) (receiver : Value) (args : List Value) : Action × Store :=
  if args.length = m.params.length then
    let (env, s) := s.newFrame (some globals) (m.params.zip args)
    let (home, s) := s.newActivation m receiver
    (.request m.body ⟨env, receiver, some home⟩ (.method home), s)
  else (.error (.arityMismatch m.params.length args.length), s)

def sendPrimitive (s : Store) (receiver : Value) (selector : String) (args : List Value) :
    Action × Store :=
  match Primitive.find? receiver.kind selector with
  | some p => p.perform s selector receiver args
  | none => (.error (.doesNotUnderstand selector (s.className receiver)), s)

/-! Messages to classes -/

def nameArgument (s : Store) (selector : String) (v : Value) : Answer String :=
  match v with
  | .string name => .ok name
  | v => .error (.refuse selector (.expectedName (s.className v)))

def namesArgument (s : Store) (selector : String) (v : Value) : Answer (List String) :=
  match v with
  | .list r => (s.list r).toList.mapM (s.nameArgument selector)
  | v => .error (.refuse selector (.expectedNames (s.className v)))

/-- Sets variables of new slots one after another. -/
def setSlots (slots : OrderedMap String Value) :
    List (String × Value) → Except Error (OrderedMap String Value)
  | [] => .ok slots
  | (name, v) :: rest =>
    if slots.contains name then setSlots (slots.put name v) rest else .error (.unknownSlot name)

/-- A new instance of a registered class: every variable is nil, then some are set. Of two values
for one variable the later counts, at the place of the earlier. -/
def instantiate (s : Store) (name : String) (values : List (String × Value)) :
    Except Error Object := do
  let c ← s.classes.get name
  let names ← s.classes.slots c.name
  let slots ← setSlots (.ofList (names.map (·, .nil))) (OrderedMap.ofList values).entries
  return ⟨.registered c.name, slots⟩

def answerNew (s : Store) (made : Except Error Object) : Action × Store :=
  match made with
  | .ok o =>
    let (v, s) := s.newObject o
    (.finish v, s)
  | .error e => (.error e, s)

def answerSubclass (s : Store) (parent name : String) (fields : List String) : Action × Store :=
  match s.classes.subclass parent name fields with
  | .ok (c, classes) =>
    let s := { s with classes := classes }
    let line := "oops.classtable: defined class " ++ name ++ " < " ++ c.parent.getD "" ++ " " ++
      Text.quotedList fields
    (.finish (.cls (.registered c.name)), s.log line)
  | .error e => (.error e, s)

/-- The selector that a method gets: a name with keyword parts or an operator as it is, any other
with one keyword for each parameter. -/
def methodSelector (name : String) (params : List String) : String :=
  if Selector.isBinary name || Selector.isPart name.toList then name
  else Selector.make (some name) params

/-- Installs a block as a method of a class. -/
def installMethod (s : Store) (c : ClassRef) (name : String) (b : Block) : Except Error Store := do
  let selector := methodSelector (Selector.normalize name) b.params
  let (m, replaced, classes) ← s.classes.define c.name selector b.params b.body
  let s := { s with classes := classes }
  if replaced then
    return s.log ("oops.classtable: redefined " ++ m.owner ++ ">>#" ++ m.selector)
  else return s

/-- The name and the block in the arguments of a definition. Both have to be there before either is
looked at. -/
def definition (s : Store) (args : List Value) : Answer (String × BlockRef) := do
  let nameValue ← argument args 0
  let blockValue ← argument args 1
  let name ← s.nameArgument "def: do:" nameValue
  match blockValue with
  | .block r => return (name, r)
  | v => throw (.refuse "def: do:" (.expected Kind.block.word (s.className v)))

def answerStrings (s : Store) (names : Except Error (List String)) : Action × Store :=
  match names with
  | .ok names => s.finishList (names.map .string)
  | .error e => (.error e, s)

def sendClass (s : Store) (m : ClassMessage) (c : ClassRef) (selector : String)
    (args : List Value) : Action × Store :=
  match m with
  | .new => s.answerNew (s.instantiate c.name [])
  | .newWith => s.answerNew (s.instantiate c.name ((Selector.keywords selector).zip args))
  | .subclass =>
    match argument args 0 >>= s.nameArgument selector with
    | .ok name => s.answerSubclass c.name name []
    | .error a => (a, s)
  | .subclassWith =>
    match argument args 0 >>= s.nameArgument selector with
    | .error a => (a, s)
    | .ok name =>
      match argument args 1 >>= s.namesArgument selector with
      | .ok fields => s.answerSubclass c.name name fields
      | .error a => (a, s)
  | .define =>
    match s.definition args with
    | .error a => (a, s)
    | .ok (name, r) =>
      match s.installMethod c name (s.block r) with
      | .ok s => (.finish (.cls c), s)
      | .error e => (.error e, s)
  | .name => (.finish (.string c.name), s)
  | .superclass =>
    match s.classes.superclass c.name with
    | .ok none => (.finish .nil, s)
    | .ok (some parent) => (.finish (.cls (.registered parent.name)), s)
    | .error e => (.error e, s)
  | .slots => s.answerStrings (s.classes.slots c.name)
  | .selectors => s.answerStrings (s.classes.selectors c.name)

/-! Sends -/

/-- Logs a send, if a log is kept. Arguments without a text end the run; an argument with too many
digits leaves no line. -/
def logSend (s : Store) (target selector : String) (args : List Value) : Except Crash Store :=
  if s.trace.isNone then .ok s
  else match s.inspectAll args with
    | .ok texts =>
      .ok (s.log ("oops.dispatch: " ++ target ++ " >> #" ++ selector ++ " " ++ texts))
    | .error .tooLong => .ok s
    | .error .bottomless => .error .bottomless

def sendMessage (s : Store) (receiver : Value) (selector : String) (args : List Value) :
    Action × Store :=
  match receiver with
  | .cls c =>
    match ClassMessage.find? selector with
    | some m => s.sendClass m c selector args
    | none => s.sendPrimitive receiver selector args
  | .object r =>
    match s.classes.lookup (s.object r).cls.name selector with
    | .ok (some m) => s.invoke m receiver args
    | .ok none => s.sendPrimitive receiver selector args
    | .error e => (.error e, s)
  | .block r =>
    if Selector.isCall selector then s.callBlock r args .result
    else s.sendPrimitive receiver selector args
  | _ => s.sendPrimitive receiver selector args

/-- Sends a message, looking it up above the class that owns the running method. -/
def sendAbove (s : Store) (receiver : Value) (owner selector : String) (args : List Value) :
    Action × Store :=
  match s.classes.lookupSuper owner selector with
  | .ok (some m) => s.invoke m receiver args
  | .ok none => s.sendPrimitive receiver selector args
  | .error e => (.error e, s)

def send (s : Store) (receiver : Value) (selector : String) (args : List Value) : Action × Store :=
  match s.logSend (s.className receiver) selector args with
  | .ok s => s.sendMessage receiver selector args
  | .error c => (.crash c, s)

/-- Sends a message above a class and logs it. -/
def sendSuper (s : Store) (receiver : Value) (owner selector : String) (args : List Value) :
    Action × Store :=
  match s.logSend ("super " ++ owner) selector args with
  | .ok s => s.sendAbove receiver owner selector args
  | .error c => (.crash c, s)

end Store

end Parley
