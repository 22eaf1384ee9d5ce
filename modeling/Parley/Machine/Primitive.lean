import Parley.Machine.Action
import Parley.Machine.Message
import Parley.Store.Equality
import Parley.Store.Text

/-! The primitives. Those that run no other code answer at once; loops, branches and `catch:` call blocks
through requests. An argument is read only when it is needed. -/

namespace Parley

namespace Store

/-! Blocks -/

/-- Runs a block's body with its parameters bound in a fresh frame inside the one it captured. -/
def callBlock (s : Store) (r : BlockRef) (args : List Value) (work : Work) : Action × Store :=
  let b := s.block r
  if args.length = b.params.length then
    let (env, s) := s.newFrame (some b.env) (b.params.zip args)
    (.request b.body ⟨env, b.receiver, b.home⟩ work, s)
  else (.error (.arityMismatch b.params.length args.length), s)

/-- The value of an argument: the answer of a block, any other value itself. -/
def valueOf (s : Store) (v : Value) (args : List Value) : Action × Store :=
  match v with
  | .block r => s.callBlock r args .result
  | v => (.finish v, s)

/-- The value of an argument that may be missing. -/
def valueOfArgument (s : Store) (args : List Value) (i : Nat) : Action × Store :=
  match argument args i with
  | .ok v => s.valueOf v []
  | .error a => (a, s)

/-! Conditions -/

/-- The truth value of a condition, which only booleans have. -/
def truth (s : Store) (selector : String) (v : Value) : Except Error Bool :=
  match v with
  | .boolean b => .ok b
  | v => .error (.primitiveFailed selector (.expectedBoolean (s.className v)))

/-! Loops -/

/-- Calls a block as often as is left. -/
def repeatBlock (s : Store) (answer : Value) (r : BlockRef) : Nat → Action × Store
  | 0 => (.finish answer, s)
  | left + 1 => s.callBlock r [] (.repeating answer r left)

def countBlock (s : Store) (answer : Value) (r : BlockRef) (next : Int) : Nat → Action × Store
  | 0 => (.finish answer, s)
  | left + 1 => s.callBlock r [.integer next] (.counting answer r (next + 1) left)

def visitItems (s : Store) (answer : Value) (r : BlockRef) : List Value → Action × Store
  | [] => (.finish answer, s)
  | v :: vs => s.callBlock r [v] (.visiting answer r vs)

def finishList (s : Store) (items : List Value) : Action × Store :=
  let (v, s) := s.newList items.toArray
  (.finish v, s)

/-- Collects the answers of a block for each item; those done come latest first. -/
def collectItems (s : Store) (r : BlockRef) (done : List Value) : List Value → Action × Store
  | [] => s.finishList done.reverse
  | v :: vs => s.callBlock r [v] (.collecting r done vs)

def loopSelector (expected : Bool) : String := if expected then "whileTrue:" else "whileFalse:"

def testLoop (s : Store) (expected : Bool) (condition : BlockRef) (body : Option Value) :
    Action × Store :=
  s.callBlock condition [] (.testing expected condition body)

/-- Goes on after the condition of a loop has a value. -/
def afterTest (s : Store) (expected : Bool) (condition : BlockRef) (body : Option Value)
    (v : Value) : Action × Store :=
  match s.truth (loopSelector expected) v with
  | .ok b =>
    if b = expected then
      match body with
      | none => (.crash .missingArgument, s)
      | some (.block r) => s.callBlock r [] (.looping expected condition body)
      | some _ => s.testLoop expected condition body
    else (.finish .nil, s)
  | .error e => (.error e, s)

/-! Recovery -/

/-- Hands an error to a handler: in words if the handler is a block with one parameter. A handler
that is no block is the answer itself. -/
def handle (s : Store) (e : Error) (handler : Value) : Action × Store :=
  let s := s.log ("oops.primitive: caught " ++ e.kind)
  match handler with
  | .block r =>
    if (s.block r).params.length = 1 then s.callBlock r [.string e.describe] .result
    else s.callBlock r [] .result
  | v => (.finish v, s)

/-- Runs a block whose errors a handler takes, the block's own refusal to be called included. -/
def guardBlock (s : Store) (r : BlockRef) (handler : Value) : Action × Store :=
  match s.callBlock r [] (.catching handler) with
  | (.fail (.error e _), s) => s.handle e handler
  | act => act

/-! Arguments of an expected kind -/

def integerArgument (s : Store) (selector : String) (v : Value) : Answer Int :=
  match v with
  | .integer n => .ok n
  | v => .error (.refuse selector (.expected Kind.integer.word (s.className v)))

def stringArgument (s : Store) (selector : String) (v : Value) : Answer String :=
  match v with
  | .string t => .ok t
  | v => .error (.refuse selector (.expected Kind.string.word (s.className v)))

/-- The text of a value that a primitive needs. -/
def textFor (selector : String) (text : Except TextFault String) : Answer String :=
  match text with
  | .ok t => .ok t
  | .error .tooLong => .error (.refuse selector .textTooLong)
  | .error .bottomless => .error (.crash .bottomless)

/-- The outcome of a comparison that a primitive needs. -/
def equalFor (outcome : Option Bool) : Answer Bool :=
  match outcome with
  | some b => .ok b
  | none => .error (.crash .bottomless)

/-- The place of an item that is counted from one. -/
def itemIndex (s : Store) (selector : String) (items : Array Value) (v : Value) : Answer Nat := do
  let i ← s.integerArgument selector v
  if 1 ≤ i ∧ i ≤ items.size then return (i - 1).toNat
  else match integerText i with
    | .ok _ => throw (.refuse selector (.outside i items.size))
    | .error _ => throw (.refuse selector .textTooLong)

end Store

/-- Division goes to the floor, and the remainder has the sign of the divisor. -/
def Arithmetic.apply (op : Arithmetic) (a b : Int) : Except Reason Int :=
  match op with
  | .add => .ok (a + b)
  | .subtract => .ok (a - b)
  | .multiply => .ok (a * b)
  | .divide => if b = 0 then .error .divisionByZero else .ok (a.fdiv b)
  | .remainder => if b = 0 then .error .divisionByZero else .ok (a.fmod b)

def Comparison.integers (op : Comparison) (a b : Int) : Bool :=
  match op with
  | .less => a < b
  | .greater => b < a
  | .lessEqual => a ≤ b
  | .greaterEqual => b ≤ a

/-- Strings are in the order of their code points. -/
def Comparison.strings (op : Comparison) (a b : String) : Bool :=
  match op with
  | .less => a < b
  | .greater => b < a
  | .lessEqual => !(b < a : Bool)
  | .greaterEqual => !(a < b : Bool)

/-! The primitives of each kind of value -/

/-- Repeats a block a number of times. An argument that is no block has nothing to repeat. -/
def repeatTimes (s : Store) (n : Int) (args : List Value) : Action × Store :=
  if n.toNat = 0 then (.finish (.integer n), s)
  else match argument args 0 with
    | .ok (.block r) => s.repeatBlock (.integer n) r n.toNat
    | .ok _ => (.finish (.integer n), s)
    | .error a => (a, s)

/-- Calls a block with the numbers from the receiver to a last one. -/
def countTo (s : Store) (selector : String) (n : Int) (args : List Value) : Action × Store :=
  match argument args 0 >>= s.integerArgument selector with
  | .error a => (a, s)
  | .ok stop =>
    let count := (stop + 1 - n).toNat
    if count = 0 then (.finish (.integer n), s)
    else match argument args 1 with
      | .ok (.block r) => s.countBlock (.integer n) r n count
      | .ok _ => (.finish (.integer n), s)
      | .error a => (a, s)

/-- The primitives on integers that run no other code. -/
def IntegerPrimitive.answer (s : Store) (p : IntegerPrimitive) (selector : String) (n : Int)
    (args : List Value) : Answer Value := do
  let operand : Answer Int := argument args 0 >>= s.integerArgument selector
  match p with
  | .arithmetic op =>
    match op.apply n (← operand) with
    | .ok k => return .integer k
    | .error reason => throw (.refuse selector reason)
  | .compare op => return .boolean (op.integers n (← operand))
  | .max => return .integer (Max.max n (← operand))
  | .min => return .integer (Min.min n (← operand))
  | .negated => return .integer (-n)
  | .abs => return .integer n.natAbs
  | .timesRepeat | .toDo => return .integer n

def IntegerPrimitive.perform (s : Store) (p : IntegerPrimitive) (selector : String) (n : Int)
    (args : List Value) : Action × Store :=
  match p with
  | .timesRepeat => repeatTimes s n args
  | .toDo => countTo s selector n args
  | p => Answer.act s (p.answer s selector n args)

def StringPrimitive.answer (s : Store) (p : StringPrimitive) (selector t : String)
    (args : List Value) : Answer Value := do
  match p with
  | .concat => return .string (t ++ (← Store.textFor selector (s.display (← argument args 0))))
  | .compare op => return .boolean (op.strings t (← s.stringArgument selector (← argument args 0)))
  | .size => return .integer t.length
  | .isEmpty => return .boolean t.isEmpty
  | .asInteger =>
    match Text.readInteger t with
    | .ok n => return .integer n
    | .error e => throw (.refuse selector (.notInteger e))
  | .reversed => return .string (String.ofList t.toList.reverse)

def BooleanPrimitive.perform (s : Store) (p : BooleanPrimitive) (b : Bool) (args : List Value) :
    Action × Store :=
  match p with
  | .ifTrue => if b then s.valueOfArgument args 0 else (.finish .nil, s)
  | .ifFalse => if b then (.finish .nil, s) else s.valueOfArgument args 0
  | .ifTrueElse => s.valueOfArgument args (if b then 0 else 1)
  | .ifFalseElse => s.valueOfArgument args (if b then 1 else 0)
  | .and => if b then s.valueOfArgument args 0 else (.finish (.boolean false), s)
  | .or => if b then (.finish (.boolean true), s) else s.valueOfArgument args 0
  | .not => (.finish (.boolean (!b)), s)

/-- Calls a block with the items that a list has at the start. -/
def visitList (s : Store) (r : ListRef) (args : List Value) : Action × Store :=
  let items := (s.list r).toList
  if items.isEmpty then (.finish (.list r), s)
  else match argument args 0 with
    | .ok (.block b) => s.visitItems (.list r) b items
    | .ok _ => (.finish (.list r), s)
    | .error a => (a, s)

/-- A new list of the answers for the items that a list has at the start. An argument that is no
block is the answer for each. -/
def collectList (s : Store) (r : ListRef) (args : List Value) : Action × Store :=
  let items := (s.list r).toList
  if items.isEmpty then s.finishList []
  else match argument args 0 with
    | .ok (.block b) => s.collectItems b [] items
    | .ok v => s.finishList (items.map fun _ => v)
    | .error a => (a, s)

/-- The item of a list at a place that is counted from one. -/
def itemAt (s : Store) (selector : String) (items : Array Value) (args : List Value) :
    Answer Value := do
  return items.getD (← s.itemIndex selector items (← argument args 0)) .nil

/-- A place of a list that is counted from one, and the value to put there. The value is read
first. -/
def itemChange (s : Store) (selector : String) (items : Array Value) (args : List Value) :
    Answer (Nat × Value) := do
  let v ← argument args 1
  return (← s.itemIndex selector items (← argument args 0), v)

def ListPrimitive.perform (s : Store) (p : ListPrimitive) (selector : String) (r : ListRef)
    (args : List Value) : Action × Store :=
  match p with
  | .size => (.finish (.integer (s.list r).size), s)
  | .isEmpty => (.finish (.boolean (s.list r).isEmpty), s)
  | .at => Answer.act s (itemAt s selector (s.list r) args)
  | .atPut =>
    match itemChange s selector (s.list r) args with
    | .ok (i, v) => (.finish v, s.setList r i v)
    | .error a => (a, s)
  | .add =>
    match argument args 0 with
    | .ok v => (.finish (.list r), s.pushList r v)
    | .error a => (a, s)
  | .first => (.finish ((s.list r).getD 0 .nil), s)
  | .last => (.finish ((s.list r).back?.getD .nil), s)
  | .includes =>
    Answer.act s do
      let v ← argument args 0
      return .boolean (← Store.equalFor (s.includes? (s.list r).toList v))
  | .visit => visitList s r args
  | .collect => collectList s r args

def BlockPrimitive.perform (s : Store) (p : BlockPrimitive) (r : BlockRef) (args : List Value) :
    Action × Store :=
  match p with
  | .arity => (.finish (.integer (s.block r).params.length), s)
  | .loop expected => s.testLoop expected r args[0]?
  | .recover =>
    match argument args 0 with
    | .ok handler => s.guardBlock r handler
    | .error a => (a, s)

/-- The other branch of a value that is not nil: a block with one parameter gets the value. -/
def otherwise (s : Store) (v : Value) (args : List Value) : Action × Store :=
  match argument args 1 with
  | .ok (.block r) =>
    if (s.block r).params.length = 1 then s.callBlock r [v] .result else s.callBlock r [] .result
  | .ok w => (.finish w, s)
  | .error a => (a, s)

/-- The primitives on every value that change nothing and run no other code. -/
def AnyPrimitive.answer (s : Store) (p : AnyPrimitive) (selector : String) (v : Value)
    (args : List Value) : Answer Value := do
  match p with
  | .equal => return .boolean (← Store.equalFor (s.equal? v (← argument args 0)))
  | .notEqual => return .boolean (!(← Store.equalFor (s.equal? v (← argument args 0))))
  | .isNil => return .boolean (v = .nil)
  | .notNil => return .boolean (v ≠ .nil)
  | .asString => return .string (← Store.textFor selector (s.display v))
  | .printString => return .string (← Store.textFor selector (s.literal v))
  | .className => return .string (s.className v)
  | .classOf =>
    match v with
    | .object r => return .cls (s.object r).cls
    | v => return .string (s.className v)
  | .respondsTo =>
    let name ← s.stringArgument selector (← argument args 0)
    return .boolean (← orError (s.respondsTo v (Selector.normalize name)))
  | .ifNil | .ifNilElse | .print => return v

def AnyPrimitive.perform (s : Store) (p : AnyPrimitive) (selector : String) (v : Value)
    (args : List Value) : Action × Store :=
  match p with
  | .ifNilElse => otherwise s v args
  | .print =>
    match Store.textFor selector (s.display v) with
    | .ok text => (.finish v, s.print text)
    | .error a => (a, s)
  | p => Answer.act s (p.answer s selector v args)

/-- Performs a primitive. It is found by the kind of its receiver, so the two fit. -/
def Primitive.perform (s : Store) (p : Primitive) (selector : String) (receiver : Value)
    (args : List Value) : Action × Store :=
  match p, receiver with
  | .integer p, .integer n => p.perform s selector n args
  | .string p, .string t => Answer.act s (p.answer s selector t args)
  | .boolean p, .boolean b => p.perform s b args
  | .list p, .list r => p.perform s selector r args
  | .block p, .block r => p.perform s r args
  | .nilBranch, _ => s.valueOfArgument args 0
  | .any p, v => p.perform s selector v args
  | _, v => (.finish v, s)

end Parley
