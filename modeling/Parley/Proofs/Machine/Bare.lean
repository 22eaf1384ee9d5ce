import Parley.Machine.Evaluate
import Parley.Proofs.Store.Bare

/-! Actions without places. Nothing that a program does depends on where it was written: an operation does
the same, places apart, in a store and in the store without places. Only the site of an error that goes
outward and the code that is evaluated next have places. -/

namespace Parley

def Task.bare : Task → Task
  | .node n => .node n.bare
  | task => task

def Failure.bare : Failure → Failure
  | .error e site => .error e (site.map Task.bare)
  | .signal v home => .signal v home

def Work.bare : Work → Work
  | .items done todo => .items done (Node.bareEach todo)
  | .receiver selector args isSuper => .receiver selector (Node.bareEach args) isSuper
  | .argument target selector done todo isSuper =>
    .argument target selector done (Node.bareEach todo) isSuper
  | .statements todo => .statements (Node.bareEach todo)
  | work => work

def Action.bare : Action → Action
  | .fail f => .fail f.bare
  | .request n scope work => .request n.bare scope work.bare
  | action => action

/-- An action and its store without places. -/
def bareAct (act : Action × Store) : Action × Store := (act.1.bare, act.2.bare)

@[simp] theorem Task.bare_bare (t : Task) : t.bare.bare = t.bare := by
  cases t with
  | node n => exact congrArg Task.node n.bare_bare
  | _ => rfl

@[simp] theorem Failure.bare_bare (f : Failure) : f.bare.bare = f.bare := by
  have htask : Task.bare ∘ Task.bare = Task.bare := funext Task.bare_bare
  cases f with
  | error e site => simp only [Failure.bare, Option.map_map, htask]
  | signal v home => rfl

@[simp] theorem Work.bare_bare (w : Work) : w.bare.bare = w.bare := by
  cases w <;> simp [Work.bare]

@[simp] theorem Action.bare_bare (a : Action) : a.bare.bare = a.bare := by
  cases a <;> simp [Action.bare]

@[simp] theorem bareAct_bareAct (act : Action × Store) : bareAct (bareAct act) = bareAct act := by
  simp [bareAct]

/-- Without places it makes no difference whether the store had them. -/
@[simp] theorem bareAct_bare (a : Action) (s : Store) : bareAct (a, s.bare) = bareAct (a, s) := by
  simp [bareAct]

namespace Store

variable (s : Store)

/-! Blocks -/

theorem callBlock_bare (r : BlockRef) (args : List Value) (work : Work) :
    bareAct (s.bare.callBlock r args work) = bareAct (s.callBlock r args work) := by
  simp only [callBlock, block_bare, Block.bare, newFrame_bare]
  split_ifs
  · simp [bareAct, Action.bare]
  · exact bareAct_bare _ s

theorem valueOf_bare (v : Value) (args : List Value) :
    bareAct (s.bare.valueOf v args) = bareAct (s.valueOf v args) := by
  cases v with
  | block r => exact callBlock_bare s r args .result
  | _ => exact bareAct_bare _ s

theorem valueOfArgument_bare (args : List Value) (i : Nat) :
    bareAct (s.bare.valueOfArgument args i) = bareAct (s.valueOfArgument args i) := by
  rw [valueOfArgument, valueOfArgument]
  cases argument args i with
  | ok v => exact valueOf_bare s v []
  | error a => exact bareAct_bare a s

theorem repeatBlock_bare (answer : Value) (r : BlockRef) (left : Nat) :
    bareAct (s.bare.repeatBlock answer r left) = bareAct (s.repeatBlock answer r left) := by
  cases left with
  | zero => exact bareAct_bare _ s
  | succ left => exact callBlock_bare s r [] _

theorem countBlock_bare (answer : Value) (r : BlockRef) (next : Int) (left : Nat) :
    bareAct (s.bare.countBlock answer r next left) = bareAct (s.countBlock answer r next left) := by
  cases left with
  | zero => exact bareAct_bare _ s
  | succ left => exact callBlock_bare s r _ _

theorem visitItems_bare (answer : Value) (r : BlockRef) (items : List Value) :
    bareAct (s.bare.visitItems answer r items) = bareAct (s.visitItems answer r items) := by
  cases items with
  | nil => exact bareAct_bare _ s
  | cons v vs => exact callBlock_bare s r _ _

theorem finishList_bare (items : List Value) :
    bareAct (s.bare.finishList items) = bareAct (s.finishList items) :=
  bareAct_bare _ (s.newList items.toArray).2

theorem collectItems_bare (r : BlockRef) (done items : List Value) :
    bareAct (s.bare.collectItems r done items) = bareAct (s.collectItems r done items) := by
  cases items with
  | nil => exact finishList_bare s done.reverse
  | cons v vs => exact callBlock_bare s r _ _

theorem testLoop_bare (expected : Bool) (condition : BlockRef) (body : Option Value) :
    bareAct (s.bare.testLoop expected condition body) = bareAct (s.testLoop expected condition body) :=
  callBlock_bare s condition [] _

theorem afterTest_bare (expected : Bool) (condition : BlockRef) (body : Option Value) (v : Value) :
    bareAct (s.bare.afterTest expected condition body v) =
      bareAct (s.afterTest expected condition body v) := by
  have htruth : s.bare.truth (loopSelector expected) v = s.truth (loopSelector expected) v := rfl
  simp only [afterTest, htruth]
  cases s.truth (loopSelector expected) v with
  | error e => exact bareAct_bare _ s
  | ok b =>
      dsimp only
      split_ifs
      · cases body with
        | none => exact bareAct_bare _ s
        | some w =>
            cases w with
            | block r => exact callBlock_bare s r [] _
            | _ => exact testLoop_bare s expected condition _
      · exact bareAct_bare _ s

theorem handle_bare (e : Error) (handler : Value) :
    bareAct (s.bare.handle e handler) = bareAct (s.handle e handler) := by
  cases handler with
  | block r =>
      have hlog : s.bare.log ("oops.primitive: caught " ++ e.kind) =
          (s.log ("oops.primitive: caught " ++ e.kind)).bare := rfl
      simp only [handle, hlog, block_bare, Block.bare]
      split_ifs
      · exact callBlock_bare _ r _ .result
      · exact callBlock_bare _ r [] .result
  | _ => exact bareAct_bare _ (s.log ("oops.primitive: caught " ++ e.kind))

theorem guardBlock_bare (r : BlockRef) (handler : Value) :
    bareAct (s.bare.guardBlock r handler) = bareAct (s.guardBlock r handler) := by
  have hcall := callBlock_bare s r [] (.catching handler)
  simp only [guardBlock, callBlock, block_bare, Block.bare] at hcall ⊢
  split_ifs at hcall ⊢
  · exact hcall
  · exact handle_bare s _ handler

end Store

/-! Primitives -/

section Primitives

open Store

variable (s : Store)

theorem act_bare {a b : Answer Value} (h : a = b) :
    bareAct (Answer.act s.bare a) = bareAct (Answer.act s b) := by
  subst h
  cases a <;> exact bareAct_bare _ s

theorem repeatTimes_bare (n : Int) (args : List Value) :
    bareAct (repeatTimes s.bare n args) = bareAct (repeatTimes s n args) := by
  rw [repeatTimes, repeatTimes]
  split_ifs
  · exact bareAct_bare _ s
  · cases argument args 0 with
    | error a => exact bareAct_bare a s
    | ok v =>
        cases v with
        | block r => exact repeatBlock_bare s _ r _
        | _ => exact bareAct_bare _ s

theorem countTo_bare (selector : String) (n : Int) (args : List Value) :
    bareAct (countTo s.bare selector n args) = bareAct (countTo s selector n args) := by
  have hstop : (argument args 0 >>= s.bare.integerArgument selector) =
      argument args 0 >>= s.integerArgument selector := rfl
  simp only [countTo, hstop]
  cases argument args 0 >>= s.integerArgument selector with
  | error a => exact bareAct_bare a s
  | ok stop =>
      dsimp only
      split_ifs
      · exact bareAct_bare _ s
      · cases argument args 1 with
        | error a => exact bareAct_bare a s
        | ok v =>
            cases v with
            | block r => exact countBlock_bare s _ r _ _
            | _ => exact bareAct_bare _ s

theorem IntegerPrimitive.perform_bare (p : IntegerPrimitive) (selector : String) (n : Int)
    (args : List Value) :
    bareAct (p.perform s.bare selector n args) = bareAct (p.perform s selector n args) := by
  cases p with
  | timesRepeat => exact repeatTimes_bare s n args
  | toDo => exact countTo_bare s selector n args
  | _ => exact act_bare s rfl

theorem StringPrimitive.answer_bare (p : StringPrimitive) (selector text : String) (args : List Value) :
    p.answer s.bare selector text args = p.answer s selector text args := by
  cases p with
  | concat => simp only [StringPrimitive.answer, display_bare]
  | _ => rfl

theorem BooleanPrimitive.perform_bare (p : BooleanPrimitive) (b : Bool) (args : List Value) :
    bareAct (p.perform s.bare b args) = bareAct (p.perform s b args) := by
  have hvalue := valueOfArgument_bare s args
  cases p <;> cases b <;> first | exact hvalue _ | exact bareAct_bare _ s

theorem visitList_bare (r : ListRef) (args : List Value) :
    bareAct (visitList s.bare r args) = bareAct (visitList s r args) := by
  rw [visitList, visitList, list_bare]
  split_ifs
  · exact bareAct_bare _ s
  · cases argument args 0 with
    | error a => exact bareAct_bare a s
    | ok v =>
        cases v with
        | block b => exact visitItems_bare s _ b _
        | _ => exact bareAct_bare _ s

theorem collectList_bare (r : ListRef) (args : List Value) :
    bareAct (collectList s.bare r args) = bareAct (collectList s r args) := by
  rw [collectList, collectList, list_bare]
  split_ifs
  · exact finishList_bare s []
  · cases argument args 0 with
    | error a => exact bareAct_bare a s
    | ok v =>
        cases v with
        | block b => exact collectItems_bare s b [] _
        | _ => exact finishList_bare s _

theorem itemIndex_bare : s.bare.itemIndex = s.itemIndex := by
  have hinteger : s.bare.integerArgument = s.integerArgument := rfl
  funext selector items v
  rw [itemIndex, itemIndex, hinteger]

theorem itemAt_bare (selector : String) (items : Array Value) (args : List Value) :
    itemAt s.bare selector items args = itemAt s selector items args := by
  rw [itemAt, itemAt, itemIndex_bare]

theorem itemChange_bare (selector : String) (items : Array Value) (args : List Value) :
    itemChange s.bare selector items args = itemChange s selector items args := by
  rw [itemChange, itemChange, itemIndex_bare]

theorem ListPrimitive.perform_bare (p : ListPrimitive) (selector : String) (r : ListRef)
    (args : List Value) :
    bareAct (p.perform s.bare selector r args) = bareAct (p.perform s selector r args) := by
  cases p with
  | visit => exact visitList_bare s r args
  | collect => exact collectList_bare s r args
  | «at» => exact act_bare s (itemAt_bare s selector (s.list r) args)
  | atPut =>
      simp only [ListPrimitive.perform, list_bare, itemChange_bare]
      cases itemChange s selector (s.list r) args with
      | error a => exact bareAct_bare a s
      | ok change => exact bareAct_bare _ (s.setList r change.1 change.2)
  | add =>
      simp only [ListPrimitive.perform]
      cases argument args 0 with
      | error a => exact bareAct_bare a s
      | ok v => exact bareAct_bare _ (s.pushList r v)
  | includes =>
      simp only [ListPrimitive.perform, includes?_bare, list_bare]
      exact act_bare s rfl
  | _ => exact bareAct_bare _ s

theorem BlockPrimitive.perform_bare (p : BlockPrimitive) (r : BlockRef) (args : List Value) :
    bareAct (p.perform s.bare r args) = bareAct (p.perform s r args) := by
  cases p with
  | arity =>
      simp only [BlockPrimitive.perform, block_bare, Block.bare]
      exact bareAct_bare _ s
  | loop expected => exact testLoop_bare s expected r _
  | recover =>
      rw [BlockPrimitive.perform, BlockPrimitive.perform]
      cases argument args 0 with
      | ok handler => exact guardBlock_bare s r handler
      | error a => exact bareAct_bare a s

theorem otherwise_bare (v : Value) (args : List Value) :
    bareAct (otherwise s.bare v args) = bareAct (otherwise s v args) := by
  rw [otherwise.eq_def, otherwise.eq_def]
  cases argument args 1 with
  | error a => exact bareAct_bare a s
  | ok fallback =>
      cases fallback with
      | block r =>
          simp only [block_bare, Block.bare]
          split_ifs
          · exact callBlock_bare s r [v] .result
          · exact callBlock_bare s r [] .result
      | _ => exact bareAct_bare _ s

theorem AnyPrimitive.answer_bare (p : AnyPrimitive) (selector : String) (v : Value)
    (args : List Value) : p.answer s.bare selector v args = p.answer s selector v args := by
  cases p with
  | equal => simp only [AnyPrimitive.answer, equal?_bare]
  | notEqual => simp only [AnyPrimitive.answer, equal?_bare]
  | asString => simp only [AnyPrimitive.answer, display_bare]
  | printString => simp only [AnyPrimitive.answer, literal_bare]
  | respondsTo =>
      simp only [AnyPrimitive.answer, respondsTo_bare]
      rfl
  | classOf => cases v <;> rfl
  | _ => rfl

theorem AnyPrimitive.perform_bare (p : AnyPrimitive) (selector : String) (v : Value)
    (args : List Value) :
    bareAct (p.perform s.bare selector v args) = bareAct (p.perform s selector v args) := by
  cases p with
  | ifNilElse => exact otherwise_bare s v args
  | print =>
      simp only [AnyPrimitive.perform, display_bare]
      cases textFor selector (s.display v) with
      | error a => exact bareAct_bare a s
      | ok text => exact bareAct_bare _ (s.print text)
  | _ => exact act_bare s (AnyPrimitive.answer_bare s _ selector v args)

theorem Primitive.perform_bare (p : Primitive) (selector : String) (receiver : Value)
    (args : List Value) :
    bareAct (p.perform s.bare selector receiver args) = bareAct (p.perform s selector receiver args) := by
  cases p with
  | integer p =>
      cases receiver with
      | integer n => exact p.perform_bare s selector n args
      | _ => exact bareAct_bare _ s
  | string p =>
      cases receiver with
      | string text => exact act_bare s (p.answer_bare s selector text args)
      | _ => exact bareAct_bare _ s
  | boolean p =>
      cases receiver with
      | boolean b => exact p.perform_bare s b args
      | _ => exact bareAct_bare _ s
  | list p =>
      cases receiver with
      | list r => exact p.perform_bare s selector r args
      | _ => exact bareAct_bare _ s
  | block p =>
      cases receiver with
      | block r => exact p.perform_bare s r args
      | _ => exact bareAct_bare _ s
  | nilBranch => exact valueOfArgument_bare s args 0
  | any p => exact p.perform_bare s selector receiver args

end Primitives

/-! Sends -/

namespace Store

variable (s : Store)

theorem invoke_bare (m : Method) (receiver : Value) (args : List Value) :
    bareAct (s.bare.invoke m.bare receiver args) = bareAct (s.invoke m receiver args) := by
  have hparams : m.bare.params = m.params := rfl
  have hbody : m.bare.body = m.body.bare := rfl
  simp only [invoke, hparams, hbody, newFrame_bare, newActivation_bare]
  split_ifs
  · simp [bareAct, Action.bare]
  · exact bareAct_bare _ s

theorem sendPrimitive_bare (receiver : Value) (selector : String) (args : List Value) :
    bareAct (s.bare.sendPrimitive receiver selector args) =
      bareAct (s.sendPrimitive receiver selector args) := by
  simp only [sendPrimitive]
  cases Primitive.find? receiver.kind selector with
  | some p => exact p.perform_bare s selector receiver args
  | none => exact bareAct_bare _ s

theorem answerNew_bare (made : Except Error Object) :
    bareAct (s.bare.answerNew made) = bareAct (s.answerNew made) := by
  cases made with
  | ok o => exact bareAct_bare _ (s.newObject o).2
  | error e => exact bareAct_bare _ s

theorem answerSubclass_bare (parent name : String) (fields : List String) :
    bareAct (s.bare.answerSubclass parent name fields) = bareAct (s.answerSubclass parent name fields) := by
  simp only [answerSubclass, classes_bare, ClassTable.subclass_bare]
  cases s.classes.subclass parent name fields with
  | error e => exact bareAct_bare _ s
  | ok made => exact bareAct_bare _ (Store.log { s with classes := made.2 } _)

theorem answerStrings_bare (names : Except Error (List String)) :
    bareAct (s.bare.answerStrings names) = bareAct (s.answerStrings names) := by
  cases names with
  | ok names => exact finishList_bare s _
  | error e => exact bareAct_bare _ s

theorem sendClass_bare (m : ClassMessage) (c : ClassRef) (selector : String) (args : List Value) :
    bareAct (s.bare.sendClass m c selector args) = bareAct (s.sendClass m c selector args) := by
  cases m with
  | new =>
      simp only [sendClass, instantiate_bare]
      exact answerNew_bare s _
  | newWith =>
      simp only [sendClass, instantiate_bare]
      exact answerNew_bare s _
  | subclass =>
      have hname : (argument args 0 >>= s.bare.nameArgument selector) =
          argument args 0 >>= s.nameArgument selector := rfl
      simp only [sendClass, hname]
      cases argument args 0 >>= s.nameArgument selector with
      | ok name => exact answerSubclass_bare s c.name name []
      | error a => exact bareAct_bare a s
  | subclassWith =>
      have hname : (argument args 0 >>= s.bare.nameArgument selector) =
          argument args 0 >>= s.nameArgument selector := rfl
      have hnames : (argument args 1 >>= s.bare.namesArgument selector) =
          argument args 1 >>= s.namesArgument selector := rfl
      simp only [sendClass, hname, hnames]
      cases argument args 0 >>= s.nameArgument selector with
      | error a => exact bareAct_bare a s
      | ok name =>
          cases argument args 1 >>= s.namesArgument selector with
          | ok fields => exact answerSubclass_bare s c.name name fields
          | error a => exact bareAct_bare a s
  | define =>
      have hdefinition : s.bare.definition args = s.definition args := rfl
      simp only [sendClass, hdefinition, block_bare, installMethod_bare]
      cases s.definition args with
      | error a => exact bareAct_bare a s
      | ok d =>
          obtain ⟨name, r⟩ := d
          dsimp only
          cases s.installMethod c name (s.block r) with
          | error e => exact bareAct_bare _ s
          | ok s' => exact bareAct_bare _ s'
  | name => exact bareAct_bare _ s
  | superclass =>
      simp only [sendClass, classes_bare, ClassTable.superclass_bare]
      rcases s.classes.superclass c.name with e | _ | parent <;> exact bareAct_bare _ s
  | slots =>
      simp only [sendClass, classes_bare, ClassTable.slots_bare]
      exact answerStrings_bare s _
  | selectors =>
      simp only [sendClass, classes_bare, ClassTable.selectors_bare]
      exact answerStrings_bare s _

theorem logSend_bare (target selector : String) (args : List Value) :
    s.bare.logSend target selector args = (s.logSend target selector args).map bare := by
  have htrace : s.bare.trace = s.trace := rfl
  rw [logSend, logSend, inspectAll_bare, htrace]
  split_ifs
  · rfl
  · rcases s.inspectAll args with ⟨_ | _⟩ | texts <;> rfl

theorem sendMessage_bare (receiver : Value) (selector : String) (args : List Value) :
    bareAct (s.bare.sendMessage receiver selector args) =
      bareAct (s.sendMessage receiver selector args) := by
  have hprimitive := sendPrimitive_bare s receiver selector args
  cases receiver with
  | cls c =>
      simp only [sendMessage]
      cases ClassMessage.find? selector with
      | some m => exact sendClass_bare s m c selector args
      | none => exact hprimitive
  | object r =>
      simp only [sendMessage, object_bare, classes_bare, ClassTable.lookup_bare]
      rcases s.classes.lookup (s.object r).cls.name selector with e | _ | m
      · exact bareAct_bare _ s
      · exact hprimitive
      · exact invoke_bare s m _ args
  | block r =>
      simp only [sendMessage]
      split_ifs
      · exact callBlock_bare s r args .result
      · exact hprimitive
  | _ => exact hprimitive

theorem sendAbove_bare (receiver : Value) (owner selector : String) (args : List Value) :
    bareAct (s.bare.sendAbove receiver owner selector args) =
      bareAct (s.sendAbove receiver owner selector args) := by
  simp only [sendAbove, classes_bare, ClassTable.lookupSuper_bare]
  rcases s.classes.lookupSuper owner selector with e | _ | m
  · exact bareAct_bare _ s
  · exact sendPrimitive_bare s receiver selector args
  · exact invoke_bare s m receiver args

theorem send_bare (receiver : Value) (selector : String) (args : List Value) :
    bareAct (s.bare.send receiver selector args) = bareAct (s.send receiver selector args) := by
  simp only [send, className_bare, logSend_bare]
  cases s.logSend (s.className receiver) selector args with
  | ok s' => exact sendMessage_bare s' receiver selector args
  | error c => exact bareAct_bare _ s

theorem sendSuper_bare (receiver : Value) (owner selector : String) (args : List Value) :
    bareAct (s.bare.sendSuper receiver owner selector args) =
      bareAct (s.sendSuper receiver owner selector args) := by
  simp only [sendSuper, logSend_bare]
  cases s.logSend ("super " ++ owner) selector args with
  | ok s' => exact sendAbove_bare s' receiver owner selector args
  | error c => exact bareAct_bare _ s

end Store

/-! Tasks -/

namespace Machine

variable (s : Store) (scope : Scope)

theorem atomValue_bare (a : Atom) : atomValue s.bare scope a = atomValue s scope a := by
  cases a with
  | «variable» name =>
      have hlookup : s.bare.lookup? scope.env name = s.lookup? scope.env name := rfl
      simp only [atomValue, variableValue, hlookup, Store.classes_bare, ClassTable.find?_bare]
      cases s.lookup? scope.env name with
      | some v => rfl
      | none => cases s.classes.find? name <;> rfl
  | _ => rfl

theorem putValue_bare (target : Target) (v : Value) :
    bareAct (putValue s.bare scope target v) = bareAct (putValue s scope target v) := by
  cases target with
  | define name operator => exact bareAct_bare _ (s.define scope.env name v)
  | assign name =>
      have hholder : s.bare.holder? scope.env name = s.holder? scope.env name := rfl
      simp only [putValue, hholder]
      cases s.holder? scope.env name with
      | some r => exact bareAct_bare _ (s.define r name v)
      | none => exact bareAct_bare _ s
  | slot name =>
      simp only [putValue]
      split
      · next r _ =>
          rw [Store.object_bare]
          split_ifs
          · exact bareAct_bare _ (s.setSlot r name v)
          · exact bareAct_bare _ s
      · exact bareAct_bare _ s

theorem nextItem_bare (done : List Value) (todo : List Node) :
    bareAct (nextItem s.bare scope done (Node.bareEach todo)) = bareAct (nextItem s scope done todo) := by
  cases todo with
  | nil => exact s.finishList_bare done.reverse
  | cons n todo => exact bareAct_bareAct (.request n scope (.items done todo), s)

theorem nextStatement_bare (latest : Value) (todo : List Node) :
    bareAct (nextStatement s.bare scope latest (Node.bareEach todo)) =
      bareAct (nextStatement s scope latest todo) := by
  cases todo with
  | nil => exact bareAct_bare _ s
  | cons n todo => exact bareAct_bareAct (.request n scope (.statements todo), s)

theorem sendFrom_bare (receiver : Value) (selector : String) (args : List Value) (isSuper : Bool) :
    bareAct (sendFrom s.bare scope receiver selector args isSuper) =
      bareAct (sendFrom s scope receiver selector args isSuper) := by
  obtain ⟨env, self, home⟩ := scope
  cases isSuper with
  | false => exact s.send_bare receiver selector args
  | true =>
      cases home with
      | none => exact s.send_bare receiver selector args
      | some home =>
          simp only [sendFrom, Store.activation_bare]
          exact s.sendSuper_bare receiver _ selector args

theorem nextArgument_bare (receiver : Value) (selector : String) (done : List Value) (isSuper : Bool)
    (todo : List Node) :
    bareAct (nextArgument s.bare scope receiver selector done isSuper (Node.bareEach todo)) =
      bareAct (nextArgument s scope receiver selector done isSuper todo) := by
  cases todo with
  | nil => exact sendFrom_bare s scope receiver selector done.reverse isSuper
  | cons n todo =>
      exact bareAct_bareAct (.request n scope (.argument receiver selector done todo isSuper), s)

theorem returnValue_bare (v : Value) : returnValue s.bare scope v = returnValue s scope v := by
  obtain ⟨env, self, home⟩ := scope
  cases home with
  | none => rfl
  | some home =>
      simp only [returnValue, Store.activation_bare]
      rfl

theorem beginNode_bare (n : Node) :
    bareAct (beginNode s.bare scope n.bare) = bareAct (beginNode s scope n) := by
  cases n with
  | atom _ a =>
      simp only [Node.bare, beginNode, atomValue_bare]
      cases atomValue s scope a <;> exact bareAct_bare _ s
  | list _ items => exact nextItem_bare s scope [] items
  | store _ target value => exact bareAct_bareAct (.request value scope (.store target), s)
  | answer _ value => exact bareAct_bareAct (.request value scope .answer, s)
  | send _ receiver selector args =>
      simp only [Node.bare, beginNode, Node.isSuper_bare]
      exact bareAct_bareAct (.request receiver scope (.receiver selector args receiver.isSuper), s)
  | block _ params origin body =>
      have hblock := s.newBlock_bare
        ⟨params, .suite origin .sequence body, scope.env, scope.self, scope.home⟩
      simp only [Block.bare, Node.bare] at hblock
      simp only [Node.bare, beginNode, hblock]
      exact bareAct_bare _ _
  | suite _ _ statements => exact nextStatement_bare s scope .nil statements

/-- The first action of a task does not depend on places. -/
theorem begin_bare (task : Task) :
    bareAct (begin s.bare scope task.bare) = bareAct (begin s scope task) := by
  cases task with
  | node n => exact beginNode_bare s scope n
  | message receiver selector args => exact s.send_bare receiver selector args
  | superMessage receiver owner selector args => exact s.sendSuper_bare receiver owner selector args

/-- Nor does any action after a value. -/
theorem resume_bare (v : Value) (work : Work) :
    bareAct (resume s.bare scope v work.bare) = bareAct (resume s scope v work) := by
  cases work with
  | items done todo => exact nextItem_bare s scope (v :: done) todo
  | store target => exact putValue_bare s scope target v
  | answer =>
      simp only [Work.bare, resume, returnValue_bare]
      exact bareAct_bare _ s
  | receiver selector args isSuper => exact nextArgument_bare s scope v selector [] isSuper args
  | argument receiver selector done todo isSuper =>
      exact nextArgument_bare s scope receiver selector (v :: done) isSuper todo
  | statements todo => exact nextStatement_bare s scope v todo
  | method home =>
      simp only [Work.bare, resume, Store.retire_bare]
      exact bareAct_bare _ _
  | result => exact bareAct_bare _ s
  | repeating answer block left => exact s.repeatBlock_bare answer block left
  | counting answer block next left => exact s.countBlock_bare answer block next left
  | visiting answer block todo => exact s.visitItems_bare answer block todo
  | collecting block done todo => exact s.collectItems_bare block (v :: done) todo
  | testing expected condition body => exact s.afterTest_bare expected condition body v
  | looping expected condition body => exact s.testLoop_bare expected condition body
  | catching handler => exact bareAct_bare _ s

/-- Nor does any action after a failure. -/
theorem recover_bare (failure : Failure) (work : Work) :
    bareAct (recover s.bare failure.bare work.bare) = bareAct (recover s failure work) := by
  cases work with
  | method home =>
      simp only [Work.bare, recover, Store.retire_bare]
      match failure with
      | .error e site => exact bareAct_bareAct (.fail (.error e site), s.retire home)
      | .signal v none => exact bareAct_bare _ (s.retire home)
      | .signal v (some target) =>
          simp only [Failure.bare]
          split_ifs <;> exact bareAct_bare _ (s.retire home)
  | catching handler =>
      cases failure with
      | error e site => exact s.handle_bare e handler
      | signal v home => exact bareAct_bare _ s
  | _ => exact bareAct_bareAct (.fail failure, s)

end Machine

end Parley
