import Parley.Proofs.Machine.Recursion

/-! The log is only written. `under` puts a text before the log of a store; every operation does the same
in a store and under such a text, and so does every run. So stores that differ only in what was logged
settle alike. The one thing that the log can do to a run is to end it, when it has to show an argument
that holds itself. -/

namespace Parley

namespace Store

/-- A store whose log, if one is kept, begins with a text. -/
def under (s : Store) (text : String) : Store := { s with trace := s.trace.map (text ++ ·) }

/-- A store without its log. -/
def unlogged (s : Store) : Store := { s with trace := none }

/-- An action in a store whose log begins with a text. -/
def underAct (text : String) (act : Action × Store) : Action × Store := (act.1, act.2.under text)

variable (s : Store) (text : String)

@[simp] theorem isNone_trace_under : (s.under text).trace.isNone = s.trace.isNone := by
  rw [under, Option.isNone_map]

theorem log_under (line : String) : (s.under text).log line = (s.log line).under text := by
  unfold under log
  simp only [Option.map_map]
  congr 2
  funext t
  simp only [Function.comp_apply, String.append_assoc]

/-! Reading. What is read of a store is in the same place whatever its log is, so unfolded the two
sides are the same. -/

theorem literal_under : (s.under text).literal = s.literal := by
  delta literal literalWithin
  rfl

theorem display_under (v : Value) : (s.under text).display v = s.display v := by
  rw [display.eq_def, display.eq_def, literal_under]

theorem inspectAll_under (vs : List Value) : (s.under text).inspectAll vs = s.inspectAll vs := by
  have hinspect : (s.under text).inspect = s.inspect := by
    delta inspect inspectWithin
    rfl
  rw [inspectAll, inspectAll, hinspect]

theorem equal?_under : (s.under text).equal? = s.equal? := by
  delta equal? equalWithin
  rfl

theorem includes?_under : (s.under text).includes? = s.includes? := by
  funext items v
  rw [includes?, includes?, equal?_under]

theorem itemIndex_under : (s.under text).itemIndex = s.itemIndex := by
  have hinteger : (s.under text).integerArgument = s.integerArgument := rfl
  funext selector items v
  rw [itemIndex, itemIndex, hinteger]

theorem respondsTo_under (receiver : Value) :
    (s.under text).respondsTo receiver = s.respondsTo receiver := by
  cases receiver <;> rfl

theorem className_under (v : Value) : (s.under text).className v = s.className v := by
  cases v <;> rfl

/-! Blocks -/

theorem callBlock_under (r : BlockRef) (args : List Value) (work : Work) :
    (s.under text).callBlock r args work = underAct text (s.callBlock r args work) := by
  have hblock : (s.under text).block r = s.block r := rfl
  simp only [callBlock, hblock]
  split_ifs
  · rfl
  · rfl

theorem valueOfArgument_under (args : List Value) (i : Nat) :
    (s.under text).valueOfArgument args i = underAct text (s.valueOfArgument args i) := by
  rw [valueOfArgument, valueOfArgument]
  cases argument args i with
  | error a => rfl
  | ok v =>
      cases v with
      | block r => exact callBlock_under s text r [] .result
      | _ => rfl

theorem repeatBlock_under (answer : Value) (r : BlockRef) (left : Nat) :
    (s.under text).repeatBlock answer r left = underAct text (s.repeatBlock answer r left) := by
  cases left with
  | zero => rfl
  | succ left => exact callBlock_under s text r [] _

theorem countBlock_under (answer : Value) (r : BlockRef) (next : Int) (left : Nat) :
    (s.under text).countBlock answer r next left =
      underAct text (s.countBlock answer r next left) := by
  cases left with
  | zero => rfl
  | succ left => exact callBlock_under s text r _ _

theorem visitItems_under (answer : Value) (r : BlockRef) (items : List Value) :
    (s.under text).visitItems answer r items = underAct text (s.visitItems answer r items) := by
  cases items with
  | nil => rfl
  | cons v vs => exact callBlock_under s text r _ _

theorem collectItems_under (r : BlockRef) (done items : List Value) :
    (s.under text).collectItems r done items = underAct text (s.collectItems r done items) := by
  cases items with
  | nil => rfl
  | cons v vs => exact callBlock_under s text r _ _

theorem testLoop_under (expected : Bool) (condition : BlockRef) (body : Option Value) :
    (s.under text).testLoop expected condition body =
      underAct text (s.testLoop expected condition body) :=
  callBlock_under s text condition [] _

theorem afterTest_under (expected : Bool) (condition : BlockRef) (body : Option Value) (v : Value) :
    (s.under text).afterTest expected condition body v =
      underAct text (s.afterTest expected condition body v) := by
  have htruth : (s.under text).truth (loopSelector expected) v = s.truth (loopSelector expected) v := rfl
  simp only [afterTest, htruth]
  cases s.truth (loopSelector expected) v with
  | error e => rfl
  | ok b =>
      dsimp only
      split_ifs
      · cases body with
        | none => rfl
        | some w =>
            cases w with
            | block r => exact callBlock_under s text r [] _
            | _ => exact testLoop_under s text expected condition _
      · rfl

/-- What a handler does with an error, apart from the line in the log. -/
def recoverWith (s : Store) (e : Error) (handler : Value) : Action × Store :=
  match handler with
  | .block r =>
    if (s.block r).params.length = 1 then s.callBlock r [.string e.describe] .result
    else s.callBlock r [] .result
  | v => (.finish v, s)

theorem handle_eq_recoverWith (e : Error) (handler : Value) : s.handle e handler =
    (s.log ("oops.primitive: caught " ++ e.kind)).recoverWith e handler := by
  cases handler <;> rfl

theorem recoverWith_under (e : Error) (handler : Value) :
    (s.under text).recoverWith e handler = underAct text (s.recoverWith e handler) := by
  cases handler with
  | block r =>
      have hblock : (s.under text).block r = s.block r := rfl
      simp only [recoverWith, hblock]
      split_ifs
      · exact callBlock_under s text r _ .result
      · exact callBlock_under s text r [] .result
  | _ => rfl

theorem handle_under (e : Error) (handler : Value) :
    (s.under text).handle e handler = underAct text (s.handle e handler) := by
  rw [handle_eq_recoverWith, handle_eq_recoverWith, log_under, recoverWith_under]

theorem guardBlock_under (r : BlockRef) (handler : Value) :
    (s.under text).guardBlock r handler = underAct text (s.guardBlock r handler) := by
  rw [guardBlock, guardBlock, callBlock_under]
  simp only [callBlock]
  split_ifs
  · rfl
  · exact handle_under s text _ handler

/-! Primitives -/

theorem act_under {a b : Answer Value} (h : a = b) :
    Answer.act (s.under text) a = underAct text (Answer.act s b) := by
  subst h
  cases a <;> rfl

theorem string_under (p : StringPrimitive) (selector t : String) (args : List Value) :
    p.answer (s.under text) selector t args = p.answer s selector t args := by
  cases p with
  | concat => simp only [StringPrimitive.answer, display_under]
  | _ => rfl

theorem integer_under (p : IntegerPrimitive) (selector : String) (n : Int) (args : List Value) :
    p.perform (s.under text) selector n args = underAct text (p.perform s selector n args) := by
  cases p with
  | timesRepeat =>
      rw [IntegerPrimitive.perform, IntegerPrimitive.perform, repeatTimes, repeatTimes]
      split_ifs
      · rfl
      · cases argument args 0 with
        | error a => rfl
        | ok v =>
            cases v with
            | block r => exact repeatBlock_under s text _ r _
            | _ => rfl
  | toDo =>
      have hstop : (argument args 0 >>= (s.under text).integerArgument selector) =
          argument args 0 >>= s.integerArgument selector := rfl
      rw [IntegerPrimitive.perform, IntegerPrimitive.perform, countTo, countTo, hstop]
      cases argument args 0 >>= s.integerArgument selector with
      | error a => rfl
      | ok stop =>
          dsimp only
          split_ifs
          · rfl
          · cases argument args 1 with
            | error a => rfl
            | ok v =>
                cases v with
                | block r => exact countBlock_under s text _ r _ _
                | _ => rfl
  | _ =>
      simp only [IntegerPrimitive.perform]
      exact act_under s text rfl

/-- Booleans take the value of an argument, or answer at once. -/
theorem boolean_cases (p : BooleanPrimitive) (b : Bool) (args : List Value) :
    (∃ i, ∀ s, p.perform s b args = s.valueOfArgument args i) ∨
      ∃ v, ∀ s, p.perform s b args = (.finish v, s) := by
  cases p with
  | not => exact .inr ⟨_, fun _ => rfl⟩
  | ifTrueElse => exact .inl ⟨_, fun _ => rfl⟩
  | ifFalseElse => exact .inl ⟨_, fun _ => rfl⟩
  | ifTrue | and =>
      cases b with
      | true => exact .inl ⟨_, fun _ => rfl⟩
      | false => exact .inr ⟨_, fun _ => rfl⟩
  | ifFalse | or =>
      cases b with
      | true => exact .inr ⟨_, fun _ => rfl⟩
      | false => exact .inl ⟨_, fun _ => rfl⟩

theorem boolean_under (p : BooleanPrimitive) (b : Bool) (args : List Value) :
    p.perform (s.under text) b args = underAct text (p.perform s b args) := by
  obtain ⟨i, hp⟩ | ⟨v, hp⟩ := boolean_cases p b args
  · rw [hp, hp, valueOfArgument_under]
  · rw [hp, hp]
    rfl

theorem list_under (p : ListPrimitive) (selector : String) (r : ListRef) (args : List Value) :
    p.perform (s.under text) selector r args = underAct text (p.perform s selector r args) := by
  have hlist : (s.under text).list r = s.list r := rfl
  match p with
  | .at =>
      rw [ListPrimitive.perform, ListPrimitive.perform, hlist]
      refine act_under s text ?_
      rw [itemAt, itemAt, itemIndex_under]
  | .atPut =>
      have hchange : itemChange (s.under text) selector (s.list r) args =
          itemChange s selector (s.list r) args := by rw [itemChange, itemChange, itemIndex_under]
      rw [ListPrimitive.perform, ListPrimitive.perform, hlist, hchange]
      cases itemChange s selector (s.list r) args <;> rfl
  | .add =>
      rw [ListPrimitive.perform, ListPrimitive.perform]
      cases argument args 0 <;> rfl
  | .includes =>
      rw [ListPrimitive.perform, ListPrimitive.perform, hlist, includes?_under]
      exact act_under s text rfl
  | .visit =>
      rw [ListPrimitive.perform, ListPrimitive.perform, visitList, visitList, hlist]
      split_ifs
      · rfl
      · cases argument args 0 with
        | error a => rfl
        | ok v =>
            cases v with
            | block b => exact visitItems_under s text _ b _
            | _ => rfl
  | .collect =>
      rw [ListPrimitive.perform, ListPrimitive.perform, collectList, collectList, hlist]
      split_ifs
      · rfl
      · cases argument args 0 with
        | error a => rfl
        | ok v =>
            cases v with
            | block b => exact collectItems_under s text b [] _
            | _ => rfl
  | .size | .isEmpty | .first | .last => rfl

theorem block_under (p : BlockPrimitive) (r : BlockRef) (args : List Value) :
    p.perform (s.under text) r args = underAct text (p.perform s r args) := by
  cases p with
  | arity => rfl
  | loop expected => exact testLoop_under s text expected r _
  | recover =>
      rw [BlockPrimitive.perform, BlockPrimitive.perform]
      cases argument args 0 with
      | error a => rfl
      | ok handler => exact guardBlock_under s text r handler

theorem answer_under (p : AnyPrimitive) (selector : String) (v : Value) (args : List Value) :
    p.answer (s.under text) selector v args = p.answer s selector v args := by
  cases p with
  | equal => simp only [AnyPrimitive.answer, equal?_under]
  | notEqual => simp only [AnyPrimitive.answer, equal?_under]
  | asString => simp only [AnyPrimitive.answer, display_under]
  | printString => simp only [AnyPrimitive.answer, literal_under]
  | className => cases v <;> rfl
  | classOf => cases v <;> rfl
  | respondsTo =>
      simp only [AnyPrimitive.answer, respondsTo_under]
      rfl
  | _ => rfl

theorem any_under (p : AnyPrimitive) (selector : String) (v : Value) (args : List Value) :
    p.perform (s.under text) selector v args = underAct text (p.perform s selector v args) := by
  cases p with
  | ifNilElse =>
      rw [AnyPrimitive.perform, AnyPrimitive.perform, otherwise, otherwise]
      cases argument args 1 with
      | error a => rfl
      | ok w =>
          cases w with
          | block r =>
              have hblock : (s.under text).block r = s.block r := rfl
              simp only [hblock]
              split_ifs
              · exact callBlock_under s text r _ .result
              · exact callBlock_under s text r [] .result
          | _ => rfl
  | print =>
      rw [AnyPrimitive.perform, AnyPrimitive.perform, display_under]
      cases textFor selector (s.display v) <;> rfl
  | _ =>
      simp only [AnyPrimitive.perform]
      exact act_under s text (answer_under s text _ selector v args)

theorem perform_under (p : Primitive) (selector : String) (receiver : Value) (args : List Value) :
    p.perform (s.under text) selector receiver args =
      underAct text (p.perform s selector receiver args) := by
  unfold Primitive.perform
  split
  · exact integer_under s text _ selector _ args
  · exact act_under s text (string_under s text _ selector _ args)
  · exact boolean_under s text _ _ args
  · exact list_under s text _ selector _ args
  · exact block_under s text _ _ args
  · exact valueOfArgument_under s text args 0
  · exact any_under s text _ selector _ args
  · rfl

/-! Messages -/

theorem invoke_under (m : Method) (receiver : Value) (args : List Value) :
    (s.under text).invoke m receiver args = underAct text (s.invoke m receiver args) := by
  rw [invoke, invoke]
  split_ifs
  · rfl
  · rfl

theorem sendPrimitive_under (receiver : Value) (selector : String) (args : List Value) :
    (s.under text).sendPrimitive receiver selector args =
      underAct text (s.sendPrimitive receiver selector args) := by
  rw [sendPrimitive, sendPrimitive]
  cases Primitive.find? receiver.kind selector with
  | some p => exact perform_under s text p selector receiver args
  | none =>
      dsimp only
      rw [className_under]
      rfl

theorem answerNew_under (made : Except Error Object) :
    (s.under text).answerNew made = underAct text (s.answerNew made) := by
  cases made <;> rfl

theorem answerSubclass_under (parent name : String) (fields : List String) :
    (s.under text).answerSubclass parent name fields =
      underAct text (s.answerSubclass parent name fields) := by
  have hclasses : (s.under text).classes = s.classes := rfl
  rw [answerSubclass, answerSubclass, hclasses]
  cases s.classes.subclass parent name fields with
  | error e => rfl
  | ok made => exact congrArg (Prod.mk _) (log_under { s with classes := made.2 } text _)

theorem installMethod_under (c : ClassRef) (name : String) (b : Block) :
    (s.under text).installMethod c name b = (s.installMethod c name b).map (·.under text) := by
  have hclasses : (s.under text).classes = s.classes := rfl
  rw [installMethod, installMethod, hclasses]
  cases s.classes.define c.name (methodSelector (Selector.normalize name) b.params) b.params b.body with
  | error e => rfl
  | ok defined =>
      obtain ⟨m, replaced, classes⟩ := defined
      cases replaced with
      | true => exact congrArg Except.ok (log_under { s with classes := classes } text _)
      | false => rfl

theorem answerStrings_under (names : Except Error (List String)) :
    (s.under text).answerStrings names = underAct text (s.answerStrings names) := by
  cases names <;> rfl

theorem sendClass_under (m : ClassMessage) (c : ClassRef) (selector : String) (args : List Value) :
    (s.under text).sendClass m c selector args = underAct text (s.sendClass m c selector args) := by
  have hname : (argument args 0 >>= (s.under text).nameArgument selector) =
      argument args 0 >>= s.nameArgument selector := rfl
  cases m with
  | new => exact answerNew_under s text _
  | newWith => exact answerNew_under s text _
  | subclass =>
      simp only [sendClass, hname]
      cases argument args 0 >>= s.nameArgument selector with
      | error a => rfl
      | ok name => exact answerSubclass_under s text c.name name []
  | subclassWith =>
      have hnames : (argument args 1 >>= (s.under text).namesArgument selector) =
          argument args 1 >>= s.namesArgument selector := rfl
      simp only [sendClass, hname, hnames]
      cases argument args 0 >>= s.nameArgument selector with
      | error a => rfl
      | ok name =>
          cases argument args 1 >>= s.namesArgument selector with
          | error a => rfl
          | ok fields => exact answerSubclass_under s text c.name name fields
  | define =>
      have hdefinition : (s.under text).definition args = s.definition args := rfl
      simp only [sendClass, hdefinition]
      cases s.definition args with
      | error a => rfl
      | ok found =>
          have hblock : (s.under text).block found.2 = s.block found.2 := rfl
          simp only [hblock, installMethod_under]
          cases s.installMethod c found.1 (s.block found.2) <;> rfl
  | name => rfl
  | superclass =>
      have hclasses : (s.under text).classes = s.classes := rfl
      simp only [sendClass, hclasses]
      cases s.classes.superclass c.name with
      | error e => rfl
      | ok parent => cases parent <;> rfl
  | slots => exact answerStrings_under s text _
  | selectors => exact answerStrings_under s text _

theorem logSend_under (target selector : String) (args : List Value) :
    (s.under text).logSend target selector args =
      (s.logSend target selector args).map (·.under text) := by
  rw [logSend, logSend, isNone_trace_under, inspectAll_under]
  split_ifs
  · rfl
  · cases s.inspectAll args with
    | ok texts => exact congrArg Except.ok (log_under s text _)
    | error fault => cases fault <;> rfl

theorem sendMessage_under (receiver : Value) (selector : String) (args : List Value) :
    (s.under text).sendMessage receiver selector args =
      underAct text (s.sendMessage receiver selector args) := by
  have hprimitive := sendPrimitive_under s text receiver selector args
  cases receiver with
  | cls c =>
      rw [sendMessage, sendMessage]
      cases ClassMessage.find? selector with
      | some m => exact sendClass_under s text m c selector args
      | none => exact hprimitive
  | object r =>
      have hlookup : (s.under text).classes.lookup ((s.under text).object r).cls.name selector =
          s.classes.lookup (s.object r).cls.name selector := rfl
      simp only [sendMessage, hlookup]
      cases s.classes.lookup (s.object r).cls.name selector with
      | error e => rfl
      | ok found =>
          cases found with
          | some m => exact invoke_under s text m _ args
          | none => exact hprimitive
  | block r =>
      rw [sendMessage, sendMessage]
      split_ifs
      · exact callBlock_under s text r args .result
      · exact hprimitive
  | _ => exact hprimitive

theorem sendAbove_under (receiver : Value) (owner selector : String) (args : List Value) :
    (s.under text).sendAbove receiver owner selector args =
      underAct text (s.sendAbove receiver owner selector args) := by
  have hclasses : (s.under text).classes = s.classes := rfl
  rw [sendAbove, sendAbove, hclasses]
  cases s.classes.lookupSuper owner selector with
  | error e => rfl
  | ok found =>
      cases found with
      | some m => exact invoke_under s text m receiver args
      | none => exact sendPrimitive_under s text receiver selector args

theorem send_under (receiver : Value) (selector : String) (args : List Value) :
    (s.under text).send receiver selector args = underAct text (s.send receiver selector args) := by
  rw [send, send, className_under, logSend_under]
  cases s.logSend (s.className receiver) selector args with
  | ok s' => exact sendMessage_under s' text receiver selector args
  | error c => rfl

theorem sendSuper_under (receiver : Value) (owner selector : String) (args : List Value) :
    (s.under text).sendSuper receiver owner selector args =
      underAct text (s.sendSuper receiver owner selector args) := by
  rw [sendSuper, sendSuper, logSend_under]
  cases s.logSend ("super " ++ owner) selector args with
  | ok s' => exact sendAbove_under s' text receiver owner selector args
  | error c => rfl

/-! Stores that differ in their logs -/

/-- Two stores that differ at most in what was logged. -/
structure SameExceptLog (s s' : Store) : Prop where
  unlogged : s'.unlogged = s.unlogged
  isSome_trace : s'.trace.isSome = s.trace.isSome

variable {s} {s' : Store}

theorem SameExceptLog.log (line : String) : s.SameExceptLog (s.log line) := ⟨rfl, Option.isSome_map⟩

theorem SameExceptLog.symm (h : s.SameExceptLog s') : s'.SameExceptLog s :=
  ⟨h.unlogged.symm, h.isSome_trace.symm⟩

theorem SameExceptLog.trans {s'' : Store} (h : s.SameExceptLog s') (h' : s'.SameExceptLog s'') :
    s.SameExceptLog s'' :=
  ⟨h'.unlogged.trans h.unlogged, h'.isSome_trace.trans h.isSome_trace⟩

/-- Stores that differ in their logs are one store under two texts. -/
theorem SameExceptLog.exists_base (h : s.SameExceptLog s') :
    ∃ base text text', s = under base text ∧ s' = under base text' := by
  obtain ⟨frames, lists, objects, blocks, activations, classes, detached, output, trace⟩ := s
  obtain ⟨frames', lists', objects', blocks', activations', classes', detached', output', trace'⟩ := s'
  obtain ⟨hunlogged, htrace⟩ := h
  cases hunlogged
  refine ⟨⟨frames, lists, objects, blocks, activations, classes, detached, output, trace.map fun _ => ""⟩,
    trace.getD "", trace'.getD "", ?_, ?_⟩
  · cases trace <;> simp [under]
  · cases trace <;> cases trace' <;> simp [under] at htrace ⊢

/-- What is the same under every text is the same in both. -/
theorem SameExceptLog.eq_of_under {β : Type} (h : s.SameExceptLog s') (f : Store → β)
    (hf : ∀ s text, f (under s text) = f s) : f s' = f s := by
  obtain ⟨base, text, text', rfl, rfl⟩ := h.exists_base
  rw [hf, hf]

/-- Sends are not logged, or the log can show their arguments. -/
def CanLog (s : Store) (args : List Value) : Prop :=
  s.trace = none ∨ s.inspectAll args ≠ .error .bottomless

instance (s : Store) (args : List Value) : Decidable (s.CanLog args) :=
  inferInstanceAs (Decidable (_ ∨ _))

theorem logSend_of_canLog {args : List Value} (h : s.CanLog args) (target selector : String) :
    ∃ s', s.logSend target selector args = .ok s' ∧ s.SameExceptLog s' := by
  unfold logSend
  split_ifs with htrace
  · exact ⟨s, rfl, rfl, rfl⟩
  · have hinspect : s.inspectAll args ≠ .error .bottomless :=
      h.resolve_left fun hnone => htrace (by rw [hnone]; rfl)
    split
    · exact ⟨_, rfl, .log _⟩
    · exact ⟨s, rfl, rfl, rfl⟩
    · next hbottomless => exact absurd hbottomless hinspect

/-- A send that can be logged is the message in a store that differs in the log only. -/
theorem send_of_canLog {args : List Value} (h : s.CanLog args) (receiver : Value) (selector : String) :
    ∃ s', s.SameExceptLog s' ∧ s.send receiver selector args = s'.sendMessage receiver selector args := by
  obtain ⟨s', hlogged, hsame⟩ := logSend_of_canLog h (s.className receiver) selector
  refine ⟨s', hsame, ?_⟩
  rw [send, hlogged]

/-- A send that cannot be logged ends the run, whatever it would have found. -/
theorem send_of_not_canLog {args : List Value} (h : ¬s.CanLog args) (receiver : Value)
    (selector : String) : s.send receiver selector args = (.crash .bottomless, s) := by
  obtain ⟨htrace, hinspect⟩ := not_or.mp h
  rw [send, logSend, if_neg (by simpa using htrace), not_not.mp hinspect]

end Store

namespace Machine

open Parley.Store

section Tasks

variable (s : Store) (text : String) (scope : Scope)

theorem nextItem_under (done : List Value) (todo : List Node) :
    nextItem (s.under text) scope done todo = underAct text (nextItem s scope done todo) := by
  cases todo <;> rfl

theorem nextStatement_under (latest : Value) (todo : List Node) :
    nextStatement (s.under text) scope latest todo = underAct text (nextStatement s scope latest todo) := by
  cases todo <;> rfl

theorem nextArgument_under (receiver : Value) (selector : String) (done : List Value) (isSuper : Bool)
    (todo : List Node) : nextArgument (s.under text) scope receiver selector done isSuper todo =
      underAct text (nextArgument s scope receiver selector done isSuper todo) := by
  cases todo with
  | cons n todo => rfl
  | nil =>
      rw [nextArgument, nextArgument, sendFrom.eq_def, sendFrom.eq_def]
      split
      · exact sendSuper_under s text receiver _ selector _
      · exact send_under s text receiver selector _

theorem putValue_under (target : Target) (v : Value) :
    putValue (s.under text) scope target v = underAct text (putValue s scope target v) := by
  cases target with
  | define name operator => rfl
  | assign name =>
      have hholder : (s.under text).holder? scope.env name = s.holder? scope.env name := rfl
      rw [putValue, putValue, hholder]
      cases s.holder? scope.env name <;> rfl
  | slot name =>
      rw [putValue, putValue]
      cases scope.self with
      | object r =>
          have hobject : (s.under text).object r = s.object r := rfl
          simp only [hobject]
          split_ifs <;> rfl
      | _ => rfl

theorem begin_under (task : Task) : begin (s.under text) scope task =
    underAct text (begin s scope task) := by
  cases task with
  | message receiver selector args => exact send_under s text receiver selector args
  | superMessage receiver owner selector args => exact sendSuper_under s text receiver owner selector args
  | node n =>
      rw [begin, begin]
      cases n with
      | atom origin a =>
          have hvalue : atomValue (s.under text) scope a = atomValue s scope a := by cases a <;> rfl
          rw [beginNode, beginNode, hvalue]
          cases atomValue s scope a <;> rfl
      | list origin items => exact nextItem_under s text scope [] items
      | suite origin kind statements => exact nextStatement_under s text scope .nil statements
      | _ => rfl

theorem resume_under (v : Value) (work : Work) :
    resume (s.under text) scope v work = underAct text (resume s scope v work) := by
  cases work with
  | items done todo => exact nextItem_under s text scope _ todo
  | store target => exact putValue_under s text scope target v
  | receiver selector args isSuper => exact nextArgument_under s text scope v selector [] isSuper args
  | argument receiver selector done todo isSuper =>
      exact nextArgument_under s text scope receiver selector _ isSuper todo
  | statements todo => exact nextStatement_under s text scope v todo
  | repeating answer block left => exact repeatBlock_under s text answer block left
  | counting answer block next left => exact countBlock_under s text answer block next left
  | visiting answer block todo => exact visitItems_under s text answer block todo
  | collecting block done todo => exact collectItems_under s text block _ todo
  | testing expected condition body => exact afterTest_under s text expected condition body v
  | looping expected condition body => exact testLoop_under s text expected condition body
  | _ => rfl

theorem recover_under (failure : Failure) (work : Work) :
    recover (s.under text) failure work = underAct text (recover s failure work) := by
  cases work with
  | method home =>
      rw [recover.eq_def, recover.eq_def]
      dsimp only
      split
      · split_ifs <;> rfl
      · rfl
  | catching handler =>
      cases failure with
      | error e site => exact handle_under s text e handler
      | signal v home => rfl
  | _ => rfl

end Tasks

/-! Runs -/

/-- The end of a run in a store whose log begins with a text. -/
def underEnd (text : String) (r : Outcome × Store) : Outcome × Store := (r.1, r.2.under text)

/-- What a step led to, in a store whose log begins with a text. -/
def underNext (text : String) : Config ⊕ (Outcome × Store) → Config ⊕ (Outcome × Store)
  | .inl c => .inl { c with store := c.store.under text }
  | .inr r => .inr (underEnd text r)

section Runs

variable {limit : Limit} {task : Task} {scope : Scope} {depth : Nat} (text : String)

theorem carryOut_under (stack : List Suspended) (act : Action × Store) :
    carryOut limit task scope stack depth (underAct text act) =
      underNext text (carryOut limit task scope stack depth act) := by
  obtain ⟨action, s⟩ := act
  cases action with
  | finish v => rfl
  | fail f => rfl
  | crash c => rfl
  | request n inner work =>
      cases limit with
      | unset => rfl
      | frames count =>
          simp only [underAct, carryOut, log_under]
          split_ifs <;> rfl

/-- One step is the same step under a text. -/
theorem advance_under (c : Config) :
    advance limit { c with store := c.store.under text } = underNext text (advance limit c) := by
  obtain ⟨control, stack, depth, s⟩ := c
  cases control with
  | start task scope =>
      simp only [advance, begin_under]
      exact carryOut_under text stack _
  | value v =>
      cases stack with
      | nil => rfl
      | cons f stack =>
          simp only [advance, resume_under]
          exact carryOut_under text stack _
  | failure e =>
      cases stack with
      | nil => rfl
      | cons f stack =>
          simp only [advance, recover_under]
          split_ifs
          · exact carryOut_under text stack _
          · rfl

theorem runOn_under (fuel : Nat) (next : Config ⊕ (Outcome × Store)) :
    runOn limit fuel (underNext text next) = (runOn limit fuel next).map (underEnd text) := by
  induction fuel generalizing next with
  | zero => cases next <;> rfl
  | succ fuel ih =>
      cases next with
      | inl c =>
          simp only [underNext, runOn, run_succ, advance_under]
          exact ih (advance limit c)
      | inr r => rfl

theorem settle_under (act : Action × Store) : limit.settle depth task scope (underAct text act) =
    (limit.settle depth task scope act).map (underEnd text) := by
  refine settle_map_of_runOn fun fuel => ?_
  rw [carryOut_under, runOn_under]

/-- The end of a run without the log. -/
def unloggedEnd (r : Outcome × Store) : Outcome × Store := (r.1, r.2.unlogged)

theorem map_unloggedEnd_underEnd (x : Option (Outcome × Store)) :
    (x.map (underEnd text)).map unloggedEnd = x.map unloggedEnd := by
  rw [Option.map_map]
  rfl

/-- An operation that is the same under every text settles alike in stores that differ in their logs. -/
theorem settle_sameExceptLog (op : Store → Action × Store)
    (hop : ∀ s text, op (s.under text) = underAct text (op s)) {s s' : Store} (h : s.SameExceptLog s') :
    (limit.settle depth task scope (op s')).map unloggedEnd =
      (limit.settle depth task scope (op s)).map unloggedEnd := by
  obtain ⟨base, text, text', rfl, rfl⟩ := h.exists_base
  rw [hop, hop, settle_under, settle_under, map_unloggedEnd_underEnd, map_unloggedEnd_underEnd]

end Runs

end Machine

end Parley
