import Parley.Machine.Evaluate
import Parley.Proofs.Machine.Sending
import Parley.Proofs.Store.Blending

/-! Actions in blended stores. An action of code that knows a confined region only reads and writes inside
that region. So it is the same action whatever lies outside, and it can be carried out before or after
the blending: each operation of the language commutes with it. Reads that depend on nothing outside are
equal, and those that depend on values are equal for values of the region. -/

namespace Parley

/-- An action whose store is blended. -/
noncomputable def blendAct (inside : Cell → Prop) (outside : Store) (act : Action × Store) :
    Action × Store :=
  (act.1, act.2.blend inside outside)

theorem argument_bind_congr {α : Type} {args : List Value} {f g : Value → Answer α}
    (h : ∀ v ∈ args, f v = g v) (i : Nat) : (argument args i >>= f) = (argument args i >>= g) := by
  rw [argument]
  cases hv : args[i]? with
  | none => rfl
  | some v => exact h v (List.mem_of_getElem? hv)

namespace Store

variable {inside : Cell → Prop} {outside s : Store} {args : List Value}

theorem Closes.log (hs : s.Closes inside) (line : String) : (s.log line).Closes inside :=
  ⟨hs.fresh, hs.lists, hs.objects⟩

theorem act_blend (a : Answer Value) :
    Answer.act (s.blend inside outside) a = blendAct inside outside (Answer.act s a) := by
  cases a <;> rfl

/-! Reads that depend on nothing outside -/

@[simp] theorem truth_blend : (s.blend inside outside).truth = s.truth := by
  funext selector v
  cases v <;> simp only [truth, className_blend]

@[simp] theorem integerArgument_blend :
    (s.blend inside outside).integerArgument = s.integerArgument := by
  funext selector v
  cases v <;> simp only [integerArgument, className_blend]

@[simp] theorem stringArgument_blend :
    (s.blend inside outside).stringArgument = s.stringArgument := by
  funext selector v
  cases v <;> simp only [stringArgument, className_blend]

@[simp] theorem nameArgument_blend : (s.blend inside outside).nameArgument = s.nameArgument := by
  funext selector v
  cases v <;> simp only [nameArgument, className_blend]

@[simp] theorem itemIndex_blend : (s.blend inside outside).itemIndex = s.itemIndex := by
  funext selector items v
  simp only [itemIndex, integerArgument_blend]

@[simp] theorem respondsTo_blend : (s.blend inside outside).respondsTo = s.respondsTo := by
  funext receiver selector
  cases receiver <;> simp only [respondsTo, cls_blend, classes_blend]

@[simp] theorem definition_blend : (s.blend inside outside).definition = s.definition := by
  funext args
  simp only [definition, nameArgument_blend, className_blend]

theorem namesArgument_blend (selector : String) {v : Value} (hv : inside (.value v)) :
    (s.blend inside outside).namesArgument selector v = s.namesArgument selector v := by
  cases v with
  | list r => rw [namesArgument, namesArgument, list_blend hv, nameArgument_blend]
  | _ => simp only [namesArgument, className_blend]

/-! Blocks -/

section Blocks

variable (hs : s.Closes inside)
include hs

theorem callBlock_blend (r : BlockRef) (args : List Value) (work : Work) :
    (s.blend inside outside).callBlock r args work =
      blendAct inside outside (s.callBlock r args work) := by
  simp only [callBlock, block_blend, newFrame_blend hs]
  split_ifs <;> rfl

theorem valueOf_blend (v : Value) (args : List Value) :
    (s.blend inside outside).valueOf v args = blendAct inside outside (s.valueOf v args) := by
  cases v with
  | block r => exact callBlock_blend hs r args .result
  | _ => rfl

theorem valueOfArgument_blend (args : List Value) (i : Nat) :
    (s.blend inside outside).valueOfArgument args i =
      blendAct inside outside (s.valueOfArgument args i) := by
  rw [valueOfArgument, valueOfArgument]
  cases argument args i with
  | ok v => exact valueOf_blend hs v []
  | error a => rfl

theorem repeatBlock_blend (answer : Value) (r : BlockRef) (left : Nat) :
    (s.blend inside outside).repeatBlock answer r left =
      blendAct inside outside (s.repeatBlock answer r left) := by
  cases left with
  | zero => rfl
  | succ left => exact callBlock_blend hs r [] _

theorem countBlock_blend (answer : Value) (r : BlockRef) (next : Int) (left : Nat) :
    (s.blend inside outside).countBlock answer r next left =
      blendAct inside outside (s.countBlock answer r next left) := by
  cases left with
  | zero => rfl
  | succ left => exact callBlock_blend hs r _ _

theorem visitItems_blend (answer : Value) (r : BlockRef) (items : List Value) :
    (s.blend inside outside).visitItems answer r items =
      blendAct inside outside (s.visitItems answer r items) := by
  cases items with
  | nil => rfl
  | cons v vs => exact callBlock_blend hs r _ _

theorem finishList_blend (items : List Value) :
    (s.blend inside outside).finishList items = blendAct inside outside (s.finishList items) := by
  rw [finishList, newList_blend hs]
  rfl

theorem collectItems_blend (r : BlockRef) (done items : List Value) :
    (s.blend inside outside).collectItems r done items =
      blendAct inside outside (s.collectItems r done items) := by
  cases items with
  | nil => exact finishList_blend hs done.reverse
  | cons v vs => exact callBlock_blend hs r _ _

theorem testLoop_blend (expected : Bool) (condition : BlockRef) (body : Option Value) :
    (s.blend inside outside).testLoop expected condition body =
      blendAct inside outside (s.testLoop expected condition body) :=
  callBlock_blend hs condition [] _

theorem afterTest_blend (expected : Bool) (condition : BlockRef) (body : Option Value) (v : Value) :
    (s.blend inside outside).afterTest expected condition body v =
      blendAct inside outside (s.afterTest expected condition body v) := by
  simp only [afterTest, truth_blend]
  cases s.truth (loopSelector expected) v with
  | error e => rfl
  | ok b =>
      dsimp only
      split_ifs
      · cases body with
        | none => rfl
        | some w =>
            cases w with
            | block r => exact callBlock_blend hs r [] _
            | _ => exact testLoop_blend hs expected condition _
      · rfl

theorem handle_blend (e : Error) (handler : Value) :
    (s.blend inside outside).handle e handler = blendAct inside outside (s.handle e handler) := by
  have hlog := hs.log ("oops.primitive: caught " ++ e.kind)
  cases handler with
  | block r =>
      have hlogged : (s.blend inside outside).log ("oops.primitive: caught " ++ e.kind) =
          (s.log ("oops.primitive: caught " ++ e.kind)).blend inside outside := rfl
      simp only [handle, hlogged]
      rw [apply_ite (blendAct inside outside), ← callBlock_blend hlog r _ .result,
        ← callBlock_blend hlog r [] .result]
      rfl
  | _ => rfl

theorem guardBlock_blend (r : BlockRef) (handler : Value) :
    (s.blend inside outside).guardBlock r handler =
      blendAct inside outside (s.guardBlock r handler) := by
  simp only [guardBlock, callBlock, block_blend, newFrame_blend hs]
  split_ifs
  · rfl
  · exact handle_blend hs _ handler

end Blocks

end Store

/-! Primitives -/

section Primitives

open Store

variable {inside : Cell → Prop} {outside s : Store} {args : List Value} (hs : s.Closes inside)

@[simp] theorem itemAt_blend : itemAt (s.blend inside outside) = itemAt s := by
  funext selector items args
  simp only [itemAt, itemIndex_blend]

@[simp] theorem itemChange_blend : itemChange (s.blend inside outside) = itemChange s := by
  funext selector items args
  simp only [itemChange, itemIndex_blend]

@[simp] theorem IntegerPrimitive.answer_blend :
    IntegerPrimitive.answer (s.blend inside outside) = IntegerPrimitive.answer s := by
  funext p selector n args
  simp only [IntegerPrimitive.answer, integerArgument_blend]

include hs

theorem repeatTimes_blend (n : Int) (args : List Value) :
    repeatTimes (s.blend inside outside) n args = blendAct inside outside (repeatTimes s n args) := by
  rw [repeatTimes, repeatTimes]
  split_ifs
  · rfl
  · cases argument args 0 with
    | error a => rfl
    | ok v =>
        cases v with
        | block r => exact repeatBlock_blend hs _ r _
        | _ => rfl

theorem countTo_blend (selector : String) (n : Int) (args : List Value) :
    countTo (s.blend inside outside) selector n args =
      blendAct inside outside (countTo s selector n args) := by
  simp only [countTo, integerArgument_blend]
  cases argument args 0 >>= s.integerArgument selector with
  | error a => rfl
  | ok stop =>
      dsimp only
      split_ifs
      · rfl
      · cases argument args 1 with
        | error a => rfl
        | ok v =>
            cases v with
            | block r => exact countBlock_blend hs _ r _ _
            | _ => rfl

theorem IntegerPrimitive.perform_blend (p : IntegerPrimitive) (selector : String) (n : Int)
    (args : List Value) :
    p.perform (s.blend inside outside) selector n args =
      blendAct inside outside (p.perform s selector n args) := by
  cases p with
  | timesRepeat => exact repeatTimes_blend hs n args
  | toDo => exact countTo_blend hs selector n args
  | _ => simp only [IntegerPrimitive.perform, IntegerPrimitive.answer_blend, act_blend]

theorem StringPrimitive.answer_blend (p : StringPrimitive) (selector text : String)
    (hargs : ∀ v ∈ args, inside (.value v)) :
    p.answer (s.blend inside outside) selector text args = p.answer s selector text args := by
  cases p with
  | concat =>
      refine argument_bind_congr (fun v hv => ?_) 0
      rw [display_blend hs (hargs v hv)]
  | compare op => simp only [StringPrimitive.answer, stringArgument_blend]
  | _ => rfl

theorem BooleanPrimitive.perform_blend (p : BooleanPrimitive) (b : Bool) (args : List Value) :
    p.perform (s.blend inside outside) b args = blendAct inside outside (p.perform s b args) := by
  have hvalue := fun i => @valueOfArgument_blend inside outside s hs args i
  cases p <;> cases b <;> first | exact hvalue _ | rfl

theorem visitList_blend {r : ListRef} (hr : inside (.value (.list r))) (args : List Value) :
    visitList (s.blend inside outside) r args = blendAct inside outside (visitList s r args) := by
  simp only [visitList, list_blend hr]
  split_ifs
  · rfl
  · cases argument args 0 with
    | error a => rfl
    | ok v =>
        cases v with
        | block b => exact visitItems_blend hs _ b _
        | _ => rfl

theorem collectList_blend {r : ListRef} (hr : inside (.value (.list r))) (args : List Value) :
    collectList (s.blend inside outside) r args = blendAct inside outside (collectList s r args) := by
  simp only [collectList, list_blend hr]
  split_ifs
  · exact finishList_blend hs []
  · cases argument args 0 with
    | error a => rfl
    | ok v =>
        cases v with
        | block b => exact collectItems_blend hs b [] _
        | _ => exact finishList_blend hs _

theorem ListPrimitive.perform_blend (p : ListPrimitive) (selector : String) {r : ListRef}
    (hr : inside (.value (.list r))) (hargs : ∀ v ∈ args, inside (.value v)) :
    p.perform (s.blend inside outside) selector r args =
      blendAct inside outside (p.perform s selector r args) := by
  have hitems : ∀ v ∈ (s.list r).toList, inside (.value v) :=
    fun v hv => hs.lists r hr v (Array.mem_toList_iff.mp hv)
  cases p with
  | visit => exact visitList_blend hs hr args
  | collect => exact collectList_blend hs hr args
  | «at» => simp only [ListPrimitive.perform, itemAt_blend, list_blend hr, act_blend]
  | atPut =>
      simp only [ListPrimitive.perform, itemChange_blend, list_blend hr, setList_blend hr]
      cases itemChange s selector (s.list r) args <;> rfl
  | add =>
      simp only [ListPrimitive.perform, pushList_blend hr]
      cases argument args 0 <;> rfl
  | includes =>
      simp only [ListPrimitive.perform, list_blend hr]
      rw [act_blend]
      refine congrArg (fun a => blendAct inside outside (Answer.act s a)) ?_
      refine argument_bind_congr (fun v hv => ?_) 0
      rw [includes?_blend hs hitems (hargs v hv)]
  | _ =>
      simp only [ListPrimitive.perform, list_blend hr]
      rfl

theorem BlockPrimitive.perform_blend (p : BlockPrimitive) (r : BlockRef) (args : List Value) :
    p.perform (s.blend inside outside) r args = blendAct inside outside (p.perform s r args) := by
  cases p with
  | arity => rfl
  | loop expected => exact testLoop_blend hs expected r _
  | recover =>
      rw [BlockPrimitive.perform, BlockPrimitive.perform]
      cases argument args 0 with
      | ok handler => exact guardBlock_blend hs r handler
      | error a => rfl

theorem otherwise_blend (v : Value) (args : List Value) :
    otherwise (s.blend inside outside) v args = blendAct inside outside (otherwise s v args) := by
  rw [otherwise.eq_def, otherwise.eq_def]
  cases argument args 1 with
  | error a => rfl
  | ok fallback =>
      cases fallback with
      | block r =>
          dsimp only
          rw [apply_ite (blendAct inside outside), ← callBlock_blend hs r [v] .result,
            ← callBlock_blend hs r [] .result]
          rfl
      | _ => rfl

theorem AnyPrimitive.answer_blend (p : AnyPrimitive) (selector : String) {v : Value}
    (hv : inside (.value v)) (hargs : ∀ w ∈ args, inside (.value w)) :
    p.answer (s.blend inside outside) selector v args = p.answer s selector v args := by
  cases p with
  | equal =>
      refine argument_bind_congr (fun w hw => ?_) 0
      rw [equal?_blend hs hv (hargs w hw)]
  | notEqual =>
      refine argument_bind_congr (fun w hw => ?_) 0
      rw [equal?_blend hs hv (hargs w hw)]
  | asString => simp only [AnyPrimitive.answer, display_blend hs hv]
  | printString => simp only [AnyPrimitive.answer, literal_blend hs hv]
  | className => simp only [AnyPrimitive.answer, className_blend]
  | classOf => cases v <;> simp only [AnyPrimitive.answer, className_blend, cls_blend]
  | respondsTo => simp only [AnyPrimitive.answer, stringArgument_blend, respondsTo_blend]
  | _ => rfl

theorem AnyPrimitive.perform_blend (p : AnyPrimitive) (selector : String) {v : Value}
    (hv : inside (.value v)) (hargs : ∀ w ∈ args, inside (.value w)) :
    p.perform (s.blend inside outside) selector v args =
      blendAct inside outside (p.perform s selector v args) := by
  cases p with
  | ifNilElse => exact otherwise_blend hs v args
  | print =>
      simp only [AnyPrimitive.perform, display_blend hs hv]
      cases textFor selector (s.display v) <;> rfl
  | _ => simp only [AnyPrimitive.perform, AnyPrimitive.answer_blend hs _ selector hv hargs, act_blend]

theorem Primitive.perform_blend (p : Primitive) (selector : String) {receiver : Value}
    (hreceiver : inside (.value receiver)) (hargs : ∀ v ∈ args, inside (.value v)) :
    p.perform (s.blend inside outside) selector receiver args =
      blendAct inside outside (p.perform s selector receiver args) := by
  cases p with
  | integer p =>
      cases receiver with
      | integer n => exact p.perform_blend hs selector n args
      | _ => rfl
  | string p =>
      cases receiver with
      | string text =>
          simp only [Primitive.perform, p.answer_blend hs selector text hargs, act_blend]
      | _ => rfl
  | boolean p =>
      cases receiver with
      | boolean b => exact p.perform_blend hs b args
      | _ => rfl
  | list p =>
      cases receiver with
      | list r => exact p.perform_blend hs selector hreceiver hargs
      | _ => rfl
  | block p =>
      cases receiver with
      | block r => exact p.perform_blend hs r args
      | _ => rfl
  | nilBranch => exact valueOfArgument_blend hs args 0
  | any p => exact p.perform_blend hs selector hreceiver hargs

end Primitives

/-! Sends -/

namespace Store

variable {inside : Cell → Prop} {outside s : Store} {args : List Value} (hs : s.Closes inside)
include hs

theorem invoke_blend (m : Method) (receiver : Value) (args : List Value) :
    (s.blend inside outside).invoke m receiver args =
      blendAct inside outside (s.invoke m receiver args) := by
  simp only [invoke, newFrame_blend hs]
  split_ifs <;> rfl

theorem sendPrimitive_blend {receiver : Value} (hreceiver : inside (.value receiver))
    (selector : String) (hargs : ∀ v ∈ args, inside (.value v)) :
    (s.blend inside outside).sendPrimitive receiver selector args =
      blendAct inside outside (s.sendPrimitive receiver selector args) := by
  simp only [sendPrimitive, className_blend]
  cases Primitive.find? receiver.kind selector with
  | some p => exact p.perform_blend hs selector hreceiver hargs
  | none => rfl

theorem answerNew_blend (made : Except Error Object) :
    (s.blend inside outside).answerNew made = blendAct inside outside (s.answerNew made) := by
  cases made with
  | ok o =>
      rw [answerNew, newObject_blend hs]
      rfl
  | error e => rfl

omit hs in
theorem answerSubclass_blend (parent name : String) (fields : List String) :
    (s.blend inside outside).answerSubclass parent name fields =
      blendAct inside outside (s.answerSubclass parent name fields) := by
  simp only [answerSubclass, classes_blend]
  cases s.classes.subclass parent name fields <;> rfl

omit hs in
theorem installMethod_blend (c : ClassRef) (name : String) (b : Block) :
    (s.blend inside outside).installMethod c name b =
      (s.installMethod c name b).map (·.blend inside outside) := by
  rw [installMethod, installMethod, classes_blend]
  cases s.classes.define c.name (methodSelector (Selector.normalize name) b.params) b.params b.body with
  | error e => rfl
  | ok defined =>
      obtain ⟨m, replaced, classes⟩ := defined
      cases replaced <;> rfl

theorem answerStrings_blend (names : Except Error (List String)) :
    (s.blend inside outside).answerStrings names = blendAct inside outside (s.answerStrings names) := by
  cases names with
  | ok names => exact finishList_blend hs _
  | error e => rfl

theorem sendClass_blend (m : ClassMessage) (c : ClassRef) (selector : String)
    (hargs : ∀ v ∈ args, inside (.value v)) :
    (s.blend inside outside).sendClass m c selector args =
      blendAct inside outside (s.sendClass m c selector args) := by
  cases m with
  | new => exact answerNew_blend hs _
  | newWith => exact answerNew_blend hs _
  | subclass =>
      simp only [sendClass, nameArgument_blend]
      cases argument args 0 >>= s.nameArgument selector with
      | ok name => exact answerSubclass_blend c.name name []
      | error a => rfl
  | subclassWith =>
      have hnames : (argument args 1 >>= (s.blend inside outside).namesArgument selector) =
          argument args 1 >>= s.namesArgument selector :=
        argument_bind_congr (fun v hv => namesArgument_blend selector (hargs v hv)) 1
      simp only [sendClass, nameArgument_blend, hnames]
      cases argument args 0 >>= s.nameArgument selector with
      | error a => rfl
      | ok name =>
          cases argument args 1 >>= s.namesArgument selector with
          | ok fields => exact answerSubclass_blend c.name name fields
          | error a => rfl
  | define =>
      simp only [sendClass, definition_blend, block_blend, installMethod_blend]
      cases s.definition args with
      | error a => rfl
      | ok d =>
          obtain ⟨name, r⟩ := d
          dsimp only
          cases s.installMethod c name (s.block r) <;> rfl
  | name => rfl
  | superclass =>
      simp only [sendClass, classes_blend]
      rcases s.classes.superclass c.name with e | _ | parent <;> rfl
  | slots => exact answerStrings_blend hs _
  | selectors => exact answerStrings_blend hs _

theorem logSend_blend (target selector : String) (hargs : ∀ v ∈ args, inside (.value v)) :
    (s.blend inside outside).logSend target selector args =
      (s.logSend target selector args).map (·.blend inside outside) := by
  rw [logSend, logSend, inspectAll_blend hs hargs]
  have htrace : (s.blend inside outside).trace = s.trace := rfl
  rw [htrace]
  split_ifs
  · rfl
  · rcases s.inspectAll args with ⟨_ | _⟩ | texts <;> rfl

theorem Closes.logSend {target selector : String} {s' : Store}
    (h : s.logSend target selector args = .ok s') : s'.Closes inside := by
  obtain hlog | ⟨line, hlog⟩ | ⟨hlog, -⟩ := @logSend_cases s selector args target
  · cases hlog.symm.trans h
    exact hs
  · cases hlog.symm.trans h
    exact hs.log line
  · cases hlog.symm.trans h

theorem sendMessage_blend {receiver : Value} (hreceiver : inside (.value receiver))
    (selector : String) (hargs : ∀ v ∈ args, inside (.value v)) :
    (s.blend inside outside).sendMessage receiver selector args =
      blendAct inside outside (s.sendMessage receiver selector args) := by
  have hprimitive := @sendPrimitive_blend inside outside s args hs receiver hreceiver selector hargs
  cases receiver with
  | cls c =>
      simp only [sendMessage]
      cases ClassMessage.find? selector with
      | some m => exact sendClass_blend hs m c selector hargs
      | none => exact hprimitive
  | object r =>
      simp only [sendMessage, cls_blend, classes_blend]
      rcases s.classes.lookup (s.object r).cls.name selector with e | _ | m
      · rfl
      · exact hprimitive
      · exact invoke_blend hs m _ args
  | block r =>
      simp only [sendMessage]
      split_ifs
      · exact callBlock_blend hs r args .result
      · exact hprimitive
  | _ => exact hprimitive

theorem sendAbove_blend {receiver : Value} (hreceiver : inside (.value receiver))
    (owner selector : String) (hargs : ∀ v ∈ args, inside (.value v)) :
    (s.blend inside outside).sendAbove receiver owner selector args =
      blendAct inside outside (s.sendAbove receiver owner selector args) := by
  simp only [sendAbove, classes_blend]
  rcases s.classes.lookupSuper owner selector with e | _ | m
  · rfl
  · exact sendPrimitive_blend hs hreceiver selector hargs
  · exact invoke_blend hs m receiver args

theorem send_blend {receiver : Value} (hreceiver : inside (.value receiver)) (selector : String)
    (hargs : ∀ v ∈ args, inside (.value v)) :
    (s.blend inside outside).send receiver selector args =
      blendAct inside outside (s.send receiver selector args) := by
  simp only [send, className_blend, logSend_blend hs _ selector hargs]
  cases hlog : s.logSend (s.className receiver) selector args with
  | ok s' => exact sendMessage_blend (hs.logSend hlog) hreceiver selector hargs
  | error c => rfl

theorem sendSuper_blend {receiver : Value} (hreceiver : inside (.value receiver))
    (owner selector : String) (hargs : ∀ v ∈ args, inside (.value v)) :
    (s.blend inside outside).sendSuper receiver owner selector args =
      blendAct inside outside (s.sendSuper receiver owner selector args) := by
  simp only [sendSuper, logSend_blend hs _ selector hargs]
  cases hlog : s.logSend ("super " ++ owner) selector args with
  | ok s' => exact sendAbove_blend (hs.logSend hlog) hreceiver owner selector hargs
  | error c => rfl

end Store

end Parley
