import Parley.Proofs.Machine.Arguments
import Parley.Proofs.Machine.Logging

/-! Which messages are understood. `respondsTo` decides beforehand whether a message finds something to
run, by tables of its own; a send that finds nothing fails at once, and nothing that it can find says
that the message was not understood. -/

namespace Parley

/-- Whether a task fails because it did not understand a message. -/
def Action.isUnknownMessage : Action → Bool
  | .fail (.error e _) => e.isUnknownMessage
  | _ => false

/-- An answer that is a value, or an action other than not to understand a message. -/
def Answer.Known {α : Type} (x : Answer α) : Prop := ∀ a, x = .error a → a.isUnknownMessage = false

namespace Answer.Known

variable {α β : Type}

theorem ok {a : α} : Answer.Known (.ok a : Answer α) := fun _ => nofun

theorem error {a : Action} (h : a.isUnknownMessage = false) : Answer.Known (.error a : Answer α) := by
  rintro _ ⟨⟩
  exact h

theorem bind {x : Answer α} {f : α → Answer β} (hx : x.Known) (hf : ∀ a, (f a).Known) :
    Answer.Known (x >>= f) := by
  cases x with
  | error a => exact .error (hx a rfl)
  | ok a => exact hf a

theorem act {x : Answer Value} (hx : x.Known) (s : Store) :
    (Answer.act s x).1.isUnknownMessage = false := by
  cases x with
  | error a => exact hx a rfl
  | ok v => rfl

end Answer.Known

/-! What primitives read -/

section Reading

variable (s : Store) (selector : String)

theorem known_argument (args : List Value) (i : Nat) : (argument args i).Known := by
  unfold argument
  split
  · exact .ok
  · exact .error rfl

theorem known_orError {α : Type} {x : Except Error α} (hx : Mild x) : (orError x).Known := by
  cases x with
  | ok a => exact .ok
  | error e => exact .error (hx.not_unknownMessage rfl)

theorem known_integerArgument (v : Value) : (s.integerArgument selector v).Known := by
  cases v with
  | integer n => exact .ok
  | _ => exact .error rfl

theorem known_stringArgument (v : Value) : (s.stringArgument selector v).Known := by
  cases v with
  | string t => exact .ok
  | _ => exact .error rfl

theorem known_nameArgument (v : Value) : (s.nameArgument selector v).Known := by
  cases v with
  | string t => exact .ok
  | _ => exact .error rfl

theorem known_namesArgument (v : Value) : (s.namesArgument selector v).Known := by
  cases v with
  | list r =>
      intro a ha
      obtain ⟨w, -, hw⟩ := exists_of_mapM_eq_error ha
      exact known_nameArgument s selector w a hw
  | _ => exact .error rfl

theorem known_textFor (text : Except TextFault String) : (Store.textFor selector text).Known := by
  unfold Store.textFor
  split
  · exact .ok
  · exact .error rfl
  · exact .error rfl

theorem known_equalFor (outcome : Option Bool) : (Store.equalFor outcome).Known := by
  cases outcome with
  | some b => exact .ok
  | none => exact .error rfl

theorem known_itemIndex (items : Array Value) (v : Value) :
    (s.itemIndex selector items v).Known := by
  refine (known_integerArgument s selector v).bind fun i => ?_
  split
  · exact .ok
  · split
    · exact .error rfl
    · exact .error rfl

theorem known_definition (args : List Value) : (s.definition args).Known := by
  refine (known_argument args 0).bind fun name => (known_argument args 1).bind fun block => ?_
  refine (known_nameArgument s _ name).bind fun _ => ?_
  cases block with
  | block r => exact .ok
  | _ => exact .error rfl

end Reading

/-! What a message can find to run -/

section Running

variable (s : Store) (selector : String) (args : List Value)

theorem known_callBlock (r : BlockRef) (work : Work) :
    (s.callBlock r args work).1.isUnknownMessage = false := by
  unfold Store.callBlock
  dsimp only
  split_ifs
  · rfl
  · rfl

theorem known_invoke (m : Method) (receiver : Value) :
    (s.invoke m receiver args).1.isUnknownMessage = false := by
  unfold Store.invoke
  split_ifs
  · rfl
  · rfl

theorem known_valueOfArgument (i : Nat) : (s.valueOfArgument args i).1.isUnknownMessage = false := by
  unfold Store.valueOfArgument
  split
  · next v _ =>
      cases v with
      | block r => exact known_callBlock s [] r .result
      | _ => rfl
  · next ha => exact known_argument args i _ ha

theorem known_handle (e : Error) (handler : Value) :
    (s.handle e handler).1.isUnknownMessage = false := by
  unfold Store.handle
  cases handler with
  | block r =>
      dsimp only
      split_ifs
      · exact known_callBlock _ _ r .result
      · exact known_callBlock _ _ r .result
  | _ => rfl

theorem known_integer (p : IntegerPrimitive) (n : Int) :
    (p.perform s selector n args).1.isUnknownMessage = false := by
  have hoperand : (argument args 0 >>= s.integerArgument selector).Known :=
    (known_argument args 0).bind fun v => known_integerArgument s selector v
  cases p with
  | timesRepeat =>
      rw [IntegerPrimitive.perform, repeatTimes]
      split_ifs
      · rfl
      · split
        · cases n.toNat with
          | zero => rfl
          | succ left => exact known_callBlock s _ _ _
        · rfl
        · next ha => exact known_argument args 0 _ ha
  | toDo =>
      rw [IntegerPrimitive.perform, countTo]
      split
      · next ha => exact hoperand _ ha
      · next stop _ =>
          dsimp only
          split_ifs
          · rfl
          · split
            · cases (stop + 1 - n).toNat with
              | zero => rfl
              | succ left => exact known_callBlock s _ _ _
            · rfl
            · next ha => exact known_argument args 1 _ ha
  | arithmetic op =>
      refine Answer.Known.act (hoperand.bind fun k => ?_) s
      split
      · exact .ok
      · exact .error rfl
  | compare op => exact Answer.Known.act (hoperand.bind fun _ => .ok) s
  | max => exact Answer.Known.act (hoperand.bind fun _ => .ok) s
  | min => exact Answer.Known.act (hoperand.bind fun _ => .ok) s
  | negated => rfl
  | abs => rfl

theorem known_string (p : StringPrimitive) (t : String) : (p.answer s selector t args).Known := by
  cases p with
  | concat =>
      exact (known_argument args 0).bind fun v => (known_textFor selector _).bind fun _ => .ok
  | compare op =>
      exact (known_argument args 0).bind fun v => (known_stringArgument s selector v).bind fun _ => .ok
  | asInteger =>
      unfold StringPrimitive.answer
      dsimp only
      split
      · exact .ok
      · exact .error rfl
  | _ => exact .ok

theorem known_boolean (p : BooleanPrimitive) (b : Bool) :
    (p.perform s b args).1.isUnknownMessage = false := by
  obtain ⟨i, hp⟩ | ⟨v, hp⟩ := Store.boolean_cases p b args
  · rw [hp]
    exact known_valueOfArgument s args i
  · rw [hp]
    rfl

theorem known_list (p : ListPrimitive) (r : ListRef) :
    (p.perform s selector r args).1.isUnknownMessage = false := by
  match p with
  | .at =>
      refine Answer.Known.act ((known_argument args 0).bind fun v => ?_) s
      exact (known_itemIndex s selector _ v).bind fun _ => .ok
  | .atPut =>
      rw [ListPrimitive.perform]
      split
      · rfl
      · next ha =>
          have hchange : (itemChange s selector (s.list r) args).Known :=
            (known_argument args 1).bind fun v => (known_argument args 0).bind fun w =>
              (known_itemIndex s selector _ w).bind fun _ => .ok
          exact hchange _ ha
  | .add =>
      rw [ListPrimitive.perform]
      split
      · rfl
      · next ha => exact known_argument args 0 _ ha
  | .includes =>
      refine Answer.Known.act ((known_argument args 0).bind fun v => ?_) s
      exact (known_equalFor _).bind fun _ => .ok
  | .visit =>
      rw [ListPrimitive.perform, visitList]
      split_ifs
      · rfl
      · split
        · cases (s.list r).toList with
          | nil => rfl
          | cons v vs => exact known_callBlock s _ _ _
        · rfl
        · next ha => exact known_argument args 0 _ ha
  | .collect =>
      rw [ListPrimitive.perform, collectList]
      split_ifs
      · rfl
      · split
        · cases (s.list r).toList with
          | nil => rfl
          | cons v vs => exact known_callBlock s _ _ _
        · rfl
        · next ha => exact known_argument args 0 _ ha
  | .size | .isEmpty | .first | .last => rfl

theorem known_block (p : BlockPrimitive) (r : BlockRef) :
    (p.perform s r args).1.isUnknownMessage = false := by
  cases p with
  | arity => rfl
  | loop expected => exact known_callBlock s [] r _
  | recover =>
      rw [BlockPrimitive.perform]
      split
      · next handler _ =>
          unfold Store.guardBlock
          split
          · exact known_handle _ _ handler
          · exact known_callBlock s [] r _
      · next ha => exact known_argument args 0 _ ha

theorem known_any (p : AnyPrimitive) (v : Value) :
    (p.perform s selector v args).1.isUnknownMessage = false := by
  cases p with
  | ifNilElse =>
      rw [AnyPrimitive.perform, otherwise]
      split
      · split_ifs
        · exact known_callBlock s _ _ _
        · exact known_callBlock s _ _ _
      · rfl
      · next ha => exact known_argument args 1 _ ha
  | print =>
      rw [AnyPrimitive.perform]
      split
      · rfl
      · next ha => exact known_textFor selector _ _ ha
  | equal =>
      refine Answer.Known.act ((known_argument args 0).bind fun w => ?_) s
      exact (known_equalFor _).bind fun _ => .ok
  | notEqual =>
      refine Answer.Known.act ((known_argument args 0).bind fun w => ?_) s
      exact (known_equalFor _).bind fun _ => .ok
  | asString => exact Answer.Known.act ((known_textFor selector _).bind fun _ => .ok) s
  | printString => exact Answer.Known.act ((known_textFor selector _).bind fun _ => .ok) s
  | respondsTo =>
      refine Answer.Known.act ((known_argument args 0).bind fun w => ?_) s
      refine (known_stringArgument s selector w).bind fun name => ?_
      exact (known_orError (s.mild_respondsTo v _)).bind fun _ => .ok
  | classOf => cases v <;> rfl
  | _ => rfl

theorem known_perform (p : Primitive) (receiver : Value) :
    (p.perform s selector receiver args).1.isUnknownMessage = false := by
  unfold Primitive.perform
  split
  · exact known_integer s selector args _ _
  · exact Answer.Known.act (known_string s selector args _ _) s
  · exact known_boolean s args _ _
  · exact known_list s selector args _ _
  · exact known_block s args _ _
  · exact known_valueOfArgument s args 0
  · exact known_any s selector args _ _
  · rfl

theorem known_answerStrings {names : Except Error (List String)} (h : Mild names) :
    (s.answerStrings names).1.isUnknownMessage = false := by
  cases names with
  | ok names => rfl
  | error e => exact h.not_unknownMessage rfl

theorem known_answerNew {made : Except Error Object} (h : Mild made) :
    (s.answerNew made).1.isUnknownMessage = false := by
  cases made with
  | ok o => rfl
  | error e => exact h.not_unknownMessage rfl

theorem known_answerSubclass (parent name : String) (fields : List String) :
    (s.answerSubclass parent name fields).1.isUnknownMessage = false := by
  unfold Store.answerSubclass
  split
  · rfl
  · next herror => exact (s.classes.mild_subclass parent name fields).not_unknownMessage herror

theorem known_sendClass (m : ClassMessage) (c : ClassRef) :
    (s.sendClass m c selector args).1.isUnknownMessage = false := by
  have hname : (argument args 0 >>= s.nameArgument selector).Known :=
    (known_argument args 0).bind fun v => known_nameArgument s selector v
  cases m with
  | new => exact known_answerNew s (s.mild_instantiate _ _)
  | newWith => exact known_answerNew s (s.mild_instantiate _ _)
  | subclass =>
      rw [Store.sendClass]
      split
      · exact known_answerSubclass s _ _ _
      · next ha => exact hname _ ha
  | subclassWith =>
      have hnames : (argument args 1 >>= s.namesArgument selector).Known :=
        (known_argument args 1).bind fun v => known_namesArgument s selector v
      rw [Store.sendClass]
      split
      · next ha => exact hname _ ha
      · split
        · exact known_answerSubclass s _ _ _
        · next ha => exact hnames _ ha
  | define =>
      rw [Store.sendClass]
      split
      · next ha => exact known_definition s args _ ha
      · split
        · rfl
        · next herror => exact (s.mild_installMethod _ _ _).not_unknownMessage herror
  | name => rfl
  | superclass =>
      rw [Store.sendClass]
      split
      · rfl
      · rfl
      · next herror => exact (s.classes.mild_superclass _).not_unknownMessage herror
  | slots => exact known_answerStrings s (s.classes.mild_slots _)
  | selectors => exact known_answerStrings s (s.classes.mild_selectors _)

end Running

/-! What a message finds -/

/-- Classes answer the messages that they announce. -/
theorem isSome_find?_eq_announced (selector : String) : (ClassMessage.find? selector).isSome =
    (ClassMessage.announced.contains selector || Selector.isNewWith selector) := by
  by_cases hannounced : selector ∈ ClassMessage.announced
  · have hall : ∀ t ∈ ClassMessage.announced, (ClassMessage.find? t).isSome = true := by decide
    rw [hall selector hannounced, List.contains_iff_mem.mpr hannounced, Bool.true_or]
  · have hcontains : ClassMessage.announced.contains selector = false := by simpa using hannounced
    have hother : ClassMessage.find? selector =
        if Selector.isNewWith selector then some .newWith else none := by
      unfold ClassMessage.find?
      split
      case h_10 => rfl
      all_goals exact absurd (by decide) hannounced
    rw [hother, hcontains, Bool.false_or]
    cases Selector.isNewWith selector with
    | true => rfl
    | false => rfl

namespace Store

variable {s : Store} {receiver : Value} {selector : String} {args : List Value}

/-- A message that no table of the receiver has goes to the primitives. -/
theorem sendPrimitive_cases (hresponds : s.respondsTo receiver selector =
      .ok (Primitive.find? receiver.kind selector).isSome)
    (hsend : s.sendMessage receiver selector args = s.sendPrimitive receiver selector args) :
    (s.respondsTo receiver selector = .ok true ∧
      (s.sendMessage receiver selector args).1.isUnknownMessage = false) ∨
    (s.respondsTo receiver selector = .ok false ∧ s.sendMessage receiver selector args =
      (.error (.doesNotUnderstand selector (s.className receiver)), s)) := by
  rw [hresponds, hsend, sendPrimitive]
  cases Primitive.find? receiver.kind selector with
  | some p => exact .inl ⟨rfl, known_perform s selector args p receiver⟩
  | none => exact .inr ⟨rfl, rfl⟩

/-- A message finds something to run, as was said beforehand, or it is not understood. -/
theorem sendMessage_cases (selector : String) (args : List Value)
    (hclass : ∀ r, receiver = .object r → s.classes.contains (s.object r).cls.name = true) :
    (s.respondsTo receiver selector = .ok true ∧
      (s.sendMessage receiver selector args).1.isUnknownMessage = false) ∨
    (s.respondsTo receiver selector = .ok false ∧ s.sendMessage receiver selector args =
      (.error (.doesNotUnderstand selector (s.className receiver)), s)) := by
  cases receiver with
  | object r =>
      obtain ⟨d, hd⟩ := Option.isSome_iff_exists.mp (hclass r rfl)
      have hlookup := ClassTable.lookup_of_find? hd selector
      cases hfound : ClassTable.firstDefinition (ClassTable.chain s.classes.classes d.name) selector with
      | some m =>
          rw [hfound] at hlookup
          refine .inl ⟨?_, ?_⟩
          · rw [respondsTo, hlookup]
            rfl
          · rw [sendMessage, hlookup]
            exact known_invoke s args m (.object r)
      | none =>
          rw [hfound] at hlookup
          refine sendPrimitive_cases ?_ ?_
          · rw [respondsTo, hlookup]
            rfl
          · rw [sendMessage, hlookup]
  | cls c =>
      have hannounced := isSome_find?_eq_announced selector
      cases hm : ClassMessage.find? selector with
      | some m =>
          rw [hm] at hannounced
          refine .inl ⟨?_, ?_⟩
          · rw [respondsTo, ← hannounced]
            rfl
          · rw [sendMessage, hm]
            exact known_sendClass s selector args m c
      | none =>
          rw [hm] at hannounced
          refine sendPrimitive_cases ?_ ?_
          · rw [respondsTo, ← hannounced]
            rfl
          · rw [sendMessage, hm]
  | block r =>
      cases hcall : Selector.isCall selector with
      | true =>
          refine .inl ⟨?_, ?_⟩
          · rw [respondsTo, hcall]
            rfl
          · rw [sendMessage, if_pos hcall]
            exact known_callBlock s args r .result
      | false =>
          refine sendPrimitive_cases ?_ ?_
          · rw [respondsTo, hcall]
            rfl
          · rw [sendMessage, if_neg (by simp [hcall])]
  | _ => exact sendPrimitive_cases rfl rfl

/-- A message to any value, to an instance of a registered class among them, is not understood exactly
if `respondsTo` says so beforehand, and then nothing but the log changes. -/
theorem respondsTo_predicts_send (s : Store) (receiver : Value) (selector : String) (args : List Value)
    (hclass : ∀ r, receiver = .object r → s.classes.contains (s.object r).cls.name = true)
    (hlog : s.CanLog args) :
    (∃ answer, s.respondsTo receiver selector = .ok answer) ∧
    ((s.send receiver selector args).1 = .error (.doesNotUnderstand selector (s.className receiver)) ↔
      s.respondsTo receiver selector = .ok false) ∧
    (s.respondsTo receiver selector = .ok false →
      (s.send receiver selector args).2.unlogged = s.unlogged) := by
  obtain ⟨s', hlogged, hsame⟩ := logSend_of_canLog hlog (s.className receiver) selector
  have hsend : s.send receiver selector args = s'.sendMessage receiver selector args := by
    rw [send, hlogged]
  -- the line in the log changes nothing that the message or its answer depends on
  have hresponds : s'.respondsTo receiver = s.respondsTo receiver :=
    hsame.eq_of_under (·.respondsTo receiver) fun s text => respondsTo_under s text receiver
  have hname : s'.className receiver = s.className receiver :=
    hsame.eq_of_under (·.className receiver) fun s text => className_under s text receiver
  have hclass' : ∀ r, receiver = .object r → s'.classes.contains (s'.object r).cls.name = true := by
    intro r hr
    have hcontains : s'.classes.contains (s'.object r).cls.name =
        s.classes.contains (s.object r).cls.name :=
      hsame.eq_of_under (fun s => s.classes.contains (s.object r).cls.name) fun _ _ => rfl
    rw [hcontains, hclass r hr]
  rw [hsend]
  obtain ⟨htrue, hknown⟩ | ⟨hfalse, hunknown⟩ := sendMessage_cases selector args hclass'
  · rw [hresponds] at htrue
    rw [htrue]
    refine ⟨⟨true, rfl⟩, ⟨fun herror => ?_, by rintro ⟨⟩⟩, by rintro ⟨⟩⟩
    rw [herror] at hknown
    cases hknown
  · rw [hresponds] at hfalse
    rw [hfalse, hunknown, hname]
    exact ⟨⟨false, rfl⟩, ⟨fun _ => rfl, fun _ => rfl⟩, fun _ => hsame.unlogged⟩

/-- A store with an instance of the root class, in which sends are logged. -/
def withInstance : Store :=
  { initial true with objects := #[⟨.registered "Object", .empty⟩] }

/-- The instance does not understand a message with itself for an argument, and the send says so. -/
theorem respondsTo_predicts_send_instance :
    withInstance.respondsTo (.object ⟨0⟩) "foo v:" = .ok false ∧
      (withInstance.send (.object ⟨0⟩) "foo v:" [.object ⟨0⟩]).1 =
        .error (.doesNotUnderstand "foo v:" (withInstance.className (.object ⟨0⟩))) := by
  have hresponds : withInstance.respondsTo (.object ⟨0⟩) "foo v:" = .ok false := by decide
  have hclass : ∀ r, Value.object ⟨0⟩ = .object r →
      withInstance.classes.contains (withInstance.object r).cls.name = true := by
    rintro _ ⟨⟩
    decide
  have hlog : withInstance.CanLog [.object ⟨0⟩] := .inr (by decide)
  exact ⟨hresponds, (respondsTo_predicts_send withInstance (.object ⟨0⟩) "foo v:" [.object ⟨0⟩]
    hclass hlog).2.1.mpr hresponds⟩

end Store

namespace Interpreter

/-- Once the instance holds itself, it has no log text, and a send of it ends the run although the message
would not be understood. -/
theorem respondsTo_without_log_text : ∃ s s' r, Begins IsChecked (.frames 20) ringCall s ∧
    execute (.frames 20) 60 (.node ringCall) s = some (.value (.object r), s') ∧
    s'.classes.contains (s'.object r).cls.name = true ∧
    s'.respondsTo (.object r) "foo v:" = .ok false ∧
    (s'.send (.object r) "foo v:" [.object r]).1 = .crash .bottomless := by
  have hrun : runsTo (.frames 20) 60 true ringProgram ringCall (fun outcome s' =>
      valueOf? outcome = some (.object ⟨0⟩) ∧ s'.classes.contains (s'.object ⟨0⟩).cls.name = true ∧
        s'.respondsTo (.object ⟨0⟩) "foo v:" = .ok false ∧ ¬s'.CanLog [.object ⟨0⟩]) = true := by
    decide +kernel
  obtain ⟨_, s, outcome, s', hbefore, hexecute, hcheck⟩ := exists_of_runsTo hrun
  obtain ⟨hvalue, hcontains, hresponds, hlog⟩ := of_decide_eq_true hcheck
  obtain rfl := eq_value_of_valueOf? hvalue
  exact ⟨s, s', ⟨0⟩, .of_fresh isChecked_ringProgram hbefore, hexecute, hcontains, hresponds,
    congrArg Prod.fst (Store.send_of_not_canLog hlog _ _)⟩

end Interpreter

end Parley
