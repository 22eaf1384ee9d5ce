import Parley.Machine.Dispatch
import Parley.Proofs.Machine.Needs
import Parley.Proofs.Store.Circular
import Parley.Proofs.Store.Refusals

/-! What a message can do. However it is answered, the store goes through a sequence of single changes, and
then the message has a value, is refused, or has the body of a block or of a method evaluated. `Serves`
says this once for every way of answering, with where all the values come from; invariants of runs are
read off from it. -/

namespace Parley

/-- A value that refers to nothing in a store. -/
def Value.isFree : Value → Bool
  | .list _ | .block _ | .object _ => false
  | _ => true

/-- A single change that running code makes to the store, apart from new blocks, frames and
activations. It changes what is known and puts known values there. -/
inductive Store.Change (known : Value → Prop) : Store → Store → Prop
  | newList (s : Store) {items : Array Value} (hitems : ∀ v ∈ items, known v) :
      Change known s (s.newList items).2
  | newObject {s : Store} {name : String} {values : List (String × Value)} {o : Object}
      (h : s.instantiate name values = .ok o) (hvalues : ∀ e ∈ values, known e.2) :
      Change known s (s.newObject o).2
  | setList (s : Store) {r : ListRef} (i : Nat) {v : Value} (hr : known (.list r)) (hv : known v) :
      Change known s (s.setList r i v)
  | pushList (s : Store) {r : ListRef} {v : Value} (hr : known (.list r)) (hv : known v) :
      Change known s (s.pushList r v)
  | setSlot {s : Store} {r : ObjectRef} {name : String} {v : Value} (hr : known (.object r))
      (hname : (s.object r).slots.contains name = true) (hv : known v) :
      Change known s (s.setSlot r name v)
  | define (s : Store) (env : FrameRef) (name : String) {v : Value} (hv : known v) :
      Change known s (s.define env name v)
  | print (s : Store) (text : String) : Change known s (s.print text)
  | log (s : Store) (line : String) : Change known s (s.log line)
  | subclass {s : Store} {parent name : String} {fields : List String} {c : Class}
      {classes : ClassTable} (h : s.classes.subclass parent name fields = .ok (c, classes)) :
      Change known s { s with classes := classes }
  /-- A method is made from a block. -/
  | install {s : Store} {owner selector : String} {r : BlockRef} {m : Method} {replaced : Bool}
      {classes : ClassTable} (hr : known (.block r))
      (h : s.classes.define owner selector (s.block r).params (s.block r).body =
        .ok (m, replaced, classes)) : Change known s { s with classes := classes }

/-- Changes one after another. -/
def Store.Changes (known : Value → Prop) : Store → Store → Prop :=
  Relation.ReflTransGen (Store.Change known)

section Changes

variable {known : Value → Prop} {s s' : Store}

theorem Store.Changes.refl (s : Store) : s.Changes known s := Relation.ReflTransGen.refl

theorem Store.Change.changes (h : s.Change known s') : s.Changes known s' :=
  Relation.ReflTransGen.single h

/-- Lists and instances are only ever added. -/
theorem Store.Changes.size_le (h : s.Changes known s') :
    s.lists.size ≤ s'.lists.size ∧ s.objects.size ≤ s'.objects.size := by
  induction h with
  | refl => exact ⟨Nat.le_refl _, Nat.le_refl _⟩
  | tail _ hchange ih =>
      refine ⟨Nat.le_trans ih.1 ?_, Nat.le_trans ih.2 ?_⟩
      · cases hchange <;> simp [Store.newList, Store.newObject, Store.setList, Store.pushList,
          Store.setSlot, Store.define, Store.print, Store.log]
      · cases hchange <;> simp [Store.newList, Store.newObject, Store.setList, Store.pushList,
          Store.setSlot, Store.define, Store.print, Store.log]

end Changes

/-- A value that refers to a list or an instance that was made on the way from one store to another. -/
def Store.Makes (s s' : Store) : Value → Prop
  | .list r => s.lists.size ≤ r.index ∧ r.index < s'.lists.size
  | .object r => s.objects.size ≤ r.index ∧ r.index < s'.objects.size
  | _ => False

theorem Store.Makes.after {known : Value → Prop} {s s' s'' : Store} {v : Value}
    (h : s.Changes known s') (hv : s'.Makes s'' v) : s.Makes s'' v := by
  obtain ⟨hlists, hobjects⟩ := h.size_le
  cases v with
  | list r => exact ⟨Nat.le_trans hlists hv.1, hv.2⟩
  | object r => exact ⟨Nat.le_trans hobjects hv.1, hv.2⟩
  | _ => cases hv

/-- A store in which a text or a comparison may have no end: some list contains itself, or an instance
holds itself and a log is kept, which shows instances with all that they hold. -/
def Store.Endless (s : Store) : Prop := s.Circular ∨ s.trace.isSome = true ∧ s.Ringed

/-- A refusal in a store: an error of the running task, which is no overflow of the stack, a text or
comparison without end, or an argument that is missing where arguments may be lacking. -/
def Action.IsRefusal (lacking : Prop) (s : Store) : Action → Prop
  | .fail (.error e none) => e.isOverflow = false
  | .crash .bottomless => s.Endless
  | .crash .missingArgument => lacking
  | _ => False

theorem Action.IsRefusal.cases {lacking : Prop} {s : Store} {a : Action} (h : a.IsRefusal lacking s) :
    (∃ e, a = .error e) ∨ (a = .crash .bottomless ∧ s.Endless) ∨
      (a = .crash .missingArgument ∧ lacking) := by
  cases a with
  | finish v => cases h
  | request n scope work => cases h
  | fail f =>
      cases f with
      | signal v home => cases h
      | error e site =>
          cases site with
          | none => exact .inl ⟨e, rfl⟩
          | some task => cases h
  | crash c =>
      cases c with
      | bottomless => exact .inr (.inl ⟨rfl, h⟩)
      | missingArgument => exact .inr (.inr ⟨rfl, h⟩)
      | missingLimit => cases h

/-- A method of some class. -/
def ClassTable.Has (t : ClassTable) (m : Method) : Prop :=
  ∃ c ∈ t.classes, ∃ selector, c.methods.get? selector = some m

/-! Works -/

/-- The values that a work keeps. -/
def Work.values : Work → List Value
  | .items done _ => done
  | .argument target _ done _ _ => target :: done
  | .repeating value block _ | .counting value block _ _ => [value, .block block]
  | .visiting value block todo => value :: .block block :: todo
  | .collecting block done todo => .block block :: (done ++ todo)
  | .testing _ condition body | .looping _ condition body => .block condition :: body.toList
  | .catching handler => [handler]
  | _ => []

/-- The works for which a primitive calls a block, loops apart. -/
def Work.isCall : Work → Bool
  | .result | .repeating .. | .counting .. | .visiting .. | .collecting .. | .catching _ => true
  | _ => false

/-- The works of a loop, with a body where arguments may not be lacking. -/
def Work.IsLoop (lacking : Prop) : Work → Prop
  | .testing _ _ body | .looping _ _ body => lacking ∨ body.isSome = true
  | _ => False

/-- The terms on which messages are answered. -/
structure Terms where
  /-- The values at hand: what is passed on, answered or put somewhere. -/
  known : Value → Prop
  /-- The works for which blocks are called. -/
  allowed : Work → Prop
  /-- The methods that are invoked, and for which receivers. -/
  invoked : Method → Value → Prop
  /-- Whether arguments may be lacking. -/
  lacking : Prop

namespace Terms

variable {t : Terms} {s : Store}

/-- A work that is allowed and keeps known values. -/
def Takes (t : Terms) (work : Work) : Prop := t.allowed work ∧ ∀ v ∈ work.values, t.known v

theorem takes_result (h : t.allowed .result) : t.Takes .result := ⟨h, List.forall_mem_nil _⟩

/-- With a list its items are known, and what refers to nothing is known anyway. -/
structure Knows (t : Terms) (s : Store) : Prop where
  free : ∀ v : Value, v.isFree = true → t.known v
  item : ∀ r, t.known (.list r) → ∀ v ∈ (s.list r).toList, t.known v

theorem knows_of_forall (h : ∀ v, t.known v) : t.Knows s := ⟨fun v _ => h v, fun _ _ v _ => h v⟩

theorem Knows.getD (h : t.Knows s) {r : ListRef} (hr : t.known (.list r)) (i : Nat) :
    t.known ((s.list r).getD i .nil) := by
  rw [Array.getD_eq_getD_getElem?]
  cases hi : (s.list r)[i]? with
  | none => exact h.free _ rfl
  | some v => exact h.item r hr v (Array.mem_toList_iff.mpr (Array.mem_of_getElem? hi))

theorem Knows.back (h : t.Knows s) {r : ListRef} (hr : t.known (.list r)) :
    t.known ((s.list r).back?.getD .nil) := by
  rw [Array.back?_eq_getElem?, ← Array.getD_eq_getD_getElem?]
  exact h.getD hr _

end Terms

/-- The ways in which a message is answered. -/
inductive Serves (t : Terms) (s : Store) : Action × Store → Prop
  | finish {v : Value} {s' : Store} (h : s.Changes t.known s') (hv : t.known v ∨ s.Makes s' v) :
      Serves t s (.finish v, s')
  | refuse {a : Action} {s' : Store} (ha : a.IsRefusal t.lacking s') (h : s.Changes t.known s') :
      Serves t s (a, s')
  | call {s' : Store} {r : BlockRef} {args : List Value} {work : Work} (h : s.Changes t.known s')
      (hr : t.known (.block r)) (hargs : ∀ v ∈ args, t.known v) (hwork : t.Takes work) :
      Serves t s
        (.request (s'.block r).body ⟨⟨s'.frames.size⟩, (s'.block r).receiver, (s'.block r).home⟩ work,
          (s'.newFrame (some (s'.block r).env) ((s'.block r).params.zip args)).2)
  | invoke {s' : Store} {m : Method} {receiver : Value} {args : List Value}
      (h : s.Changes t.known s') (hm : t.invoked m receiver) (hreceiver : t.known receiver)
      (hargs : ∀ v ∈ args, t.known v) :
      Serves t s
        (.request m.body ⟨⟨s'.frames.size⟩, receiver, some ⟨s'.activations.size⟩⟩
            (.method ⟨s'.activations.size⟩),
          ((s'.newFrame (some Store.globals) (m.params.zip args)).2.newActivation m receiver).2)

/-! Answers -/

section Answers

variable {lacking : Prop} {α β : Type} {s : Store} {good : α → Prop}

/-- An answer that is a good value or a refusal. -/
def Answer.Plain (lacking : Prop) (s : Store) (good : α → Prop) (a : Answer α) : Prop :=
  (∀ v, a = .ok v → good v) ∧ ∀ action, a = .error action → action.IsRefusal lacking s

theorem Answer.Plain.ok {v : α} (h : good v) : Answer.Plain lacking s good (.ok v) := by
  refine ⟨?_, fun _ herror => nomatch herror⟩
  rintro _ ⟨⟩
  exact h

theorem Answer.Plain.error {action : Action} (h : action.IsRefusal lacking s) :
    Answer.Plain lacking s good (.error action : Answer α) := by
  refine ⟨(fun _ hok => nomatch hok), ?_⟩
  rintro _ ⟨⟩
  exact h

theorem Answer.Plain.refuse (selector : String) (reason : Reason) :
    Answer.Plain lacking s good (.error (.refuse selector reason) : Answer α) := .error rfl

theorem Answer.Plain.bind {x : Answer α} {f : α → Answer β} {good' : β → Prop}
    (hx : x.Plain lacking s good) (hf : ∀ a, good a → (f a).Plain lacking s good') :
    Answer.Plain lacking s good' (x >>= f) := by
  cases x with
  | error action => exact .error (hx.2 action rfl)
  | ok v => exact hf v (hx.1 v rfl)

theorem plain_argument {args : List Value} {i : Nat} {good : Value → Prop}
    (h : lacking ∨ i < args.length) (hargs : ∀ v ∈ args, good v) :
    (argument args i).Plain lacking s good := by
  rw [argument]
  split
  · next hsome => exact .ok (hargs _ (List.mem_of_getElem? hsome))
  · next hnone =>
      refine .error (h.resolve_right ?_)
      intro hlt
      rw [List.getElem?_eq_getElem hlt] at hnone
      cases hnone

theorem plain_orError {x : Except Error α} (hx : Mild x) (h : ∀ v, good v) :
    (orError x).Plain lacking s good := by
  cases x with
  | ok v => exact .ok (h v)
  | error e => exact .error (hx.not_overflow rfl)

theorem plain_textFor (selector : String) {text : Except TextFault String} {good : String → Prop}
    (h : text = .error .bottomless → s.Circular) (hgood : ∀ v, good v) :
    (Store.textFor selector text).Plain lacking s good := by
  rw [Store.textFor.eq_def]
  split
  · exact .ok (hgood _)
  · exact .refuse _ _
  · exact .error (.inl (h rfl))

theorem plain_equalFor {outcome : Option Bool} {good : Bool → Prop} (h : outcome = none → s.Circular)
    (hgood : ∀ b, good b) : (Store.equalFor outcome).Plain lacking s good := by
  cases outcome with
  | some b => exact .ok (hgood b)
  | none => exact .error (.inl (h rfl))

theorem plain_integerArgument (selector : String) (v : Value) {good : Int → Prop}
    (hgood : ∀ n, good n) : (s.integerArgument selector v).Plain lacking s good := by
  rw [Store.integerArgument.eq_def]
  split
  · exact .ok (hgood _)
  · exact .refuse _ _

theorem plain_stringArgument (selector : String) (v : Value) {good : String → Prop}
    (hgood : ∀ text, good text) : (s.stringArgument selector v).Plain lacking s good := by
  rw [Store.stringArgument.eq_def]
  split
  · exact .ok (hgood _)
  · exact .refuse _ _

theorem plain_itemIndex (selector : String) (items : Array Value) (v : Value) {good : Nat → Prop}
    (hgood : ∀ i, good i) : (s.itemIndex selector items v).Plain lacking s good := by
  refine .bind (plain_integerArgument selector v fun _ => trivial) ?_
  intro i _
  split
  · exact .ok (hgood _)
  · split
    · exact .refuse _ _
    · exact .refuse _ _

theorem plain_nameArgument (selector : String) (v : Value) {good : String → Prop}
    (hgood : ∀ name, good name) : (s.nameArgument selector v).Plain lacking s good := by
  rw [Store.nameArgument.eq_def]
  split
  · exact .ok (hgood _)
  · exact .refuse _ _

theorem plain_namesArgument (selector : String) (v : Value) {good : List String → Prop}
    (hgood : ∀ names, good names) : (s.namesArgument selector v).Plain lacking s good := by
  rw [Store.namesArgument.eq_def]
  split
  · refine ⟨fun names _ => hgood names, ?_⟩
    intro action h
    obtain ⟨w, -, hw⟩ := exists_of_mapM_eq_error h
    exact (plain_nameArgument selector w fun _ => trivial).2 action hw
  · exact .refuse _ _

end Answers

/-- Arguments that are known, in a store whose items are known, as many as are needed where arguments may
not be lacking. -/
structure Supplied (t : Terms) (s : Store) (args : List Value) (needs : Nat) : Prop where
  knows : t.Knows s
  known : ∀ v ∈ args, t.known v
  count : t.lacking ∨ needs ≤ args.length

namespace Supplied

variable {t : Terms} {s : Store} {args : List Value} {needs i : Nat}

theorem argument (h : Supplied t s args needs) (hi : i < needs) :
    (argument args i).Plain t.lacking s t.known :=
  plain_argument (h.count.imp_right fun hle => Nat.lt_of_lt_of_le hi hle) h.known

theorem operand (h : Supplied t s args needs) (hi : i < needs) (selector : String)
    {good : Int → Prop} (hgood : ∀ n, good n) :
    (Parley.argument args i >>= s.integerArgument selector).Plain t.lacking s good :=
  .bind (h.argument hi) fun v _ => plain_integerArgument selector v hgood

theorem name (h : Supplied t s args needs) (hi : i < needs) (selector : String)
    {good : String → Prop} (hgood : ∀ name, good name) :
    (Parley.argument args i >>= s.nameArgument selector).Plain t.lacking s good :=
  .bind (h.argument hi) fun v _ => plain_nameArgument selector v hgood

end Supplied

section Serving

variable {t : Terms} {s s' : Store} {act : Action × Store} {args : List Value} {selector : String}

theorem Serves.after (h : s.Changes t.known s') (hact : Serves t s' act) : Serves t s act := by
  cases hact with
  | finish h' hv => exact .finish (h.trans h') (hv.imp_right (.after h))
  | refuse ha h' => exact .refuse ha (h.trans h')
  | call h' hr hargs hwork => exact .call (h.trans h') hr hargs hwork
  | invoke h' hm hreceiver hargs => exact .invoke (h.trans h') hm hreceiver hargs

theorem Serves.value {v : Value} (hv : t.known v) : Serves t s (.finish v, s) :=
  .finish (.refl s) (.inl hv)

theorem Serves.error {e : Error} (h : e.isOverflow = false) : Serves t s (.error e, s) :=
  .refuse h (.refl s)

theorem Serves.answer {a : Answer Value} (ha : a.Plain t.lacking s t.known) :
    Serves t s (Answer.act s a) := by
  cases a with
  | ok v => exact .value (ha.1 v rfl)
  | error action => exact .refuse (ha.2 action rfl) (.refl s)

theorem Serves.failed {α : Type} {a : Answer α} {good : α → Prop} {action : Action}
    (ha : a.Plain t.lacking s good) (h : a = .error action) : Serves t s (action, s) :=
  .refuse (ha.2 action h) (.refl s)

/-! Blocks -/

theorem serves_callBlock {r : BlockRef} (hr : t.known (.block r)) (hargs : ∀ v ∈ args, t.known v)
    {work : Work} (hwork : t.Takes work) : Serves t s (s.callBlock r args work) := by
  rw [Store.callBlock]
  split
  · exact .call (.refl s) hr hargs hwork
  · exact .error rfl

theorem serves_valueOf {v : Value} (hv : t.known v) (hresult : t.allowed .result) :
    Serves t s (s.valueOf v []) := by
  rw [Store.valueOf.eq_def]
  split
  · exact serves_callBlock hv (List.forall_mem_nil _) (t.takes_result hresult)
  · exact .value hv

theorem serves_valueOfArgument {needs i : Nat} (h : Supplied t s args needs) (hi : i < needs)
    (hresult : t.allowed .result) : Serves t s (s.valueOfArgument args i) := by
  rw [Store.valueOfArgument]
  split
  · next v hv => exact serves_valueOf ((h.argument hi).1 v hv) hresult
  · next herror => exact .failed (h.argument hi) herror

theorem serves_repeatBlock {answer : Value} {r : BlockRef}
    (hvalues : ∀ v ∈ [answer, .block r], t.known v) {left : Nat}
    (h : ∀ k, left = k + 1 → t.allowed (.repeating answer r k)) :
    Serves t s (s.repeatBlock answer r left) := by
  obtain ⟨hanswer, hblock⟩ := List.forall_mem_cons.mp hvalues
  cases left with
  | zero => exact .value hanswer
  | succ k =>
      exact serves_callBlock (List.forall_mem_singleton.mp hblock) (List.forall_mem_nil _)
        ⟨h k rfl, hvalues⟩

theorem serves_countBlock (hs : t.Knows s) {answer : Value} {r : BlockRef}
    (hvalues : ∀ v ∈ [answer, .block r], t.known v) (next : Int) {left : Nat}
    (h : ∀ k, left = k + 1 → t.allowed (.counting answer r (next + 1) k)) :
    Serves t s (s.countBlock answer r next left) := by
  obtain ⟨hanswer, hblock⟩ := List.forall_mem_cons.mp hvalues
  cases left with
  | zero => exact .value hanswer
  | succ k =>
      exact serves_callBlock (List.forall_mem_singleton.mp hblock)
        (List.forall_mem_singleton.mpr (hs.free _ rfl)) ⟨h k rfl, hvalues⟩

theorem serves_visitItems {answer : Value} {r : BlockRef} {items : List Value}
    (hvalues : ∀ v ∈ answer :: .block r :: items, t.known v)
    (h : ∀ v vs, items = v :: vs → t.allowed (.visiting answer r vs)) :
    Serves t s (s.visitItems answer r items) := by
  obtain ⟨hanswer, hrest⟩ := List.forall_mem_cons.mp hvalues
  obtain ⟨hblock, hitems⟩ := List.forall_mem_cons.mp hrest
  cases items with
  | nil => exact .value hanswer
  | cons v vs =>
      obtain ⟨hv, hvs⟩ := List.forall_mem_cons.mp hitems
      refine serves_callBlock hblock (List.forall_mem_singleton.mpr hv) ⟨h v vs rfl, ?_⟩
      exact List.forall_mem_cons.mpr ⟨hanswer, List.forall_mem_cons.mpr ⟨hblock, hvs⟩⟩

theorem serves_finishList {items : List Value} (hitems : ∀ v ∈ items, t.known v) :
    Serves t s (s.finishList items) := by
  refine .finish (Store.Change.newList s ?_).changes (.inr ⟨Nat.le_refl _, ?_⟩)
  · exact fun v hv => hitems v (List.mem_toArray.mp hv)
  · simp

theorem serves_collectItems {r : BlockRef} {done items : List Value}
    (hvalues : ∀ v ∈ .block r :: (done ++ items), t.known v)
    (h : ∀ v vs, items = v :: vs → t.allowed (.collecting r done vs)) :
    Serves t s (s.collectItems r done items) := by
  obtain ⟨hblock, hrest⟩ := List.forall_mem_cons.mp hvalues
  obtain ⟨hdone, hitems⟩ := List.forall_mem_append.mp hrest
  cases items with
  | nil => exact serves_finishList fun v hv => hdone v (List.mem_reverse.mp hv)
  | cons v vs =>
      obtain ⟨hv, hvs⟩ := List.forall_mem_cons.mp hitems
      refine serves_callBlock hblock (List.forall_mem_singleton.mpr hv) ⟨h v vs rfl, ?_⟩
      exact List.forall_mem_cons.mpr ⟨hblock, List.forall_mem_append.mpr ⟨hdone, hvs⟩⟩

theorem serves_testLoop {expected : Bool} {condition : BlockRef} {body : Option Value}
    (hvalues : ∀ v ∈ .block condition :: body.toList, t.known v)
    (h : t.allowed (.testing expected condition body)) :
    Serves t s (s.testLoop expected condition body) :=
  serves_callBlock (List.forall_mem_cons.mp hvalues).1 (List.forall_mem_nil _) ⟨h, hvalues⟩

theorem serves_afterTest (hs : t.Knows s) {expected : Bool} {condition : BlockRef}
    {body : Option Value} (v : Value) (hvalues : ∀ v ∈ .block condition :: body.toList, t.known v)
    (hbody : t.lacking ∨ body.isSome = true) (htest : t.allowed (.testing expected condition body))
    (hloop : t.allowed (.looping expected condition body)) :
    Serves t s (s.afterTest expected condition body v) := by
  rw [Store.afterTest.eq_def]
  split
  · split_ifs
    · split
      · exact .refuse (hbody.resolve_right (by simp)) (.refl s)
      · exact serves_callBlock (hvalues _ (by simp)) (List.forall_mem_nil _) ⟨hloop, hvalues⟩
      · exact serves_testLoop hvalues htest
    · exact .value (hs.free _ rfl)
  · next herror => exact .error ((s.mild_truth _ v).not_overflow herror)

/-- The handler of an error is called for its value. -/
theorem serves_handle (hs : t.Knows s) (e : Error) {handler : Value} (hhandler : t.known handler)
    (hresult : t.allowed .result) : Serves t s (s.handle e handler) := by
  refine .after (Store.Change.log s ("oops.primitive: caught " ++ e.kind)).changes ?_
  simp only [Store.handle]
  split
  · split_ifs
    · exact serves_callBlock hhandler (List.forall_mem_singleton.mpr (hs.free _ rfl))
        (t.takes_result hresult)
    · exact serves_callBlock hhandler (List.forall_mem_nil _) (t.takes_result hresult)
  · exact .value hhandler

theorem serves_guardBlock (hs : t.Knows s) {r : BlockRef} {handler : Value}
    (hr : t.known (.block r)) (hhandler : t.known handler) (hcatch : t.allowed (.catching handler))
    (hresult : t.allowed .result) : Serves t s (s.guardBlock r handler) := by
  rw [Store.guardBlock, Store.callBlock]
  split_ifs
  · exact .call (.refl s) hr (List.forall_mem_nil _)
      ⟨hcatch, List.forall_mem_singleton.mpr hhandler⟩
  · exact serves_handle hs _ hhandler hresult

/-! Primitives -/

theorem serves_integer {p : IntegerPrimitive} (n : Int) (h : Supplied t s args p.needs)
    (hcall : ∀ work : Work, work.isCall = true → t.allowed work) :
    Serves t s (p.perform s selector n args) := by
  have hfree : ∀ v : Value, v.isFree = true → t.known v := h.knows.free
  have hvalues : ∀ i < p.needs, ∀ r, argument args i = .ok (.block r) →
      ∀ v ∈ [Value.integer n, .block r], t.known v := by
    intro i hi r hr
    exact List.forall_mem_cons.mpr
      ⟨hfree _ rfl, List.forall_mem_singleton.mpr ((h.argument hi).1 _ hr)⟩
  cases p with
  | timesRepeat =>
      rw [IntegerPrimitive.perform, repeatTimes]
      split_ifs
      · exact .value (hfree _ rfl)
      · split
        · next r hr => exact serves_repeatBlock (hvalues 0 Nat.one_pos r hr) fun _ _ => hcall _ rfl
        · exact .value (hfree _ rfl)
        · next herror => exact .failed (h.argument Nat.one_pos) herror
  | toDo =>
      rw [IntegerPrimitive.perform, countTo]
      split
      · next herror => exact .failed (h.operand Nat.two_pos selector fun _ => trivial) herror
      · dsimp only
        split_ifs
        · exact .value (hfree _ rfl)
        · split
          · next r hr =>
              exact serves_countBlock h.knows (hvalues 1 Nat.one_lt_two r hr) _ fun _ _ => hcall _ rfl
          · exact .value (hfree _ rfl)
          · next herror => exact .failed (h.argument Nat.one_lt_two) herror
  | arithmetic op =>
      refine .answer (.bind (h.operand Nat.one_pos selector fun _ => trivial) ?_)
      intro k _
      split
      · exact .ok (hfree _ rfl)
      · exact .refuse _ _
  | compare op =>
      exact .answer (.bind (h.operand Nat.one_pos selector fun _ => trivial) fun k _ => .ok (hfree _ rfl))
  | max =>
      exact .answer (.bind (h.operand Nat.one_pos selector fun _ => trivial) fun k _ => .ok (hfree _ rfl))
  | min =>
      exact .answer (.bind (h.operand Nat.one_pos selector fun _ => trivial) fun k _ => .ok (hfree _ rfl))
  | negated => exact .answer (.ok (hfree _ rfl))
  | abs => exact .answer (.ok (hfree _ rfl))

theorem serves_string {p : StringPrimitive} (text : String) (h : Supplied t s args p.needs) :
    Serves t s (Answer.act s (p.answer s selector text args)) := by
  have hfree : ∀ v : Value, v.isFree = true → t.known v := h.knows.free
  refine .answer ?_
  cases p with
  | concat =>
      refine .bind (h.argument Nat.one_pos) ?_
      intro v _
      refine .bind (plain_textFor selector Store.circular_of_display fun _ => trivial) ?_
      exact fun _ _ => .ok (hfree _ rfl)
  | compare op =>
      refine .bind (h.argument Nat.one_pos) ?_
      intro v _
      exact .bind (plain_stringArgument selector v fun _ => trivial) fun _ _ => .ok (hfree _ rfl)
  | asInteger =>
      simp only [StringPrimitive.answer]
      split
      · exact .ok (hfree _ rfl)
      · exact .refuse _ _
  | size => exact .ok (hfree _ rfl)
  | isEmpty => exact .ok (hfree _ rfl)
  | reversed => exact .ok (hfree _ rfl)

theorem serves_boolean {p : BooleanPrimitive} (b : Bool) (h : Supplied t s args p.needs)
    (hresult : t.allowed .result) : Serves t s (p.perform s b args) := by
  have hfree : ∀ v : Value, v.isFree = true → t.known v := h.knows.free
  have hvalue : ∀ i < p.needs, Serves t s (s.valueOfArgument args i) :=
    fun i hi => serves_valueOfArgument h hi hresult
  cases p with
  | ifTrue =>
      cases b with
      | true => exact hvalue 0 Nat.one_pos
      | false => exact .value (hfree _ rfl)
  | ifFalse =>
      cases b with
      | true => exact .value (hfree _ rfl)
      | false => exact hvalue 0 Nat.one_pos
  | and =>
      cases b with
      | true => exact hvalue 0 Nat.one_pos
      | false => exact .value (hfree _ rfl)
  | or =>
      cases b with
      | true => exact .value (hfree _ rfl)
      | false => exact hvalue 0 Nat.one_pos
  | ifTrueElse => cases b <;> exact hvalue _ (by decide)
  | ifFalseElse => cases b <;> exact hvalue _ (by decide)
  | not => exact .value (hfree _ rfl)

theorem serves_list {p : ListPrimitive} {r : ListRef} (h : Supplied t s args p.needs)
    (hr : t.known (.list r)) (hcall : ∀ work : Work, work.isCall = true → t.allowed work) :
    Serves t s (p.perform s selector r args) := by
  have hfree : ∀ v : Value, v.isFree = true → t.known v := h.knows.free
  have hitems : ∀ v ∈ (s.list r).toList, t.known v := h.knows.item r hr
  cases p with
  | size => exact .value (hfree _ rfl)
  | isEmpty => exact .value (hfree _ rfl)
  | first => exact .value (h.knows.getD hr 0)
  | last => exact .value (h.knows.back hr)
  | «at» =>
      refine .answer (.bind (h.argument Nat.one_pos) ?_)
      intro v _
      exact .bind (plain_itemIndex selector _ v fun _ => trivial) fun i _ => .ok (h.knows.getD hr i)
  | atPut =>
      have hchange : (itemChange s selector (s.list r) args).Plain t.lacking s fun c => t.known c.2 := by
        refine .bind (h.argument Nat.one_lt_two) ?_
        intro v hv
        refine .bind (h.argument Nat.two_pos) ?_
        intro w _
        exact .bind (plain_itemIndex selector _ w fun _ => trivial) fun _ _ => .ok hv
      rw [ListPrimitive.perform]
      split
      · next i v hok =>
          have hv := hchange.1 _ hok
          exact .finish (Store.Change.setList s i hr hv).changes (.inl hv)
      · next herror => exact .failed hchange herror
  | add =>
      rw [ListPrimitive.perform]
      split
      · next v hok =>
          have hv := (h.argument Nat.one_pos).1 v hok
          exact .finish (Store.Change.pushList s hr hv).changes (.inl hr)
      · next herror => exact .failed (h.argument Nat.one_pos) herror
  | includes =>
      refine .answer (.bind (h.argument Nat.one_pos) ?_)
      intro v _
      refine .bind (plain_equalFor Store.circular_of_includes? fun _ => trivial) ?_
      exact fun _ _ => .ok (hfree _ rfl)
  | visit =>
      simp only [ListPrimitive.perform, visitList]
      split_ifs
      · exact .value hr
      · split
        · next b hb =>
            have hb := (h.argument Nat.one_pos).1 _ hb
            refine serves_visitItems ?_ fun _ _ _ => hcall _ rfl
            exact List.forall_mem_cons.mpr ⟨hr, List.forall_mem_cons.mpr ⟨hb, hitems⟩⟩
        · exact .value hr
        · next herror => exact .failed (h.argument Nat.one_pos) herror
  | collect =>
      simp only [ListPrimitive.perform, collectList]
      split_ifs
      · exact serves_finishList (List.forall_mem_nil _)
      · split
        · next b hb =>
            have hb := (h.argument Nat.one_pos).1 _ hb
            exact serves_collectItems (List.forall_mem_cons.mpr ⟨hb, hitems⟩) fun _ _ _ => hcall _ rfl
        · next hv =>
            refine serves_finishList ?_
            intro w hw
            obtain ⟨-, -, rfl⟩ := List.mem_map.mp hw
            exact (h.argument Nat.one_pos).1 _ hv
        · next herror => exact .failed (h.argument Nat.one_pos) herror

theorem serves_block {p : BlockPrimitive} {r : BlockRef} (h : Supplied t s args p.needs)
    (hr : t.known (.block r)) (hcall : ∀ work : Work, work.isCall = true → t.allowed work)
    (hloop : ∀ expected, p = .loop expected → ∀ work : Work, work.IsLoop t.lacking → t.allowed work) :
    Serves t s (p.perform s r args) := by
  cases p with
  | arity => exact .value (h.knows.free _ rfl)
  | loop expected =>
      have hbody : t.lacking ∨ args[0]?.isSome = true := by
        refine h.count.imp_right ?_
        intro hle
        rw [List.getElem?_eq_getElem hle]
        rfl
      refine serves_testLoop ?_ (hloop expected rfl _ hbody)
      refine List.forall_mem_cons.mpr ⟨hr, fun v hv => h.known v ?_⟩
      exact List.mem_of_getElem? (Option.mem_toList.mp hv)
  | recover =>
      rw [BlockPrimitive.perform]
      split
      · next handler hok =>
          exact serves_guardBlock h.knows hr ((h.argument Nat.one_pos).1 handler hok) (hcall _ rfl)
            (hcall _ rfl)
      · next herror => exact .failed (h.argument Nat.one_pos) herror

theorem serves_otherwise {v : Value} (h : Supplied t s args 2) (hv : t.known v)
    (hresult : t.allowed .result) : Serves t s (otherwise s v args) := by
  rw [otherwise.eq_def]
  split
  · next r hr =>
      have hr := (h.argument Nat.one_lt_two).1 _ hr
      split_ifs
      · exact serves_callBlock hr (List.forall_mem_singleton.mpr hv) (t.takes_result hresult)
      · exact serves_callBlock hr (List.forall_mem_nil _) (t.takes_result hresult)
  · next hw => exact .value ((h.argument Nat.one_lt_two).1 _ hw)
  · next herror => exact .failed (h.argument Nat.one_lt_two) herror

theorem serves_any {p : AnyPrimitive} {v : Value} (h : Supplied t s args p.needs) (hv : t.known v)
    (hresult : t.allowed .result) : Serves t s (p.perform s selector v args) := by
  have hfree : ∀ v : Value, v.isFree = true → t.known v := h.knows.free
  cases p with
  | ifNilElse => exact serves_otherwise h hv hresult
  | print =>
      rw [AnyPrimitive.perform]
      split
      · next text _ => exact .finish (Store.Change.print s text).changes (.inl hv)
      · next herror =>
          exact .failed (plain_textFor selector Store.circular_of_display fun _ => trivial) herror
  | equal =>
      refine .answer (.bind (h.argument Nat.one_pos) ?_)
      intro w _
      exact .bind (plain_equalFor Store.circular_of_equal? fun _ => trivial)
        fun _ _ => .ok (hfree _ rfl)
  | notEqual =>
      refine .answer (.bind (h.argument Nat.one_pos) ?_)
      intro w _
      exact .bind (plain_equalFor Store.circular_of_equal? fun _ => trivial)
        fun _ _ => .ok (hfree _ rfl)
  | asString =>
      exact .answer (.bind (plain_textFor selector Store.circular_of_display fun _ => trivial)
        fun _ _ => .ok (hfree _ rfl))
  | printString =>
      exact .answer (.bind (plain_textFor selector Store.circular_of_literal fun _ => trivial)
        fun _ _ => .ok (hfree _ rfl))
  | classOf =>
      refine .answer ?_
      simp only [AnyPrimitive.answer]
      split <;> exact .ok (hfree _ rfl)
  | respondsTo =>
      refine .answer (.bind (h.argument Nat.one_pos) ?_)
      intro w _
      refine .bind (plain_stringArgument selector w fun _ => trivial) ?_
      exact fun name _ => .bind (plain_orError (s.mild_respondsTo _ _) fun _ => trivial) fun _ _ => .ok (hfree _ rfl)
  | isNil => exact .answer (.ok (hfree _ rfl))
  | notNil => exact .answer (.ok (hfree _ rfl))
  | className => exact .answer (.ok (hfree _ rfl))
  | ifNil => exact .answer (.ok hv)

end Serving

end Parley
