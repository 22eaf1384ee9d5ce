import Parley.Machine.Evaluate
import Parley.Proofs.Machine.Serving

/-! What sends do. A send is logged, then answered by its class, a method, a block or a primitive, each of
which serves it in one of the ways of `Serves`. A statement that puts a value somewhere is served in the
same way. -/

namespace Parley

variable {t : Terms} {s : Store} {selector : String} {args : List Value}

/-- A message may call blocks, and loop if its selector says so; its arguments are known and, where none may
be lacking, as many as its selector takes. -/
structure Admits (t : Terms) (selector : String) (args : List Value) : Prop where
  call : ∀ work : Work, work.isCall = true → t.allowed work
  loop : Selector.isLoop selector = true → ∀ work : Work, work.IsLoop t.lacking → t.allowed work
  known : ∀ v ∈ args, t.known v
  count : t.lacking ∨ Selector.arity selector ≤ args.length

theorem Admits.supplied (h : Admits t selector args) (hs : t.Knows s) {needs : Nat}
    (hneeds : needs ≤ Selector.arity selector) : Supplied t s args needs :=
  ⟨hs, h.known, h.count.imp_right fun harity => Nat.le_trans hneeds harity⟩

/-! Primitives -/

theorem serves_perform {p : Primitive} (h : Supplied t s args p.needs) {receiver : Value}
    (hreceiver : t.known receiver) (hcall : ∀ work : Work, work.isCall = true → t.allowed work)
    (hloop : ∀ expected, p = .block (.loop expected) →
      ∀ work : Work, work.IsLoop t.lacking → t.allowed work) :
    Serves t s (p.perform s selector receiver args) := by
  unfold Primitive.perform
  split
  · exact serves_integer _ h hcall
  · exact serves_string _ h
  · exact serves_boolean _ h (hcall _ rfl)
  · exact serves_list h hreceiver hcall
  · exact serves_block h hreceiver hcall fun expected hp => hloop expected (by rw [hp])
  · exact serves_valueOfArgument h Nat.one_pos (hcall _ rfl)
  · exact serves_any h hreceiver (hcall _ rfl)
  · exact .value hreceiver

theorem serves_sendPrimitive (h : Admits t selector args) (hs : t.Knows s) {receiver : Value}
    (hreceiver : t.known receiver) : Serves t s (s.sendPrimitive receiver selector args) := by
  rw [Store.sendPrimitive]
  split
  · next p hp =>
      refine serves_perform (h.supplied hs (Primitive.needs_le_arity hp)) hreceiver h.call ?_
      intro expected hloop
      exact h.loop (Primitive.isLoop_of_find? (hloop ▸ hp))
  · exact .error rfl

/-! Methods -/

theorem serves_invoke {m : Method} {receiver : Value} (hm : t.invoked m receiver)
    (hreceiver : t.known receiver) (hargs : ∀ v ∈ args, t.known v) :
    Serves t s (s.invoke m receiver args) := by
  rw [Store.invoke]
  split_ifs
  · exact .invoke (.refl s) hm hreceiver hargs
  · exact .error rfl

theorem ClassTable.chain_subset {classes : List Class} {name : String} {c : Class}
    (hc : c ∈ ClassTable.chain classes name) : c ∈ classes := by
  induction classes generalizing name with
  | nil => cases hc
  | cons d older ih =>
      rw [ClassTable.chain] at hc
      split_ifs at hc
      · rcases List.mem_cons.mp hc with rfl | hc
        · exact List.mem_cons_self
        · split at hc
          · cases hc
          · exact List.mem_cons_of_mem d (ih hc)
      · exact List.mem_cons_of_mem d (ih hc)

/-- What is looked up is a method of the table. -/
theorem ClassTable.has_of_lookup {t : ClassTable} {className selector : String} {m : Method}
    (h : t.lookup className selector = .ok (some m)) : t.Has m := by
  rw [ClassTable.lookup, ClassTable.ancestors] at h
  cases hget : t.get className with
  | error e =>
      rw [hget] at h
      cases h
  | ok c =>
      rw [hget] at h
      have hfirst : ClassTable.firstDefinition (ClassTable.chain t.classes c.name) selector = some m :=
        Except.ok.inj h
      obtain ⟨d, hd, hm⟩ := List.exists_of_findSome?_eq_some hfirst
      exact ⟨d, ClassTable.chain_subset hd, selector, hm⟩

theorem ClassTable.has_of_lookupSuper {t : ClassTable} {owner selector : String} {m : Method}
    (h : t.lookupSuper owner selector = .ok (some m)) : t.Has m := by
  rw [ClassTable.lookupSuper] at h
  cases hsuper : t.superclass owner with
  | error e =>
      rw [hsuper] at h
      cases h
  | ok parent =>
      rw [hsuper] at h
      cases parent with
      | none => cases h
      | some c => exact ClassTable.has_of_lookup h

/-! Messages to classes -/

theorem serves_answerNew (name : String) {values : List (String × Value)}
    (hvalues : ∀ e ∈ values, t.known e.2) :
    Serves t s (s.answerNew (s.instantiate name values)) := by
  cases hmade : s.instantiate name values with
  | ok o =>
      refine .finish (Store.Change.newObject hmade hvalues).changes (.inr ⟨Nat.le_refl _, ?_⟩)
      simp
  | error e => exact .error ((s.mild_instantiate name values).not_overflow hmade)

theorem serves_answerSubclass (hs : t.Knows s) (parent name : String) (fields : List String) :
    Serves t s (s.answerSubclass parent name fields) := by
  rw [Store.answerSubclass]
  split
  · next c classes h =>
      refine .after (Store.Change.subclass h).changes ?_
      exact .finish (Store.Change.log _ _).changes (.inl (hs.free _ rfl))
  · next h => exact .error ((s.classes.mild_subclass _ _ _).not_overflow h)

theorem serves_answerStrings (hs : t.Knows s) {names : Except Error (List String)} (h : Mild names) :
    Serves t s (s.answerStrings names) := by
  cases names with
  | ok names =>
      refine serves_finishList ?_
      intro v hv
      obtain ⟨name, -, rfl⟩ := List.mem_map.mp hv
      exact hs.free _ rfl
  | error e => exact .error (h.not_overflow rfl)

theorem changes_installMethod {c : ClassRef} {name : String} {r : BlockRef} {s' : Store}
    (hr : t.known (.block r)) (h : s.installMethod c name (s.block r) = .ok s') :
    s.Changes t.known s' := by
  rw [Store.installMethod] at h
  cases hdefine : s.classes.define c.name
      (Store.methodSelector (Selector.normalize name) (s.block r).params) (s.block r).params
      (s.block r).body with
  | error e =>
      rw [hdefine] at h
      cases h
  | ok defined =>
      obtain ⟨m, replaced, classes⟩ := defined
      rw [hdefine] at h
      have hinstall := (Store.Change.install hr hdefine).changes
      cases replaced with
      | true =>
          cases h
          exact hinstall.tail (.log _ _)
      | false =>
          cases h
          exact hinstall

theorem plain_definition (h : Supplied t s args 2) :
    (s.definition args).Plain t.lacking s fun d => t.known (.block d.2) := by
  refine .bind (h.argument Nat.two_pos) ?_
  intro v _
  refine .bind (h.argument Nat.one_lt_two) ?_
  intro w hw
  refine .bind (plain_nameArgument _ v fun _ => trivial) ?_
  intro name _
  split
  · exact .ok hw
  · exact .refuse _ _

theorem serves_sendClass {m : ClassMessage} (c : ClassRef) (h : Supplied t s args m.needs) :
    Serves t s (s.sendClass m c selector args) := by
  cases m with
  | new => exact serves_answerNew c.name (List.forall_mem_nil _)
  | newWith =>
      refine serves_answerNew c.name ?_
      rintro ⟨name, v⟩ hentry
      exact h.known v (List.of_mem_zip hentry).2
  | subclass =>
      rw [Store.sendClass]
      split
      · exact serves_answerSubclass h.knows _ _ _
      · next herror => exact .failed (h.name Nat.one_pos selector fun _ => trivial) herror
  | subclassWith =>
      rw [Store.sendClass]
      split
      · next herror => exact .failed (h.name Nat.two_pos selector fun _ => trivial) herror
      · split
        · exact serves_answerSubclass h.knows _ _ _
        · next herror =>
            exact .failed (.bind (h.argument Nat.one_lt_two)
              fun v _ => plain_namesArgument selector v fun _ => trivial) herror
  | define =>
      rw [Store.sendClass]
      split
      · next herror => exact .failed (plain_definition h) herror
      · next hok =>
          split
          · next hinstall =>
              have hr := (plain_definition h).1 _ hok
              exact .finish (changes_installMethod hr hinstall) (.inl (h.knows.free _ rfl))
          · next hinstall => exact .error ((s.mild_installMethod _ _ _).not_overflow hinstall)
  | name => exact .value (h.knows.free _ rfl)
  | superclass =>
      rw [Store.sendClass]
      split
      · exact .value (h.knows.free _ rfl)
      · exact .value (h.knows.free _ rfl)
      · next hsuper => exact .error ((s.classes.mild_superclass _).not_overflow hsuper)
  | slots => exact serves_answerStrings h.knows (s.classes.mild_slots _)
  | selectors => exact serves_answerStrings h.knows (s.classes.mild_selectors _)

/-! Sends -/

/-- The methods that a receiver answers a selector with are among those that are invoked. -/
def Terms.Finds (t : Terms) (s : Store) (selector : String) (receiver : Value) : Prop :=
  ∀ r m, receiver = .object r →
    s.classes.lookup (s.object r).cls.name selector = .ok (some m) → t.invoked m receiver

theorem serves_sendMessage (h : Admits t selector args) (hs : t.Knows s) {receiver : Value}
    (hreceiver : t.known receiver) (hfinds : t.Finds s selector receiver) :
    Serves t s (s.sendMessage receiver selector args) := by
  rw [Store.sendMessage.eq_def]
  split
  · split
    · next m hm => exact serves_sendClass _ (h.supplied hs (ClassMessage.needs_le_arity hm))
    · exact serves_sendPrimitive h hs hreceiver
  · split
    · next hm => exact serves_invoke (hfinds _ _ rfl hm) hreceiver h.known
    · exact serves_sendPrimitive h hs hreceiver
    · next hlookup => exact .error ((s.classes.mild_lookup _ _).not_overflow hlookup)
  · split_ifs
    · exact serves_callBlock hreceiver h.known (t.takes_result (h.call _ rfl))
    · exact serves_sendPrimitive h hs hreceiver
  · exact serves_sendPrimitive h hs hreceiver

theorem serves_sendAbove (h : Admits t selector args) (hs : t.Knows s) {receiver : Value}
    (hreceiver : t.known receiver) {owner : String}
    (hfinds : ∀ m, s.classes.lookupSuper owner selector = .ok (some m) → t.invoked m receiver) :
    Serves t s (s.sendAbove receiver owner selector args) := by
  rw [Store.sendAbove]
  split
  · next hm => exact serves_invoke (hfinds _ hm) hreceiver h.known
  · exact serves_sendPrimitive h hs hreceiver
  · next hlookup => exact .error ((s.classes.mild_lookupSuper _ _).not_overflow hlookup)

/-- A log line is added or not, or the log itself has no end. -/
theorem logSend_cases (target : String) :
    s.logSend target selector args = .ok s ∨
      (∃ line, s.logSend target selector args = .ok (s.log line)) ∨
      (s.logSend target selector args = .error .bottomless ∧ s.Endless) := by
  rw [Store.logSend]
  split_ifs with htrace
  · exact .inl rfl
  · split
    · exact .inr (.inl ⟨_, rfl⟩)
    · exact .inl rfl
    · next hbottomless =>
        refine .inr (.inr ⟨rfl, .inr ⟨?_, Store.ringed_of_inspectAll hbottomless⟩⟩)
        simpa [Option.isSome_iff_ne_none] using htrace

theorem Terms.Knows.log (hs : t.Knows s) (line : String) : t.Knows (s.log line) := ⟨hs.free, hs.item⟩

theorem serves_send (h : Admits t selector args) (hs : t.Knows s) {receiver : Value}
    (hreceiver : t.known receiver) (hfinds : t.Finds s selector receiver) :
    Serves t s (s.send receiver selector args) := by
  rw [Store.send]
  obtain hlog | ⟨line, hlog⟩ | ⟨hlog, hendless⟩ :=
    @logSend_cases s selector args (s.className receiver)
  · rw [hlog]
    exact serves_sendMessage h hs hreceiver hfinds
  · rw [hlog]
    refine .after (Store.Change.log s line).changes ?_
    exact serves_sendMessage h (hs.log line) hreceiver hfinds
  · rw [hlog]
    exact .refuse hendless (.refl s)

theorem serves_sendSuper (h : Admits t selector args) (hs : t.Knows s) {receiver : Value}
    (hreceiver : t.known receiver) {owner : String}
    (hfinds : ∀ m, s.classes.lookupSuper owner selector = .ok (some m) → t.invoked m receiver) :
    Serves t s (s.sendSuper receiver owner selector args) := by
  rw [Store.sendSuper]
  obtain hlog | ⟨line, hlog⟩ | ⟨hlog, hendless⟩ :=
    @logSend_cases s selector args ("super " ++ owner)
  · rw [hlog]
    exact serves_sendAbove h hs hreceiver hfinds
  · rw [hlog]
    refine .after (Store.Change.log s line).changes ?_
    exact serves_sendAbove h (hs.log line) hreceiver hfinds
  · rw [hlog]
    exact .refuse hendless (.refl s)

/-! Statements -/

theorem serves_putValue {scope : Scope} (hself : t.known scope.self) (target : Target) {v : Value}
    (hv : t.known v) : Serves t s (Machine.putValue s scope target v) := by
  cases target with
  | define name operator => exact .finish (Store.Change.define s scope.env name hv).changes (.inl hv)
  | assign name =>
      rw [Machine.putValue]
      split
      · next r _ => exact .finish (Store.Change.define s r name hv).changes (.inl hv)
      · exact .error rfl
  | slot name =>
      rw [Machine.putValue]
      split
      · next r hr =>
          rw [hr] at hself
          split_ifs with hname
          · exact .finish (Store.Change.setSlot hself hname hv).changes (.inl hv)
          · exact .error rfl
      · exact .error rfl

end Parley
