import Parley.Proofs.Machine.Coherence
import Parley.Proofs.Store.Retention

/-! Instance variables. The slots of an instance are the variables of its class, from the moment that it is
made: classes that come later do not change what a class declares, and a write goes to a slot that is
there. Code of a method runs for an instance whose class has the owner of the method among its ancestors,
so all variables of the owner are at hand in it and in the blocks that it makes. -/

namespace Parley

/-! Keys of maps -/

namespace OrderedMap

variable {α β : Type} [DecidableEq α]

/-- Entries with different keys keep their order. -/
theorem keys_ofList {kvs : List (α × β)} (h : (kvs.map (·.1)).Nodup) :
    (ofList kvs).keys = kvs.map (·.1) := by
  have hfold : ∀ (l : List (α × β)) (m : OrderedMap α β), (m.keys ++ l.map (·.1)).Nodup →
      (l.foldl (fun m kv => m.put kv.1 kv.2) m).keys = m.keys ++ l.map (·.1) := by
    intro l
    induction l with
    | nil => exact fun m _ => (List.append_nil _).symm
    | cons e l ih =>
        intro m hnodup
        have hnew : e.1 ∉ m.keys :=
          (List.nodup_middle.mp hnodup).notMem ∘ List.mem_append_left _
        have hkeys : (m.put e.1 e.2).keys = m.keys ++ [e.1] := by
          rw [keys_put, if_neg (contains_iff_mem_keys.not.mpr hnew)]
        rw [List.map_cons, List.append_cons, ← hkeys] at hnodup ⊢
        exact ih _ hnodup
  exact hfold kvs .empty h

end OrderedMap

/-- The slots of an instance are the variables of its class in order, each of them once. -/
def Object.Slotted (t : ClassTable) (o : Object) : Prop :=
  ∃ name, o.cls = .registered name ∧ t.slots name = .ok o.slots.keys ∧ o.slots.keys.Nodup

theorem Object.Slotted.mono {t t' : ClassTable} {o o' : Object} (h : o.Slotted t)
    (hextends : t.Extends t') (hretains : o.Retains o') : o'.Slotted t' := by
  obtain ⟨name, hcls, hslots, hnodup⟩ := h
  obtain ⟨hcls', hkeys⟩ := hretains
  rw [Object.Slotted, hkeys]
  exact ⟨name, hcls'.trans hcls, hextends.slots name _ hslots, hnodup⟩

namespace Store

/-- Every instance has the slots that its class declares. -/
def Slotted (s : Store) : Prop := ∀ o ∈ s.objects, o.Slotted s.classes

theorem Slotted.initial (traced : Bool) : (initial traced).Slotted :=
  fun o ho => absurd ho (Array.not_mem_empty o)

theorem keys_of_setSlots {slots slots' : OrderedMap String Value} {values : List (String × Value)}
    (h : setSlots slots values = .ok slots') : slots'.keys = slots.keys := by
  induction values generalizing slots with
  | nil =>
      cases h
      rfl
  | cons e values ih =>
      rw [setSlots] at h
      split_ifs at h with hname
      rw [ih h, OrderedMap.keys_put_of_contains hname]

section Events

variable {s s' : Store}

/-- A new instance gets one slot for each variable of its class. -/
theorem slotted_of_instantiate (hs : s.classes.WellFormed) {name : String}
    {values : List (String × Value)} {o : Object} (h : s.instantiate name values = .ok o) :
    o.Slotted s.classes := by
  rw [instantiate] at h
  obtain ⟨c, hc, h⟩ := exists_of_bind_eq_ok h
  obtain ⟨names, hnames, h⟩ := exists_of_bind_eq_ok h
  obtain ⟨slots, hslots, h⟩ := exists_of_bind_eq_ok h
  cases h
  have hnodup : names.Nodup := by
    obtain ⟨d, hd, rfl⟩ := ClassTable.slots_eq_ok_iff.mp hnames
    exact hs.stacked.chain_fields_nodup (ClassTable.mem_of_find? hd).1
  have hkeys : slots.keys = names := by
    have hfirst : (names.map fun x => (x, Value.nil)).map (·.1) = names := by
      rw [List.map_map]
      exact List.map_id names
    rw [keys_of_setSlots hslots, OrderedMap.keys_ofList (hfirst.symm ▸ hnodup), hfirst]
  exact ⟨c.name, rfl, by rw [hnames, hkeys], hkeys.symm ▸ hnodup⟩

theorem Slotted.of_retains (h : s.Slotted) (hextends : s.classes.Extends s'.classes)
    (hretains : s.Retains s') (hsize : s'.objects.size = s.objects.size) : s'.Slotted := by
  intro o' ho'
  obtain ⟨i, hi, rfl⟩ := Array.mem_iff_getElem.mp ho'
  have hi' : i < s.objects.size := hsize ▸ hi
  obtain ⟨o, ho, hkept⟩ := hretains.objects i _ (Array.getElem?_eq_getElem hi')
  obtain rfl := Option.some.inj (ho.symm.trans (Array.getElem?_eq_getElem hi))
  exact (h _ (Array.getElem_mem hi')).mono hextends hkept

theorem Event.slotted (h : s.Event s') (hs : s.Slotted) (hclasses : s.classes.WellFormed) :
    s'.Slotted := by
  have hextends := h.extends_classes hclasses
  have hkept := hs.of_retains hextends h.retains
  cases h with
  | change hchange =>
      cases hchange with
      | newObject hmade =>
          intro o ho
          rcases Array.mem_push.mp ho with ho | rfl
          · exact hs o ho
          · exact slotted_of_instantiate hclasses hmade
      | setSlot => exact hkept Array.size_modify
      | _ => exact hkept rfl
  | _ => exact hkept rfl

theorem Evolves.slotted (h : s.Evolves s') (hs : s.Slotted) (hclasses : s.classes.WellFormed) :
    s'.Slotted := by
  induction h with
  | refl => exact hs
  | tail hbefore hevent ih => exact hevent.slotted ih (Evolves.extends_classes hbefore hclasses).wellFormed

/-- An instance has a slot exactly for the variables of its class. -/
theorem Slotted.contains_iff (hs : s.Slotted) {r : ObjectRef} (hr : r.index < s.objects.size)
    {name : String} (hcls : (s.object r).cls = .registered name) {names : List String}
    (hnames : s.classes.slots name = .ok names) {x : String} :
    (s.object r).slots.contains x = true ↔ x ∈ names := by
  have hmem : s.object r ∈ s.objects := by
    rw [object, Array.getD_eq_getD_getElem?, Array.getElem?_eq_getElem hr]
    exact Array.getElem_mem hr
  obtain ⟨name', hcls', hslots, -⟩ := hs _ hmem
  obtain rfl := ClassRef.registered.inj (hcls'.symm.trans hcls)
  obtain rfl := Except.ok.inj (hslots.symm.trans hnames)
  exact OrderedMap.contains_iff_mem_keys

/-- The variables of the owner of a method come first among those of the receiver. -/
theorem Coherent.slots_prefix (h : s.Coherent) {m : Method} {receiver : Value}
    (hm : s.Suits m receiver) : ∃ r name declared names, receiver = .object r ∧
      r.index < s.objects.size ∧ (s.object r).cls = .registered name ∧
      s.classes.slots m.owner = .ok declared ∧ s.classes.slots name = .ok names ∧
      declared <+: names := by
  obtain ⟨r, name, below, d, above, rfl, hcls, hancestors, -, howner, -⟩ := h.exists_above hm
  obtain ⟨r', -, -, hr', hstored, -⟩ := hm
  cases hr'
  refine ⟨r, name, (d :: above).reverse.flatMap (·.fields),
    (below ++ d :: above).reverse.flatMap (·.fields), rfl, hstored, hcls, ?_, ?_, ?_⟩
  · rw [ClassTable.slots, howner]
    rfl
  · rw [ClassTable.slots, hancestors]
    rfl
  · rw [List.reverse_append, List.flatMap_append]
    exact List.prefix_append _ _

end Events

end Store

namespace Machine

/-- A state that is about to read an instance variable of the receiver, or to write a value to it. -/
inductive Config.Accesses : Config → Option Value → Scope → String → Prop
  | read {origin : Option Origin} {scope : Scope} {x : String} {stack : List Suspended} {depth : Nat}
      {s : Store} :
      Accesses ⟨.start (.node (.atom origin (.slot x))) scope, stack, depth, s⟩ none scope x
  | write {v : Value} {task : Task} {scope : Scope} {x : String} {stack : List Suspended} {depth : Nat}
      {s : Store} :
      Accesses ⟨.value v, ⟨task, scope, .store (.slot x)⟩ :: stack, depth, s⟩ (some v) scope x

/-- The variable is there: a read answers its value and changes nothing, a write answers the value that
it has put there. -/
def Config.Finds (limit : Limit) (c : Config) (written : Option Value) (r : ObjectRef) (x : String) :
    Prop :=
  ∃ v c', Steps limit c c' ∧ c'.control = .value v ∧
    match written with
    | none => (c.store.object r).slots.get? x = some v ∧ c'.store = c.store
    | some w => v = w ∧ c'.store = c.store.setSlot r x w

/-- The variable is not declared: the access fails and changes nothing. -/
def Config.Refuses (limit : Limit) (c : Config) (x : String) : Prop :=
  ∃ site c', Steps limit c c' ∧ c'.control = .failure (.error (.unknownSlot x) site) ∧
    c'.store = c.store

section Accesses

variable {c : Config} {written : Option Value} {scope : Scope} {x : String}

theorem Config.Accesses.mem_scopes (h : c.Accesses written scope x) : scope ∈ c.scopes := by
  cases h <;> exact List.mem_cons_self

theorem Config.Accesses.finds (h : c.Accesses written scope x) (limit : Limit) {r : ObjectRef}
    (hself : scope.self = .object r) (hx : (c.store.object r).slots.contains x = true) :
    c.Finds limit written r x := by
  cases h with
  | @read origin _ _ stack depth s =>
      obtain ⟨v, hv⟩ := Option.isSome_iff_exists.mp hx
      have hbegin : begin s scope (.node (.atom origin (.slot x))) = (.finish v, s) := by
        simp only [begin, beginNode, atomValue, slotValue, hself]
        rw [show (s.object r).slots.get? x = some v from hv]
      refine ⟨v, ⟨.value v, stack, depth, s⟩, ?_, rfl, hv, rfl⟩
      rw [Steps, advance, hbegin, carryOut]
  | @write v task _ _ stack depth s =>
      have hresume : resume s scope v (.store (.slot x)) = (.finish v, s.setSlot r x v) := by
        simp only [resume, putValue, hself]
        exact if_pos hx
      refine ⟨v, ⟨.value v, stack, depth - 1, s.setSlot r x v⟩, ?_, rfl, rfl, rfl⟩
      rw [Steps, advance, hresume, carryOut]

theorem Config.Accesses.refuses (h : c.Accesses written scope x) (limit : Limit)
    (hx : ∀ r, scope.self = .object r → (c.store.object r).slots.contains x = false) :
    c.Refuses limit x := by
  cases h with
  | @read origin _ _ stack depth s =>
      have hbegin : begin s scope (.node (.atom origin (.slot x))) = (.error (.unknownSlot x), s) := by
        simp only [begin, beginNode, atomValue, slotValue]
        cases hself : scope.self with
        | object r =>
            have hnone : (s.object r).slots.get? x = none := by
              simpa [OrderedMap.contains] using hx r hself
            simp only [hnone]
        | _ => rfl
      refine ⟨_, ⟨.failure (.error _ (some (.node (.atom origin (.slot x))))), stack, depth, s⟩, ?_, rfl,
        rfl⟩
      rw [Steps, advance, hbegin]
      rfl
  | @write v task _ _ stack depth s =>
      have hresume : resume s scope v (.store (.slot x)) = (.error (.unknownSlot x), s) := by
        simp only [resume, putValue]
        cases hself : scope.self with
        | object r => exact if_neg (by simp [hx r hself])
        | _ => rfl
      refine ⟨_, ⟨.failure (.error _ (some task)), stack, depth - 1, s⟩, ?_, rfl, rfl⟩
      rw [Steps, advance, hresume]
      rfl

end Accesses

end Machine

namespace Interpreter

open Parley.Machine

theorem Starts.slotted {limit : Limit} {n : Node} {s : Store} (h : Starts limit n s) :
    s.Slotted := by
  suffices hboth : s.Slotted ∧ s.classes.WellFormed from hboth.1
  refine h.invariant (I := fun s => s.Slotted ∧ s.classes.WellFormed)
    (fun traced => ⟨.initial traced, .initial⟩) (fun _ _ hs => hs) ?_
  intro _ _ _ _ _ _ ⟨hslotted, hclasses⟩ hrun
  have hevolves := evolves_of_run hrun
  exact ⟨hevolves.slotted hslotted hclasses, (hevolves.extends_classes hclasses).wellFormed⟩

/-- Where nothing is bound from outside, every instance has at every point exactly the slots that its class
declares. In a method and in the blocks made by it the variables of the method's owner are among them,
whatever the class of the receiver. A variable of that class can be read and written, any other access
fails and changes nothing, and so does every access outside of methods. -/
theorem slots_throughout (limit : Limit) (n : Node) (s : Store) (hstarts : Starts limit n s) :
    (∀ c, Reaches limit (.initial (.node n) .global s) c →
      c.store.Slotted ∧
      ∀ written scope x, c.Accesses written scope x →
        (∀ home, scope.home = some home → ∃ r name declared names,
          scope.self = .object r ∧ (c.store.object r).cls = .registered name ∧
          c.store.classes.slots (c.store.activation home).method.owner = .ok declared ∧
          c.store.classes.slots name = .ok names ∧ declared <+: names ∧
          (x ∈ names → c.Finds limit written r x) ∧ (x ∉ names → c.Refuses limit x)) ∧
        (scope.home = none → c.Refuses limit x)) ∧
    ∀ fuel outcome s', execute limit fuel (.node n) s = some (outcome, s') → s'.Slotted := by
  have hs := hstarts.coherent
  refine ⟨?_, fun fuel outcome s' hrun => (evolves_of_run hrun).slotted hstarts.slotted hs.classes⟩
  intro c hreaches
  have hc := hreaches.coherent (coherent_initial hs n)
  have hslotted : c.store.Slotted := hreaches.evolves.slotted hstarts.slotted hs.classes
  refine ⟨hslotted, fun written scope x haccess => ?_⟩
  have hscope : c.store.Coheres scope.self scope.home := hc.scope scope haccess.mem_scopes
  constructor
  · intro home hhome
    rw [hhome] at hscope
    obtain ⟨r, name, declared, names, hself, hr, hcls, hdeclared, hnames, hprefix⟩ :=
      hc.store.slots_prefix hscope.2.2
    have hcontains : (c.store.object r).slots.contains x = true ↔ x ∈ names :=
      hslotted.contains_iff hr hcls hnames
    refine ⟨r, name, declared, names, hself, hcls, hdeclared, hnames, hprefix, ?_, ?_⟩
    · exact fun hx => haccess.finds limit hself (hcontains.mpr hx)
    · intro hx
      refine haccess.refuses limit fun r' hr' => ?_
      obtain rfl := Value.object.inj (hself.symm.trans hr')
      exact Bool.not_eq_true _ ▸ fun h => hx (hcontains.mp h)
  · intro hhome
    rw [hhome] at hscope
    refine haccess.refuses limit fun r hr => ?_
    cases hr.symm.trans hscope

/-- Statements that give a class with a variable a method in which a block writes the variable, and a
subclass with a variable of its own. -/
def keepingProgram : List Node :=
  [.send none (.atom none (.variable "Object")) "subclass name: ivars:"
      [.atom none (.symbol "A"), .list none [.atom none (.symbol "x")]],
    .send none (.atom none (.variable "A")) "def: do:"
      [.atom none (.symbol "keep"), .block none [] none
        [.send none (.block none [] none [.store none (.slot "x") (.atom none (.integer 5))]) "call" [],
          .atom none (.slot "x")]],
    .send none (.atom none (.variable "A")) "subclass name: ivars:"
      [.atom none (.symbol "B"), .list none [.atom none (.symbol "y")]]]

def keepingCall : Node :=
  .send none (.send none (.atom none (.variable "B")) "new" []) "keep" []

/-- The inherited method writes and reads the variable of its owner in an instance of the subclass, and the
instance has the slots of the subclass. -/
theorem slots_throughout_inherited : ∃ s s', Starts (.frames 20) keepingCall s ∧
    execute (.frames 20) 60 (.node keepingCall) s = some (.value (.integer 5), s') ∧
    ∃ o ∈ s'.objects, o.cls = .registered "B" ∧ s'.classes.slots "B" = .ok o.slots.keys ∧
      o.slots.keys = ["x", "y"] := by
  have hrun : runsTo (.frames 20) 60 false keepingProgram keepingCall (fun outcome s' =>
      valueOf? outcome == some (.integer 5) && s'.objects.any fun o =>
        o.cls == .registered "B" && o.slots.keys == ["x", "y"]) = true := by
    decide +kernel
  obtain ⟨v, s, outcome, s', hbefore, hexecute, hcheck⟩ := exists_of_runsTo hrun
  obtain ⟨houtcome, hobject⟩ := (Bool.and_eq_true _ _).mp hcheck
  obtain ⟨o, ho, hchecks⟩ := Array.any_eq_true'.mp hobject
  simp only [Bool.and_eq_true, beq_iff_eq] at hchecks
  obtain ⟨hcls, hkeys⟩ := hchecks
  obtain rfl := eq_value_of_valueOf? (beq_iff_eq.mp houtcome)
  have hstarts : Starts (.frames 20) keepingCall s := .of_fresh hbefore
  obtain ⟨name, hname, hslots, -⟩ := (slots_throughout _ _ s hstarts).2 60 _ s' hexecute o ho
  obtain rfl := ClassRef.registered.inj (hname.symm.trans hcls)
  exact ⟨s, s', hstarts, hexecute, o, ho, hcls, hslots, hkeys⟩

end Interpreter

end Parley
