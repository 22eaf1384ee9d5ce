import Parley.Proofs.Machine.Evolution

/-! References. Nothing is ever taken out of a store, an instance keeps its class, and an activation keeps
its method and its receiver. So a value that refers to something goes on referring to the same thing. In
a closed store every value that is kept somewhere refers to something that exists. -/

namespace Parley

/-! Maps and arrays -/

namespace OrderedMap

variable {α β : Type} [DecidableEq α] {P : β → Prop} {m : OrderedMap α β}

/-- All values of a map have a property. -/
def All (P : β → Prop) (m : OrderedMap α β) : Prop := ∀ e ∈ m.entries, P e.2

theorem All.put (h : m.All P) (k : α) {v : β} (hv : P v) : (m.put k v).All P := by
  intro e he
  rcases mem_of_mem_set he with rfl | he
  · exact hv
  · exact h e he

theorem All.get? (h : m.All P) {k : α} {v : β} (hk : m.get? k = some v) : P v :=
  h _ (mem_of_find hk)

theorem All.ofList {kvs : List (α × β)} (h : ∀ e ∈ kvs, P e.2) : (OrderedMap.ofList kvs).All P := by
  have hfold : ∀ (l : List (α × β)) (m : OrderedMap α β), (∀ e ∈ l, P e.2) → m.All P →
      (l.foldl (fun m kv => m.put kv.1 kv.2) m).All P := by
    intro l
    induction l with
    | nil => exact fun m _ hm => hm
    | cons e l ih =>
        intro m hl hm
        obtain ⟨he, hl⟩ := List.forall_mem_cons.mp hl
        exact ih _ hl (hm.put e.1 he)
  exact hfold kvs .empty h (List.forall_mem_nil _)

end OrderedMap

theorem exists_of_mem_modify {α : Type} {a : Array α} {i : Nat} {f : α → α} {x : α}
    (h : x ∈ a.modify i f) : x ∈ a ∨ ∃ y ∈ a, x = f y := by
  obtain ⟨j, hj, rfl⟩ := Array.mem_iff_getElem.mp h
  rw [Array.size_modify] at hj
  rw [Array.getElem_modify]
  split_ifs
  · exact .inr ⟨a[j], Array.getElem_mem hj, rfl⟩
  · exact .inl (Array.getElem_mem hj)

namespace Store

/-! What stays -/

/-- What there is in one store is in another. -/
structure Grows (s s' : Store) : Prop where
  lists : s.lists.size ≤ s'.lists.size
  blocks : s.blocks.size ≤ s'.blocks.size
  objects : ∀ r : ObjectRef, r.index < s.objects.size →
    r.index < s'.objects.size ∧ (s'.object r).cls = (s.object r).cls
  activations : ∀ r, s.Created r → s'.Created r ∧
    (s'.activation r).method = (s.activation r).method ∧
    (s'.activation r).receiver = (s.activation r).receiver

theorem Grows.refl (s : Store) : s.Grows s :=
  ⟨Nat.le_refl _, Nat.le_refl _, fun _ h => ⟨h, rfl⟩, fun _ h => ⟨h, rfl, rfl⟩⟩

theorem Grows.trans {s s' s'' : Store} (h : s.Grows s') (h' : s'.Grows s'') : s.Grows s'' := by
  refine ⟨Nat.le_trans h.lists h'.lists, Nat.le_trans h.blocks h'.blocks, ?_, ?_⟩
  · intro r hr
    obtain ⟨hr', hcls⟩ := h.objects r hr
    obtain ⟨hr'', hcls'⟩ := h'.objects r hr'
    exact ⟨hr'', hcls'.trans hcls⟩
  · intro r hr
    obtain ⟨hr', hmethod, hreceiver⟩ := h.activations r hr
    obtain ⟨hr'', hmethod', hreceiver'⟩ := h'.activations r hr'
    exact ⟨hr'', hmethod'.trans hmethod, hreceiver'.trans hreceiver⟩

theorem object_newObject {s : Store} (o : Object) {r : ObjectRef} (hr : r.index < s.objects.size) :
    (s.newObject o).2.object r = s.object r := by
  simp only [object, newObject, Array.getD_eq_getD_getElem?, Array.getElem?_push]
  rw [if_neg (Nat.ne_of_lt hr)]

theorem cls_setSlot (s : Store) (r r' : ObjectRef) (name : String) (v : Value) :
    ((s.setSlot r name v).object r').cls = (s.object r').cls := by
  simp only [object, setSlot, Array.getD_eq_getD_getElem?, Array.getElem?_modify]
  split_ifs
  · cases s.objects[r'.index]? <;> rfl
  · rfl

theorem activation_newActivation {s : Store} (m : Method) (receiver : Value) {r : ActivationRef}
    (hr : s.Created r) : (s.newActivation m receiver).2.activation r = s.activation r := by
  simp only [activation, newActivation, Array.getD_eq_getD_getElem?, Array.getElem?_push]
  rw [if_neg (Nat.ne_of_lt hr)]

theorem activation_newActivation_self (s : Store) (m : Method) (receiver : Value) :
    (s.newActivation m receiver).2.activation ⟨s.activations.size⟩ = ⟨m, receiver, true⟩ := by
  simp [activation, newActivation]

theorem activation_retire (s : Store) (r r' : ActivationRef) :
    ((s.retire r).activation r').method = (s.activation r').method ∧
      ((s.retire r).activation r').receiver = (s.activation r').receiver := by
  simp only [activation, retire, Array.getD_eq_getD_getElem?, Array.getElem?_modify]
  split_ifs
  · cases s.activations[r'.index]? <;> exact ⟨rfl, rfl⟩
  · exact ⟨rfl, rfl⟩

theorem Change.grows {known : Value → Prop} {s s' : Store} (h : s.Change known s') : s.Grows s' := by
  obtain ⟨hlists, hobjects⟩ := h.changes.size_le
  obtain ⟨hblocks, hactivations⟩ := h.changes.blocks_activations
  refine ⟨hlists, Nat.le_of_eq (congrArg Array.size hblocks.symm), ?_, ?_⟩
  · refine fun r hr => ⟨Nat.lt_of_lt_of_le hr hobjects, ?_⟩
    cases h with
    | newObject => exact congrArg Object.cls (object_newObject _ hr)
    | setSlot => exact cls_setSlot _ _ _ _ _
    | _ => rfl
  · intro r hr
    rw [Created, activation, hactivations]
    exact ⟨hr, rfl, rfl⟩

theorem Event.grows {s s' : Store} (h : s.Event s') : s.Grows s' := by
  cases h with
  | change hchange => exact hchange.grows
  | newBlock b =>
      refine ⟨Nat.le_refl _, ?_, (Grows.refl s).objects, (Grows.refl s).activations⟩
      rw [Store.newBlock, Array.size_push]
      exact Nat.le_succ _
  | newFrame parent bindings =>
      exact ⟨Nat.le_refl _, Nat.le_refl _, (Grows.refl s).objects, (Grows.refl s).activations⟩
  | newActivation m receiver =>
      refine ⟨Nat.le_refl _, Nat.le_refl _, (Grows.refl s).objects, ?_⟩
      intro r hr
      rw [activation_newActivation m receiver hr, Created, Store.newActivation, Array.size_push]
      exact ⟨Nat.lt_succ_of_lt hr, rfl, rfl⟩
  | retire r =>
      refine ⟨Nat.le_refl _, Nat.le_refl _, (Grows.refl s).objects, ?_⟩
      intro r' hr'
      rw [Created, Store.retire, Array.size_modify]
      exact ⟨hr', activation_retire s r r'⟩

/-- A store only grows in a run. -/
theorem Evolves.grows {s s' : Store} (h : s.Evolves s') : s.Grows s' := by
  induction h with
  | refl => exact .refl s
  | tail _ hevent ih => exact ih.trans hevent.grows

end Store

/-- A value that refers to something that exists, or to nothing. -/
def Value.Stored (s : Store) : Value → Prop
  | .list r => r.index < s.lists.size
  | .block r => r.index < s.blocks.size
  | .object r => r.index < s.objects.size
  | _ => True

theorem Value.Stored.mono {s s' : Store} {v : Value} (h : v.Stored s) (hgrows : s.Grows s') :
    v.Stored s' := by
  cases v with
  | list r => exact Nat.lt_of_lt_of_le h hgrows.lists
  | block r => exact Nat.lt_of_lt_of_le h hgrows.blocks
  | object r => exact (hgrows.objects r h).1
  | _ => trivial

theorem Value.stored_of_isFree {s : Store} {v : Value} (h : v.isFree = true) : v.Stored s := by
  cases v with
  | list r => cases h
  | block r => cases h
  | object r => cases h
  | _ => trivial

theorem Store.Makes.stored {s s' : Store} {v : Value} (h : s.Makes s' v) : v.Stored s' := by
  cases v with
  | list r => exact h.2
  | object r => exact h.2
  | _ => cases h

namespace Store

/-! Closed stores -/

/-- Every value in the frames, lists and instances of a store refers to something that exists. -/
structure Closed (s : Store) : Prop where
  frames : ∀ f ∈ s.frames, f.bindings.All (Value.Stored s)
  lists : ∀ items ∈ s.lists, ∀ v ∈ items, v.Stored s
  objects : ∀ o ∈ s.objects, o.slots.All (Value.Stored s)

theorem Closed.initial (traced : Bool) : (initial traced).Closed := by
  refine ⟨?_, fun items h => absurd h (Array.not_mem_empty items),
    fun o h => absurd h (Array.not_mem_empty o)⟩
  intro f hf
  obtain rfl := Array.mem_singleton.mp hf
  exact List.forall_mem_nil _

/-- The slots of a new instance hold nil and the values that it was made with. -/
theorem all_of_instantiate {s : Store} {name : String} {values : List (String × Value)} {o : Object}
    {P : Value → Prop} (h : s.instantiate name values = .ok o) (hnil : P .nil)
    (hvalues : ∀ e ∈ values, P e.2) : o.slots.All P := by
  have hset : ∀ (l : List (String × Value)) slots slots', (∀ e ∈ l, P e.2) → slots.All P →
      setSlots slots l = .ok slots' → slots'.All P := by
    intro l
    induction l with
    | nil =>
        rintro slots _ - hslots ⟨⟩
        exact hslots
    | cons e l ih =>
        intro slots slots' hl hslots hok
        obtain ⟨he, hl⟩ := List.forall_mem_cons.mp hl
        rw [setSlots] at hok
        split_ifs at hok
        exact ih _ _ hl (hslots.put e.1 he) hok
  rw [instantiate] at h
  obtain ⟨c, -, h⟩ := exists_of_bind_eq_ok h
  obtain ⟨names, -, h⟩ := exists_of_bind_eq_ok h
  obtain ⟨slots, hslots, h⟩ := exists_of_bind_eq_ok h
  cases h
  refine hset _ _ _ (OrderedMap.All.ofList hvalues) (.ofList ?_) hslots
  intro e he
  obtain ⟨_, -, rfl⟩ := List.mem_map.mp he
  exact hnil

namespace Closed

variable {s s' : Store}

/-- Only frames, lists and instances of a store count. -/
theorem congr (h : s.Closed) (hgrows : s.Grows s') (hframes : s'.frames = s.frames)
    (hlists : s'.lists = s.lists) (hobjects : s'.objects = s.objects) : s'.Closed := by
  refine ⟨?_, ?_, ?_⟩
  · rw [hframes]
    exact fun f hf e he => (h.frames f hf e he).mono hgrows
  · rw [hlists]
    exact fun items hitems v hv => (h.lists items hitems v hv).mono hgrows
  · rw [hobjects]
    exact fun o ho e he => (h.objects o ho e he).mono hgrows

theorem newFrame (h : s.Closed) (parent : FrameRef) (params : List String) {args : List Value}
    (hargs : ∀ v ∈ args, v.Stored s) :
    (s.newFrame (some parent) (params.zip args)).2.Closed := by
  refine ⟨?_, h.lists, h.objects⟩
  intro f hf
  rcases Array.mem_push.mp hf with hf | rfl
  · exact h.frames f hf
  · refine .ofList ?_
    rintro ⟨name, v⟩ he
    exact hargs v (List.of_mem_zip he).2

/-- What is known is put somewhere, and all that is there stays. -/
theorem change {known : Value → Prop} (h : s.Closed) (hknown : ∀ v, known v → v.Stored s)
    (hc : s.Change known s') : s'.Closed := by
  have hgrows : s.Grows s' := hc.grows
  have hkeep : ∀ v : Value, v.Stored s → v.Stored s' := fun v hv => hv.mono hgrows
  have hframes : ∀ f ∈ s.frames, f.bindings.All (Value.Stored s') :=
    fun f hf e he => hkeep _ (h.frames f hf e he)
  have hlists : ∀ items ∈ s.lists, ∀ v ∈ items, v.Stored s' :=
    fun items hitems v hv => hkeep v (h.lists items hitems v hv)
  have hobjects : ∀ o ∈ s.objects, o.slots.All (Value.Stored s') :=
    fun o ho e he => hkeep _ (h.objects o ho e he)
  cases hc with
  | newList hitems =>
      refine ⟨hframes, fun items hmem => ?_, hobjects⟩
      rcases Array.mem_push.mp hmem with hmem | rfl
      · exact hlists items hmem
      · exact fun v hv => hkeep v (hknown v (hitems v hv))
  | newObject hmade hvalues =>
      refine ⟨hframes, hlists, fun o ho => ?_⟩
      rcases Array.mem_push.mp ho with ho | rfl
      · exact hobjects o ho
      · exact all_of_instantiate hmade trivial fun e he => hkeep _ (hknown _ (hvalues e he))
  | setList i hr hv =>
      refine ⟨hframes, fun items hmem => ?_, hobjects⟩
      dsimp only [setList] at hmem
      obtain hmem | ⟨old, hold, rfl⟩ := exists_of_mem_modify hmem
      · exact hlists items hmem
      · intro w hw
        rcases Array.mem_or_eq_of_mem_setIfInBounds hw with hw | rfl
        · exact hlists old hold w hw
        · exact hkeep w (hknown w hv)
  | pushList hr hv =>
      refine ⟨hframes, fun items hmem => ?_, hobjects⟩
      dsimp only [pushList] at hmem
      obtain hmem | ⟨old, hold, rfl⟩ := exists_of_mem_modify hmem
      · exact hlists items hmem
      · intro w hw
        rcases Array.mem_push.mp hw with hw | rfl
        · exact hlists old hold w hw
        · exact hkeep w (hknown w hv)
  | setSlot hr hname hv =>
      refine ⟨hframes, hlists, fun o ho => ?_⟩
      dsimp only [setSlot] at ho
      obtain ho | ⟨old, hold, rfl⟩ := exists_of_mem_modify ho
      · exact hobjects o ho
      · exact (hobjects old hold).put _ (hkeep _ (hknown _ hv))
  | define env name hv =>
      refine ⟨fun f hf => ?_, hlists, hobjects⟩
      dsimp only [Store.define] at hf
      obtain hf | ⟨old, hold, rfl⟩ := exists_of_mem_modify hf
      · exact hframes f hf
      · exact (hframes old hold).put _ (hkeep _ (hknown _ hv))
  | _ => exact ⟨hframes, hlists, hobjects⟩

/-! What is read is stored -/

theorem item (h : s.Closed) (r : ListRef) {v : Value} (hv : v ∈ (s.list r).toList) : v.Stored s := by
  rw [Store.list, Array.getD_eq_getD_getElem?] at hv
  cases hr : s.lists[r.index]? with
  | none =>
      rw [hr] at hv
      cases hv
  | some items =>
      rw [hr] at hv
      exact h.lists items (Array.mem_of_getElem? hr) v (Array.mem_toList_iff.mp hv)

theorem lookup? (h : s.Closed) {env : FrameRef} {name : String} {v : Value}
    (hv : s.lookup? env name = some v) : v.Stored s := by
  rw [Store.lookup?] at hv
  split at hv
  · cases hv
  · next r _ =>
      rw [Store.frame, Array.getD_eq_getD_getElem?] at hv
      cases hr : s.frames[r.index]? with
      | none =>
          rw [hr] at hv
          cases hv
      | some f =>
          rw [hr] at hv
          exact (h.frames f (Array.mem_of_getElem? hr)).get? hv

theorem slot (h : s.Closed) {r : ObjectRef} {name : String} {v : Value}
    (hv : (s.object r).slots.get? name = some v) : v.Stored s := by
  rw [Store.object, Array.getD_eq_getD_getElem?] at hv
  cases hr : s.objects[r.index]? with
  | none =>
      rw [hr] at hv
      cases hv
  | some o =>
      rw [hr] at hv
      exact (h.objects o (Array.mem_of_getElem? hr)).get? hv

end Closed

end Store

end Parley
