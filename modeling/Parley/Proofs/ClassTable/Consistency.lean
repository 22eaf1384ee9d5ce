import Parley.Machine.Dispatch
import Parley.Proofs.ClassTable.Registration

/-! What can be relied on in a class table, whatever was asked of it before. The table is kept in the order
of registration and walked by position; `Climbs` is the walk that looks each superclass up by its name and
has no bound of its own. In every table that comes about the two agree, so the second comes to an end. -/

namespace Parley

namespace ClassTable

/-- A change that is asked of a class table. -/
inductive Call where
  /-- a class directly under the root -/
  | create (name : String)
  | subclass (parent name : String) (fields : List String)
  | define (className selector : String) (params : List String) (body : Node)

/-- The table that a call asks for, or the error that it fails with. -/
def attempt (t : ClassTable) : Call → Except Error ClassTable
  | .create name => (t.subclass rootName name []).map (·.2)
  | .subclass parent name fields => (t.subclass parent name fields).map (·.2)
  | .define className selector params body =>
    (t.define className selector params body).map (·.2.2)

/-- The table after a call. -/
def after (t : ClassTable) (call : Call) : ClassTable :=
  match t.attempt call with
  | .ok t' => t'
  | .error _ => t

/-- The table after calls one after another, failing ones included. -/
def afterAll (t : ClassTable) (calls : List Call) : ClassTable := calls.foldl after t

/-- The walk from a class along its superclasses, each looked up by its name, ends and passes these
classes. -/
inductive Climbs (t : ClassTable) : Class → List Class → Prop
  | root {c : Class} (h : c.parent = none) : Climbs t c [c]
  | up {c d : Class} {parent : String} {rest : List Class} (hparent : c.parent = some parent)
      (hget : t.get parent = .ok d) (h : Climbs t d rest) : Climbs t c (c :: rest)

/-- Everything that can be asked about a class has an answer; only an instance variable that the class does
not have can be refused. -/
structure Answers (t : ClassTable) (name : String) : Prop where
  ancestors : ∃ classes, t.ancestors name = .ok classes
  slots : ∃ names, t.slots name = .ok names
  lookup : ∀ selector, ∃ m, t.lookup name selector = .ok m
  lookupSuper : ∀ selector, ∃ m, t.lookupSuper name selector = .ok m
  selectors : ∃ all, t.selectors name = .ok all
  instantiate : ∀ (s : Store) values, s.classes = t →
    (∃ o, s.instantiate name values = .ok o) ∨
      ∃ slot, s.instantiate name values = .error (.unknownSlot slot)

/-- What holds of the classes of a table. -/
structure Consistent (t : ClassTable) : Prop where
  /-- Each class is found under its own name, -/
  found : ∀ c ∈ t.classes, t.find? c.name = some c
  /-- and what is found under a name has that name, or is the root under its other name. -/
  named : ∀ name c, t.find? name = some c → c ∈ t.classes ∧ c.name = resolve name
  noAlias : ∀ c ∈ t.classes, c.name ≠ rootAlias
  hasRoot : ∃ c ∈ t.classes, c.name = rootName
  root : ∀ c ∈ t.classes, c.parent = none ↔ c.name = rootName
  /-- A superclass was registered before its subclass. -/
  parents : ∀ before c later parent, t.toList = before ++ c :: later → c.parent = some parent →
    ∃ d ∈ before, d.name = parent
  ancestors : ∀ name c, t.find? name = some c → ∃ classes, t.ancestors name = .ok classes ∧
    t.Climbs c classes ∧ (classes.map (·.name)).Nodup ∧
    classes.getLast?.map (·.name) = some rootName
  /-- The variables of a class are those of its superclass and then its own, none of them twice. -/
  slots : ∀ c ∈ t.classes, ∃ inherited,
    (∀ parent, c.parent = some parent → t.slots parent = .ok inherited) ∧
    (c.parent = none → inherited = []) ∧
    t.slots c.name = .ok (inherited ++ c.fields) ∧ (inherited ++ c.fields).Nodup
  methods : ∀ c ∈ t.classes, ∀ e ∈ c.methods.entries, e.2.Fits e.1 c.name
  answers : ∀ name, t.contains name = true → t.Answers name

/-! The table after calls -/

theorem WellFormed.attempt {t t' : ClassTable} (ht : t.WellFormed) {call : Call}
    (h : t.attempt call = .ok t') : t'.WellFormed := by
  cases call with
  | create name =>
      obtain ⟨⟨c, t₁⟩, hsubclass, rfl⟩ := exists_of_map_eq_ok h
      exact ht.subclass hsubclass
  | subclass parent name fields =>
      obtain ⟨⟨c, t₁⟩, hsubclass, rfl⟩ := exists_of_map_eq_ok h
      exact ht.subclass hsubclass
  | define className selector params body =>
      obtain ⟨⟨m, replaced, t₁⟩, hdefine, rfl⟩ := exists_of_map_eq_ok h
      exact ht.define hdefine

theorem after_of_error {t : ClassTable} {call : Call} {e : Error} (h : t.attempt call = .error e) :
    t.after call = t := by
  rw [after, h]

theorem WellFormed.after {t : ClassTable} (ht : t.WellFormed) (call : Call) :
    (t.after call).WellFormed := by
  cases h : t.attempt call with
  | ok t' =>
      rw [ClassTable.after, h]
      exact ht.attempt h
  | error e =>
      rw [after_of_error h]
      exact ht

theorem WellFormed.afterAll {t : ClassTable} (ht : t.WellFormed) (calls : List Call) :
    (t.afterAll calls).WellFormed := by
  induction calls generalizing t with
  | nil => exact ht
  | cons call calls ih => exact ih (ht.after call)

/-- The errors that a call can fail with. -/
def failureKinds : List String := ["UnknownClass", "DuplicateClass", "DuplicateIvar", "ArityMismatch"]

theorem kind_mem_of_subclass {t : ClassTable} (h : Stacked t.classes) {parent name : String}
    {fields : List String} {e : Error} (herror : t.subclass parent name fields = .error e) :
    e.kind ∈ failureKinds := by
  obtain ⟨-, h'⟩ | ⟨p, -, ⟨-, h'⟩ | ⟨-, ⟨f, -, h'⟩ | ⟨-, h'⟩⟩⟩ := subclass_cases h parent name fields
  · cases h'.symm.trans herror
    simp [Error.kind, failureKinds]
  · cases h'.symm.trans herror
    simp [Error.kind, failureKinds]
  · cases h'.symm.trans herror
    simp [Error.kind, failureKinds]
  · cases h'.symm.trans herror

theorem WellFormed.kind_mem {t : ClassTable} (ht : t.WellFormed) {call : Call} {e : Error}
    (h : t.attempt call = .error e) : e.kind ∈ failureKinds := by
  cases call with
  | create name => exact kind_mem_of_subclass ht.stacked (eq_error_of_map_eq_error h)
  | subclass parent name fields =>
      exact kind_mem_of_subclass ht.stacked (eq_error_of_map_eq_error h)
  | define className selector params body =>
      have herror := eq_error_of_map_eq_error h
      obtain ⟨-, h'⟩ | ⟨c, -, ⟨-, h'⟩ | ⟨-, h'⟩⟩ := define_cases t className selector params body
      · cases h'.symm.trans herror
        simp [Error.kind, failureKinds]
      · cases h'.symm.trans herror
        simp [Error.kind, failureKinds]
      · cases h'.symm.trans herror

/-! Walks -/

/-- The walk by names passes the classes of the chain and ends with them. -/
theorem Stacked.climbs {t : ClassTable} (h : Stacked t.classes) {c : Class} (hc : c ∈ t.classes) :
    t.Climbs c (chain t.classes c.name) := by
  -- the classes below a class are fewer, and its superclass is one of them
  obtain ⟨newer, older, hsplit⟩ := List.append_of_mem hc
  induction hlength : older.length using Nat.strongRecOn generalizing c newer older with
  | ind n ih =>
      rw [h.chain_eq hc]
      cases hparent : c.parent with
      | none => exact .root hparent
      | some parent =>
          obtain ⟨d, hd, rfl⟩ : ∃ d ∈ older, d.name = parent := by
            rw [hsplit] at h
            exact h.exists_parent_of_append hparent
          have hmem : d ∈ t.classes := by
            rw [hsplit]
            exact List.mem_append_right _ (List.mem_cons_of_mem c hd)
          refine .up hparent (get_eq_ok_iff.mpr (h.find?_name hmem)) ?_
          obtain ⟨between, oldest, rfl⟩ := List.append_of_mem hd
          refine ih oldest.length ?_ hmem (newer ++ c :: between) oldest ?_ rfl
          · rw [← hlength, List.length_append, List.length_cons]
            omega
          · rw [hsplit, List.append_assoc, List.cons_append]

theorem lookup_of_find? {t : ClassTable} {name : String} {c : Class} (h : t.find? name = some c)
    (selector : String) :
    t.lookup name selector = .ok (firstDefinition (chain t.classes c.name) selector) := by
  rw [lookup, ancestors_of_find? h]
  rfl

/-- The superclass of a class: the second class of its chain. -/
theorem Stacked.superclass_eq {t : ClassTable} (h : Stacked t.classes) {name : String} {c : Class}
    (hc : t.find? name = some c) : t.superclass name = .ok (chain t.classes c.name).tail.head? := by
  obtain ⟨hmem, -⟩ := mem_of_find? hc
  rw [superclass, get_eq_ok_iff.mpr hc, h.chain_eq hmem, List.tail_cons]
  dsimp only [bind, Except.bind]
  cases hparent : c.parent with
  | none => rfl
  | some parent =>
      obtain ⟨d, hd, rfl⟩ := h.exists_parent hmem hparent
      dsimp only
      rw [get_eq_ok_iff.mpr (h.find?_name hd), h.chain_eq hd]
      rfl

/-- A method above a class is looked for along the rest of the chain. -/
theorem Stacked.lookupSuper_eq {t : ClassTable} (h : Stacked t.classes) {name : String} {c : Class}
    (hc : t.find? name = some c) (selector : String) :
    t.lookupSuper name selector =
      .ok (firstDefinition (chain t.classes c.name).tail selector) := by
  obtain ⟨hmem, -⟩ := mem_of_find? hc
  rw [lookupSuper, h.superclass_eq hc, h.chain_eq hmem, List.tail_cons]
  cases hparent : c.parent with
  | none => rfl
  | some parent =>
      obtain ⟨d, hd, rfl⟩ := h.exists_parent hmem hparent
      have hchain := h.chain_eq hd
      dsimp only [bind, Except.bind]
      rw [hchain, List.head?_cons, ← hchain]
      exact lookup_of_find? (h.find?_name hd) selector

end ClassTable

/-! Instances -/

theorem Store.unknownSlot_of_setSlots {slots : OrderedMap String Value}
    {values : List (String × Value)} {e : Error} (h : Store.setSlots slots values = .error e) :
    ∃ slot, e = .unknownSlot slot := by
  induction values generalizing slots with
  | nil => cases h
  | cons entry rest ih =>
      obtain ⟨name, v⟩ := entry
      rw [Store.setSlots] at h
      split_ifs at h
      · exact ih h
      · exact ⟨name, (Except.error.inj h).symm⟩

namespace ClassTable

theorem WellFormed.instantiate {s : Store} (h : s.classes.WellFormed) {name : String} {c : Class}
    (hc : s.classes.find? name = some c) (values : List (String × Value)) :
    (∃ o, s.instantiate name values = .ok o) ∨
      ∃ slot, s.instantiate name values = .error (.unknownSlot slot) := by
  have hslots := slots_of_find? (h.stacked.find?_name (mem_of_find? hc).1)
  rw [Store.instantiate, get_eq_ok_iff.mpr hc]
  dsimp only [bind, Except.bind]
  rw [hslots]
  dsimp only
  split
  · next e hset =>
      obtain ⟨slot, rfl⟩ := Store.unknownSlot_of_setSlots hset
      exact .inr ⟨slot, rfl⟩
  · exact .inl ⟨_, rfl⟩

theorem WellFormed.answers {t : ClassTable} (ht : t.WellFormed) {name : String}
    (h : t.contains name = true) : t.Answers name := by
  obtain ⟨c, hc⟩ := Option.isSome_iff_exists.mp h
  refine ⟨⟨_, ancestors_of_find? hc⟩, ⟨_, slots_of_find? hc⟩,
    fun selector => ⟨_, lookup_of_find? hc selector⟩,
    fun selector => ⟨_, ht.stacked.lookupSuper_eq hc selector⟩, ?_, ?_⟩
  · exact ⟨_, by rw [selectors, ancestors_of_find? hc]; rfl⟩
  · rintro s values rfl
    exact ht.instantiate hc values

/-- The variables of a class are those of its superclass and then its own. -/
theorem Stacked.slots_eq {t : ClassTable} (h : Stacked t.classes) {c : Class} (hc : c ∈ t.classes) :
    ∃ inherited, (∀ parent, c.parent = some parent → t.slots parent = .ok inherited) ∧
      (c.parent = none → inherited = []) ∧
      t.slots c.name = .ok (inherited ++ c.fields) ∧ (inherited ++ c.fields).Nodup := by
  have hslots := slots_of_find? (h.find?_name hc)
  have hnodup := h.chain_fields_nodup hc
  rw [h.chain_eq hc, List.reverse_cons, List.flatMap_append, List.flatMap_singleton] at hslots hnodup
  refine ⟨_, ?_, ?_, hslots, hnodup⟩
  · intro parent hparent
    obtain ⟨d, hd, rfl⟩ := h.exists_parent hc hparent
    rw [slots_of_find? (h.find?_name hd), hparent]
  · intro hparent
    rw [hparent]
    rfl

theorem WellFormed.consistent {t : ClassTable} (ht : t.WellFormed) : t.Consistent where
  found _ hc := ht.stacked.find?_name hc
  named _ _ h := mem_of_find? h
  noAlias _ hc := ht.stacked.name_ne_alias hc
  hasRoot := ht.stacked.exists_root
  root _ hc := ht.stacked.parent_eq_none_iff hc
  parents before c later parent hlist hparent := by
    have hclasses : t.classes = later.reverse ++ c :: before.reverse := by
      rw [← List.reverse_reverse t.classes]
      change t.toList.reverse = _
      rw [hlist, List.reverse_append, List.reverse_cons, List.append_assoc, List.singleton_append]
    have hstacked := ht.stacked
    rw [hclasses] at hstacked
    obtain ⟨d, hd, hname⟩ := hstacked.exists_parent_of_append hparent
    exact ⟨d, List.mem_reverse.mp hd, hname⟩
  ancestors name c h := by
    obtain ⟨hmem, -⟩ := mem_of_find? h
    exact ⟨_, ancestors_of_find? h, ht.stacked.climbs hmem, ht.stacked.chain_names_nodup c.name,
      ht.stacked.chain_getLast? hmem⟩
  slots _ hc := ht.stacked.slots_eq hc
  methods := ht.methods
  answers _ h := ht.answers h

/-- Whatever is asked of a fresh table, it stays consistent, and a call that fails changes nothing. -/
theorem consistent_afterAll (calls : List Call) :
    (initial.afterAll calls).Consistent ∧
    ∀ call e, (initial.afterAll calls).attempt call = .error e →
      (initial.afterAll calls).after call = initial.afterAll calls ∧ e.kind ∈ failureKinds := by
  have ht := WellFormed.initial.afterAll calls
  exact ⟨ht.consistent, fun call e h => ⟨after_of_error h, ht.kind_mem h⟩⟩

end ClassTable

end Parley
