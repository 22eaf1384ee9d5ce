import Mathlib.Data.List.Chain
import Parley.Proofs.ClassTable.Effects

/-! Where `super` leads. A method that sends its own selector to `super` runs the method above its owner,
and that one the next. Starting from a class this comes to the definitions along its ancestors one after
another, leaves none out and comes to none twice, since what lies above an ancestor is the rest of the
walk. -/

namespace Parley.ClassTable

variable {t : ClassTable}

/-- The definitions of a selector along some classes. -/
def definitions (classes : List Class) (selector : String) : List Method :=
  classes.filterMap fun c => c.methods.get? selector

theorem definitions_cons_of_none {c : Class} {selector : String} (h : c.methods.get? selector = none)
    (classes : List Class) : definitions (c :: classes) selector = definitions classes selector :=
  List.filterMap_cons_none (f := fun c : Class => c.methods.get? selector) h

theorem definitions_cons_of_some {c : Class} {selector : String} {m : Method}
    (h : c.methods.get? selector = some m) (classes : List Class) :
    definitions (c :: classes) selector = m :: definitions classes selector :=
  List.filterMap_cons_some (f := fun c : Class => c.methods.get? selector) h

/-- Each method is followed by what is found above its owner, until nothing is found. -/
inductive Ascends (t : ClassTable) (selector : String) : Option Method → List Method → Prop
  | ended : Ascends t selector none []
  | above {m : Method} {next : Option Method} {rest : List Method}
      (hnext : t.lookupSuper m.owner selector = .ok next) (h : Ascends t selector next rest) :
      Ascends t selector (some m) (m :: rest)

theorem Ascends.unique {selector : String} {first : Option Method} {ms ms' : List Method}
    (h : t.Ascends selector first ms) (h' : t.Ascends selector first ms') : ms' = ms := by
  induction h generalizing ms' with
  | ended =>
      cases h'
      rfl
  | above hnext _ ih =>
      cases h' with
      | above hnext' hrest =>
          obtain rfl := Except.ok.inj (hnext'.symm.trans hnext)
          rw [ih hrest]

/-! Owners -/

/-- A method is owned by a class that lies properly above the owner of another. -/
def OwnedAbove (t : ClassTable) (m m' : Method) : Prop :=
  ∃ classes, t.ancestors m.owner = .ok classes ∧ m'.owner ∈ classes.tail.map (·.name)

theorem WellFormed.ownedAbove (ht : t.WellFormed) {selector : String} {m m' : Method}
    (h : t.lookupSuper m.owner selector = .ok (some m')) : t.OwnedAbove m m' := by
  obtain ⟨classes, hclasses, d, hd, hfits⟩ := ht.exists_of_lookupSuper h
  refine ⟨classes, hclasses, ?_⟩
  rw [hfits.owner_eq]
  exact List.mem_map_of_mem hd

theorem Ascends.isChain (ht : t.WellFormed) {selector : String} {first : Option Method}
    {ms : List Method} (h : t.Ascends selector first ms) : ms.IsChain t.OwnedAbove := by
  induction h with
  | ended => exact .nil
  | @above m next rest hnext hrest ih =>
      refine List.isChain_cons.mpr ⟨fun m' hm' => ?_, ih⟩
      cases hrest with
      | ended => cases hm'
      | above =>
          obtain rfl := Option.some.inj hm'
          exact ht.ownedAbove hnext

/-- The owners of the definitions along some classes are these classes, except for those that define
nothing. -/
theorem WellFormed.owners_sublist (ht : t.WellFormed) {classes : List Class}
    (hclasses : classes ⊆ t.classes) (selector : String) :
    ((definitions classes selector).map (·.owner)).Sublist (classes.map (·.name)) := by
  induction classes with
  | nil => exact .slnil
  | cons c classes ih =>
      obtain ⟨hc, hclasses⟩ := List.cons_subset.mp hclasses
      rw [List.map_cons]
      cases hm : c.methods.get? selector with
      | none =>
          rw [definitions_cons_of_none hm]
          exact (ih hclasses).cons c.name
      | some m =>
          have hfits := ht.methods c hc _ (OrderedMap.mem_of_find hm)
          rw [definitions_cons_of_some hm, List.map_cons, hfits.owner_eq]
          exact (ih hclasses).cons_cons c.name

/-! The ascent -/

/-- The walk by names passes the classes of the chain. -/
theorem Climbs.eq_chain {c : Class} {classes : List Class} (h : t.Climbs c classes)
    (hs : Stacked t.classes) (hc : c ∈ t.classes) : classes = chain t.classes c.name := by
  induction h with
  | root hparent => rw [hs.chain_eq hc, hparent]
  | @up c d parent rest hparent hget _ ih =>
      obtain ⟨e, he, rfl⟩ := hs.exists_parent hc hparent
      obtain rfl := Option.some.inj ((hs.find?_name he).symm.trans (get_eq_ok_iff.mp hget))
      rw [hs.chain_eq hc, hparent, ih he]

/-- A class that defines the selector adds a method to the ascent from its superclass, any other class
adds none. -/
theorem WellFormed.ascends_cons (ht : t.WellFormed) {c : Class} {classes : List Class}
    {selector : String} (hc : c ∈ t.classes)
    (hsuper : t.lookupSuper c.name selector = .ok (firstDefinition classes selector))
    (h : t.Ascends selector (firstDefinition classes selector) (definitions classes selector)) :
    t.Ascends selector (firstDefinition (c :: classes) selector)
      (definitions (c :: classes) selector) := by
  cases hm : c.methods.get? selector with
  | none =>
      rw [firstDefinition_cons_of_none hm, definitions_cons_of_none hm]
      exact h
  | some m =>
      have hfits := ht.methods c hc _ (OrderedMap.mem_of_find hm)
      rw [firstDefinition_cons_of_some hm, definitions_cons_of_some hm]
      refine .above ?_ h
      rw [hfits.owner_eq]
      exact hsuper

/-- By induction on the walk: what lies above a class is the walk from its superclass. -/
theorem WellFormed.ascends_of_climbs (ht : t.WellFormed) {c : Class} {classes : List Class}
    (h : t.Climbs c classes) (hc : c ∈ t.classes) (selector : String) :
    t.Ascends selector (firstDefinition classes selector) (definitions classes selector) := by
  have hsuper : t.lookupSuper c.name selector = .ok (firstDefinition classes.tail selector) := by
    rw [ht.stacked.lookupSuper_eq (ht.stacked.find?_name hc), h.eq_chain ht.stacked hc]
  induction h with
  | root => exact ht.ascends_cons hc hsuper .ended
  | @up c d parent rest _ hget h ih =>
      obtain ⟨hd, -⟩ := mem_of_find? (get_eq_ok_iff.mp hget)
      refine ht.ascends_cons hc hsuper (ih hd ?_)
      rw [ht.stacked.lookupSuper_eq (ht.stacked.find?_name hd), h.eq_chain ht.stacked hd]

/-- What a selector comes to from a class upward, through one `super` after another. -/
structure Ascent (t : ClassTable) (name selector : String) (classes : List Class) : Prop where
  ancestors : t.ancestors name = .ok classes
  /-- The method that is found first, the one above its owner and so on until nothing is found are the
  definitions along the ancestors, -/
  found : ∃ first, t.lookup name selector = .ok first ∧
    ∀ ms, t.Ascends selector first ms ↔ ms = definitions classes selector
  /-- in the order of their classes, none of which is come to twice. -/
  owners : ((definitions classes selector).map (·.owner)).Sublist (classes.map (·.name)) ∧
    ((definitions classes selector).map (·.owner)).Nodup
  climbing : (definitions classes selector).IsChain t.OwnedAbove
  /-- The ancestors of an ancestor are the rest of the walk. -/
  suffix : ∀ d ∈ classes, ∃ above, t.ancestors d.name = .ok above ∧ above <:+ classes

theorem WellFormed.ascent (ht : t.WellFormed) {name : String} {c : Class} (hc : t.find? name = some c)
    (selector : String) : t.Ascent name selector (chain t.classes c.name) := by
  obtain ⟨hmem, -⟩ := mem_of_find? hc
  have hsubset : chain t.classes c.name ⊆ t.classes := (chain_sublist _ _).subset
  have hascends := ht.ascends_of_climbs (ht.stacked.climbs hmem) hmem selector
  have howners := ht.owners_sublist hsubset selector
  refine ⟨ancestors_of_find? hc, ⟨_, lookup_of_find? hc selector, fun ms => ?_⟩, ⟨howners, ?_⟩,
    hascends.isChain ht, fun d hd => ?_⟩
  · exact ⟨hascends.unique, fun h => h ▸ hascends⟩
  · exact (ht.stacked.chain_names_nodup c.name).sublist howners
  · exact ⟨_, ancestors_of_find? (ht.stacked.find?_name (hsubset hd)), ht.stacked.chain_suffix hmem hd⟩

/-- Whatever was asked of a class table before, `super` climbs from every class and under every selector
past each definition along the ancestors of the class once, and stops. -/
theorem super_climbs_once (calls : List Call) (name selector : String)
    (h : (initial.afterAll calls).contains name = true) :
    ∃ classes, (initial.afterAll calls).Ascent name selector classes := by
  obtain ⟨c, hc⟩ := Option.isSome_iff_exists.mp h
  exact ⟨_, (WellFormed.initial.afterAll calls).ascent hc selector⟩

/-- Four classes one below another, of which the second and the fourth define nothing; the root has the
method too. -/
def towerCalls : List Call :=
  [.create "A", .subclass "A" "B" [], .subclass "B" "C" [], .subclass "C" "D" [],
    .define "C" "id" [] (.suite none .sequence []), .define "A" "id" [] (.suite none .sequence []),
    .define "Class" "id" [] (.suite none .sequence [])]

/-- From the lowest of these classes `super` comes to the third, the first and the root. -/
theorem super_climbs_once_skipping : (initial.afterAll towerCalls).contains "D" = true ∧
    ∃ classes, (initial.afterAll towerCalls).Ascent "D" "id" classes ∧
      (definitions classes "id").map (·.owner) = ["C", "A", "Object"] := by
  refine ⟨by decide, ?_⟩
  obtain ⟨classes, h⟩ := super_climbs_once towerCalls "D" "id" (by decide)
  obtain rfl := Except.ok.inj (h.ancestors.symm.trans rfl)
  exact ⟨_, h, rfl⟩

end Parley.ClassTable
