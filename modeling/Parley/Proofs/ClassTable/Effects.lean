import Mathlib.Data.List.Sort
import Mathlib.Data.String.Basic
import Parley.Proofs.ClassTable.Lookup

/-! What definitions change, and for which classes. A method reaches the classes whose walk to the root
comes to its class before any other definition of its selector; every other answer of the table stays. A
class that is registered changes no answer about the classes before it and begins as a copy of its
superclass. The selectors of a class are those under which something is found. -/

namespace Parley.ClassTable

variable {t t' : ClassTable}

/-- The walk along some classes comes to the class `owner` before any definition of a selector. -/
def Meets (classes : List Class) (owner selector : String) : Prop :=
  ∃ before d after, classes = before ++ d :: after ∧ d.name = owner ∧
    ∀ c ∈ before, c.methods.get? selector = none

theorem not_meets_nil (owner selector : String) : ¬Meets [] owner selector := by
  rintro ⟨before, d, after, hsplit, -⟩
  simp at hsplit

/-- A walk goes on past a class that does not define the selector. -/
theorem meets_cons {c : Class} {classes : List Class} {owner selector : String} :
    Meets (c :: classes) owner selector ↔
      c.name = owner ∨ (c.methods.get? selector = none ∧ Meets classes owner selector) := by
  constructor
  · rintro ⟨before, d, after, hsplit, hd, hbefore⟩
    cases before with
    | nil =>
        cases hsplit
        exact .inl hd
    | cons b before =>
        cases hsplit
        obtain ⟨hb, hbefore⟩ := List.forall_mem_cons.mp hbefore
        exact .inr ⟨hb, before, d, after, rfl, hd, hbefore⟩
  · rintro (hname | ⟨hc, before, d, after, rfl, hd, hbefore⟩)
    · exact ⟨[], c, classes, rfl, hname, List.forall_mem_nil _⟩
    · exact ⟨c :: before, d, after, rfl, hd, List.forall_mem_cons.mpr ⟨hc, hbefore⟩⟩

instance decidableMeets (owner selector : String) :
    (classes : List Class) → Decidable (Meets classes owner selector)
  | [] => .isFalse (not_meets_nil owner selector)
  | c :: classes =>
    have := decidableMeets owner selector classes
    decidable_of_iff (c.name = owner ∨ ((c.methods.get? selector).isNone ∧
      Meets classes owner selector)) (by rw [meets_cons, Option.isNone_iff_eq_none])

/-! Methods along a walk -/

theorem get?_withMethod_self {owner selector : String} {m : Method} {c : Class} (h : c.name = owner) :
    (withMethod owner selector m c).methods.get? selector = some m := by
  rw [withMethod, if_pos h]
  exact OrderedMap.get?_put_self _ _ _

theorem withMethod_of_ne {owner : String} {c : Class} (h : c.name ≠ owner) (selector : String)
    (m : Method) : withMethod owner selector m c = c := if_neg h

theorem get?_withMethod_of_ne {selector other : String} (h : other ≠ selector) (owner : String)
    (m : Method) (c : Class) :
    (withMethod owner selector m c).methods.get? other = c.methods.get? other := by
  unfold withMethod
  split_ifs
  · exact OrderedMap.get?_put_of_ne c.methods h m
  · rfl

theorem firstDefinition_cons_of_none {c : Class} {selector : String}
    (h : c.methods.get? selector = none) (classes : List Class) :
    firstDefinition (c :: classes) selector = firstDefinition classes selector := by
  rw [firstDefinition, List.findSome?_cons, h]
  rfl

theorem firstDefinition_cons_of_some {c : Class} {selector : String} {m : Method}
    (h : c.methods.get? selector = some m) (classes : List Class) :
    firstDefinition (c :: classes) selector = some m := by
  rw [firstDefinition, List.findSome?_cons, h]

/-- A walk that comes to the class of a new method first finds the method. -/
theorem firstDefinition_of_meets {classes : List Class} {owner selector : String} (m : Method)
    (h : Meets classes owner selector) :
    firstDefinition (classes.map (withMethod owner selector m)) selector = some m := by
  induction classes with
  | nil => exact absurd h (not_meets_nil owner selector)
  | cons c classes ih =>
      rw [List.map_cons]
      by_cases hname : c.name = owner
      · exact firstDefinition_cons_of_some (get?_withMethod_self hname) _
      · obtain ⟨hc, hmeets⟩ := (meets_cons.mp h).resolve_left hname
        rw [withMethod_of_ne hname, firstDefinition_cons_of_none hc]
        exact ih hmeets

/-- Any other walk finds what it found. -/
theorem firstDefinition_of_not_meets {classes : List Class} {owner selector : String} (m : Method)
    (h : ¬Meets classes owner selector) :
    firstDefinition (classes.map (withMethod owner selector m)) selector =
      firstDefinition classes selector := by
  induction classes with
  | nil => rfl
  | cons c classes ih =>
      rw [meets_cons, not_or] at h
      obtain ⟨hname, hnot⟩ := h
      rw [List.map_cons, withMethod_of_ne hname]
      cases hc : c.methods.get? selector with
      | some m' => rw [firstDefinition_cons_of_some hc, firstDefinition_cons_of_some hc]
      | none =>
          rw [firstDefinition_cons_of_none hc, firstDefinition_cons_of_none hc]
          exact ih fun hmeets => hnot ⟨hc, hmeets⟩

theorem firstDefinition_of_ne {selector other : String} (h : other ≠ selector) (owner : String)
    (m : Method) (classes : List Class) :
    firstDefinition (classes.map (withMethod owner selector m)) other =
      firstDefinition classes other := by
  rw [firstDefinition, firstDefinition, List.findSome?_map]
  congr 1
  funext c
  exact get?_withMethod_of_ne h owner m c

/-! A method is installed -/

/-- A table has one more method, owned by a class. -/
structure Installs (t t' : ClassTable) (owner selector : String) (m : Method) : Prop where
  /-- It is found wherever the owner is met before any other definition of the selector, -/
  reached : ∀ name classes, t.ancestors name = .ok classes → Meets classes owner selector →
    t'.lookup name selector = .ok (some m)
  /-- and whatever else is looked up in a class is as it was. -/
  spared : ∀ name classes other, t.ancestors name = .ok classes →
    ¬(other = selector ∧ Meets classes owner selector) → t'.lookup name other = t.lookup name other

theorem installs_of_define {className selector : String} {params : List String} {body : Node}
    {m : Method} {replaced : Bool}
    (h : t.define className selector params body = .ok (m, replaced, t')) :
    ∃ c, t.find? className = some c ∧ t.Installs t' c.name selector m := by
  obtain ⟨c, hc, -, -, -, rfl⟩ := exists_of_define h
  -- both walks pass the same classes, one of which may have got the method
  have hlookup : ∀ name d other, t.find? name = some d →
      lookup ⟨t.classes.map (withMethod c.name selector m)⟩ name other =
        .ok (firstDefinition ((chain t.classes d.name).map (withMethod c.name selector m)) other) := by
    intro name d other hd
    rw [lookup_of_find? (find?_map_withMethod c.name selector m hd), chain_map_withMethod]
  refine ⟨c, hc, ?_, ?_⟩
  · intro name classes hclasses hmeets
    obtain ⟨d, hd, rfl⟩ := ancestors_eq_ok_iff.mp hclasses
    rw [hlookup name d selector hd, firstDefinition_of_meets m hmeets]
  · intro name classes other hclasses hnot
    obtain ⟨d, hd, rfl⟩ := ancestors_eq_ok_iff.mp hclasses
    rw [hlookup name d other hd, lookup_of_find? hd]
    by_cases hother : other = selector
    · subst hother
      rw [firstDefinition_of_not_meets m fun hmeets => hnot ⟨rfl, hmeets⟩]
    · rw [firstDefinition_of_ne hother]

/-! A class is registered -/

/-- All answers about a class are the same in two tables. -/
structure SameFor (t t' : ClassTable) (name : String) : Prop where
  lookup : ∀ selector, t'.lookup name selector = t.lookup name selector
  lookupSuper : ∀ selector, t'.lookupSuper name selector = t.lookupSuper name selector
  ancestors : t'.ancestors name = t.ancestors name
  slots : t'.slots name = t.slots name
  selectors : t'.selectors name = t.selectors name

/-- A table has one more class, derived from another one. -/
structure Registers (t t' : ClassTable) (parent name : String) (fields : List String) (c : Class) :
    Prop where
  named : c.name = name
  /-- Nothing changes for the classes that were there. -/
  spared : ∀ other, t.contains other = true → t.SameFor t' other
  /-- The new class answers as its superclass does, and declares its own variables after the others. -/
  lookup : ∀ selector, t'.lookup name selector = t.lookup parent selector
  ancestors : ∃ classes, t.ancestors parent = .ok classes ∧ t'.ancestors name = .ok (c :: classes)
  slots : ∃ inherited, t.slots parent = .ok inherited ∧ t'.slots name = .ok (inherited ++ fields)

theorem lookup_of_ancestors {name : String} {classes : List Class}
    (h : t.ancestors name = .ok classes) (selector : String) :
    t.lookup name selector = .ok (firstDefinition classes selector) := by
  rw [lookup, h]
  rfl

theorem WellFormed.sameFor_of_subclass (ht : t.WellFormed) {parent name : String}
    {fields : List String} {c : Class} (h : t.subclass parent name fields = .ok (c, t'))
    {other : String} (hother : t.contains other = true) : t.SameFor t' other := by
  obtain ⟨d, hd⟩ := Option.isSome_iff_exists.mp hother
  obtain ⟨hd', hchain⟩ := ht.kept_by_subclass h hd
  have hancestors : t'.ancestors other = t.ancestors other := by
    rw [ancestors_of_find? hd', ancestors_of_find? hd, hchain]
  refine ⟨fun selector => ?_, fun selector => ?_, hancestors, ?_, ?_⟩
  · rw [lookup, lookup, hancestors]
  · rw [(ht.subclass h).stacked.lookupSuper_eq hd', ht.stacked.lookupSuper_eq hd, hchain]
  · rw [slots, slots, hancestors]
  · rw [selectors, selectors, hancestors]

theorem WellFormed.registers_of_subclass (ht : t.WellFormed) {parent name : String}
    {fields : List String} {c : Class} (h : t.subclass parent name fields = .ok (c, t')) :
    t.Registers t' parent name fields c := by
  have hspared : ∀ other, t.contains other = true → t.SameFor t' other :=
    fun _ hother => ht.sameFor_of_subclass h hother
  have hwellFormed := ht.subclass h
  obtain ⟨p, hp, -, -, rfl, rfl⟩ := exists_of_subclass ht.stacked h
  have hparent := ancestors_of_find? hp
  -- the walk from the new class goes on as the walk from its superclass
  have hnew : ancestors ⟨⟨name, some p.name, fields, .empty⟩ :: t.classes⟩ name =
      .ok (⟨name, some p.name, fields, .empty⟩ :: chain t.classes p.name) := by
    rw [ancestors_of_find? (hwellFormed.stacked.find?_name List.mem_cons_self)]
    exact congrArg Except.ok (chain_cons_of_parent rfl t.classes)
  refine ⟨rfl, hspared, fun selector => ?_, ⟨_, hparent, hnew⟩, ?_⟩
  · rw [lookup_of_ancestors hnew, lookup_of_ancestors hparent, firstDefinition_cons_of_none rfl]
  · refine ⟨_, slots_of_find? hp, ?_⟩
    rw [slots, hnew]
    simp only [bind, Except.bind, pure, Except.pure, List.reverse_cons, List.flatMap_append,
      List.flatMap_singleton]

/-! Selectors -/

theorem nodup_eraseDups (names : List String) : names.eraseDups.Nodup := by
  induction hlength : names.length using Nat.strongRecOn generalizing names with
  | ind n ih =>
      cases names with
      | nil => exact List.nodup_nil
      | cons name names =>
          rw [List.eraseDups_cons, List.nodup_cons]
          refine ⟨by simp, ih _ ?_ _ rfl⟩
          rw [← hlength, List.length_cons]
          exact Nat.lt_succ_of_le (List.length_filter_le _ names)

theorem firstDefinition_eq_some_iff {classes : List Class} {selector : String} :
    (∃ m, firstDefinition classes selector = some m) ↔
      ∃ c ∈ classes, selector ∈ c.methods.keys := by
  rw [← Option.isSome_iff_exists, firstDefinition, List.findSome?_isSome_iff]
  simp only [← OrderedMap.contains_iff_mem_keys, OrderedMap.contains]

/-- The selectors of a class are in increasing order, none of them twice, and something is found under
each of them and under no other. -/
theorem selectors_exact {name : String} (h : t.contains name = true) :
    ∃ all, t.selectors name = .ok all ∧ all.Pairwise (· < ·) ∧
      ∀ selector, selector ∈ all ↔ ∃ m, t.lookup name selector = .ok (some m) := by
  obtain ⟨c, hc⟩ := Option.isSome_iff_exists.mp h
  have hancestors := ancestors_of_find? hc
  refine ⟨_, by rw [selectors, hancestors]; rfl, ?_, fun selector => ?_⟩
  · set all := (chain t.classes c.name).flatMap (·.methods.keys)
    have hsorted : (all.eraseDups.mergeSort (· ≤ ·)).Pairwise (· ≤ ·) :=
      List.pairwise_mergeSort' (· ≤ ·) _
    have hnodup : (all.eraseDups.mergeSort (· ≤ ·)).Nodup :=
      (List.mergeSort_perm _ _).nodup_iff.mpr (nodup_eraseDups all)
    exact (hsorted.and hnodup).imp fun hab => lt_of_le_of_ne hab.1 hab.2
  · rw [List.mem_mergeSort, List.mem_eraseDups, List.mem_flatMap, ← firstDefinition_eq_some_iff]
    simp only [lookup_of_ancestors hancestors, Except.ok.injEq]

/-- Definitions have their exact effect on the whole hierarchy, whatever was asked of the table before. A
method is found from then on by the classes that come to its class before another definition of its
selector, and nothing else is looked up differently. A new class leaves all answers about the others as
they were, and has the methods, the ancestors and the variables of its superclass, itself and its own
variables added. And the selectors of a class are those under which something is found. -/
theorem definitions_exact (calls : List Call) :
    (∀ className selector params body m replaced t',
      (initial.afterAll calls).define className selector params body = .ok (m, replaced, t') →
      ∃ c, (initial.afterAll calls).find? className = some c ∧
        (initial.afterAll calls).Installs t' c.name selector m) ∧
    (∀ parent name fields c t',
      (initial.afterAll calls).subclass parent name fields = .ok (c, t') →
      (initial.afterAll calls).Registers t' parent name fields c) ∧
    ∀ name, (initial.afterAll calls).contains name = true →
      ∃ all, (initial.afterAll calls).selectors name = .ok all ∧ all.Pairwise (· < ·) ∧
        ∀ selector, selector ∈ all ↔
          ∃ m, (initial.afterAll calls).lookup name selector = .ok (some m) := by
  have ht := WellFormed.initial.afterAll calls
  refine ⟨?_, ?_, fun name h => selectors_exact h⟩
  · intro className selector params body m replaced t' h
    exact installs_of_define h
  · intro parent name fields c t' h
    exact ht.registers_of_subclass h

/-- Two classes under the root, one of which overrides a method of the root, and a class below each. -/
def familyCalls : List Call :=
  [.create "A", .create "B", .subclass "A" "C" ["x"], .subclass "B" "D" [],
    .define "Class" "id" [] (.suite none .sequence []), .define "A" "id" [] (.suite none .sequence [])]

def redefinition : Method :=
  ⟨"id", [], .suite none .sequence [.atom none .self], "Object"⟩

/-- A redefinition at the root, under its other name, reaches the class below the one that overrides
nothing, and not the class below the one that overrides the method. -/
theorem definitions_exact_overridden : ∃ replaced t',
    (initial.afterAll familyCalls).define "Class" "id" [] redefinition.body =
      .ok (redefinition, replaced, t') ∧
    t'.lookup "D" "id" = .ok (some redefinition) ∧
    t'.lookup "C" "id" = (initial.afterAll familyCalls).lookup "C" "id" := by
  obtain ⟨hdefine, -, -⟩ := definitions_exact familyCalls
  obtain ⟨c, hc, hinstalls⟩ := hdefine "Class" "id" [] redefinition.body redefinition _ _ rfl
  have hname : c.name = rootName := (mem_of_find? hc).2
  refine ⟨_, _, rfl, hinstalls.reached "D" _ rfl ?_, hinstalls.spared "C" _ "id" rfl ?_⟩
  · rw [hname]
    decide
  · rw [hname]
    decide

end Parley.ClassTable
