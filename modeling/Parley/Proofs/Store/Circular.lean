import Mathlib.Data.List.Chain
import Mathlib.Data.List.Nodup
import Mathlib.Data.List.Perm.Subperm
import Mathlib.Data.List.ProdSigma
import Mathlib.Logic.Relation
import Parley.Proofs.Except
import Parley.Store.Equality
import Parley.Store.Text

/-! Lists and instances that contain themselves. The text of a value and the comparison of two values come
to no end only if some list of the store contains itself: both follow items along a trail that either
comes back to a list it has passed or would be longer than there are lists. The text of a value in a log
goes on into instances, and comes to no end only if some instance holds itself. -/

namespace Parley

section Trails

variable {α : Type} {R : α → α → Prop} {all path : List α} {a : α}

/-- Places that were passed one after another, the latest first, none of them twice. -/
structure Trail (R : α → α → Prop) (all path : List α) : Prop where
  chain : path.IsChain fun a b => R b a
  nodup : path.Nodup
  subset : path ⊆ all

theorem Trail.nil : Trail R all [] := ⟨.nil, .nil, List.nil_subset all⟩

theorem Trail.cons (h : Trail R all path) (hnew : ∀ top ∈ path.head?, R top a) (hmem : a ∉ path)
    (hall : a ∈ all) : Trail R all (a :: path) := by
  refine ⟨?_, List.nodup_cons.mpr ⟨hmem, h.nodup⟩, List.cons_subset.mpr ⟨hall, h.subset⟩⟩
  exact List.isChain_cons.mpr ⟨hnew, h.chain⟩

theorem Trail.length_le (h : Trail R all path) : path.length ≤ all.length :=
  (h.nodup.subperm h.subset).length_le

/-- The latest place of a trail can be reached from each place of it. -/
theorem Trail.reaches (h : Trail R all (a :: path)) {b : α} (hb : b ∈ a :: path) :
    Relation.ReflTransGen R b a := by
  obtain ⟨hchain, -, -⟩ := h
  induction path generalizing a with
  | nil =>
      obtain rfl := List.mem_singleton.mp hb
      exact .refl
  | cons c path ih =>
      rcases List.mem_cons.mp hb with rfl | hb
      · exact .refl
      · obtain ⟨hac, hchain⟩ := List.isChain_cons_cons.mp hchain
        exact (ih hb hchain).tail hac

/-- A trail that would come back to one of its places is a cycle. -/
theorem Trail.cycle (h : Trail R all path) (hnew : ∀ top ∈ path.head?, R top a) (ha : a ∈ path) :
    Relation.TransGen R a a := by
  cases path with
  | nil => cases ha
  | cons top path => exact Relation.TransGen.tail' (h.reaches ha) (hnew top rfl)

end Trails

namespace Store

/-- A list is an item of another. -/
def Holds (s : Store) (r r' : ListRef) : Prop := Value.list r' ∈ (s.list r).toList

/-- Some list contains itself, as an item or further inside. -/
def Circular (s : Store) : Prop := ∃ r, Relation.TransGen s.Holds r r

/-- Some list that is reached through items of lists, the value itself included, contains itself. -/
def LeadsIntoCycle (s : Store) (v : Value) : Prop :=
  ∃ r r', v = .list r ∧ Relation.ReflTransGen s.Holds r r' ∧ Relation.TransGen s.Holds r' r'

/-- The references to all lists of a store. -/
def listRefs (s : Store) : List ListRef := (List.range s.lists.size).map ListRef.mk

/-- A list with an item is one of the lists of the store. -/
theorem mem_listRefs {s : Store} {r : ListRef} {v : Value} (hv : v ∈ (s.list r).toList) :
    r ∈ s.listRefs := by
  refine List.mem_map.mpr ⟨r.index, List.mem_range.mpr ?_, rfl⟩
  by_contra hlt
  rw [list, Array.getD_eq_getD_getElem?, Array.getElem?_eq_none (Nat.le_of_not_lt hlt)] at hv
  cases hv

variable {s : Store}

theorem LeadsIntoCycle.circular {v : Value} (h : s.LeadsIntoCycle v) : s.Circular := by
  obtain ⟨-, r, -, -, hcycle⟩ := h
  exact ⟨r, hcycle⟩

/-- In a store whose lists hold no lists, no list contains itself. -/
theorem not_circular_of_flat (h : (s.lists.all fun items => items.all fun v => v.kind ≠ .list) = true) :
    ¬s.Circular := by
  rintro ⟨r, hcycle⟩
  obtain ⟨r', hholds, -⟩ := Relation.TransGen.head'_iff.mp hcycle
  rw [Array.all_eq_true'] at h
  rw [Holds, list, Array.getD_eq_getD_getElem?] at hholds
  cases hr : s.lists[r.index]? with
  | none =>
      rw [hr] at hholds
      cases hholds
  | some items =>
      rw [hr] at hholds
      have hitems := Array.all_eq_true'.mp (h items (Array.mem_of_getElem? hr))
      have hkind := hitems _ (Array.mem_toList_iff.mp hholds)
      simp [Value.kind] at hkind

theorem LeadsIntoCycle.of_item {r : ListRef} {v : Value} (h : s.LeadsIntoCycle v)
    (hv : v ∈ (s.list r).toList) : s.LeadsIntoCycle (.list r) := by
  obtain ⟨r₁, r₂, rfl, hreaches, hcycle⟩ := h
  exact ⟨r, r₂, rfl, hreaches.head hv, hcycle⟩

theorem integerText_ne_bottomless (n : Int) : integerText n ≠ .error .bottomless := by
  unfold integerText
  split <;> simp

/-- Only a list can be without a text because of itself. -/
theorem exists_list_of_literalWithin {fuel : Nat} {path : List ListRef} {v : Value}
    (h : s.literalWithin fuel path v = .error .bottomless) : ∃ r, v = .list r := by
  cases v with
  | list r => exact ⟨r, rfl⟩
  | integer n => exact absurd (by cases fuel <;> exact h) (integerText_ne_bottomless n)
  | nil => cases fuel <;> cases h
  | boolean b => cases fuel <;> cases h
  | string t => cases fuel <;> cases h
  | block r => cases fuel <;> cases h
  | object r => cases fuel <;> cases h
  | cls c => cases fuel <;> cases h

/-- The literal of a value inside the lists of a trail. -/
theorem leadsIntoCycle_of_literalWithin {fuel : Nat} {path : List ListRef} {v : Value}
    (hpath : Trail s.Holds s.listRefs path) (hfuel : fuel + path.length = s.lists.size + 1)
    (hv : ∀ r, v = .list r → ∀ top ∈ path.head?, s.Holds top r)
    (h : s.literalWithin fuel path v = .error .bottomless) : s.LeadsIntoCycle v := by
  obtain ⟨r, rfl⟩ := exists_list_of_literalWithin h
  induction fuel generalizing path r with
  | zero =>
      have hlength := hpath.length_le
      rw [listRefs, List.length_map, List.length_range] at hlength
      omega
  | succ fuel ih =>
      unfold literalWithin at h
      split_ifs at h with hmem
      · exact ⟨r, r, rfl, .refl, hpath.cycle (hv r rfl) hmem⟩
      · split at h
        · cases h
        · next e hitems =>
            cases h
            obtain ⟨item, hitem, herror⟩ := exists_of_mapM_eq_error hitems
            obtain ⟨r', rfl⟩ := exists_list_of_literalWithin herror
            refine (ih (hpath.cons (hv r rfl) hmem (mem_listRefs hitem)) ?_ r' ?_ herror).of_item hitem
            · rw [List.length_cons]
              omega
            · rintro r'' ⟨⟩ top htop
              obtain rfl := Option.some.inj htop
              exact hitem

/-- Only a value that leads into a cycle is without a text because of what it holds. -/
theorem leadsIntoCycle_of_literal {v : Value} (h : s.literal v = .error .bottomless) :
    s.LeadsIntoCycle v :=
  leadsIntoCycle_of_literalWithin .nil rfl (fun _ _ _ htop => nomatch htop) h

/-- A value without a text is part of a store in which some list contains itself. -/
theorem circular_of_literal {v : Value} (h : s.literal v = .error .bottomless) : s.Circular :=
  (leadsIntoCycle_of_literal h).circular

theorem circular_of_display {v : Value} (h : s.display v = .error .bottomless) : s.Circular := by
  rw [display.eq_def] at h
  split at h
  · cases h
  · exact circular_of_literal h

/-! Comparisons -/

/-- Two lists are items at the same place of two others. -/
def HoldsBoth (s : Store) (p q : ListRef × ListRef) : Prop :=
  s.Holds p.1 q.1 ∧ s.Holds p.2 q.2

/-- A test of all members that does not succeed comes out as the test of one of them. -/
theorem exists_of_allM {α : Type} {f : α → Option Bool} {l : List α} {outcome : Option Bool}
    (h : l.allM f = outcome) (houtcome : outcome ≠ some true) : ∃ a ∈ l, f a = outcome := by
  induction l with
  | nil => exact absurd h.symm houtcome
  | cons a l ih =>
      rw [List.allM] at h
      cases ha : f a with
      | none =>
          rw [ha] at h
          exact ⟨a, List.mem_cons_self, ha.trans h⟩
      | some b =>
          rw [ha] at h
          cases b with
          | false => exact ⟨a, List.mem_cons_self, ha.trans h⟩
          | true =>
              obtain ⟨c, hc, hsame⟩ := ih h
              exact ⟨c, List.mem_cons_of_mem a hc, hsame⟩

theorem exists_of_anyM_eq_none {α : Type} {f : α → Option Bool} {l : List α}
    (h : l.anyM f = none) : ∃ a ∈ l, f a = none := by
  induction l with
  | nil => cases h
  | cons a l ih =>
      rw [List.anyM] at h
      cases ha : f a with
      | none => exact ⟨a, List.mem_cons_self, ha⟩
      | some b =>
          rw [ha] at h
          cases b with
          | true => cases h
          | false =>
              obtain ⟨c, hc, hnone⟩ := ih h
              exact ⟨c, List.mem_cons_of_mem a hc, hnone⟩

theorem exists_lists_of_equalWithin {fuel : Nat} {path : List (ListRef × ListRef)} {v w : Value}
    (h : s.equalWithin fuel path v w = none) : ∃ a b, v = .list a ∧ w = .list b := by
  cases v with
  | list a =>
      cases w with
      | list b => exact ⟨a, b, rfl, rfl⟩
      | _ => cases fuel <;> cases h
  | _ => cases fuel <;> cases h

/-- The comparison of two values inside the pairs of a trail. -/
theorem leadsIntoCycle_of_equalWithin {fuel : Nat} {path : List (ListRef × ListRef)} {a b : ListRef}
    (hpath : Trail s.HoldsBoth (s.listRefs ×ˢ s.listRefs) path)
    (hfuel : fuel + path.length = s.lists.size * s.lists.size + 1)
    (hv : ∀ top ∈ path.head?, s.HoldsBoth top (a, b))
    (h : s.equalWithin fuel path (.list a) (.list b) = none) :
    s.LeadsIntoCycle (.list a) := by
  induction fuel generalizing path a b with
  | zero =>
      have hlength := hpath.length_le
      rw [List.length_product, listRefs, List.length_map, List.length_range] at hlength
      omega
  | succ fuel ih =>
      rw [equalWithin] at h
      split_ifs at h with hsame hmem hsize
      · have hcycle := hpath.cycle hv hmem
        exact ⟨a, a, rfl, .refl, hcycle.lift Prod.fst fun _ _ hboth => hboth.1⟩
      · obtain ⟨⟨v, w⟩, hpair, hnone⟩ := exists_of_allM h nofun
        obtain ⟨c, d, rfl, rfl⟩ := exists_lists_of_equalWithin hnone
        obtain ⟨hc, hd⟩ := List.of_mem_zip hpair
        have hall := List.mem_product.mpr ⟨mem_listRefs hc, mem_listRefs hd⟩
        refine (ih (hpath.cons hv hmem hall) ?_ ?_ hnone).of_item hc
        · rw [List.length_cons]
          omega
        · intro top htop
          obtain rfl := Option.some.inj htop
          exact ⟨hc, hd⟩

/-- A value whose comparison does not end leads into a cycle. -/
theorem leadsIntoCycle_of_equal? {v w : Value} (h : s.equal? v w = none) : s.LeadsIntoCycle v := by
  obtain ⟨a, b, rfl, rfl⟩ := exists_lists_of_equalWithin h
  exact leadsIntoCycle_of_equalWithin .nil rfl (fun _ htop => nomatch htop) h

/-- Values whose comparison does not end are in a store in which some list contains itself. -/
theorem circular_of_equal? {v w : Value} (h : s.equal? v w = none) : s.Circular :=
  (leadsIntoCycle_of_equal? h).circular

theorem circular_of_includes? {items : List Value} {v : Value} (h : s.includes? items v = none) :
    s.Circular := by
  obtain ⟨item, -, hnone⟩ := exists_of_anyM_eq_none h
  exact circular_of_equal? hnone

/-! Logs -/

/-- An instance is the value of a variable of another. -/
def HoldsInstance (s : Store) (r r' : ObjectRef) : Prop :=
  ∃ name, (name, Value.object r') ∈ (s.object r).slots.entries

/-- Some instance holds itself, in a variable or further inside. -/
def Ringed (s : Store) : Prop := ∃ r, Relation.TransGen s.HoldsInstance r r

/-- The references to all instances of a store. -/
def objectRefs (s : Store) : List ObjectRef := (List.range s.objects.size).map ObjectRef.mk

/-- An instance with a variable is one of the instances of the store. -/
theorem mem_objectRefs {r : ObjectRef} {e : String × Value} (he : e ∈ (s.object r).slots.entries) :
    r ∈ s.objectRefs := by
  refine List.mem_map.mpr ⟨r.index, List.mem_range.mpr ?_, rfl⟩
  by_contra hlt
  rw [object, Array.getD_eq_getD_getElem?, Array.getElem?_eq_none (Nat.le_of_not_lt hlt)] at he
  cases he

/-- Only lists and instances can be without a log text because of what they hold. -/
theorem exists_holder_of_inspectWithin {fuel : Nat} {path : List ListRef} {since : List ObjectRef}
    {v : Value} (h : s.inspectWithin fuel path since v = .error .bottomless) :
    (∃ r, v = .list r) ∨ ∃ r, v = .object r := by
  cases v with
  | list r => exact .inl ⟨r, rfl⟩
  | object r => exact .inr ⟨r, rfl⟩
  | integer n =>
      have hinteger : (integerText n).map (fun t => "Value(" ++ t ++ ")") = .error .bottomless := by
        cases fuel <;> exact h
      exact absurd (eq_error_of_map_eq_error hinteger) (integerText_ne_bottomless n)
  | nil => cases fuel <;> cases h
  | boolean b => cases fuel <;> cases h
  | string t => cases fuel <;> cases h
  | block r => cases fuel <;> cases h
  | cls c => cases fuel <;> cases h

/-- The log text of a value inside the lists of a path, and inside instances since the latest of them. -/
theorem ringed_of_inspectWithin {fuel : Nat} {path : List ListRef} {since : List ObjectRef} {v : Value}
    (hpath : Trail (fun _ _ => True) s.listRefs path)
    (hsince : Trail s.HoldsInstance s.objectRefs since)
    (hfuel : (s.lists.size - path.length) * (s.objects.size + 1) +
      (s.objects.size + 1 - since.length) ≤ fuel)
    (hv : ∀ r, v = .object r → ∀ top ∈ since.head?, s.HoldsInstance top r)
    (h : s.inspectWithin fuel path since v = .error .bottomless) : s.Ringed := by
  have hlength : since.length ≤ s.objects.size := by
    have hle := hsince.length_le
    rwa [objectRefs, List.length_map, List.length_range] at hle
  induction fuel generalizing path since v with
  | zero => omega
  | succ fuel ih =>
      rcases exists_holder_of_inspectWithin h with ⟨r, rfl⟩ | ⟨r, rfl⟩
      · -- a list is entered: there is one list less to enter, and the instances start anew
        unfold inspectWithin at h
        split_ifs at h with hmem
        split at h
        · cases h
        · next e hitems =>
            cases h
            obtain ⟨item, hitem, herror⟩ := exists_of_mapM_eq_error hitems
            have hpath' := hpath.cons (fun _ _ => trivial) hmem (mem_listRefs hitem)
            have hle := hpath'.length_le
            rw [listRefs, List.length_map, List.length_range, List.length_cons] at hle
            obtain ⟨k, hk⟩ : ∃ k, s.lists.size - path.length = k + 1 :=
              ⟨s.lists.size - path.length - 1, by omega⟩
            have hk' : s.lists.size - (r :: path).length = k := by
              rw [List.length_cons]
              omega
            rw [hk, Nat.succ_mul] at hfuel
            refine ih hpath' .nil ?_ (fun _ _ _ htop => nomatch htop) herror (Nat.zero_le _)
            rw [hk', List.length_nil]
            omega
      · -- an instance is entered that was not entered since the latest list
        unfold inspectWithin at h
        split_ifs at h with hmem
        · exact ⟨r, hsince.cycle (hv r rfl) hmem⟩
        · simp only at h
          split at h
          · cases h
          · next e hslots =>
              cases h
              obtain ⟨⟨name, w⟩, hslot, herror⟩ := exists_of_mapM_eq_error hslots
              have hsince' := hsince.cons (hv r rfl) hmem (mem_objectRefs hslot)
              have hle := hsince'.length_le
              rw [objectRefs, List.length_map, List.length_range] at hle
              refine ih hpath hsince' ?_ ?_ (eq_error_of_map_eq_error herror) hle
              · rw [List.length_cons]
                omega
              · rintro r' rfl top htop
                obtain rfl := Option.some.inj htop
                exact ⟨name, hslot⟩

/-- Arguments without a log text are in a store in which some instance holds itself. -/
theorem ringed_of_inspectAll {vs : List Value} (h : s.inspectAll vs = .error .bottomless) :
    s.Ringed := by
  obtain ⟨v, -, hv⟩ := exists_of_mapM_eq_error (eq_error_of_map_eq_error h)
  refine ringed_of_inspectWithin .nil .nil ?_ (fun _ _ _ htop => nomatch htop) hv
  rw [List.length_nil, List.length_nil, Nat.sub_zero, Nat.sub_zero, ← Nat.succ_mul]

end Store

end Parley
