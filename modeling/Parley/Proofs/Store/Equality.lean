import Parley.Machine.Dispatch
import Parley.Proofs.Session
import Parley.Proofs.Store.Spelling

/-! Equality of values whose lists do not contain themselves. The comparison of such a value ends and finds
it equal to what it matches: lists match by their items, all other values by being the same. Matching is an
equivalence that keeps kinds and texts, and lists look for their items with it. -/

namespace Parley.Store

variable {s : Store} {u v w : Value} {r a b : ListRef} {fuel : Nat} {path : List (ListRef × ListRef)}

/-! Matching -/

/-- Two values are the same, or lists as long as each other whose items match place by place. -/
inductive Matches (s : Store) : Value → Value → Prop
  | same {v : Value} (hkind : v.kind ≠ .list) : Matches s v v
  | list {a b : ListRef} (hsize : (s.list a).size = (s.list b).size)
      (h : ∀ (i : Nat) (v w : Value), (s.list a)[i]? = some v → (s.list b)[i]? = some w →
        Matches s v w) : Matches s (.list a) (.list b)

theorem mem_of_getElem? {i : Nat} (h : (s.list r)[i]? = some v) : v ∈ (s.list r).toList :=
  Array.mem_toList_iff.mpr (Array.mem_of_getElem? h)

/-- By induction on the value, which has to come to an end. -/
theorem Founded.matches_self (h : s.Founded v) : s.Matches v v := by
  induction h with
  | simple hkind => exact .same hkind
  | list _ ih =>
      refine .list rfl fun i v w hv hw => ?_
      obtain rfl := Option.some.inj (hv.symm.trans hw)
      exact ih v (mem_of_getElem? hv)

theorem Matches.symm (h : s.Matches v w) : s.Matches w v := by
  induction h with
  | same hkind => exact .same hkind
  | list hsize _ ih => exact .list hsize.symm fun i v w hv hw => ih i w v hw hv

theorem Matches.trans (h : s.Matches u v) (h' : s.Matches v w) : s.Matches u w := by
  induction h generalizing w with
  | same => exact h'
  | @list a b hsize _ ih =>
      cases h' with
      | same hkind => exact absurd rfl hkind
      | @list _ c hsize' hitems' =>
          refine .list (hsize.trans hsize') fun i x z hx hz => ?_
          obtain ⟨hi, -⟩ := Array.getElem?_eq_some_iff.mp hz
          rw [← hsize'] at hi
          have hy := Array.getElem?_eq_getElem hi
          exact ih i x _ hx hy (hitems' i _ z hy hz)

theorem Matches.kind_eq (h : s.Matches v w) : v.kind = w.kind := by
  cases h <;> rfl

/-- Values that are not both lists match if they are the same. -/
theorem matches_iff_eq (hkind : v.kind ≠ .list ∨ w.kind ≠ .list) : s.Matches v w ↔ v = w := by
  constructor
  · intro h
    cases h with
    | same => rfl
    | list => exact absurd rfl (hkind.elim id id)
  · rintro rfl
    exact .same (hkind.elim id id)

/-- Values that match are written alike. -/
theorem Matches.spells (h : s.Matches v w) {text : String} (hv : s.Spells v text) :
    s.Spells w text := by
  induction h generalizing text with
  | same => exact hv
  | @list a b hsize _ ih =>
      cases hv with
      | @list _ texts hlength hpairs =>
          rw [Array.length_toList] at hlength
          refine .list (by rw [Array.length_toList, ← hsize, hlength]) fun p hp => ?_
          obtain ⟨i, hi⟩ := List.mem_iff_getElem?.mp hp
          obtain ⟨hitem, htext⟩ := List.getElem?_zip_eq_some.mp hi
          rw [Array.getElem?_toList] at hitem
          obtain ⟨hlt, -⟩ := Array.getElem?_eq_some_iff.mp hitem
          have hpartner := Array.getElem?_eq_getElem (hsize.symm ▸ hlt : i < (s.list a).size)
          refine ih i _ p.1 hpartner hitem (hpairs (_, p.2) ?_)
          refine List.mem_iff_getElem?.mpr ⟨i, List.getElem?_zip_eq_some.mpr ⟨?_, htext⟩⟩
          rw [Array.getElem?_toList]
          exact hpartner

theorem Matches.of_list (h : s.Matches (.list a) (.list b)) : (s.list a).size = (s.list b).size ∧
    ∀ (i : Nat) (v w : Value), (s.list a)[i]? = some v → (s.list b)[i]? = some w → s.Matches v w := by
  cases h with
  | same hkind => exact absurd rfl hkind
  | list hsize hitems => exact ⟨hsize, hitems⟩

/-- What is found in a value by going from a list to its item at a place, for one place after another. -/
def part? (s : Store) : Value → List Nat → Option Value
  | v, [] => some v
  | .list r, i :: places => (s.list r)[i]?.bind fun v => s.part? v places
  | _, _ :: _ => none

/-- Values that match have parts of the same kinds at the same places. -/
theorem Matches.kinds (h : s.Matches v w) (places : List Nat) :
    (s.part? v places).map Value.kind = (s.part? w places).map Value.kind := by
  induction places generalizing v w with
  | nil => exact congrArg some h.kind_eq
  | cons i places ih =>
      cases h with
      | same => rfl
      | @list a b hsize hitems =>
          rw [part?, part?]
          by_cases hi : i < (s.list a).size
          · have ha := Array.getElem?_eq_getElem hi
            have hb := Array.getElem?_eq_getElem (hsize ▸ hi : i < (s.list b).size)
            rw [ha, hb]
            exact ih (hitems i _ _ ha hb)
          · rw [Array.getElem?_eq_none (Nat.le_of_not_lt hi),
              Array.getElem?_eq_none (Nat.le_of_not_lt (hsize ▸ hi))]

/-! Searches that may come to no end -/

section Searches

variable {α : Type} {f : α → Option Bool} {l : List α}

theorem eq_true_of_allM (h : l.allM f = some true) : ∀ x ∈ l, f x = some true := by
  induction l with
  | nil => exact List.forall_mem_nil _
  | cons x l ih =>
      rw [List.allM] at h
      cases hx : f x with
      | none =>
          rw [hx] at h
          cases h
      | some found =>
          rw [hx] at h
          cases found with
          | false => cases h
          | true => exact List.forall_mem_cons.mpr ⟨hx, ih h⟩

/-- A search in which every test ends finds whether some test succeeds. -/
theorem anyM_eq_some {g : α → Bool} (h : ∀ x ∈ l, f x = some (g x)) : l.anyM f = some (l.any g) := by
  induction l with
  | nil => rfl
  | cons x l ih =>
      obtain ⟨hx, hl⟩ := List.forall_mem_cons.mp h
      rw [List.anyM, hx, List.any_cons]
      cases g x with
      | false => exact ih hl
      | true => rfl

end Searches

/-! Comparing -/

theorem lists_or_kind (v w : Value) :
    (∃ a b, v = .list a ∧ w = .list b) ∨ v.kind ≠ .list ∨ w.kind ≠ .list := by
  cases v with
  | list a =>
      cases w with
      | list b => exact .inl ⟨a, b, rfl, rfl⟩
      | _ => exact .inr (.inr nofun)
  | _ => exact .inr (.inl nofun)

/-- Values that are not both lists are equal if they are the same. -/
theorem equalWithin_of_kind (h : v.kind ≠ .list ∨ w.kind ≠ .list) :
    s.equalWithin fuel path v w = some (decide (v = w)) := by
  cases v with
  | list a =>
      cases w with
      | list b => exact absurd rfl (h.elim id id)
      | _ => cases fuel <;> rfl
  | _ => cases fuel <;> rfl

theorem matches_iff_of_kind (hkind : v.kind ≠ .list ∨ w.kind ≠ .list) {equal : Bool}
    (h : s.equalWithin fuel path v w = some equal) : s.Matches v w ↔ equal = true := by
  rw [equalWithin_of_kind hkind] at h
  rw [matches_iff_eq hkind, ← Option.some.inj h, decide_eq_true_iff]

theorem mem_zip_iff {items items' : Array Value} {p : Value × Value} :
    p ∈ items.toList.zip items'.toList ↔
      ∃ i : Nat, items[i]? = some p.1 ∧ items'[i]? = some p.2 := by
  simp only [List.mem_iff_getElem?, List.getElem?_zip_eq_some, Array.getElem?_toList]

/-- By induction on the nesting that is left: a comparison that ends says whether two values match. -/
theorem Founded.matches_iff_of_equalWithin (hv : s.Founded v) {equal : Bool}
    (h : s.equalWithin fuel path v w = some equal) : s.Matches v w ↔ equal = true := by
  induction fuel generalizing path v w equal with
  | zero =>
      obtain ⟨a, b, rfl, rfl⟩ | hkind := lists_or_kind v w
      · rw [equalWithin] at h
        split_ifs at h with hsame
        cases h
        exact iff_of_true (hsame ▸ hv.matches_self) rfl
      · exact matches_iff_of_kind hkind h
  | succ fuel ih =>
      obtain ⟨a, b, rfl, rfl⟩ | hkind := lists_or_kind v w
      · rw [equalWithin] at h
        split_ifs at h with hsame hmem hsize
        · cases h
          exact iff_of_true (hsame ▸ hv.matches_self) rfl
        · cases h
          exact iff_of_false (fun hmatches => hsize hmatches.of_list.1) Bool.false_ne_true
        · cases equal with
          | true =>
              refine iff_of_true (.list (not_not.mp hsize) fun i x y hx hy => ?_) rfl
              have hp : (x, y) ∈ (s.list a).toList.zip (s.list b).toList :=
                mem_zip_iff.mpr ⟨i, hx, hy⟩
              have hitem := hv.item (List.of_mem_zip hp).1
              exact (ih hitem (eq_true_of_allM h (x, y) hp)).mpr rfl
          | false =>
              obtain ⟨p, hp, hfalse⟩ := exists_of_allM h (by decide)
              have hitem := hv.item (List.of_mem_zip hp).1
              obtain ⟨i, hx, hy⟩ := mem_zip_iff.mp hp
              refine iff_of_false (fun hmatches => ?_) Bool.false_ne_true
              exact Bool.false_ne_true ((ih hitem hfalse).mp (hmatches.of_list.2 i _ _ hx hy))
      · exact matches_iff_of_kind hkind h

/-- The comparison of a value that comes to an end does so, too. -/
theorem Founded.exists_equal? (hv : s.Founded v) (w : Value) : ∃ equal, s.equal? v w = some equal :=
  Option.ne_none_iff_exists'.mp fun h => hv.not_leadsIntoCycle (leadsIntoCycle_of_equal? h)

theorem Founded.equal?_eq_true_iff (hv : s.Founded v) : s.equal? v w = some true ↔ s.Matches v w := by
  obtain ⟨equal, h⟩ := hv.exists_equal? w
  rw [hv.matches_iff_of_equalWithin h, h, Option.some.injEq]

/-- A list is equal to another item by item. -/
theorem Founded.equal?_lists (ha : s.Founded (.list a)) (b : ListRef) :
    s.equal? (.list a) (.list b) = some true ↔ (s.list a).size = (s.list b).size ∧
      ∀ (i : Nat) (x y : Value), (s.list a)[i]? = some x → (s.list b)[i]? = some y →
        s.equal? x y = some true := by
  have hitem : ∀ {i : Nat} {x : Value}, (s.list a)[i]? = some x → s.Founded x :=
    fun hx => ha.item (mem_of_getElem? hx)
  rw [ha.equal?_eq_true_iff]
  constructor
  · intro h
    obtain ⟨hsize, hitems⟩ := h.of_list
    exact ⟨hsize, fun i x y hx hy => (hitem hx).equal?_eq_true_iff.mpr (hitems i x y hx hy)⟩
  · rintro ⟨hsize, hitems⟩
    exact .list hsize fun i x y hx hy => (hitem hx).equal?_eq_true_iff.mp (hitems i x y hx hy)

theorem Founded.equal?_comm (hv : s.Founded v) (hw : s.Founded w) : s.equal? v w = s.equal? w v := by
  obtain ⟨equal, h⟩ := hv.exists_equal? w
  obtain ⟨equal', h'⟩ := hw.exists_equal? v
  have hsame : equal = true ↔ equal' = true := by
    rw [← hv.matches_iff_of_equalWithin h, ← hw.matches_iff_of_equalWithin h']
    exact ⟨Matches.symm, Matches.symm⟩
  rw [h, h', Bool.eq_iff_iff.mpr hsame]

theorem Founded.includes?_eq (h : s.Founded (.list r)) (v : Value) :
    s.includes? (s.list r).toList v =
      some ((s.list r).toList.any fun item => s.equal? item v = some true) := by
  refine anyM_eq_some fun item hitem => ?_
  obtain ⟨equal, hequal⟩ := (h.item hitem).exists_equal? v
  rw [hequal]
  cases equal <;> rfl

/-! Texts of values that match -/

/-- The text of a value that comes to an end can only fail on an integer. -/
theorem Founded.eq_tooLong (hv : s.Founded v) {e : TextFault} (h : s.literal v = .error e) :
    e = .tooLong := by
  cases e with
  | tooLong => rfl
  | bottomless => exact absurd (leadsIntoCycle_of_literal h) hv.not_leadsIntoCycle

theorem Founded.literal_ne_bottomless (hv : s.Founded v) : s.literal v ≠ .error .bottomless :=
  fun h => nomatch hv.eq_tooLong h

theorem Founded.literal_eq (hv : s.Founded v) (hw : s.Founded w) (h : s.Matches v w) :
    s.literal v = s.literal w := by
  cases hleft : s.literal v with
  | ok text => exact (literal_eq_ok_iff.mpr (h.spells (literal_eq_ok_iff.mp hleft))).symm
  | error e =>
      cases hright : s.literal w with
      | ok text =>
          have hspells := h.symm.spells (literal_eq_ok_iff.mp hright)
          exact nomatch hleft.symm.trans (literal_eq_ok_iff.mpr hspells)
      | error e' => rw [hv.eq_tooLong hleft, hw.eq_tooLong hright]

theorem Founded.display_ne_bottomless (hv : s.Founded v) : s.display v ≠ .error .bottomless := by
  cases v with
  | string t => exact nofun
  | _ => exact hv.literal_ne_bottomless

theorem Founded.display_eq (hv : s.Founded v) (hw : s.Founded w) (h : s.Matches v w) :
    s.display v = s.display w := by
  by_cases hkind : v.kind = .string
  · obtain rfl := (matches_iff_eq (.inl (by rw [hkind]; nofun))).mp h
    rfl
  · rw [display_of_ne_string hkind, display_of_ne_string (h.kind_eq ▸ hkind)]
    exact hv.literal_eq hw h

/-! Messages -/

/-- The built-in `==` and `!=` answer what the comparison says. -/
theorem sendPrimitive_equal {equal : Bool} (h : s.equal? v w = some equal) :
    s.sendPrimitive v "==" [w] = (.finish (.boolean equal), s) ∧
      s.sendPrimitive v "!=" [w] = (.finish (.boolean !equal), s) := by
  have hequal : Primitive.find? v.kind "==" = some (.any .equal) := by cases v <;> rfl
  have hnotEqual : Primitive.find? v.kind "!=" = some (.any .notEqual) := by cases v <;> rfl
  have hperform : ∀ p selector, (Primitive.any p).perform s selector v [w] =
      p.perform s selector v [w] := by
    intro p selector
    cases v <;> rfl
  rw [sendPrimitive, sendPrimitive, hequal, hnotEqual]
  dsimp only
  rw [hperform, hperform]
  constructor
  · change Answer.act s (equalFor (s.equal? v w) >>= fun b => pure (Value.boolean b)) = _
    rw [h]
    rfl
  · change Answer.act s (equalFor (s.equal? v w) >>= fun b => pure (Value.boolean !b)) = _
    rw [h]
    rfl

/-- A value answers `==` and `!=` with the comparison unless its class has a method for them. -/
theorem sendMessage_eq_sendPrimitive {selector : String} (hselector : selector = "==" ∨ selector = "!=")
    (hmethod : ∀ r, v = .object r → s.classes.lookup (s.object r).cls.name selector = .ok none)
    (args : List Value) : s.sendMessage v selector args = s.sendPrimitive v selector args := by
  cases v with
  | object r => rw [sendMessage, hmethod r rfl]
  | cls c => rcases hselector with rfl | rfl <;> rfl
  | block r => rcases hselector with rfl | rfl <;> rfl
  | _ => rfl

theorem sendMessage_at {i : Nat} {item : Value} (h : (s.list r)[i]? = some item) :
    s.sendMessage (.list r) "at:" [.integer (i + 1)] = (.finish item, s) := by
  obtain ⟨hi, -⟩ := Array.getElem?_eq_some_iff.mp h
  have hindex : s.itemIndex "at:" (s.list r) (.integer (i + 1)) = .ok i := by
    have hrange : (1 : Int) ≤ i + 1 ∧ (i + 1 : Int) ≤ (s.list r).size := by omega
    unfold itemIndex
    dsimp only [integerArgument, bind, Except.bind]
    rw [if_pos hrange]
    exact congrArg Except.ok (by omega)
  change Answer.act s (s.itemIndex "at:" (s.list r) (.integer (i + 1)) >>= fun i =>
    pure ((s.list r).getD i .nil)) = _
  rw [hindex]
  change (Action.finish ((s.list r).getD i .nil), s) = _
  rw [Array.getD_eq_getD_getElem?, h, Option.getD_some]

theorem sendMessage_includes {found : Bool} (h : s.includes? (s.list r).toList v = some found) :
    s.sendMessage (.list r) "includes:" [v] = (.finish (.boolean found), s) := by
  change Answer.act s (equalFor (s.includes? (s.list r).toList v) >>= fun b => pure (Value.boolean b)) = _
  rw [h]
  rfl

/-- A list includes a value if the item at one of its places is equal to it. -/
theorem Founded.sendMessage_includes_iff (h : s.Founded (.list r)) (v : Value) :
    ∃ found, s.sendMessage (.list r) "includes:" [v] = (.finish (.boolean found), s) ∧
      (found = true ↔ ∃ size i item, s.sendMessage (.list r) "size" [] = (.finish (.integer size), s) ∧
        1 ≤ i ∧ i ≤ size ∧ s.sendMessage (.list r) "at:" [.integer i] = (.finish item, s) ∧
        s.sendPrimitive item "==" [v] = (.finish (.boolean true), s)) := by
  refine ⟨_, sendMessage_includes (h.includes?_eq v), ?_⟩
  simp only [List.any_eq_true, decide_eq_true_iff]
  constructor
  · rintro ⟨item, hitem, hequal⟩
    obtain ⟨i, hi⟩ := List.mem_iff_getElem?.mp hitem
    rw [Array.getElem?_toList] at hi
    obtain ⟨hlt, -⟩ := Array.getElem?_eq_some_iff.mp hi
    refine ⟨(s.list r).size, i + 1, item, rfl, by omega, by omega, sendMessage_at hi, ?_⟩
    exact (sendPrimitive_equal hequal).1
  · rintro ⟨size, i, item, hsize, hfirst, hlast, hat, hequal⟩
    obtain rfl : ((s.list r).size : Int) = size :=
      Value.integer.inj (Action.finish.inj (congrArg Prod.fst hsize))
    obtain ⟨k, rfl⟩ : ∃ k : Nat, i = k + 1 := ⟨(i - 1).toNat, by omega⟩
    have hk : k < (s.list r).size := by omega
    have hitem := Array.getElem?_eq_getElem hk
    have hmem := Array.mem_toList_iff.mpr (Array.getElem_mem hk)
    rw [sendMessage_at hitem] at hat
    obtain rfl := Action.finish.inj (congrArg Prod.fst hat)
    refine ⟨_, hmem, ?_⟩
    obtain ⟨equal, h'⟩ := (h.item hmem).exists_equal? v
    rw [(sendPrimitive_equal h').1] at hequal
    obtain rfl := Value.boolean.inj (Action.finish.inj (congrArg Prod.fst hequal))
    exact h'

/-- What `==` is between three values. -/
structure Equality (s : Store) (u v w : Value) : Prop where
  /-- The comparison ends and is what `==` answers, `!=` answers the opposite. -/
  decided : ∃ equal, s.equal? v w = some equal ∧
    s.sendPrimitive v "==" [w] = (.finish (.boolean equal), s) ∧
    s.sendPrimitive v "!=" [w] = (.finish (.boolean !equal), s)
  /-- It is what the messages come to wherever the receiver's class has no method of its own for them. -/
  sent : ∀ selector, selector = "==" ∨ selector = "!=" →
    (∀ r, v = .object r → s.classes.lookup (s.object r).cls.name selector = .ok none) →
    s.sendMessage v selector [w] = s.sendPrimitive v selector [w]
  refl : s.equal? v v = some true
  symm : s.equal? v w = s.equal? w v
  trans : s.equal? u v = some true → s.equal? v w = some true → s.equal? u w = some true
  /-- Equal values are of one kind, and so are their parts at every depth. -/
  kinds : s.equal? v w = some true →
    ∀ places, (s.part? v places).map Value.kind = (s.part? w places).map Value.kind
  /-- Lists are equal item by item, any other value is equal to itself alone. -/
  lists : ∀ a b, v = .list a → w = .list b →
    (s.equal? v w = some true ↔ (s.list a).size = (s.list b).size ∧
      ∀ (i : Nat) (x y : Value), (s.list a)[i]? = some x → (s.list b)[i]? = some y →
        s.equal? x y = some true)
  others : v.kind ≠ .list ∨ w.kind ≠ .list → s.equal? v w = some (decide (v = w))
  /-- Equal values have the same texts, or fail for the digits of an integer both. -/
  texts : s.equal? v w = some true → s.literal v = s.literal w ∧ s.display v = s.display w ∧
    s.literal v ≠ .error .bottomless ∧ s.display v ≠ .error .bottomless
  /-- A list includes a value if it has an item at some place that is equal to it. -/
  includes : ∀ r, v = .list r →
    ∃ found, s.sendMessage v "includes:" [w] = (.finish (.boolean found), s) ∧
      (found = true ↔ ∃ size i item, s.sendMessage v "size" [] = (.finish (.integer size), s) ∧
        1 ≤ i ∧ i ≤ size ∧ s.sendMessage v "at:" [.integer i] = (.finish item, s) ∧
        s.sendPrimitive item "==" [w] = (.finish (.boolean true), s))

/-- Among values whose lists do not contain themselves `==` is an equivalence that lists and texts
respect. -/
theorem equal_laws (s : Store) {u v w : Value} (hu : ¬s.LeadsIntoCycle u) (hv : ¬s.LeadsIntoCycle v)
    (hw : ¬s.LeadsIntoCycle w) : s.Equality u v w := by
  replace hu := (founded_or_cycle s u).resolve_right hu
  replace hv := (founded_or_cycle s v).resolve_right hv
  replace hw := (founded_or_cycle s w).resolve_right hw
  obtain ⟨equal, hequal⟩ := hv.exists_equal? w
  refine ⟨⟨equal, hequal, sendPrimitive_equal hequal⟩, ?_, ?_, hv.equal?_comm hw, ?_, ?_, ?_,
    equalWithin_of_kind, ?_, ?_⟩
  · exact fun selector hselector hmethod => sendMessage_eq_sendPrimitive hselector hmethod [w]
  · exact hv.equal?_eq_true_iff.mpr hv.matches_self
  · rw [hu.equal?_eq_true_iff, hv.equal?_eq_true_iff, hu.equal?_eq_true_iff]
    exact Matches.trans
  · rw [hv.equal?_eq_true_iff]
    exact Matches.kinds
  · rintro a b rfl rfl
    exact hv.equal?_lists b
  · intro h
    have hmatches := hv.equal?_eq_true_iff.mp h
    exact ⟨hv.literal_eq hw hmatches, hv.display_eq hw hmatches, hv.literal_ne_bottomless,
      hv.display_ne_bottomless⟩
  · rintro r rfl
    exact hv.sendMessage_includes_iff w

/-- A list with a boolean, one with an integer, two that hold both of these, and one that holds itself. -/
def mixedStore : Store :=
  { initial false with
    lists := #[#[.boolean true], #[.integer 1], #[.list ⟨0⟩, .list ⟨1⟩], #[.list ⟨0⟩, .list ⟨1⟩],
      #[.list ⟨4⟩]] }

/-- The last list does not keep the others from being compared. -/
theorem equal_laws_mixed : ¬mixedStore.LeadsIntoCycle (.list ⟨2⟩) ∧ ¬mixedStore.LeadsIntoCycle (.list ⟨3⟩) ∧
    mixedStore.Equality (.list ⟨2⟩) (.list ⟨3⟩) (.list ⟨2⟩) ∧
    mixedStore.equal? (.list ⟨2⟩) (.list ⟨3⟩) = some true ∧
    mixedStore.equal? (.list ⟨0⟩) (.list ⟨1⟩) = some false := by
  have hitems : ∀ v ∈ [Value.list ⟨0⟩, .list ⟨1⟩], mixedStore.Founded v := by
    intro v hv
    rcases List.mem_pair.mp hv with rfl | rfl
    · refine .list fun v hv => ?_
      obtain rfl : v = .boolean true := by simpa [mixedStore, list] using hv
      exact .simple (by decide)
    · refine .list fun v hv => ?_
      obtain rfl : v = .integer 1 := by simpa [mixedStore, list] using hv
      exact .simple (by decide)
  have hthird : ¬mixedStore.LeadsIntoCycle (.list ⟨2⟩) := Founded.not_leadsIntoCycle (.list hitems)
  have hfourth : ¬mixedStore.LeadsIntoCycle (.list ⟨3⟩) := Founded.not_leadsIntoCycle (.list hitems)
  exact ⟨hthird, hfourth, equal_laws mixedStore hthird hfourth hthird, by decide, by decide⟩

end Parley.Store

namespace Parley.Interpreter

/-- Statements that make an instance whose class has an `==` of its own, which answers false to everything,
and a list with the instance. -/
def overridingProgram : List Node :=
  [.send none (.atom none (.variable "Object")) "subclass name:" [.atom none (.symbol "A")],
    .send none (.atom none (.variable "A")) "def: do:"
      [.atom none (.string "=="), .block none ["o"] none [.atom none (.boolean false)]],
    .store none (.define "a" "=") (.send none (.atom none (.variable "A")) "new" []),
    .store none (.define "l" "=") (.list none [.atom none (.variable "a")])]

/-- What a message is answered in a store. -/
def answerTo? (s : Store) (receiver : Value) (selector : String) (args : List Value) : Option Value :=
  (execute (.frames 20) 60 (.message receiver selector args) s).bind fun r => valueOf? r.1

/-- The instance is not even equal to itself by the message, so the list includes it although the message
finds no item equal to it. -/
theorem includes_without_equal : ∃ v s,
    runStatements (.frames 20) 60 .nil overridingProgram (.initial false) = some (.completed v, s) ∧
    ¬s.Circular ∧
    answerTo? s (.list ⟨0⟩) "includes:" [.object ⟨0⟩] = some (.boolean true) ∧
    answerTo? s (.list ⟨0⟩) "size" [] = some (.integer 1) ∧
    answerTo? s (.list ⟨0⟩) "at:" [.integer 1] = some (.object ⟨0⟩) ∧
    answerTo? s (.object ⟨0⟩) "==" [.object ⟨0⟩] = some (.boolean false) := by
  have hrun : (storeAfter? (.frames 20) 60 false overridingProgram).any (fun s =>
      (s.lists.all fun items => items.all fun v => v.kind ≠ .list) &&
      decide (answerTo? s (.list ⟨0⟩) "includes:" [.object ⟨0⟩] = some (.boolean true) ∧
        answerTo? s (.list ⟨0⟩) "size" [] = some (.integer 1) ∧
        answerTo? s (.list ⟨0⟩) "at:" [.integer 1] = some (.object ⟨0⟩) ∧
        answerTo? s (.object ⟨0⟩) "==" [.object ⟨0⟩] = some (.boolean false))) = true := by
    decide +kernel
  obtain ⟨s, hs, hcheck⟩ := (Option.any_eq_true _ _).mp hrun
  obtain ⟨hflat, hanswers⟩ := (Bool.and_eq_true _ _).mp hcheck
  obtain ⟨v, hbefore⟩ := exists_of_storeAfter? hs
  exact ⟨v, s, hbefore, Store.not_circular_of_flat hflat, of_decide_eq_true hanswers⟩

end Parley.Interpreter
