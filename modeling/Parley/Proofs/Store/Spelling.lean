import Parley.Proofs.Store.Literals

/-! What values are written as. A value leads into a cycle if a list among its parts contains itself;
all other values are founded, since going from list to item comes to an end in them. The text of a founded
value is put together from the texts of its items, whatever lists are shared, and any other value has none. -/

namespace Parley

/-- A value is no integer with too many digits. -/
def Value.Writable : Value → Prop
  | .integer i => i.natAbs < Text.tooLong
  | _ => True

namespace Store

variable {s : Store} {v w : Value} {r r' : ListRef} {fuel : Nat} {path : List ListRef}

/-! Values that come to an end -/

/-- Going from a list to an item and on comes to an end. -/
inductive Founded (s : Store) : Value → Prop
  | simple {v : Value} (h : v.kind ≠ .list) : Founded s v
  | list {r : ListRef} (h : ∀ v ∈ (s.list r).toList, Founded s v) : Founded s (.list r)

/-- By induction on the number of lists that a trail has left out: what it leads to is founded, or some
list among its parts leads back to itself. -/
theorem founded_or_cycle_of_trail (hpath : Trail s.Holds s.listRefs path)
    (hv : ∀ r, v = .list r → ∀ top ∈ path.head?, s.Holds top r) : s.Founded v ∨ s.LeadsIntoCycle v := by
  induction hleft : s.lists.size - path.length using Nat.strongRecOn generalizing path v with
  | ind left ih =>
      by_cases hkind : v.kind = .list
      · obtain ⟨r, rfl⟩ : ∃ r, v = .list r := by cases v <;> first | exact ⟨_, rfl⟩ | cases hkind
        by_cases hmem : r ∈ path
        · exact .inr ⟨r, r, rfl, .refl, hpath.cycle (hv r rfl) hmem⟩
        · by_cases hcycle : ∃ w ∈ (s.list r).toList, s.LeadsIntoCycle w
          · obtain ⟨w, hw, hcycle⟩ := hcycle
            exact .inr (hcycle.of_item hw)
          · refine .inl (.list fun w hw => ?_)
            have hpath' := hpath.cons (hv r rfl) hmem (mem_listRefs hw)
            have hlength := hpath'.length_le
            rw [listRefs, List.length_map, List.length_range, List.length_cons] at hlength
            refine (ih _ ?_ hpath' ?_ rfl).resolve_right fun h => hcycle ⟨w, hw, h⟩
            · rw [List.length_cons]
              omega
            · rintro r' rfl top htop
              obtain rfl := Option.some.inj htop
              exact hw
      · exact .inl (.simple hkind)

theorem founded_or_cycle (s : Store) (v : Value) : s.Founded v ∨ s.LeadsIntoCycle v :=
  founded_or_cycle_of_trail .nil fun _ _ _ htop => nomatch htop

/-- By induction on the value: a list on a cycle has an item on it. -/
theorem Founded.not_transGen (h : s.Founded v) : ∀ r, v = .list r → ¬Relation.TransGen s.Holds r r := by
  induction h with
  | simple hkind =>
      rintro r rfl
      exact absurd rfl hkind
  | list _ ih =>
      rintro r ⟨⟩ hcycle
      obtain ⟨r', hr', hback⟩ := Relation.TransGen.head'_iff.mp hcycle
      exact ih _ hr' r' rfl (Relation.TransGen.tail' hback hr')

theorem Founded.item (h : s.Founded (.list r)) (hv : v ∈ (s.list r).toList) : s.Founded v := by
  cases h with
  | simple hkind => exact absurd rfl hkind
  | list hitems => exact hitems v hv

theorem Founded.of_reflTransGen (h : s.Founded (.list r)) (hr : Relation.ReflTransGen s.Holds r r') :
    s.Founded (.list r') := by
  induction hr with
  | refl => exact h
  | tail _ hr ih => exact ih.item hr

theorem Founded.not_leadsIntoCycle (h : s.Founded v) : ¬s.LeadsIntoCycle v := by
  rintro ⟨r, r', rfl, hreaches, hcycle⟩
  exact (h.of_reflTransGen hreaches).not_transGen r' rfl hcycle

/-! Texts -/

/-- What a value is written as, put together from what its items are written as. -/
inductive Spells (s : Store) : Value → String → Prop
  | nil : Spells s .nil "nil"
  | boolean (b : Bool) : Spells s (.boolean b) (if b then "true" else "false")
  | integer {i : Int} (h : i.natAbs < Text.tooLong) : Spells s (.integer i) (toString i)
  | string (t : String) : Spells s (.string t) (stringLiteral t)
  | list {r : ListRef} {texts : List String} (hlength : (s.list r).toList.length = texts.length)
      (h : ∀ p ∈ (s.list r).toList.zip texts, Spells s p.1 p.2) :
      Spells s (.list r) ("[" ++ ", ".intercalate texts ++ "]")
  | block (r : BlockRef) : Spells s (.block r) (s.block r).source
  | object (r : ObjectRef) : Spells s (.object r) (instanceText (s.object r).cls.name)
  | cls (c : ClassRef) : Spells s (.cls c) c.name

/-- What a value is shown as: a string as it is, any other value as it is written. -/
inductive Shows (s : Store) : Value → String → Prop
  | string (t : String) : Shows s (.string t) t
  | other {v : Value} {text : String} (hkind : v.kind ≠ .string) (h : s.Spells v text) : Shows s v text

theorem exists_pair_of_mem {α β : Type} {l : List α} {bs : List β} (h : l.length = bs.length) {a : α}
    (ha : a ∈ l) : ∃ b, (a, b) ∈ l.zip bs := by
  rw [← List.map_fst_zip (Nat.le_of_eq h)] at ha
  obtain ⟨⟨_, b⟩, hp, rfl⟩ := List.mem_map.mp ha
  exact ⟨b, hp⟩

theorem integerText_eq_ok_iff {i : Int} {text : String} :
    integerText i = .ok text ↔ i.natAbs < Text.tooLong ∧ text = toString i := by
  rw [integerText_eq_ite]
  generalize Text.tooLong = k
  by_cases hi : i.natAbs < k
  · simp [hi, eq_comm]
  · simp [hi]

theorem exists_zip_of_forall {α β : Type} {P : α → β → Prop} {l : List α} (h : ∀ a ∈ l, ∃ b, P a b) :
    ∃ bs : List β, l.length = bs.length ∧ ∀ p ∈ l.zip bs, P p.1 p.2 := by
  induction l with
  | nil => exact ⟨[], rfl, List.forall_mem_nil _⟩
  | cons a l ih =>
      obtain ⟨⟨b, hb⟩, hl⟩ := List.forall_mem_cons.mp h
      obtain ⟨bs, hlength, hpairs⟩ := ih hl
      exact ⟨b :: bs, congrArg Nat.succ hlength, List.forall_mem_cons.mpr ⟨hb, hpairs⟩⟩

/-- A text that is answered is the right one. -/
theorem spells_of_literalWithin {text : String} (h : s.literalWithin fuel path v = .ok text) :
    s.Spells v text := by
  induction fuel generalizing path v text with
  | zero =>
      unfold literalWithin at h
      cases v with
      | integer i =>
          obtain ⟨hi, rfl⟩ := integerText_eq_ok_iff.mp h
          exact .integer hi
      | _ => cases h <;> constructor
  | succ fuel ih =>
      unfold literalWithin at h
      cases v with
      | integer i =>
          obtain ⟨hi, rfl⟩ := integerText_eq_ok_iff.mp h
          exact .integer hi
      | list r =>
          dsimp only at h
          split_ifs at h
          split at h
          · next texts htexts =>
              cases h
              obtain ⟨hlength, hpairs⟩ := mapM_eq_ok_iff.mp htexts
              exact .list hlength fun p hp => ih (hpairs p hp)
          · cases h
      | _ =>
          cases h
          constructor

theorem Spells.founded {text : String} (h : s.Spells v text) : s.Founded v := by
  induction h with
  | list hlength _ ih =>
      refine .list fun w hw => ?_
      obtain ⟨text, hp⟩ := exists_pair_of_mem hlength hw
      exact ih _ hp
  | _ => exact .simple nofun

/-- A text that a value has is answered, inside the lists of a trail. -/
theorem Spells.literalWithin_eq {text : String} (h : s.Spells v text)
    (hpath : Trail s.Holds s.listRefs path) (hfuel : fuel + path.length = s.lists.size + 1)
    (hv : ∀ r, v = .list r → ∀ top ∈ path.head?, s.Holds top r) :
    s.literalWithin fuel path v = .ok text := by
  induction h generalizing fuel path with
  | @integer i hi =>
      rw [← integerText_eq hi]
      cases fuel <;> rfl
  | @list r texts hlength hpairs ih =>
      have hfounded := (Spells.list hlength hpairs).founded
      have hnew : r ∉ path := fun hmem => hfounded.not_transGen r rfl (hpath.cycle (hv r rfl) hmem)
      cases fuel with
      | zero =>
          have hle := hpath.length_le
          rw [listRefs, List.length_map, List.length_range] at hle
          omega
      | succ fuel =>
          have htexts : (s.list r).toList.mapM (s.literalWithin fuel (r :: path)) = .ok texts := by
            refine mapM_eq_ok_iff.mpr ⟨hlength, fun p hp => ?_⟩
            have hitem := (List.of_mem_zip hp).1
            refine ih p hp (hpath.cons (hv r rfl) hnew (mem_listRefs hitem)) ?_ ?_
            · rw [List.length_cons]
              omega
            · intro r' hr' top htop
              obtain rfl := Option.some.inj htop
              rwa [hr'] at hitem
          unfold literalWithin
          rw [if_neg hnew, htexts]
  | _ => cases fuel <;> rfl

theorem literal_eq_ok_iff {text : String} : s.literal v = .ok text ↔ s.Spells v text :=
  ⟨spells_of_literalWithin, fun h => h.literalWithin_eq .nil rfl fun _ _ _ htop => nomatch htop⟩

/-! Numbers -/

/-- No list holds an integer with too many digits. -/
def Writable (s : Store) : Prop := ∀ items ∈ s.lists, ∀ v ∈ items, v.Writable

theorem Writable.item (hs : s.Writable) (hv : v ∈ (s.list r).toList) : v.Writable := by
  obtain ⟨i, hi, hr⟩ := List.mem_map.mp (mem_listRefs hv)
  have hlt : r.index < s.lists.size := by
    rw [← hr]
    exact List.mem_range.mp hi
  rw [list, Array.getD_eq_getD_getElem?, Array.getElem?_eq_getElem hlt, Option.getD_some] at hv
  exact hs _ (Array.getElem_mem hlt) v (Array.mem_toList_iff.mp hv)

/-- A founded value has a text if its integers have. -/
theorem Founded.exists_spells (h : s.Founded v) (hs : s.Writable) (hv : v.Writable) :
    ∃ text, s.Spells v text := by
  induction h with
  | @simple v hkind =>
      cases v with
      | integer i => exact ⟨_, .integer hv⟩
      | list r => exact absurd rfl hkind
      | nil => exact ⟨_, .nil⟩
      | boolean b => exact ⟨_, .boolean b⟩
      | string t => exact ⟨_, .string t⟩
      | block r => exact ⟨_, .block r⟩
      | object r => exact ⟨_, .object r⟩
      | cls c => exact ⟨_, .cls c⟩
  | @list r _ ih =>
      obtain ⟨texts, hlength, hpairs⟩ := exists_zip_of_forall fun v hv => ih v hv (hs.item hv)
      exact ⟨_, .list hlength hpairs⟩

theorem literalWithin_ne_tooLong (hs : s.Writable) (hv : v.Writable) :
    s.literalWithin fuel path v ≠ .error .tooLong := by
  intro h
  induction fuel generalizing path v with
  | zero =>
      unfold literalWithin at h
      cases v with
      | integer i =>
          dsimp only at h
          rw [integerText_eq hv] at h
          cases h
      | _ => cases h
  | succ fuel ih =>
      unfold literalWithin at h
      cases v with
      | integer i =>
          dsimp only at h
          rw [integerText_eq hv] at h
          cases h
      | list r =>
          dsimp only at h
          split_ifs at h
          · cases h
          · split at h
            · cases h
            · next e hitems =>
                obtain rfl := Except.error.inj h
                obtain ⟨w, hw, herror⟩ := exists_of_mapM_eq_error hitems
                exact ih (hs.item hw) herror
      | _ => cases h

/-- The text of a value is bottomless if it leads into a cycle, and only then. -/
theorem literal_eq_bottomless_iff (hs : s.Writable) (hv : v.Writable) :
    s.literal v = .error .bottomless ↔ s.LeadsIntoCycle v := by
  cases h : s.literal v with
  | ok text =>
      have hfounded := (literal_eq_ok_iff.mp h).founded
      exact ⟨nofun, fun hcycle => absurd hcycle hfounded.not_leadsIntoCycle⟩
  | error e =>
      have he : e = .bottomless := by
        cases e with
        | tooLong => exact absurd h (literalWithin_ne_tooLong hs hv)
        | bottomless => rfl
      subst he
      exact ⟨fun _ => leadsIntoCycle_of_literal h, fun _ => rfl⟩

theorem display_of_ne_string (hv : v.kind ≠ .string) : s.display v = s.literal v := by
  cases v with
  | string t => exact absurd rfl hv
  | _ => rfl

theorem display_eq_bottomless_iff (hs : s.Writable) (hv : v.Writable) :
    s.display v = .error .bottomless ↔ s.LeadsIntoCycle v := by
  cases v with
  | string t => exact ⟨nofun, fun ⟨_, _, hlist, _⟩ => nomatch hlist⟩
  | _ => exact literal_eq_bottomless_iff hs hv

theorem display_eq_ok_iff {text : String} : s.display v = .ok text ↔ s.Shows v text := by
  by_cases hkind : v.kind = .string
  · cases v with
    | string t =>
        constructor
        · intro h
          obtain rfl := Except.ok.inj h
          exact .string _
        · intro h
          cases h with
          | string => rfl
          | other hother _ => exact absurd rfl hother
    | _ => cases hkind
  · rw [display_of_ne_string hkind, literal_eq_ok_iff]
    refine ⟨.other hkind, fun h => ?_⟩
    cases h with
    | string => exact absurd rfl hkind
    | other _ h => exact h

theorem Spells.exists_shows {text : String} (h : s.Spells v text) : ∃ shown, s.Shows v shown := by
  by_cases hkind : v.kind = .string
  · cases v with
    | string t => exact ⟨t, .string t⟩
    | _ => cases hkind
  · exact ⟨text, .other hkind h⟩

/-- A relation that says when a text is answered leaves no choice of texts. -/
theorem answers_one {x : Except TextFault String} {P : String → Prop} (h : ∀ t, x = .ok t ↔ P t)
    {text : String} (htext : P text) : x = .ok text ∧ ∀ t, P t ↔ t = text := by
  have hx := (h text).mpr htext
  refine ⟨hx, fun t => ⟨fun ht => ?_, fun ht => ht ▸ htext⟩⟩
  exact Except.ok.inj (((h t).mpr ht).symm.trans hx)

/-- Where no integer has too many digits, a value is without a text, written or shown, exactly if a list
among its parts contains itself, and any other value has one text, which is put together from the texts of
its items. -/
theorem texts_unless_cycle (s : Store) (v : Value) (hs : s.Writable) (hv : v.Writable) :
    (s.literal v = .error .bottomless ↔ s.LeadsIntoCycle v) ∧
    (s.display v = .error .bottomless ↔ s.LeadsIntoCycle v) ∧
    (¬s.LeadsIntoCycle v →
      (∃ text, s.literal v = .ok text ∧ ∀ t, s.Spells v t ↔ t = text) ∧
      ∃ text, s.display v = .ok text ∧ ∀ t, s.Shows v t ↔ t = text) := by
  refine ⟨literal_eq_bottomless_iff hs hv, display_eq_bottomless_iff hs hv, fun hends => ?_⟩
  obtain ⟨text, htext⟩ := ((founded_or_cycle s v).resolve_right hends).exists_spells hs hv
  obtain ⟨shown, hshown⟩ := htext.exists_shows
  exact ⟨⟨text, answers_one (fun _ => literal_eq_ok_iff) htext⟩,
    ⟨shown, answers_one (fun _ => display_eq_ok_iff) hshown⟩⟩

/-- A list that is twice an item of another, a list that is an item of itself, and a list that holds an
instance in whose variable it is. -/
def tangledStore : Store :=
  { initial false with
    lists := #[#[.string "a"], #[.list ⟨0⟩, .list ⟨0⟩], #[.list ⟨1⟩, .list ⟨2⟩], #[.object ⟨0⟩]]
    objects := #[⟨.registered "A", ⟨[("x", .list ⟨3⟩)]⟩⟩] }

/-- The first and the third of these have a text, the second has none. -/
theorem texts_unless_cycle_tangled : tangledStore.Writable ∧
    (∃ text, tangledStore.literal (.list ⟨1⟩) = .ok text ∧
      ∀ t, tangledStore.Spells (.list ⟨1⟩) t ↔ t = text) ∧
    tangledStore.literal (.list ⟨2⟩) = .error .bottomless ∧
    ∃ text, tangledStore.display (.list ⟨3⟩) = .ok text ∧
      ∀ t, tangledStore.Shows (.list ⟨3⟩) t ↔ t = text := by
  have hs : tangledStore.Writable := by
    simp [Writable, tangledStore, Value.Writable]
  have hshared : ¬tangledStore.LeadsIntoCycle (.list ⟨1⟩) := by
    refine Founded.not_leadsIntoCycle (.list fun v hv => ?_)
    obtain rfl : v = .list ⟨0⟩ := by simpa [tangledStore, list] using hv
    refine .list fun v hv => ?_
    obtain rfl : v = .string "a" := by simpa [tangledStore, list] using hv
    exact .simple (by decide)
  have hhidden : ¬tangledStore.LeadsIntoCycle (.list ⟨3⟩) := by
    refine Founded.not_leadsIntoCycle (.list fun v hv => ?_)
    obtain rfl : v = .object ⟨0⟩ := by simpa [tangledStore, list] using hv
    exact .simple (by decide)
  have hcircular : tangledStore.LeadsIntoCycle (.list ⟨2⟩) :=
    ⟨⟨2⟩, ⟨2⟩, rfl, .refl, .single (show Value.list ⟨2⟩ ∈ (tangledStore.list ⟨2⟩).toList by decide)⟩
  obtain ⟨-, -, hfirst⟩ := texts_unless_cycle tangledStore (.list ⟨1⟩) hs trivial
  obtain ⟨hsecond, -, -⟩ := texts_unless_cycle tangledStore (.list ⟨2⟩) hs trivial
  obtain ⟨-, -, hthird⟩ := texts_unless_cycle tangledStore (.list ⟨3⟩) hs trivial
  exact ⟨hs, (hfirst hshared).1, hsecond.mpr hcircular, (hthird hhidden).2⟩

end Store

end Parley
