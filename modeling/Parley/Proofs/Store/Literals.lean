import Parley.Proofs.Node.Words
import Parley.Proofs.Store.Circular

/-! Values of plain data: nil, booleans, integers, strings and lists of them. Such a value contains no list
that contains itself, so it has a text, which is the source of a node, and it can be compared with any
value. A value that is the same item by item is found equal. -/

namespace Parley.Store

/-- A value of plain data with lists nested at most so deep. -/
inductive Plain (s : Store) : Nat → Value → Prop
  | nil {n : Nat} : Plain s n .nil
  | boolean {n : Nat} {b : Bool} : Plain s n (.boolean b)
  | integer {n : Nat} {i : Int} : i.natAbs < Text.tooLong → Plain s n (.integer i)
  | string {n : Nat} {t : String} : Plain s n (.string t)
  | list {n : Nat} {r : ListRef} : r.index < s.lists.size →
      (∀ v ∈ (s.list r).toList, Plain s n v) → Plain s (n + 1) (.list r)

/-- The value is a negative integer or has one as a part. -/
inductive HoldsNegative (s : Store) : Value → Prop
  | integer {i : Int} : i < 0 → HoldsNegative s (.integer i)
  | item {r : ListRef} {v : Value} : v ∈ (s.list r).toList → HoldsNegative s v → HoldsNegative s (.list r)

/-- The node that a value of plain data is written as. -/
def literalNode (s : Store) : Nat → Value → Node
  | _, .nil => .atom none .nil
  | _, .boolean b => .atom none (.boolean b)
  | _, .integer i => .atom none (.integer i)
  | _, .string t => .atom none (.string t)
  | n + 1, .list r => .list none ((s.list r).toList.map (s.literalNode n))
  | _, _ => .atom none .nil

variable {s s' : Store} {n : Nat} {v w : Value} {r r' : ListRef}

/-! Plain data contains no list that contains itself -/

theorem Plain.of_holds (h : s.Plain n (.list r)) (hr : s.Holds r r') : ∃ m < n, s.Plain m (.list r') := by
  cases h with
  | list _ hitems => exact ⟨_, Nat.lt_succ_self _, hitems _ hr⟩

theorem Plain.of_transGen (h : s.Plain n (.list r)) (hr : Relation.TransGen s.Holds r r') :
    ∃ m < n, s.Plain m (.list r') := by
  induction hr with
  | single hr => exact h.of_holds hr
  | tail _ hr ih =>
      obtain ⟨m, hm, hplain⟩ := ih
      obtain ⟨k, hk, hplain⟩ := hplain.of_holds hr
      exact ⟨k, hk.trans hm, hplain⟩

/-- By induction on the nesting: inside itself the list would be nested less. -/
theorem Plain.not_transGen (h : s.Plain n (.list r)) : ¬Relation.TransGen s.Holds r r := by
  intro hcycle
  induction n using Nat.strongRecOn with
  | ind n ih =>
      obtain ⟨m, hm, hplain⟩ := h.of_transGen hcycle
      exact ih m hm hplain

theorem mem_listRefs_of_lt (h : r.index < s.lists.size) : r ∈ s.listRefs :=
  List.mem_map.mpr ⟨r.index, List.mem_range.mpr h, rfl⟩

/-! The text of plain data -/

theorem integerText_eq_ite (i : Int) :
    integerText i = if i.natAbs < Text.tooLong then .ok (toString i) else .error .tooLong := by
  unfold integerText Text.decimal?
  split_ifs <;> rfl

theorem integerText_eq {i : Int} (hi : i.natAbs < Text.tooLong) : integerText i = .ok (toString i) :=
  (integerText_eq_ite i).trans (if_pos hi)

/-- The literal of plain data inside the lists of a trail is the source of its node. -/
theorem Plain.literalWithin_eq (h : s.Plain n v) {fuel : Nat} {path : List ListRef}
    (hpath : Trail s.Holds s.listRefs path) (hfuel : fuel + path.length = s.lists.size + 1)
    (hv : ∀ r, v = .list r → ∀ top ∈ path.head?, s.Holds top r) :
    s.literalWithin fuel path v = .ok (s.literalNode n v).source := by
  induction h generalizing fuel path with
  | nil =>
      rw [literalNode, Node.source]
      cases fuel <;> rfl
  | @boolean n b =>
      rw [literalNode, Node.source]
      cases fuel <;> cases b <;> rfl
  | @integer n i hi =>
      rw [literalNode, Node.source, Atom.source, ← integerText_eq hi]
      cases fuel <;> rfl
  | string =>
      rw [literalNode, Node.source]
      cases fuel <;> rfl
  | @list n r hr hitems ih =>
      have hnew : r ∉ path := fun hmem => (Plain.list hr hitems).not_transGen (hpath.cycle (hv r rfl) hmem)
      have htrail := hpath.cons (hv r rfl) hnew (mem_listRefs_of_lt hr)
      cases fuel with
      | zero =>
          have hlength := hpath.length_le
          rw [listRefs, List.length_map, List.length_range] at hlength
          omega
      | succ fuel =>
          have hfuel' : fuel + (r :: path).length = s.lists.size + 1 := by
            rw [List.length_cons]
            omega
          have htexts : (s.list r).toList.mapM (s.literalWithin fuel (r :: path)) =
              .ok ((s.list r).toList.map fun v => (s.literalNode n v).source) := by
            refine mapM_eq_ok fun v hmem => ih v hmem htrail hfuel' ?_
            rintro r' rfl top htop
            obtain rfl := Option.some.inj htop
            exact hmem
          unfold literalWithin
          rw [if_neg hnew, htexts, literalNode, Node.source, Node.sources_eq_map, List.map_map]
          rfl

theorem Plain.literal_eq (h : s.Plain n v) : s.literal v = .ok (s.literalNode n v).source :=
  h.literalWithin_eq .nil rfl fun _ _ _ htop => nomatch htop

/-! Values that are the same item by item -/

/-- Two values are the same, lists item by item and nested at most so deep. -/
inductive Alike (s : Store) : Nat → Value → Value → Prop
  | same {n : Nat} {v : Value} : v.kind ≠ .list → Alike s n v v
  | list {n : Nat} {a b : ListRef} : a.index < s.lists.size → b.index < s.lists.size →
      (s.list a).size = (s.list b).size →
      (∀ p ∈ (s.list a).toList.zip (s.list b).toList, Alike s n p.1 p.2) →
      Alike s (n + 1) (.list a) (.list b)

theorem allM_eq_true {α : Type} {f : α → Option Bool} {l : List α} (h : ∀ a ∈ l, f a = some true) :
    l.allM f = some true := by
  induction l with
  | nil => rfl
  | cons a l ih =>
      obtain ⟨ha, hl⟩ := List.forall_mem_cons.mp h
      rw [List.allM, ha]
      exact ih hl

/-- Comparing such values inside the pairs of a trail. -/
theorem Alike.equalWithin_eq (h : s.Alike n v w) {m : Nat} (hplain : s.Plain m w) {fuel : Nat}
    {path : List (ListRef × ListRef)} (hpath : Trail s.HoldsBoth (s.listRefs ×ˢ s.listRefs) path)
    (hfuel : fuel + path.length = s.lists.size * s.lists.size + 1)
    (hv : ∀ a b, v = .list a → w = .list b → ∀ top ∈ path.head?, s.HoldsBoth top (a, b)) :
    s.equalWithin fuel path v w = some true := by
  induction h generalizing m fuel path with
  | @same n v hkind =>
      cases v with
      | list => exact absurd rfl hkind
      | _ => cases fuel <;> simp [equalWithin]
  | @list n a b ha hb hsize hitems ih =>
      have htop := hv a b rfl rfl
      have hnew : (a, b) ∉ path := by
        intro hmem
        have hcycle := (hpath.cycle htop hmem).lift Prod.snd fun _ _ hboth => hboth.2
        exact hplain.not_transGen hcycle
      have hall := List.mem_product.mpr ⟨mem_listRefs_of_lt ha, mem_listRefs_of_lt hb⟩
      cases fuel with
      | zero =>
          have hlength := hpath.length_le
          rw [List.length_product, listRefs, List.length_map, List.length_range] at hlength
          omega
      | succ fuel =>
          rw [equalWithin]
          split_ifs with hsame hsize'
          · rfl
          · exact absurd hsize hsize'
          · refine allM_eq_true fun p hp => ?_
            obtain ⟨hp₁, hp₂⟩ := List.of_mem_zip hp
            cases hplain with
            | list _ hplain =>
                refine ih p hp (hplain _ hp₂) (hpath.cons htop hnew hall) ?_ ?_
                · rw [List.length_cons]
                  omega
                · rintro c d hc hd top htop
                  obtain rfl := Option.some.inj htop
                  rw [hc] at hp₁
                  rw [hd] at hp₂
                  exact ⟨hp₁, hp₂⟩

theorem Alike.equal?_eq (h : s.Alike n v w) {m : Nat} (hplain : s.Plain m w) :
    s.equal? v w = some true :=
  h.equalWithin_eq hplain .nil rfl fun _ _ _ _ _ htop => nomatch htop

/-! Stores with more lists -/

/-- The same store with some lists more. -/
def Extends (s s' : Store) : Prop := ∃ more, s' = { s with lists := s.lists ++ more }

theorem Extends.refl (s : Store) : s.Extends s := ⟨#[], by rw [Array.append_empty]⟩

theorem Extends.trans {s'' : Store} (h : s.Extends s') (h' : s'.Extends s'') : s.Extends s'' := by
  obtain ⟨more, rfl⟩ := h
  obtain ⟨more', rfl⟩ := h'
  exact ⟨more ++ more', by simp⟩

theorem Extends.lt_size (h : s.Extends s') (hr : r.index < s.lists.size) : r.index < s'.lists.size := by
  obtain ⟨more, rfl⟩ := h
  simp only [Array.size_append]
  omega

theorem Extends.list_eq (h : s.Extends s') (hr : r.index < s.lists.size) : s'.list r = s.list r := by
  obtain ⟨more, rfl⟩ := h
  simp [list, Array.getD_eq_getD_getElem?, Array.getElem?_append, hr]

theorem extends_newList (s : Store) (items : Array Value) : s.Extends (s.newList items).2 :=
  ⟨#[items], by simp [newList]⟩

theorem Plain.of_extends (h : s.Plain n v) (hs : s.Extends s') : s'.Plain n v := by
  induction h with
  | nil => exact .nil
  | boolean => exact .boolean
  | integer hi => exact .integer hi
  | string => exact .string
  | list hr _ ih => exact .list (hs.lt_size hr) (by rwa [hs.list_eq hr])

theorem Alike.of_extends (h : s.Alike n v w) (hs : s.Extends s') : s'.Alike n v w := by
  induction h with
  | same hkind => exact .same hkind
  | list ha hb hsize _ ih =>
      refine .list (hs.lt_size ha) (hs.lt_size hb) ?_ ?_
      · rwa [hs.list_eq ha, hs.list_eq hb]
      · rwa [hs.list_eq ha, hs.list_eq hb]

/-- A new list of values that are the same as the items of another. -/
theorem alike_newList {ws : List Value} (hr : r.index < s.lists.size)
    (h : List.Forall₂ (s.Alike n) ws (s.list r).toList) :
    (s.newList ws.toArray).2.Alike (n + 1) (s.newList ws.toArray).1 (.list r) := by
  have hs := extends_newList s ws.toArray
  have hnew : (s.newList ws.toArray).2.list ⟨s.lists.size⟩ = ws.toArray := by
    simp [newList, list, Array.getD_eq_getD_getElem?]
  refine .list (by simp [newList]) (hs.lt_size hr) ?_ ?_
  · rw [hnew, hs.list_eq hr, List.size_toArray, h.length_eq, Array.length_toList]
  · rw [hnew, hs.list_eq hr]
    intro p hp
    exact (List.forall₂_zip h hp).of_extends hs

end Parley.Store
