import Parley.Proofs.Grammar.Lexeme

/-! Selectors that are made of words without colons, as names are. The words of such a selector are the
parts that it was made of, and with a keyword among them it is no operator. -/

namespace Parley

open Parley.Grammar Parley.Text

theorem pieces_append_cons {sep : Char → Bool} {w rest : List Char} {c : Char}
    (hw : ∀ d ∈ w, sep d = false) (hc : sep c = true) :
    pieces sep (w ++ c :: rest) = w :: pieces sep rest := by
  induction w with
  | nil => rw [List.nil_append, pieces, if_pos hc]
  | cons d w ih =>
      have hd : ¬sep d = true := by simp [hw d List.mem_cons_self]
      rw [List.cons_append, pieces, if_neg hd, ih fun e he => hw e (List.mem_cons_of_mem d he)]

theorem pieces_eq_singleton {sep : Char → Bool} {w : List Char} (hw : ∀ d ∈ w, sep d = false) :
    pieces sep w = [w] := by
  induction w with
  | nil => rfl
  | cons d w ih =>
      have hd : ¬sep d = true := by simp [hw d List.mem_cons_self]
      rw [pieces, if_neg hd, ih fun e he => hw e (List.mem_cons_of_mem d he)]

theorem intercalate_concat {α : Type} (x : α) (l : List (List α)) (a : List α) :
    [x].intercalate (l ++ [a]) = l.flatMap (· ++ [x]) ++ a := by
  induction l with
  | nil => simp
  | cons b l ih =>
      obtain ⟨c, m, hm⟩ : ∃ c m, l ++ [a] = c :: m := List.exists_cons_of_ne_nil (by simp)
      rw [List.cons_append, hm, List.intercalate_cons_cons, ← hm, ih, List.flatMap_cons]
      simp only [List.append_assoc]

/-- A run of characters between blanks. -/
def IsWord (w : List Char) : Prop := w ≠ [] ∧ ∀ c ∈ w, isBlank c = false

/-- Words with spaces between them are cut into the same words. -/
theorem wordsOf_intercalate {ws : List (List Char)} (hws : ∀ w ∈ ws, IsWord w) :
    wordsOf ([' '].intercalate ws) = ws := by
  induction ws with
  | nil => rfl
  | cons w ws ih =>
      have hw := hws w List.mem_cons_self
      have hrest := ih fun v hv => hws v (List.mem_cons_of_mem w hv)
      cases ws with
      | nil =>
          rw [List.intercalate_singleton, wordsOf, pieces_eq_singleton hw.2]
          simp [hw.1]
      | cons v ws =>
          rw [List.intercalate_cons_cons, wordsOf, List.append_assoc, List.singleton_append,
            pieces_append_cons hw.2 (by decide), List.filter_cons_of_pos (by simp [hw.1])]
          rw [wordsOf] at hrest
          rw [hrest]

theorem toNat_bounds_of_isNameRest {c : Char} (hc : isNameRest c = true) :
    48 ≤ c.toNat ∧ c.toNat ≤ 122 := by
  rw [isNameRest, Bool.or_eq_true, decide_eq_true_eq] at hc
  rcases hc with hc | rfl
  · unfold Char.isAlphanum Char.isAlpha Char.isUpper Char.isLower Char.isDigit at hc
    simp only [Bool.or_eq_true, Bool.and_eq_true, decide_eq_true_eq, UInt32.le_iff_toNat_le,
      ge_iff_le] at hc
    have hA : 'A'.val.toNat = 65 ∧ 'Z'.val.toNat = 90 := ⟨rfl, rfl⟩
    have ha : 'a'.val.toNat = 97 ∧ 'z'.val.toNat = 122 := ⟨rfl, rfl⟩
    have h0 : '0'.val.toNat = 48 ∧ '9'.val.toNat = 57 := ⟨rfl, rfl⟩
    change 48 ≤ c.val.toNat ∧ c.val.toNat ≤ 122
    omega
  · decide

theorem isBlank_eq_false_of_isNameRest {c : Char} (hc : isNameRest c = true) : isBlank c = false := by
  have h := toNat_bounds_of_isNameRest hc
  simp only [isBlank, Bool.or_eq_false_iff, Bool.and_eq_false_iff, decide_eq_false_iff_not,
    beq_eq_false_iff_ne]
  omega

theorem isNameRest_of_mem {cs : List Char} (hcs : isName cs = true) {c : Char} (hc : c ∈ cs) :
    isNameRest c = true := by
  cases cs with
  | nil => cases hc
  | cons d cs =>
      rw [isName, Bool.and_eq_true] at hcs
      rcases List.mem_cons.mp hc with rfl | hc
      · exact isNameRest_of_isNameStart hcs.1
      · exact List.all_eq_true.mp hcs.2 c hc

theorem ne_nil_of_isName {cs : List Char} (hcs : isName cs = true) : cs ≠ [] := by
  rintro rfl
  simp [isName] at hcs

theorem isWord_of_isName {cs : List Char} (hcs : isName cs = true) : IsWord cs :=
  ⟨ne_nil_of_isName hcs, fun _ hc => isBlank_eq_false_of_isNameRest (isNameRest_of_mem hcs hc)⟩

/-- A keyword part is a word with a colon. -/
theorem isWord_keyword {cs : List Char} (hcs : IsWord cs) : IsWord (cs ++ [':']) := by
  refine ⟨by simp, ?_⟩
  intro c hc
  rcases List.mem_append.mp hc with hc | hc
  · exact hcs.2 c hc
  · obtain rfl : c = ':' := by simpa using hc
    decide

theorem colon_not_mem_of_isName {cs : List Char} (hcs : isName cs = true) : ':' ∉ cs := by
  intro hmem
  exact absurd (isNameRest_of_mem hcs hmem) (by decide)

namespace Selector

/-- What a leading name or a keyword can be: a word without colons. -/
structure IsKey (w : String) : Prop where
  isWord : IsWord w.toList
  colon_not_mem : ':' ∉ w.toList

theorem isKey_of_isName {w : String} (hw : isName w.toList = true) : IsKey w :=
  ⟨isWord_of_isName hw, colon_not_mem_of_isName hw⟩

theorem IsKey.ne_empty {w : String} (hw : IsKey w) : w ≠ "" := by
  simpa using hw.isWord.1

/-- Where all members of a collection are names, they are keys. -/
theorem isKey_of_names {P : String → Prop} (h : ∀ w, P w → isName w.toList = true) :
    ∀ w, P w → IsKey w :=
  fun w hw => isKey_of_isName (h w hw)

theorem isPart_keyword (cs : List Char) : isPart (cs ++ [':']) = true := by simp [isPart]

theorem isPart_eq_false {cs : List Char} (hcs : ':' ∉ cs) : isPart cs = false := by
  rw [isPart, beq_eq_false_iff_ne]
  exact fun hlast => hcs (List.mem_of_getLast? hlast)

theorem isPart_eq_false_of_isName {cs : List Char} (hcs : isName cs = true) : isPart cs = false :=
  isPart_eq_false (colon_not_mem_of_isName hcs)

/-- A text that begins like a name is no operator. -/
theorem isBinary_eq_false {s : String} {c : Char} {cs : List Char} (hs : s.toList = c :: cs)
    (hc : isNameStart c = true) : isBinary s = false := by
  by_contra hbinary
  rw [Bool.not_eq_false, isBinary] at hbinary
  have hmem : s ∈ operators := by simpa using hbinary
  have hstart : ∀ t ∈ operators, t.toList.head?.map isNameStart = some false := by decide
  have h := hstart s hmem
  rw [hs, List.head?_cons, Option.map_some, hc] at h
  simp at h

theorem isBinary_eq_false_of_isName {s : String} (hs : isName s.toList = true) :
    isBinary s = false := by
  cases hlist : s.toList with
  | nil => exact absurd hlist (ne_nil_of_isName hs)
  | cons c cs =>
      rw [hlist, isName, Bool.and_eq_true] at hs
      exact isBinary_eq_false hlist hs.1

/-- A selector is its leading name and its keyword parts with spaces between them. -/
theorem toList_make {name : Option String} {keywords : List String} (hname : ∀ w ∈ name, w ≠ "") :
    (make name keywords).toList =
      [' '].intercalate (name.toList.map String.toList ++ keywords.map (·.toList ++ [':'])) := by
  have hfilter : name.filter (· ≠ "") = name := by
    cases name with
    | none => rfl
    | some w => rw [Option.filter_some, if_pos (by simpa using hname w rfl)]
  rw [make, hfilter, String.toList_intercalate, List.map_append, List.map_map]
  congr 2
  simp

section Make

variable {name : Option String} {keywords : List String}
  (hname : ∀ w ∈ name, IsKey w) (hkeywords : ∀ w ∈ keywords, IsKey w)

include hname hkeywords in
theorem wordsOf_make : wordsOf (make name keywords).toList =
    name.toList.map String.toList ++ keywords.map (·.toList ++ [':']) := by
  rw [toList_make fun w hw => (hname w hw).ne_empty]
  refine wordsOf_intercalate ?_
  intro w hw
  rcases List.mem_append.mp hw with hw | hw
  · obtain ⟨v, hv, rfl⟩ := List.mem_map.mp hw
    exact (hname v (Option.mem_toList.mp hv)).isWord
  · obtain ⟨v, hv, rfl⟩ := List.mem_map.mp hw
    exact isWord_keyword (hkeywords v hv).isWord

include hname hkeywords in
theorem isBinary_make (hne : keywords ≠ []) : isBinary (make name keywords) = false := by
  by_contra hbinary
  rw [Bool.not_eq_false, isBinary] at hbinary
  have hmem : make name keywords ∈ operators := by simpa using hbinary
  -- the words of an operator are no keyword parts, and a keyword part is among these
  have hparts : ∀ t ∈ operators, ∀ w ∈ wordsOf t.toList, isPart w = false := by decide
  obtain ⟨k, ks, rfl⟩ := List.exists_cons_of_ne_nil hne
  have hpart := hparts _ hmem (k.toList ++ [':']) (by rw [wordsOf_make hname hkeywords]; simp)
  rw [isPart_keyword] at hpart
  cases hpart

include hname hkeywords in
theorem filter_isPart_make : (wordsOf (make name keywords).toList).filter isPart =
    keywords.map (·.toList ++ [':']) := by
  rw [wordsOf_make hname hkeywords, List.filter_append, List.filter_eq_nil_iff.mpr,
    List.filter_eq_self.mpr, List.nil_append]
  · intro w hw
    obtain ⟨v, -, rfl⟩ := List.mem_map.mp hw
    exact isPart_keyword v.toList
  · intro w hw
    obtain ⟨v, hv, rfl⟩ := List.mem_map.mp hw
    simp [isPart_eq_false (hname v (Option.mem_toList.mp hv)).colon_not_mem]

include hname hkeywords in
theorem filter_not_isPart_make : (wordsOf (make name keywords).toList).filter (fun w => !isPart w) =
    name.toList.map String.toList := by
  rw [wordsOf_make hname hkeywords, List.filter_append, List.filter_eq_self.mpr,
    List.filter_eq_nil_iff.mpr, List.append_nil]
  · intro w hw
    obtain ⟨v, -, rfl⟩ := List.mem_map.mp hw
    simp [isPart_keyword]
  · intro w hw
    obtain ⟨v, hv, rfl⟩ := List.mem_map.mp hw
    simp [isPart_eq_false (hname v (Option.mem_toList.mp hv)).colon_not_mem]

include hname hkeywords in
theorem keywords_make : Selector.keywords (make name keywords) = keywords := by
  rw [Selector.keywords, filter_isPart_make hname hkeywords, List.map_map]
  refine List.map_id'' (fun k => ?_) keywords
  rw [Function.comp_apply, List.dropLast_concat, String.ofList_toList]

end Make

/-- A key is the selector with no keywords. -/
theorem make_some_nil {name : String} (hname : IsKey name) : make (some name) [] = name := by
  refine String.toList_inj.mp ?_
  rw [toList_make fun w hw => Option.some.inj hw ▸ hname.ne_empty]
  simp

/-- A name takes no arguments. -/
theorem arity_of_isName {name : String} (h : isName name.toList = true) : arity name = 0 := by
  have hkey := isKey_of_isName h
  have hname : ∀ w ∈ some name, IsKey w := fun w hw => Option.some.inj hw ▸ hkey
  rw [arity, isBinary_eq_false_of_isName h, ← make_some_nil hkey, keywords_make hname (List.forall_mem_nil _)]
  rfl

end Selector

end Parley
