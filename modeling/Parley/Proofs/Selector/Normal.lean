import Mathlib.Data.List.Infix
import Mathlib.Data.List.TakeWhile
import Parley.Proofs.Selector

/-! Selectors in canonical spacing: parts with single spaces between them, where a colon may only end a
part. `normalize` brings every text into this form and leaves alone what has it already. A message that is
written by hand, with any blanks or none after its keywords, comes to the selector of that message. -/

namespace Parley

open Parley.Grammar Parley.Text

/-! Pieces of a text -/

/-- A separator cuts a text into what comes before and after it. -/
theorem pieces_append_sep {sep : Char → Bool} (cs rest : List Char) {c : Char} (hc : sep c = true) :
    pieces sep (cs ++ c :: rest) = pieces sep cs ++ pieces sep rest := by
  induction cs with
  | nil => simp [pieces, hc]
  | cons d cs ih =>
      rw [List.cons_append, pieces, pieces, ih]
      by_cases hd : sep d = true
      · rw [if_pos hd, if_pos hd, List.cons_append]
      · rw [if_neg hd, if_neg hd]
        obtain ⟨w, ws, hws⟩ := List.exists_cons_of_ne_nil (pieces_ne_nil sep cs)
        rw [hws]
        rfl

/-- What holds no separator goes into the first piece. -/
theorem pieces_append_of_not_sep {sep : Char → Bool} {w : List Char} (hw : ∀ c ∈ w, sep c = false)
    {rest first : List Char} {others : List (List Char)} (hrest : pieces sep rest = first :: others) :
    pieces sep (w ++ rest) = (w ++ first) :: others := by
  induction w with
  | nil => exact hrest
  | cons c w ih =>
      obtain ⟨hc, hw⟩ := List.forall_mem_cons.mp hw
      rw [List.cons_append, pieces, if_neg (by simp [hc]), ih hw]
      rfl

theorem mem_of_mem_pieces {sep : Char → Bool} {cs w : List Char} (hw : w ∈ pieces sep cs) :
    ∀ c ∈ w, c ∈ cs := by
  induction cs generalizing w with
  | nil =>
      obtain rfl := List.mem_singleton.mp hw
      exact List.forall_mem_nil _
  | cons a cs ih =>
      obtain ⟨v, vs, hvs⟩ := List.exists_cons_of_ne_nil (pieces_ne_nil sep cs)
      rw [hvs] at ih
      rw [pieces, hvs] at hw
      split_ifs at hw
      · rcases List.mem_cons.mp hw with rfl | hw
        · exact List.forall_mem_nil _
        · exact fun c hc => List.mem_cons_of_mem a (ih hw c hc)
      · rcases List.mem_cons.mp hw with rfl | hw
        · refine List.forall_mem_cons.mpr ⟨List.mem_cons_self, ?_⟩
          exact fun c hc => List.mem_cons_of_mem a (ih List.mem_cons_self c hc)
        · exact fun c hc => List.mem_cons_of_mem a (ih (List.mem_cons_of_mem v hw) c hc)

/-- What is taken from the ends of a text is blank. -/
theorem exists_gaps_of_stripOf (cs : List Char) : ∃ gap gap' : List Char,
    (∀ c ∈ gap, isBlank c = true) ∧ (∀ c ∈ gap', isBlank c = true) ∧
      cs = gap ++ (stripOf cs ++ gap') := by
  set rest := cs.dropWhile isBlank
  refine ⟨cs.takeWhile isBlank, (rest.reverse.takeWhile isBlank).reverse, ?_, ?_, ?_⟩
  · exact fun c hc => List.mem_takeWhile_imp hc
  · exact fun c hc => List.mem_takeWhile_imp (List.mem_reverse.mp hc)
  · have hrest : stripOf cs ++ (rest.reverse.takeWhile isBlank).reverse = rest := by
      rw [stripOf, ← List.reverse_append, List.takeWhile_append_dropWhile, List.reverse_reverse]
    rw [hrest, List.takeWhile_append_dropWhile]

namespace Selector

/-! Parts of a text -/

/-- A run of characters that cutting at blanks and colons leaves whole. -/
def IsPlain (w : List Char) : Prop := ∀ c ∈ w, isBlank c = false ∧ c ≠ ':'

/-- A part of a selector in canonical spacing. -/
inductive CanonicalPart : List Char → Prop
  | word {w : List Char} (hne : w ≠ []) (hw : IsPlain w) : CanonicalPart w
  | keyword {w : List Char} (hw : IsPlain w) : CanonicalPart (w ++ [':'])

/-- The parts of all the words of a text. -/
def partsOf (cs : List Char) : List (List Char) := (wordsOf cs).flatMap parts

theorem parts_nil : parts [] = [] := rfl

theorem parts_of_isPlain {w : List Char} (hne : w ≠ []) (hw : IsPlain w) : parts w = [w] := by
  have hpieces : pieces (· == ':') w = [w] := pieces_eq_singleton fun c hc => by simp [(hw c hc).2]
  simp [parts, hpieces, hne]

/-- A keyword is a part by itself, whatever follows its colon in the same word. -/
theorem parts_keyword {k : List Char} (hk : IsPlain k) (rest : List Char) :
    parts (k ++ ':' :: rest) = (k ++ [':']) :: parts rest := by
  have hpieces : pieces (· == ':') (k ++ ':' :: rest) = k :: pieces (· == ':') rest :=
    pieces_append_cons (fun c hc => by simp [(hk c hc).2]) (by simp)
  obtain ⟨v, vs, hvs⟩ := List.exists_cons_of_ne_nil (pieces_ne_nil (· == ':') rest)
  simp [parts, hpieces, hvs]

theorem CanonicalPart.parts_eq {p : List Char} (hp : CanonicalPart p) : parts p = [p] := by
  cases hp with
  | word hne hw => exact parts_of_isPlain hne hw
  | keyword hw => rw [parts_keyword hw [], parts_nil]

theorem CanonicalPart.isWord {p : List Char} (hp : CanonicalPart p) : IsWord p := by
  cases hp with
  | word hne hw => exact ⟨hne, fun c hc => (hw c hc).1⟩
  | @keyword w hw =>
      refine ⟨by simp, fun c hc => ?_⟩
      rcases List.mem_append.mp hc with hc | hc
      · exact (hw c hc).1
      · obtain rfl := List.mem_singleton.mp hc
        decide

/-- Every part of a word without blanks is canonical. -/
theorem canonicalPart_of_mem_parts {w p : List Char} (hw : ∀ c ∈ w, isBlank c = false)
    (hp : p ∈ parts w) : CanonicalPart p := by
  have hplain : ∀ v ∈ pieces (· == ':') w, IsPlain v := by
    intro v hv c hc
    refine ⟨hw c (mem_of_mem_pieces hv c hc), ?_⟩
    simpa using not_sep_of_mem_pieces hv c hc
  rcases List.mem_append.mp hp with hp | hp
  · obtain ⟨v, hv, rfl⟩ := List.mem_map.mp hp
    exact .keyword (hplain v (List.mem_of_mem_dropLast hv))
  · obtain ⟨hlast, hne⟩ := List.mem_filter.mp hp
    refine .word (by simpa using hne) (hplain p ?_)
    exact List.mem_of_getLast? (Option.mem_toList.mp hlast)

theorem canonicalPart_of_mem_partsOf {cs p : List Char} (hp : p ∈ partsOf cs) : CanonicalPart p := by
  obtain ⟨w, hw, hp⟩ := List.mem_flatMap.mp hp
  exact canonicalPart_of_mem_parts (not_sep_of_mem_pieces (List.mem_filter.mp hw).1) hp

/-! Empty words have no parts, so where blanks come together or stand at an end makes no difference. -/

theorem partsOf_eq_flatMap_pieces (cs : List Char) : partsOf cs = (pieces isBlank cs).flatMap parts := by
  rw [partsOf, wordsOf]
  induction pieces isBlank cs with
  | nil => rfl
  | cons w ws ih =>
      rw [List.flatMap_cons, ← ih]
      by_cases hw : w = []
      · rw [hw, List.filter_cons_of_neg (by simp), parts_nil, List.nil_append]
      · rw [List.filter_cons_of_pos (by simpa using hw), List.flatMap_cons]

theorem partsOf_nil : partsOf [] = [] := rfl

theorem partsOf_append_blank (cs rest : List Char) {c : Char} (hc : isBlank c = true) :
    partsOf (cs ++ c :: rest) = partsOf cs ++ partsOf rest := by
  simp only [partsOf_eq_flatMap_pieces, pieces_append_sep cs rest hc, List.flatMap_append]

theorem partsOf_gap_append {gap : List Char} (hgap : ∀ c ∈ gap, isBlank c = true) (rest : List Char) :
    partsOf (gap ++ rest) = partsOf rest := by
  induction gap with
  | nil => rfl
  | cons c gap ih =>
      obtain ⟨hc, hgap⟩ := List.forall_mem_cons.mp hgap
      have hcut := partsOf_append_blank [] (gap ++ rest) hc
      rwa [partsOf_nil, List.nil_append, List.nil_append, ih hgap] at hcut

theorem partsOf_append_gap {gap : List Char} (hgap : ∀ c ∈ gap, isBlank c = true) (cs : List Char) :
    partsOf (cs ++ gap) = partsOf cs := by
  cases gap with
  | nil => rw [List.append_nil]
  | cons c gap =>
      obtain ⟨hc, hgap⟩ := List.forall_mem_cons.mp hgap
      have hblank := partsOf_gap_append hgap []
      rw [List.append_nil, partsOf_nil] at hblank
      rw [partsOf_append_blank cs gap hc, hblank, List.append_nil]

theorem partsOf_stripOf (cs : List Char) : partsOf (stripOf cs) = partsOf cs := by
  obtain ⟨gap, gap', hgap, hgap', hcs⟩ := exists_gaps_of_stripOf cs
  rw [← partsOf_append_gap hgap' (stripOf cs), ← partsOf_gap_append hgap, ← hcs]

theorem partsOf_of_isPlain {w : List Char} (hne : w ≠ []) (hw : IsPlain w) : partsOf w = [w] := by
  rw [partsOf_eq_flatMap_pieces, pieces_eq_singleton fun c hc => (hw c hc).1, List.flatMap_singleton,
    parts_of_isPlain hne hw]

/-- A keyword is a part by itself, whatever follows its colon. -/
theorem partsOf_keyword {k : List Char} (hk : IsPlain k) (rest : List Char) :
    partsOf (k ++ ':' :: rest) = (k ++ [':']) :: partsOf rest := by
  obtain ⟨v, vs, hvs⟩ := List.exists_cons_of_ne_nil (pieces_ne_nil isBlank rest)
  have hword : ∀ c ∈ k ++ [':'], isBlank c = false := (CanonicalPart.keyword hk).isWord.2
  have hpieces : pieces isBlank (k ++ ':' :: rest) = (k ++ ':' :: v) :: vs := by
    have h := pieces_append_of_not_sep hword hvs
    rwa [List.append_assoc, List.append_assoc] at h
  rw [partsOf_eq_flatMap_pieces, partsOf_eq_flatMap_pieces, hpieces, hvs, List.flatMap_cons,
    List.flatMap_cons, parts_keyword hk, List.cons_append]

theorem partsOf_intercalate {ps : List (List Char)} (hps : ∀ p ∈ ps, CanonicalPart p) :
    partsOf ([' '].intercalate ps) = ps := by
  rw [partsOf, wordsOf_intercalate fun p hp => (hps p hp).isWord]
  induction ps with
  | nil => rfl
  | cons p ps ih =>
      obtain ⟨hp, hps⟩ := List.forall_mem_cons.mp hps
      rw [List.flatMap_cons, ih hps, hp.parts_eq, List.singleton_append]

/-! Normal selectors -/

/-- A selector in canonical spacing. -/
def IsNormal (s : String) : Prop :=
  ∃ ps : List (List Char), (∀ p ∈ ps, CanonicalPart p) ∧ s.toList = [' '].intercalate ps

/-- An operator is a part by itself. -/
theorem partsOf_of_isBinary {s : String} (hs : isBinary s = true) : partsOf s.toList = [s.toList] := by
  have hoperators : ∀ t ∈ operators, partsOf t.toList = [t.toList] := by decide
  exact hoperators s (by simpa [isBinary] using hs)

/-- `normalize` puts single spaces between the parts of a text. -/
theorem toList_normalize (s : String) :
    (normalize s).toList = [' '].intercalate (partsOf s.toList) := by
  have hstrip : (strip s).toList = stripOf s.toList := String.toList_ofList
  rw [← partsOf_stripOf, ← hstrip, normalize]
  split_ifs with hbinary
  · rw [partsOf_of_isBinary hbinary, List.intercalate_singleton]
  · have hparts : (partsOf (strip s).toList).map (String.toList ∘ String.ofList) =
        partsOf (strip s).toList := List.map_id'' (fun _ => String.toList_ofList) _
    rw [← partsOf, String.toList_intercalate, List.map_map, hparts]
    rfl

theorem isNormal_normalize (s : String) : IsNormal (normalize s) :=
  ⟨_, fun _ => canonicalPart_of_mem_partsOf, toList_normalize s⟩

/-- What is in canonical spacing is left alone. -/
theorem IsNormal.normalize_eq {s : String} (hs : IsNormal s) : normalize s = s := by
  obtain ⟨ps, hps, hlist⟩ := hs
  refine String.toList_inj.mp ?_
  rw [toList_normalize, hlist, partsOf_intercalate hps]

theorem normalize_of_isBinary {s : String} (hs : isBinary s = true) : normalize s = s := by
  refine String.toList_inj.mp ?_
  rw [toList_normalize, partsOf_of_isBinary hs, List.intercalate_singleton]

/-! Messages written by hand -/

/-- Keywords that are each followed by a colon and any blanks. -/
inductive Keyed : List Char → List String → Prop
  | nil : Keyed [] []
  | cons {k : String} {gap rest : List Char} {ks : List String} (hk : IsPlain k.toList)
      (hgap : ∀ c ∈ gap, isBlank c = true) (hrest : Keyed rest ks) :
      Keyed (k.toList ++ ':' :: (gap ++ rest)) (k :: ks)

/-- The ways to write a message by hand: a leading name or none, blanks after it, and keywords. -/
inductive Handwritten : String → Option String → List String → Prop
  | keyed {text : String} {ks : List String} (hkeyed : Keyed text.toList ks) :
      Handwritten text none ks
  | named {text name : String} {gap rest : List Char} {ks : List String} (hname : IsPlain name.toList)
      (hne : name ≠ "") (hgap : ∀ c ∈ gap, isBlank c = true) (hgap_ne : gap ≠ [])
      (hrest : Keyed rest ks) (htext : text.toList = name.toList ++ (gap ++ rest)) :
      Handwritten text (some name) ks

theorem Keyed.partsOf_eq {cs : List Char} {ks : List String} (h : Keyed cs ks) :
    partsOf cs = ks.map (·.toList ++ [':']) := by
  induction h with
  | nil => rfl
  | cons hk hgap _ ih => rw [partsOf_keyword hk, partsOf_gap_append hgap, ih, List.map_cons]

theorem Handwritten.partsOf_eq {text : String} {name : Option String} {ks : List String}
    (h : Handwritten text name ks) :
    partsOf text.toList = name.toList.map String.toList ++ ks.map (·.toList ++ [':']) := by
  cases h with
  | keyed hkeyed => exact hkeyed.partsOf_eq
  | @named name gap rest _ hname hne hgap hgap_ne hrest htext =>
      obtain ⟨c, gap, rfl⟩ := List.exists_cons_of_ne_nil hgap_ne
      obtain ⟨hc, hgap⟩ := List.forall_mem_cons.mp hgap
      have hword : partsOf name.toList = [name.toList] := partsOf_of_isPlain (by simpa using hne) hname
      rw [htext, List.cons_append, partsOf_append_blank _ _ hc, partsOf_gap_append hgap, hword,
        hrest.partsOf_eq]
      rfl

/-- A message that is written by hand comes to the selector of the message. -/
theorem Handwritten.normalize_eq {text : String} {name : Option String} {ks : List String}
    (h : Handwritten text name ks) : normalize text = make name ks := by
  have hne : ∀ w ∈ name, w ≠ "" := by
    cases h with
    | keyed _ => simp
    | named _ hne => simpa using hne
  refine String.toList_inj.mp ?_
  rw [toList_normalize, h.partsOf_eq, toList_make hne]

/-! Names -/

theorem isPlain_of_isName {w : List Char} (hw : isName w = true) : IsPlain w := by
  intro c hc
  have hrest := isNameRest_of_mem hw hc
  refine ⟨isBlank_eq_false_of_isNameRest hrest, ?_⟩
  rintro rfl
  exact absurd hrest (by decide)

theorem normalize_of_isName {w : String} (hw : isName w.toList = true) : normalize w = w :=
  IsNormal.normalize_eq ⟨[w.toList],
    List.forall_mem_singleton.mpr (.word (ne_nil_of_isName hw) (isPlain_of_isName hw)),
    List.intercalate_singleton.symm⟩

/-! Keywords of normal selectors -/

/-- The parts that end in a colon are the parts that hold one. -/
theorem CanonicalPart.isPart_iff {p : List Char} (hp : CanonicalPart p) : isPart p = true ↔ ':' ∈ p := by
  cases hp with
  | word hne hw =>
      have hcolon : ':' ∉ p := fun hmem => (hw ':' hmem).2 rfl
      simp only [hcolon, iff_false, isPart, beq_iff_eq]
      exact fun hlast => hcolon (List.mem_of_getLast? hlast)
  | keyword hw => simp [isPart_keyword]

theorem mem_intercalate_iff {c : Char} (hc : c ≠ ' ') (ps : List (List Char)) :
    c ∈ [' '].intercalate ps ↔ ∃ p ∈ ps, c ∈ p := by
  induction ps with
  | nil => simp
  | cons p ps ih =>
      cases ps with
      | nil => simp
      | cons q ps =>
          rw [List.intercalate_cons_cons, List.mem_append, List.mem_append, ih]
          simp [hc]

section Parts

variable {s : String} {ps : List (List Char)} (hps : ∀ p ∈ ps, CanonicalPart p)
  (hs : s.toList = [' '].intercalate ps)

include hps hs in
theorem length_keywords : (keywords s).length = (ps.filter isPart).length := by
  rw [keywords, List.length_map, hs, wordsOf_intercalate fun p hp => (hps p hp).isWord]

include hps hs in
theorem filter_isPart_eq_nil_iff : ps.filter isPart = [] ↔ ':' ∉ s.toList := by
  rw [List.filter_eq_nil_iff, hs, mem_intercalate_iff (by decide), not_exists]
  refine forall_congr' fun p => ?_
  rw [not_and]
  refine forall_congr' fun hp => ?_
  rw [(hps p hp).isPart_iff]

end Parts

/-- The parts that a selector is made of may come from a text with parts of its own. -/
theorem intercalate_intercalate_cons {ps : List (List Char)} (hps : ps ≠ []) (qs : List (List Char)) :
    [' '].intercalate ([' '].intercalate ps :: qs) = [' '].intercalate (ps ++ qs) := by
  have hshift : ∀ x y : List Char, [' '].intercalate ((x ++ y) :: qs) =
      x ++ [' '].intercalate (y :: qs) := by
    intro x y
    cases qs with
    | nil => rw [List.intercalate_singleton, List.intercalate_singleton]
    | cons q qs =>
        rw [List.intercalate_cons_cons, List.intercalate_cons_cons, List.append_assoc, List.append_assoc,
          List.append_assoc]
  induction ps with
  | nil => exact absurd rfl hps
  | cons p ps ih =>
      cases ps with
      | nil => rw [List.intercalate_singleton, List.singleton_append]
      | cons p' ps =>
          rw [List.intercalate_cons_cons, hshift, ih (by simp)]
          exact List.intercalate_cons_cons.symm

/-- A normal text with keywords after it is normal, and has their parts after its own. -/
theorem IsNormal.exists_parts_make {name : String} (hname : IsNormal name) {params : List String}
    (hparams : ∀ p ∈ params, IsPlain p.toList) :
    ∃ ps : List (List Char), (∀ p ∈ ps ++ params.map (·.toList ++ [':']), CanonicalPart p) ∧
      name.toList = [' '].intercalate ps ∧
        (make (some name) params).toList = [' '].intercalate (ps ++ params.map (·.toList ++ [':'])) := by
  obtain ⟨ps, hps, hlist⟩ := hname
  have hcanonical : ∀ p ∈ ps ++ params.map (·.toList ++ [':']), CanonicalPart p := by
    intro p hp
    rcases List.mem_append.mp hp with hp | hp
    · exact hps p hp
    · obtain ⟨k, hk, rfl⟩ := List.mem_map.mp hp
      exact .keyword (hparams k hk)
  refine ⟨ps, hcanonical, hlist, ?_⟩
  by_cases hempty : name = ""
  · -- an empty name is left out, and it has no parts
    have hnil : ps = [] := by
      rw [← partsOf_intercalate hps, ← hlist, hempty]
      rfl
    have hnone : make (some name) params = make none params := by
      rw [hempty]
      rfl
    rw [hnone, toList_make (by simp), hnil]
    rfl
  · have hne : ps ≠ [] := by
      rintro rfl
      exact hempty (String.toList_eq_nil_iff.mp hlist)
    rw [toList_make (by simpa using hempty)]
    simp only [Option.toList_some, List.map_cons, List.map_nil, List.singleton_append, hlist]
    exact intercalate_intercalate_cons hne _

theorem isBinary_eq_false_of_colon {s : String} (hs : ':' ∈ s.toList) : isBinary s = false := by
  have hoperators : ∀ t ∈ operators, ':' ∉ t.toList := by decide
  by_contra hbinary
  rw [Bool.not_eq_false, isBinary] at hbinary
  exact hoperators s (by simpa using hbinary) hs

theorem colon_mem_of_isPart {w : List Char} (hw : isPart w = true) : ':' ∈ w := by
  rw [isPart, beq_iff_eq] at hw
  exact List.mem_of_getLast? hw

/-- A selector with keywords ends in a colon. -/
theorem isPart_make {name : Option String} (hname : ∀ w ∈ name, w ≠ "") {keywords : List String}
    (hne : keywords ≠ []) : isPart (make name keywords).toList = true := by
  rw [toList_make hname, ← List.dropLast_concat_getLast hne, List.map_append, List.map_singleton,
    ← List.append_assoc, intercalate_concat, ← List.append_assoc]
  exact isPart_keyword _

end Selector

end Parley
