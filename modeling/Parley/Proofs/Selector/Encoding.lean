import Mathlib.Logic.Function.Defs
import Parley.Proofs.Selector.Normal

/-! A selector is a code for what a message is made of: a leading name or none, and keywords. It is read
back into these, no other name and keywords have it, and every way to write the message by hand is brought
to it. So two selectors are of one message exactly if they are the same text. -/

namespace Parley.Selector

open Parley.Text

theorem IsKey.isPlain {w : String} (hw : IsKey w) : IsPlain w.toList := by
  intro c hc
  refine ⟨hw.isWord.2 c hc, ?_⟩
  rintro rfl
  exact hw.colon_not_mem hc

section Make

variable {name name' : Option String} {keywords keywords' : List String}
  (hname : ∀ w ∈ name, IsKey w) (hkeywords : ∀ w ∈ keywords, IsKey w)
  (hname' : ∀ w ∈ name', IsKey w) (hkeywords' : ∀ w ∈ keywords', IsKey w)

include hname hkeywords in
/-- What is made of keys is in canonical spacing already. -/
theorem isNormal_make : IsNormal (make name keywords) := by
  refine ⟨name.toList.map String.toList ++ keywords.map (·.toList ++ [':']), ?_, ?_⟩
  · intro p hp
    rcases List.mem_append.mp hp with hp | hp
    · obtain ⟨w, hw, rfl⟩ := List.mem_map.mp hp
      have hkey := hname w (Option.mem_toList.mp hw)
      exact .word hkey.isWord.1 hkey.isPlain
    · obtain ⟨k, hk, rfl⟩ := List.mem_map.mp hp
      exact .keyword (hkeywords k hk).isPlain
  · exact toList_make fun w hw => (hname w hw).ne_empty

include hname hkeywords in
/-- The selector carries as many arguments as it has keywords; a name by itself has to be no operator. -/
theorem arity_make (hoperator : ∀ w ∈ name, isBinary w = false) (hsome : keywords = [] → name ≠ none) :
    arity (make name keywords) = keywords.length := by
  have hbinary : isBinary (make name keywords) = false := by
    by_cases hne : keywords = []
    · obtain ⟨w, rfl⟩ := Option.ne_none_iff_exists'.mp (hsome hne)
      rw [hne, make_some_nil (hname w rfl)]
      exact hoperator w rfl
    · exact isBinary_make hname hkeywords hne
  rw [arity, hbinary, if_neg Bool.false_ne_true, keywords_make hname hkeywords]

include hname hkeywords hname' hkeywords' in
/-- The keywords are the words that end in a colon, and the name is the word that does not. -/
theorem make_injective (h : make name keywords = make name' keywords') :
    name = name' ∧ keywords = keywords' := by
  have hwords : name.toList.map String.toList = name'.toList.map String.toList := by
    rw [← filter_not_isPart_make hname hkeywords, ← filter_not_isPart_make hname' hkeywords', h]
  have hlists : name.toList = name'.toList :=
    List.map_injective_iff.mpr (fun _ _ => String.toList_inj.mp) hwords
  constructor
  · rw [← Option.head?_toList (o := name), hlists, Option.head?_toList]
  · rw [← keywords_make hname hkeywords, h, keywords_make hname' hkeywords']

end Make

open Parley.Grammar in
/-- Names that were written take an argument for each keyword. -/
theorem arity_make_of_isName {name : Option String} {keywords : List String}
    (hname : ∀ w ∈ name, isName w.toList = true) (hkeywords : ∀ w ∈ keywords, isName w.toList = true)
    (hne : keywords ≠ []) : arity (make name keywords) = keywords.length :=
  arity_make (isKey_of_names hname) (isKey_of_names hkeywords)
    (fun w hw => isBinary_eq_false_of_isName (hname w hw)) (absurd · hne)

/-- What a message is made of: a leading name or none, and keywords. The name is no operator, and it is
there if there are no keywords. -/
structure Signature where
  name : Option String
  keywords : List String
  name_isKey : ∀ w ∈ name, IsKey w
  keywords_isKey : ∀ w ∈ keywords, IsKey w
  isBinary_name : ∀ w ∈ name, isBinary w = false
  name_ne_none : keywords = [] → name ≠ none

def Signature.selector (g : Signature) : String := make g.name g.keywords

/-- What a selector says about the message that it is of. -/
structure Signature.Encoded (g : Signature) : Prop where
  keywords : Selector.keywords g.selector = g.keywords
  arity : Selector.arity g.selector = g.keywords.length
  normal : normalize g.selector = g.selector
  /-- The name and a blank, then the keywords with a colon after each and any blanks or none after that. -/
  handwritten : ∀ text, Handwritten text g.name g.keywords → normalize text = g.selector

/-- Normalising twice is normalising once, selectors are read back and fixed, and no two messages have one
selector. -/
theorem encodes_signatures :
    (∀ s, normalize (normalize s) = normalize s) ∧ (∀ g : Signature, g.Encoded) ∧
      Function.Injective Signature.selector := by
  refine ⟨fun s => (isNormal_normalize s).normalize_eq, fun g => ?_, ?_⟩
  · exact {
      keywords := keywords_make g.name_isKey g.keywords_isKey
      arity := arity_make g.name_isKey g.keywords_isKey g.isBinary_name g.name_ne_none
      normal := (isNormal_make g.name_isKey g.keywords_isKey).normalize_eq
      handwritten := fun _ htext => htext.normalize_eq }
  · rintro ⟨name, keywords, hname, hkeywords, _, _⟩ ⟨name', keywords', hname', hkeywords', _, _⟩ h
    obtain ⟨rfl, rfl⟩ := make_injective hname hkeywords hname' hkeywords' h
    rfl

/-- A message with a name and two keywords, the second of which is an operator. -/
def followSignature : Signature where
  name := some "follow"
  keywords := ["user", "+"]
  name_isKey := by
    rintro w ⟨⟩
    exact isKey_of_isName (by decide)
  keywords_isKey := by
    refine List.forall_mem_cons.mpr ⟨isKey_of_isName (by decide), ?_⟩
    exact List.forall_mem_singleton.mpr ⟨⟨by decide, by simp; decide⟩, by decide⟩
  isBinary_name := by
    rintro w ⟨⟩
    decide
  name_ne_none := nofun

/-- Without blanks between the keywords and with some after them it comes to the same selector. -/
theorem encodes_signatures_follow : keywords "follow user: +:" = ["user", "+"] ∧
    arity "follow user: +:" = 2 ∧ normalize "follow user:+: \t" = "follow user: +:" := by
  obtain ⟨-, hencoded, -⟩ := encodes_signatures
  have hselector : followSignature.selector = "follow user: +:" := by decide
  obtain ⟨hkeywords, harity, -, hhandwritten⟩ := hencoded followSignature
  rw [hselector] at hkeywords harity hhandwritten
  refine ⟨hkeywords, harity, hhandwritten _ ?_⟩
  have huser : IsKey "user" := followSignature.keywords_isKey "user" (by decide)
  have hplus : IsKey "+" := followSignature.keywords_isKey "+" (by decide)
  have hfollow : IsKey "follow" := followSignature.name_isKey "follow" rfl
  have hlast : Keyed ['+', ':', ' ', '\t'] ["+"] :=
    @Keyed.cons "+" [' ', '\t'] [] [] hplus.isPlain (by simp; decide) .nil
  have hkeyed : Keyed (['u', 's', 'e', 'r', ':'] ++ ['+', ':', ' ', '\t']) ["user", "+"] :=
    @Keyed.cons "user" [] _ _ huser.isPlain (by simp) hlast
  exact @Handwritten.named _ "follow" [' '] _ _ hfollow.isPlain hfollow.ne_empty (by simp; decide) (by simp) hkeyed
    (by decide)

end Parley.Selector
