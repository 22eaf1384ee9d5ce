import Parley.Proofs.Machine.Logging
import Parley.Proofs.Machine.Literals
import Parley.Proofs.Store.Spelling
import Parley.Proofs.Text.Decimal

/-! Integers as texts and back. An integer has a text if it has no more digits than are written, and the
text is read as the same integer, in every spelling that reading allows: with blanks around it, a plus sign,
zeros in front and underscores between its digits. -/

namespace Parley

namespace Text

/-! Spellings of an integer -/

theorem toList_toString (n : Int) :
    (toString n).toList = (if n < 0 then ['-'] else []) ++ Nat.toDigits 10 n.natAbs := by
  split_ifs with hn
  · rw [Store.toList_toString_of_neg hn, toList_toString_natCast]
    rfl
  · have hcast : (n.natAbs : Int) = n := Int.natAbs_of_nonneg (Int.not_lt.mp hn)
    rw [← toList_toString_natCast, hcast]
    rfl

/-- A decimal text has one sign and one run of digits. -/
theorem sign_digits_of_toString {n : Int} {sign sign' digits : List Char} (hsign : Signs sign sign')
    (hdigits : ∀ d ∈ digits, d.isDigit = true) (h : (toString n).toList = sign ++ digits) :
    sign = (if n < 0 then ['-'] else []) ∧ digits = Nat.toDigits 10 n.natAbs := by
  have hall (d : Char) (hd : d ∈ Nat.toDigits 10 n.natAbs) : d.isDigit = true :=
    Nat.isDigit_of_mem_toDigits (by decide) (by decide) hd
  rw [toList_toString] at h
  have hbare (hneg : n < 0) (heq : ['-'] ++ Nat.toDigits 10 n.natAbs = digits) : False := by
    have hminus := hdigits '-' (heq ▸ List.mem_cons_self)
    cases hminus
  split_ifs at h ⊢ with hneg
  · cases hsign with
    | minus => exact ⟨rfl, (List.append_cancel_left h).symm⟩
    | none | plus => exact (hbare hneg h).elim
  · cases hsign with
    | none | plus => exact ⟨rfl, h.symm⟩
    | minus =>
        rw [List.nil_append] at h
        have hminus := hall '-' (h ▸ List.mem_cons_self)
        cases hminus

theorem Signs.isDigit {sign sign' : List Char} (h : Signs sign sign') :
    ∀ c ∈ sign', c.isDigit = false := by
  cases h <;> simp

/-- Every spelling of the text of an integer is read as the integer, unless it has too many digits. -/
theorem readInteger_of_respells {n : Int} {text : String} (h : Respells (toString n).toList text.toList)
    (hlength : (text.toList.filter Char.isDigit).length ≤ digitLimit) : readInteger text = .ok n := by
  generalize hwritten : (toString n).toList = written at h
  generalize hspelt : text.toList = spelt at h
  obtain @⟨sign, digits, sign', digits', before, after, zeros, hbefore, hsign, hdigits, hafter⟩ := h
  have hfilter := hdigits.filter_isDigit
  have hcount : (List.replicate zeros '0' ++ digits).length ≤ digitLimit := by
    simp only [hspelt, List.filter_append, hfilter, filter_isDigit_eq_nil hsign.isDigit,
      filter_isDigit_eq_nil fun c hc => isDigit_of_mem_numberBlanks (hbefore c hc),
      filter_isDigit_eq_nil fun c hc => isDigit_of_mem_numberBlanks (hafter c hc)] at hlength
    simpa using hlength
  have hall : ∀ d ∈ digits, d.isDigit = true := by
    intro d hd
    have hmem : d ∈ digits'.filter Char.isDigit := hfilter ▸ List.mem_append_right _ hd
    exact List.of_mem_filter hmem
  obtain ⟨rfl, rfl⟩ := sign_digits_of_toString hsign hall hwritten
  rw [readInteger_eq hbefore hsign hdigits hafter hspelt, readDigits, if_neg (Nat.not_lt.mpr hcount),
    digitsValue_replicate_zero_append, Grammar.digitsValue_toDigits, Except.map]
  congr 1
  by_cases hneg : n < 0
  · rw [if_pos hneg, if_pos rfl]
    omega
  · rw [if_neg hneg, if_neg (by decide)]
    omega

end Text

namespace Store

variable (s : Store) (n : Int)

/-- An integer answers its text, or refuses if it has too many digits. -/
theorem send_asString : ∃ s', s.SameExceptLog s' ∧ s.send (.integer n) "asString" [] =
    (if n.natAbs < Text.tooLong then .finish (.string (toString n)) else .refuse "asString" .textTooLong,
      s') := by
  have hlog : s.CanLog [] := .inr nofun
  obtain ⟨s', hsame, hsend⟩ := send_of_canLog hlog (.integer n) "asString"
  refine ⟨s', hsame, ?_⟩
  have hperform : s'.sendMessage (.integer n) "asString" [] =
      Answer.act s' (AnyPrimitive.answer s' .asString "asString" (.integer n) []) := rfl
  have hdisplay : s'.display (.integer n) = integerText n := rfl
  rw [hsend, hperform, AnyPrimitive.answer, hdisplay, integerText_eq_ite]
  split_ifs <;> rfl

/-- A string that is read as an integer answers the integer. -/
theorem send_asInteger {text : String} (h : Text.readInteger text = .ok n) :
    ∃ s', s.SameExceptLog s' ∧ s.send (.string text) "asInteger" [] = (.finish (.integer n), s') := by
  have hlog : s.CanLog [] := .inr nofun
  obtain ⟨s', hsame, hsend⟩ := send_of_canLog hlog (.string text) "asInteger"
  refine ⟨s', hsame, ?_⟩
  have hperform : s'.sendMessage (.string text) "asInteger" [] =
      Answer.act s' (StringPrimitive.answer s' .asInteger "asInteger" text []) := rfl
  rw [hsend, hperform, StringPrimitive.answer, h]
  rfl

/-- Integers survive text. An integer answers a text if it has at most 4300 digits, and the text is its sign
and its digits; otherwise it refuses. In any store, every spelling of the text that has at most 4300 digits,
zeros in front included, answers the integer. Nothing but the log changes. -/
theorem integers_survive_text :
    ((∃ text s', s.send (.integer n) "asString" [] = (.finish (.string text), s')) ↔
      (Nat.toDigits 10 n.natAbs).length ≤ 4300) ∧
    (4300 < (Nat.toDigits 10 n.natAbs).length → ∃ s', s.SameExceptLog s' ∧
      s.send (.integer n) "asString" [] = (.refuse "asString" .textTooLong, s')) ∧
    ∀ text s', s.send (.integer n) "asString" [] = (.finish (.string text), s') →
      s.SameExceptLog s' ∧
      text.toList = (if n < 0 then ['-'] else []) ++ Nat.toDigits 10 n.natAbs ∧
      ∀ spelling : String, Text.Respells text.toList spelling.toList →
        (spelling.toList.filter Char.isDigit).length ≤ 4300 →
        ∀ before : Store, ∃ after, before.SameExceptLog after ∧
          before.send (.string spelling) "asInteger" [] = (.finish (.integer n), after) := by
  have hdigits : n.natAbs < Text.tooLong ↔ (Nat.toDigits 10 n.natAbs).length ≤ 4300 :=
    lt_tooLong_iff n.natAbs
  obtain ⟨s', hsame, hsend⟩ := s.send_asString n
  by_cases hn : n.natAbs < Text.tooLong
  · rw [if_pos hn] at hsend
    refine ⟨⟨fun _ => hdigits.mp hn, fun _ => ⟨_, s', hsend⟩⟩, ?_, ?_⟩
    · exact fun hlong => absurd (hdigits.mp hn) (Nat.not_le.mpr hlong)
    · intro text s'' htext
      rw [hsend] at htext
      cases htext
      refine ⟨hsame, Text.toList_toString n, fun spelling hspelling hcount before => ?_⟩
      exact send_asInteger before n (Text.readInteger_of_respells hspelling hcount)
  · rw [if_neg hn] at hsend
    refine ⟨⟨?_, fun hshort => absurd (hdigits.mpr hshort) hn⟩, fun _ => ⟨s', hsame, hsend⟩, ?_⟩
    · rintro ⟨text, s'', htext⟩
      rw [hsend] at htext
      cases htext
    · intro text s'' htext
      rw [hsend] at htext
      cases htext

/-- A negative number with zeros in front, an underscore and blanks around it. -/
theorem integers_survive_text_spelled : ∃ s₁ s₂ : Store,
    (initial false).send (.integer (-7)) "asString" [] = (.finish (.string "-7"), s₁) ∧
    Text.Respells "-7".toList "\t-0_07\n".toList ∧
    s₁.send (.string "\t-0_07\n") "asInteger" [] = (.finish (.integer (-7)), s₂) := by
  obtain ⟨hdigits, -, hspellings⟩ := integers_survive_text (initial false) (-7)
  obtain ⟨text, s₁, hsend⟩ := hdigits.mpr (by decide)
  obtain ⟨-, htext, hspelled⟩ := hspellings text s₁ hsend
  obtain rfl : text = "-7" := String.toList_inj.mp (htext.trans (by decide))
  have hseven : Text.Spaced ['0', '0', '7'] ['0', '_', '0', '7'] :=
    .underscore rfl (.digit rfl (.last rfl))
  have hspelling : Text.Respells "-7".toList "\t-0_07\n".toList :=
    @Text.Respells.intro ['-'] ['7'] ['-'] _ ['\t'] ['\n'] 2 (by simp [Text.numberBlanks]) .minus hseven
      (by simp [Text.numberBlanks])
  obtain ⟨s₂, -, hread⟩ := hspelled "\t-0_07\n" hspelling (by decide) s₁
  exact ⟨s₁, s₂, hsend, hspelling, hread⟩

end Store

end Parley
