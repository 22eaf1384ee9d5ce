import Mathlib.Tactic.Common
import Parley.Text.Decimal

/-! Reading integers. A number is read from its digits: blanks around it, a plus sign and single underscores
between the digits change nothing, and whether there are too many digits is decided by the digits alone. -/

namespace Parley.Text

/-- The blanks that may stand around a number. -/
def numberBlanks : List Char := [' ', '\t', '\n', '\r', '\x0b', '\x0c']

/-- A sign as it is written, and as it may be read. -/
inductive Signs : List Char → List Char → Prop
  | none : Signs [] []
  | plus : Signs [] ['+']
  | minus : Signs ['-'] ['-']

/-- Some digits, and the same digits with single underscores between them in places. -/
inductive Spaced : List Char → List Char → Prop
  | last {d : Char} (hd : d.isDigit = true) : Spaced [d] [d]
  | digit {d : Char} {ds cs : List Char} (hd : d.isDigit = true) (h : Spaced ds cs) :
      Spaced (d :: ds) (d :: cs)
  | underscore {d : Char} {ds cs : List Char} (hd : d.isDigit = true) (h : Spaced ds cs) :
      Spaced (d :: ds) (d :: '_' :: cs)

/-- The text of an integer, and a text obtained from it by adding blanks before and after, a plus sign
unless there is a minus sign, zeros in front of the digits, and single underscores between digits. -/
inductive Respells : List Char → List Char → Prop
  | intro {sign digits sign' digits' before after : List Char} (zeros : Nat)
      (hbefore : ∀ c ∈ before, c ∈ numberBlanks) (hsign : Signs sign sign')
      (hdigits : Spaced (List.replicate zeros '0' ++ digits) digits')
      (hafter : ∀ c ∈ after, c ∈ numberBlanks) :
      Respells (sign ++ digits) (before ++ (sign' ++ (digits' ++ after)))

/-! Characters -/

/-- What stands in the digits of a number. -/
def isNumberBody (c : Char) : Bool := c.isDigit || c == '_'

theorem isNumberBlank_of_mem {c : Char} (h : c ∈ numberBlanks) :
    isNumberBlank c = true ∧ isNumberBody c = false ∧ c.toNat < 127 := by
  simp only [numberBlanks, List.mem_cons, List.not_mem_nil, or_false] at h
  rcases h with rfl | rfl | rfl | rfl | rfl | rfl <;> decide

theorem toNat_of_isDigit {d : Char} (h : d.isDigit = true) : 48 ≤ d.toNat ∧ d.toNat ≤ 57 := by
  simpa [Char.isDigit, UInt32.le_iff_toNat_le] using h

theorem ne_of_isDigit {d c : Char} (hd : d.isDigit = true) (hc : c.isDigit = false) : d ≠ c := by
  rintro rfl
  exact Bool.false_ne_true (hc.symm.trans hd)

theorem isNumberBlank_of_isDigit {d : Char} (h : d.isDigit = true) : isNumberBlank d = false := by
  have hd := toNat_of_isDigit h
  simp only [isNumberBlank, Bool.or_eq_false_iff, Bool.and_eq_false_iff, decide_eq_false_iff_not,
    beq_eq_false_iff_ne]
  exact ⟨.inr (by omega), ne_of_isDigit h rfl⟩

theorem isDigit_of_mem_numberBlanks {c : Char} (h : c ∈ numberBlanks) : c.isDigit = false :=
  (Bool.or_eq_false_iff.mp (isNumberBlank_of_mem h).2.1).1

theorem map_plainDigit {cs : List Char} (h : ∀ c ∈ cs, c.toNat < 127) : cs.map plainDigit = cs := by
  have hplain : ∀ c ∈ cs, plainDigit c = id c := fun c hc => if_pos (h c hc)
  rw [List.map_congr_left hplain, List.map_id]

theorem filter_isDigit_eq_nil {cs : List Char} (h : ∀ c ∈ cs, c.isDigit = false) :
    cs.filter Char.isDigit = [] := by
  rw [List.filter_eq_nil_iff]
  intro c hc
  rw [h c hc]
  exact Bool.false_ne_true

namespace Spaced

variable {ds cs : List Char}

theorem exists_cons (h : Spaced ds cs) : ∃ d rest, cs = d :: rest ∧ d.isDigit = true := by
  cases h with
  | last hd => exact ⟨_, _, rfl, hd⟩
  | digit hd _ => exact ⟨_, _, rfl, hd⟩
  | underscore hd _ => exact ⟨_, _, rfl, hd⟩

theorem isNumberBody (h : Spaced ds cs) : ∀ c ∈ cs, isNumberBody c = true := by
  induction h with
  | last hd => simp [Text.isNumberBody, hd]
  | digit hd _ ih => simpa [Text.isNumberBody, hd] using ih
  | underscore hd _ ih => simpa [Text.isNumberBody, hd] using ih

theorem filter_isDigit (h : Spaced ds cs) : cs.filter Char.isDigit = ds := by
  induction h with
  | last hd => rw [List.filter_cons_of_pos hd, List.filter_nil]
  | digit hd _ ih => rw [List.filter_cons_of_pos hd, ih]
  | underscore hd _ ih =>
      rw [List.filter_cons_of_pos hd, List.filter_cons_of_neg (by decide), ih]

theorem not_underscore {d : Char} (hd : d.isDigit = true) : ¬(d == '_') = true := by
  rw [beq_iff_eq]
  exact ne_of_isDigit hd rfl

theorem wellSpaced (h : Spaced ds cs) : wellSpaced cs = true := by
  rw [Text.wellSpaced]
  induction h with
  | last hd => simp [pieces, not_underscore hd]
  | @digit d ds cs hd _ ih =>
      rw [pieces, if_neg (not_underscore hd)]
      cases hpieces : pieces (· == '_') cs with
      | nil => exact absurd hpieces (pieces_ne_nil _ _)
      | cons w ws =>
          rw [hpieces, List.all_cons, Bool.and_eq_true] at ih
          simpa using ih.2
  | underscore hd _ ih =>
      rw [pieces, if_neg (not_underscore hd), pieces, if_pos (by rfl)]
      simpa using ih

end Spaced

/-! Reading -/

theorem digitsValue_replicate_zero_append (zeros : Nat) (ds : List Char) :
    digitsValue (List.replicate zeros '0' ++ ds) = digitsValue ds := by
  have hzeros : (List.replicate zeros '0').foldl (fun n d => 10 * n + (d.toNat - '0'.toNat)) 0 = 0 := by
    induction zeros with
    | zero => rfl
    | succ zeros ih =>
        rw [List.replicate_succ, List.foldl_cons]
        exact ih
  rw [digitsValue, List.foldl_append, hzeros]
  rfl

theorem Signs.takeSign {sign sign' : List Char} (h : Signs sign sign') {d : Char} (hd : d.isDigit = true)
    (rest : List Char) : takeSign (sign' ++ d :: rest) = (decide (sign = ['-']), d :: rest) := by
  cases h with
  | plus => rfl
  | minus => rfl
  | none =>
      unfold Text.takeSign
      split
      · next heq => exact absurd (List.cons.inj heq).1 (ne_of_isDigit hd rfl)
      · next heq => exact absurd (List.cons.inj heq).1 (ne_of_isDigit hd rfl)
      · rfl

/-- A run that its class does not leave is taken as a whole, up to what is outside the class. -/
theorem takeWhile_dropWhile_append {p : Char → Bool} {run after : List Char} (hrun : ∀ c ∈ run, p c = true)
    (hafter : ∀ c ∈ after, p c = false) :
    (run ++ after).takeWhile p = run ∧ (run ++ after).dropWhile p = after := by
  rw [List.takeWhile_append_of_pos hrun, List.dropWhile_append_of_pos hrun]
  cases after with
  | nil => exact ⟨List.append_nil run, rfl⟩
  | cons c after =>
      have hc : ¬p c = true := by
        rw [hafter c List.mem_cons_self]
        exact Bool.false_ne_true
      rw [List.takeWhile_cons_of_neg hc, List.dropWhile_cons_of_neg hc]
      exact ⟨List.append_nil run, rfl⟩

section Spelling

variable {sign sign' ds digits' before after : List Char}

theorem Signs.toNat_lt (h : Signs sign sign') : ∀ c ∈ sign', c.toNat < 127 := by
  cases h <;> simp

theorem Spaced.toNat_lt (h : Spaced ds digits') : ∀ c ∈ digits', c.toNat < 127 := by
  intro c hc
  rcases (Bool.or_eq_true _ _).mp (h.isNumberBody c hc) with hdigit | hunderscore
  · have := toNat_of_isDigit hdigit
    omega
  · rw [beq_iff_eq.mp hunderscore]
    decide

theorem Signs.dropWhile_isNumberBlank (h : Signs sign sign') {d : Char} (hd : d.isDigit = true)
    (rest : List Char) : (sign' ++ d :: rest).dropWhile isNumberBlank = sign' ++ d :: rest := by
  cases h with
  | plus => exact List.dropWhile_cons_of_neg (by decide)
  | minus => exact List.dropWhile_cons_of_neg (by decide)
  | none =>
      refine List.dropWhile_cons_of_neg ?_
      rw [isNumberBlank_of_isDigit hd]
      exact Bool.false_ne_true

/-- A number is read from its digits, whatever reading allows around and between them. -/
theorem readInteger_eq (hbefore : ∀ c ∈ before, c ∈ numberBlanks) (hsign : Signs sign sign')
    (hdigits : Spaced ds digits') (hafter : ∀ c ∈ after, c ∈ numberBlanks) {text : String}
    (htext : text.toList = before ++ (sign' ++ (digits' ++ after))) :
    readInteger text = (readDigits ds).map fun n : Nat => if sign = ['-'] then -(n : Int) else n := by
  have hplain : text.toList.map plainDigit = text.toList := by
    refine map_plainDigit fun c hc => ?_
    simp only [htext, List.mem_append] at hc
    rcases hc with hc | hc | hc | hc
    · exact (isNumberBlank_of_mem (hbefore c hc)).2.2
    · exact hsign.toNat_lt c hc
    · exact hdigits.toNat_lt c hc
    · exact (isNumberBlank_of_mem (hafter c hc)).2.2
  have hblank (c : Char) (hc : c ∈ before) : isNumberBlank c = true :=
    (isNumberBlank_of_mem (hbefore c hc)).1
  have hend : after.all isNumberBlank = true :=
    List.all_eq_true.mpr fun c hc => (isNumberBlank_of_mem (hafter c hc)).1
  obtain ⟨htake, hdrop⟩ : (digits' ++ after).takeWhile (fun c => c.isDigit || c == '_') = digits' ∧
      (digits' ++ after).dropWhile (fun c => c.isDigit || c == '_') = after :=
    takeWhile_dropWhile_append hdigits.isNumberBody fun c hc => (isNumberBlank_of_mem (hafter c hc)).2.1
  obtain ⟨d, rest, hcons, hd⟩ := hdigits.exists_cons
  have hstart : (text.toList.map plainDigit).dropWhile isNumberBlank = sign' ++ (digits' ++ after) := by
    rw [hplain, htext, List.dropWhile_append_of_pos hblank, hcons, List.cons_append,
      hsign.dropWhile_isNumberBlank hd]
  have htaken : takeSign (sign' ++ (digits' ++ after)) = (decide (sign = ['-']), digits' ++ after) := by
    rw [hcons, List.cons_append, hsign.takeSign hd]
  rw [readInteger, hstart]
  dsimp only
  rw [htaken]
  dsimp only
  rw [htake, hdrop, if_pos hdigits.wellSpaced, hdigits.filter_isDigit]
  cases readDigits ds with
  | error e => rfl
  | ok n =>
      dsimp only
      rw [if_pos hend]
      simp only [decide_eq_true_eq]
      rfl

end Spelling

theorem spaced_self {ds : List Char} (hne : ds ≠ []) (hds : ∀ d ∈ ds, d.isDigit = true) : Spaced ds ds := by
  induction ds with
  | nil => exact absurd rfl hne
  | cons d ds ih =>
      obtain ⟨hd, hds⟩ := List.forall_mem_cons.mp hds
      cases ds with
      | nil => exact .last hd
      | cons e es => exact .digit hd (ih (List.cons_ne_nil e es) hds)

/-- Digits alone are read as the number that they write, if there are not too many. -/
theorem readInteger_of_digits {text : String} (hne : text.toList ≠ [])
    (hdigits : ∀ d ∈ text.toList, d.isDigit = true) :
    readInteger text = (readDigits text.toList).map Int.ofNat := by
  have htext : text.toList = [] ++ ([] ++ (text.toList ++ [])) := by simp
  rw [readInteger_eq (List.forall_mem_nil _) .none (spaced_self hne hdigits) (List.forall_mem_nil _) htext]
  rfl

end Parley.Text
