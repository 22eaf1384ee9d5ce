/-! Blank characters, and the cutting of text at them: `strip` takes blanks from both ends, `wordsOf`
are the runs between blanks, `pieces` the possibly empty runs between any separators. -/

namespace Parley.Text

/-- The characters that separate words: the ASCII separators and line breaks, the no-break spaces
and the space separators of other scripts. -/
def isBlank (c : Char) : Bool :=
  let n := c.toNat
  (0x09 ≤ n && n ≤ 0x0D) || (0x1C ≤ n && n ≤ 0x20) || n == 0x85 || n == 0xA0 || n == 0x1680 ||
    (0x2000 ≤ n && n ≤ 0x200A) || n == 0x2028 || n == 0x2029 || n == 0x202F || n == 0x205F ||
    n == 0x3000

/-- The runs between the separators, empty ones included: one more than there are separators. -/
def pieces (sep : Char → Bool) : List Char → List (List Char)
  | [] => [[]]
  | c :: cs =>
    if sep c then [] :: pieces sep cs
    else match pieces sep cs with
      | [] => [[c]]
      | w :: ws => (c :: w) :: ws

/-- The non-empty runs between blanks. -/
def wordsOf (cs : List Char) : List (List Char) :=
  (pieces isBlank cs).filter (· ≠ [])

/-- A text without the blanks at its two ends. -/
def stripOf (cs : List Char) : List Char :=
  ((cs.dropWhile isBlank).reverse.dropWhile isBlank).reverse

/-- A text without the blanks at its two ends. -/
def strip (s : String) : String :=
  String.ofList (stripOf s.toList)

theorem pieces_ne_nil (sep : Char → Bool) (cs : List Char) : pieces sep cs ≠ [] := by
  induction cs with
  | nil => simp [pieces]
  | cons c cs ih =>
    rw [pieces]
    split
    · simp
    · split <;> simp

theorem not_sep_of_mem_pieces {sep : Char → Bool} {cs w : List Char} (hw : w ∈ pieces sep cs) :
    ∀ c ∈ w, sep c = false := by
  induction cs generalizing w with
  | nil => simp [pieces] at hw; simp [hw]
  | cons a cs ih =>
    rw [pieces] at hw
    split at hw
    · rcases List.mem_cons.mp hw with rfl | hw
      · simp
      · exact ih hw
    · next ha =>
      split at hw
      · simp at hw; subst hw; simpa using ha
      · next v vs hv =>
        rcases List.mem_cons.mp hw with rfl | hw
        · intro c hc
          rcases List.mem_cons.mp hc with rfl | hc
          · simpa using ha
          · exact ih (hv ▸ List.mem_cons_self) c hc
        · exact ih (hv ▸ List.mem_cons_of_mem _ hw)

end Parley.Text
