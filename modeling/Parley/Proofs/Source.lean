import Mathlib.Order.Basic
import Parley.Source

/-! The order of the places of a text, and the characters between two of them. Every character leads to a
later place, so a span that begins and ends where some characters do takes out just those. -/

namespace Parley

namespace Point

/-- A place comes before those on later lines and those further right on its own. -/
instance : PartialOrder Point where
  le p q := p.line < q.line ∨ (p.line = q.line ∧ p.column ≤ q.column)
  lt p q := p.line < q.line ∨ (p.line = q.line ∧ p.column < q.column)
  le_refl p := .inr ⟨rfl, Nat.le_refl _⟩
  le_trans p q r := by omega
  lt_iff_le_not_ge p q := by omega
  le_antisymm p q hpq hqp := by
    obtain ⟨line, column⟩ := p
    obtain ⟨line', column'⟩ := q
    simp only at hpq hqp
    rw [Point.mk.injEq]
    omega

theorem le_def {p q : Point} :
    p ≤ q ↔ p.line < q.line ∨ (p.line = q.line ∧ p.column ≤ q.column) := Iff.rfl

theorem lt_def {p q : Point} :
    p < q ↔ p.line < q.line ∨ (p.line = q.line ∧ p.column < q.column) := Iff.rfl

instance (p q : Point) : Decidable (p ≤ q) := decidable_of_iff _ le_def.symm

instance (p q : Point) : Decidable (p < q) := decidable_of_iff _ lt_def.symm

theorem after_append (p : Point) (cs ds : List Char) :
    p.after (cs ++ ds) = (p.after cs).after ds :=
  List.foldl_append

theorem lt_next (p : Point) (c : Char) : p < p.next c := by
  rw [lt_def, next]
  split_ifs
  · exact .inl (Nat.lt_succ_self _)
  · exact .inr ⟨rfl, Nat.lt_succ_self _⟩

theorem le_after (p : Point) (cs : List Char) : p ≤ p.after cs := by
  induction cs generalizing p with
  | nil => exact le_refl p
  | cons c cs ih => exact (lt_next p c).le.trans (ih (p.next c))

theorem lt_after {cs : List Char} (hcs : cs ≠ []) (p : Point) : p < p.after cs := by
  cases cs with
  | nil => exact absurd rfl hcs
  | cons c cs => exact (lt_next p c).trans_le (le_after (p.next c) cs)

end Point

namespace Span

/-- The characters at the places of a span, of those that begin at a place. -/
def sliceFrom (span : Span) (p : Point) : List Char → List Char
  | [] => []
  | c :: cs =>
    (if span.start ≤ p ∧ p < span.stop then [c] else []) ++ span.sliceFrom (p.next c) cs

/-- The stretch of a text from the start of a span up to but not including its end. -/
def slice (span : Span) (text : String) : String :=
  String.ofList (span.sliceFrom .first text.toList)

variable {span : Span} {p : Point} {cs : List Char}

theorem sliceFrom_append (ds : List Char) :
    span.sliceFrom p (cs ++ ds) = span.sliceFrom p cs ++ span.sliceFrom (p.after cs) ds := by
  induction cs generalizing p with
  | nil => rfl
  | cons c cs ih =>
      rw [List.cons_append, sliceFrom, sliceFrom, ih, List.append_assoc]
      rfl

theorem sliceFrom_of_le_start (h : p.after cs ≤ span.start) : span.sliceFrom p cs = [] := by
  induction cs generalizing p with
  | nil => rfl
  | cons c cs ih =>
      have hlt : p < span.start := (Point.lt_after (List.cons_ne_nil c cs) p).trans_le h
      rw [sliceFrom, if_neg fun hp => absurd hp.1 hlt.not_ge, ih h]
      rfl

theorem sliceFrom_of_stop_le (h : span.stop ≤ p) : span.sliceFrom p cs = [] := by
  induction cs generalizing p with
  | nil => rfl
  | cons c cs ih =>
      rw [sliceFrom, if_neg fun hp => absurd hp.2 h.not_gt, ih (h.trans (Point.lt_next p c).le)]
      rfl

theorem sliceFrom_of_within (hstart : span.start ≤ p) (hstop : p.after cs ≤ span.stop) :
    span.sliceFrom p cs = cs := by
  induction cs generalizing p with
  | nil => rfl
  | cons c cs ih =>
      have hp : p < span.stop := (Point.lt_after (List.cons_ne_nil c cs) p).trans_le hstop
      rw [sliceFrom, if_pos ⟨hstart, hp⟩, ih (hstart.trans (Point.lt_next p c).le) hstop]
      rfl

/-- The slice from the place where some characters of a text begin to the place where they end is those
characters. -/
theorem slice_eq {text : String} {before inner after : List Char}
    (htext : text.toList = before ++ (inner ++ after)) :
    slice ⟨Point.first.after before, (Point.first.after before).after inner⟩ text =
      String.ofList inner := by
  rw [slice, htext, sliceFrom_append, sliceFrom_append, sliceFrom_of_le_start le_rfl,
    sliceFrom_of_within le_rfl le_rfl, sliceFrom_of_stop_le le_rfl, List.append_nil, List.nil_append]

end Span

end Parley
