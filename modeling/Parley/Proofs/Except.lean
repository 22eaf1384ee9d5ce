import Mathlib.Tactic.Common

/-! Results that come about step by step: what a success says of the steps, and where an error comes
from. -/

namespace Parley

theorem exists_of_bind_eq_ok {ε α β : Type} {x : Except ε α} {f : α → Except ε β} {b : β}
    (h : (x >>= f) = .ok b) : ∃ a, x = .ok a ∧ f a = .ok b := by
  cases x with
  | error e => cases h
  | ok a => exact ⟨a, rfl, h⟩

theorem eq_error_of_bind_eq_error {ε α β : Type} {x : Except ε α} {f : α → Except ε β} {e : ε}
    (h : (x >>= f) = .error e) : x = .error e ∨ ∃ a, x = .ok a ∧ f a = .error e := by
  cases x with
  | error e' => cases h; exact .inl rfl
  | ok a => exact .inr ⟨a, rfl, h⟩

theorem exists_of_map_eq_ok {ε α β : Type} {f : α → β} {x : Except ε α} {b : β}
    (h : x.map f = .ok b) : ∃ a, x = .ok a ∧ f a = b := by
  cases x with
  | error e => cases h
  | ok a => exact ⟨a, rfl, Except.ok.inj h⟩

theorem eq_error_of_map_eq_error {ε α β : Type} {f : α → β} {x : Except ε α} {e : ε}
    (h : x.map f = .error e) : x = .error e := by
  cases x with
  | error e' => cases h; rfl
  | ok a => cases h

/-- Errors can be renamed after a step or after all of them. -/
theorem bind_mapError {ε ε' α β : Type} {x : Except ε α} {f : α → Except ε β} {f' : α → Except ε' β}
    {g : ε → ε'} (h : ∀ a, x = .ok a → f' a = (f a).mapError g) :
    (x.mapError g >>= f') = (x >>= f).mapError g := by
  cases x with
  | error e => rfl
  | ok a => exact h a rfl

theorem mapM_eq_ok {ε α β : Type} {f : α → Except ε β} {g : α → β} {l : List α}
    (h : ∀ a ∈ l, f a = .ok (g a)) : l.mapM f = .ok (l.map g) := by
  induction l with
  | nil => rfl
  | cons a l ih =>
      obtain ⟨ha, hl⟩ := List.forall_mem_cons.mp h
      rw [List.mapM_cons, ha, ih hl]
      rfl

/-- Results for all members of a list are the results for each of them. -/
theorem mapM_eq_ok_iff {ε α β : Type} {f : α → Except ε β} {l : List α} {bs : List β} :
    l.mapM f = .ok bs ↔ l.length = bs.length ∧ ∀ p ∈ l.zip bs, f p.1 = .ok p.2 := by
  induction l generalizing bs with
  | nil => cases bs <;> simp [pure, Except.pure]
  | cons a l ih =>
      rw [List.mapM_cons]
      constructor
      · intro h
        obtain ⟨b, hb, h⟩ := exists_of_bind_eq_ok h
        obtain ⟨bs', hbs, h⟩ := exists_of_bind_eq_ok h
        cases h
        obtain ⟨hlength, hpairs⟩ := ih.mp hbs
        exact ⟨congrArg Nat.succ hlength, List.forall_mem_cons.mpr ⟨hb, hpairs⟩⟩
      · rintro ⟨hlength, hpairs⟩
        cases bs with
        | nil => cases hlength
        | cons b bs =>
            obtain ⟨hb, hpairs⟩ := List.forall_mem_cons.mp hpairs
            rw [hb, ih.mpr ⟨Nat.succ.inj hlength, hpairs⟩]
            rfl

theorem exists_of_mapM_eq_error {ε α β : Type} {f : α → Except ε β} {l : List α} {e : ε}
    (h : l.mapM f = .error e) : ∃ a ∈ l, f a = .error e := by
  induction l with
  | nil => cases h
  | cons a l ih =>
      rw [List.mapM_cons] at h
      cases ha : f a with
      | error e' =>
          rw [ha] at h
          cases h
          exact ⟨a, List.mem_cons_self, ha⟩
      | ok b =>
          cases hl : l.mapM f with
          | error e' =>
              rw [ha, hl] at h
              cases h
              obtain ⟨c, hc, hce⟩ := ih hl
              exact ⟨c, List.mem_cons_of_mem a hc, hce⟩
          | ok bs =>
              rw [ha, hl] at h
              cases h

end Parley
