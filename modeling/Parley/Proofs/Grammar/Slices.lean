import Parley.Proofs.Grammar.Exactness

/-! Terminals in their text. The tokens of a text stand one after another, and some neighbours among them are
the tokens of the characters from the start of the first to the end of the last. So a stretch of terminals
holds what lies among them, and what lies among earlier ones comes before what lies among later ones. -/

namespace Parley

/-- A span lies in another one. -/
def Span.Within (inner outer : Span) : Prop := outer.start ≤ inner.start ∧ inner.stop ≤ outer.stop

/-- A span ends before another one begins. -/
def Span.Before (span span' : Span) : Prop := span.stop ≤ span'.start

theorem Span.Within.trans {a b c : Span} (h : a.Within b) (h' : b.Within c) : a.Within c :=
  ⟨h'.1.trans h.1, h.2.trans h'.2⟩

namespace Grammar

/-! Neighbouring tokens -/

section Cuts

variable {p : Point} {cs : List Char} {t : Token} {ts us : List Token}

theorem Cut.le_start (h : Cut p cs ts) (ht : t ∈ ts) : p ≤ t.span.start := by
  induction h with
  | done => cases ht
  | skip _ _ _ ih => exact (Point.le_after _ _).trans (ih ht)
  | token _ _ ih =>
      rcases List.mem_cons.mp ht with rfl | ht
      · exact le_rfl
      · exact (Point.le_after _ _).trans (ih ht)

/-- The first tokens take up the characters before the others. -/
theorem Cut.drop (h : Cut p cs (ts ++ us)) :
    ∃ before rest, cs = before ++ rest ∧ Cut (p.after before) rest us := by
  generalize hall : ts ++ us = all at h
  induction h generalizing ts with
  | done p =>
      obtain ⟨rfl, rfl⟩ := List.append_eq_nil_iff.mp hall
      exact ⟨[], [], rfl, .done p⟩
  | @skip p l w rest all hl hlongest _ ih =>
      obtain ⟨before, more, rfl, hcut⟩ := ih hall
      exact ⟨w ++ before, more, (List.append_assoc _ _ _).symm, by rwa [Point.after_append]⟩
  | @token p kind w rest all hlongest hcut ih =>
      cases ts with
      | nil =>
          obtain rfl : us = _ := hall
          exact ⟨[], w ++ rest, rfl, .token hlongest hcut⟩
      | cons t ts =>
          obtain ⟨before, more, rfl, hcut⟩ := ih (List.cons.inj hall).2
          exact ⟨w ++ before, more, (List.append_assoc _ _ _).symm, by rwa [Point.after_append]⟩

/-- No blanks or comments stand between a place and the first token. -/
theorem Cut.exists_start (h : Cut p cs (t :: ts)) :
    ∃ before rest, cs = before ++ rest ∧ t.span.start = p.after before ∧
      Cut (p.after before) rest (t :: ts) := by
  generalize hall : t :: ts = all at h
  induction h with
  | done => cases hall
  | @skip p l w rest all hl hlongest _ ih =>
      obtain ⟨before, more, rfl, hstart, hcut⟩ := ih hall
      exact ⟨w ++ before, more, (List.append_assoc _ _ _).symm, by rwa [Point.after_append],
        by rwa [Point.after_append]⟩
  | @token p kind w rest all hlongest hcut ih =>
      obtain ⟨rfl, rfl⟩ := List.cons.inj hall
      exact ⟨[], w ++ rest, rfl, rfl, .token hlongest hcut⟩

/-- The first tokens are those of the characters up to the end of the last of them. -/
theorem Cut.take (h : Cut p cs (t :: ts ++ us)) :
    ∃ inner rest, cs = inner ++ rest ∧ Cut p inner (t :: ts) ∧
      (ts.getLastD t).span.stop = p.after inner := by
  generalize hall : t :: ts ++ us = all at h
  induction h generalizing t ts with
  | done => cases hall
  | @skip p l w rest all hl hlongest _ ih =>
      obtain ⟨inner, more, rfl, hcut, hstop⟩ := ih hall
      have hinner : inner <+: inner ++ more := List.prefix_append inner more
      exact ⟨w ++ inner, more, (List.append_assoc _ _ _).symm,
        .skip hl (hlongest.shorten hinner) hcut, by rwa [Point.after_append]⟩
  | @token p kind w rest all hlongest hcut ih =>
      rw [List.cons_append] at hall
      obtain ⟨rfl, hmore⟩ := List.cons.inj hall
      cases ts with
      | nil =>
          refine ⟨w, rest, rfl, ?_, rfl⟩
          have hw := Cut.token (p := p) (hlongest.shorten List.nil_prefix) (.done (p.after w))
          rwa [List.append_nil] at hw
      | cons u ts =>
          obtain ⟨inner, more, rfl, hcut, hstop⟩ := ih hmore
          have hinner : inner <+: inner ++ more := List.prefix_append inner more
          exact ⟨w ++ inner, more, (List.append_assoc _ _ _).symm,
            .token (hlongest.shorten hinner) hcut, by rwa [Point.after_append, List.getLastD_cons]⟩

end Cuts

theorem getLastD_map_token (x : Terminal) (xs : List Terminal) :
    (xs.map Terminal.token).getLastD x.token = (xs.getLastD x).token := by
  rw [List.getLastD_eq_getLast?, List.getLastD_eq_getLast?, List.getLast?_map, Option.getD_map]

/-- Neighbouring terminals of a text are those of the characters in their stretch. -/
theorem Cut.exists_slice {text : String} {xs ys zs : List Terminal} {span : Span}
    (h : Cut .first text.toList ((xs ++ (ys ++ zs)).map Terminal.token)) (hys : stretch ys = some span) :
    ∃ p, Cut p (span.slice text).toList (ys.map Terminal.token) := by
  cases ys with
  | nil => cases hys
  | cons y ys =>
      cases hys
      rw [List.map_append] at h
      obtain ⟨before, rest, htext, hrest⟩ := h.drop
      rw [List.map_append, List.map_cons, List.cons_append] at hrest
      obtain ⟨blanks, rest, rfl, hstart, hrest⟩ := hrest.exists_start
      obtain ⟨inner, after, rfl, hcut, hstop⟩ := hrest.take
      rw [getLastD_map_token] at hstop
      rw [← Point.after_append] at hcut
      have hspan : y.through ys = ⟨Point.first.after (before ++ blanks),
          (Point.first.after (before ++ blanks)).after inner⟩ := by
        rw [Terminal.through, Terminal.upTo, hstart, hstop, Point.after_append]
      refine ⟨Point.first.after (before ++ blanks), ?_⟩
      rw [hspan, Span.slice_eq (by rw [htext, List.append_assoc]), String.toList_ofList]
      exact hcut

/-! The order of terminals -/

/-- Every terminal ends before the next one begins. -/
structure InOrder (xs : List Terminal) : Prop where
  each : ∀ x ∈ xs, x.token.span.start ≤ x.token.span.stop
  pairs : xs.Pairwise fun x y => x.token.span.Before y.token.span

theorem Cut.inOrder {p : Point} {cs : List Char} {ts : List Token} (h : Cut p cs ts) {xs : List Terminal}
    (hxs : xs.map Terminal.token = ts) : InOrder xs := by
  induction h generalizing xs with
  | done =>
      obtain rfl := List.map_eq_nil_iff.mp hxs
      exact ⟨List.forall_mem_nil _, .nil⟩
  | skip _ _ _ ih => exact ih hxs
  | @token p kind w rest ts hlongest hcut ih =>
      cases xs with
      | nil => cases hxs
      | cons x xs =>
          obtain ⟨hx, hts⟩ := List.cons.inj hxs
          have hlater := ih hts
          refine ⟨List.forall_mem_cons.mpr ⟨?_, hlater.each⟩,
            List.pairwise_cons.mpr ⟨fun y hy => ?_, hlater.pairs⟩⟩
          · rw [hx]
            exact Point.le_after p w
          · rw [hx]
            exact hcut.le_start (hts ▸ List.mem_map_of_mem hy)

end Grammar

open Grammar

/-- A span lies between some of the terminals, these included. -/
def Span.Among (span : Span) (xs : List Terminal) : Prop := ∃ x ∈ xs, ∃ y ∈ xs, span.Within (x.upTo y)

section Among

variable {span span' outer : Span} {xs ys : List Terminal}

theorem Span.Among.mono (h : span.Among xs) (hxs : xs ⊆ ys) : span.Among ys := by
  obtain ⟨x, hx, y, hy, hwithin⟩ := h
  exact ⟨x, hxs hx, y, hxs hy, hwithin⟩

namespace Grammar

theorem InOrder.sublist (h : InOrder ys) (hxs : xs.Sublist ys) : InOrder xs :=
  ⟨fun x hx => h.each x (hxs.subset hx), h.pairs.sublist hxs⟩

theorem InOrder.tail {x : Terminal} (h : InOrder (x :: xs)) : InOrder xs :=
  h.sublist (List.sublist_cons_self x xs)

theorem among_of_stretch (h : stretch xs = some span) : span.Among xs := by
  cases xs with
  | nil => cases h
  | cons x xs =>
      cases h
      exact ⟨x, List.mem_cons_self, xs.getLastD x, List.getLastD_mem_cons .., le_rfl, le_rfl⟩

theorem InOrder.stop_le {x y : Terminal} (h : InOrder (x :: xs)) (hy : y ∈ x :: xs) :
    y.token.span.stop ≤ (xs.getLastD x).token.span.stop := by
  induction xs generalizing x y with
  | nil =>
      obtain rfl := List.mem_singleton.mp hy
      exact le_rfl
  | cons z zs ih =>
      rw [List.getLastD_cons]
      have hlater := h.tail
      rcases List.mem_cons.mp hy with rfl | hy
      · have hbefore := (List.pairwise_cons.mp h.pairs).1 z List.mem_cons_self
        exact hbefore.trans ((hlater.each z List.mem_cons_self).trans (ih hlater List.mem_cons_self))
      · exact ih hlater hy

/-- What lies among terminals lies in their stretch. -/
theorem InOrder.within (h : InOrder xs) (hspan : span.Among xs) (houter : stretch xs = some outer) :
    span.Within outer := by
  obtain ⟨x, hx, y, hy, hwithin⟩ := hspan
  refine hwithin.trans ⟨?_, ?_⟩
  · cases xs with
    | nil => cases houter
    | cons z zs =>
        cases houter
        rcases List.mem_cons.mp hx with rfl | hx
        · exact le_rfl
        · exact (h.each z List.mem_cons_self).trans ((List.pairwise_cons.mp h.pairs).1 x hx)
  · cases xs with
    | nil => cases houter
    | cons z zs =>
        cases houter
        exact h.stop_le hy

/-- What lies among earlier terminals comes before what lies among later ones. -/
theorem InOrder.before (h : InOrder (xs ++ ys)) (hspan : span.Among xs) (hspan' : span'.Among ys) :
    span.Before span' := by
  obtain ⟨_, _, x, hx, hwithin⟩ := hspan
  obtain ⟨y, hy, _, _, hwithin'⟩ := hspan'
  exact hwithin.2.trans (((List.pairwise_append.mp h.pairs).2.2 x hx y hy).trans hwithin'.1)

end Grammar

end Among

end Parley
