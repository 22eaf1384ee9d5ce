import Parley.Proofs.Grammar.Exactness

/-! Where trees lie in their text. Tokens are cut from a text one after another, so from the start of one to
the end of the same or a later one is a stretch of the text. The span of every tree, and of every body
that has statements, is such a stretch. -/

namespace Parley

/-- A span takes up some of the characters that begin at a place. -/
def Span.TakesUp (span : Span) (p : Point) (cs : List Char) : Prop :=
  ∃ before inner after, cs = before ++ (inner ++ after) ∧ inner ≠ [] ∧
    span = ⟨p.after before, (p.after before).after inner⟩

/-- A span is a stretch of a text, with at least one character of it. -/
def Span.LiesIn (span : Span) (text : String) : Prop := span.TakesUp .first text.toList

theorem Span.TakesUp.shift {span : Span} {p : Point} {w cs : List Char}
    (h : span.TakesUp (p.after w) cs) : span.TakesUp p (w ++ cs) := by
  obtain ⟨before, inner, after, rfl, hinner, rfl⟩ := h
  refine ⟨w ++ before, inner, after, (List.append_assoc _ _ _).symm, hinner, ?_⟩
  rw [Point.after_append]

/-- A stretch can be drawn out to a place before it. -/
theorem Span.TakesUp.drawOut {span : Span} {p : Point} {w cs : List Char}
    (h : span.TakesUp (p.after w) cs) : Span.TakesUp ⟨p, span.stop⟩ p (w ++ cs) := by
  obtain ⟨before, inner, after, rfl, hinner, rfl⟩ := h
  refine ⟨[], w ++ (before ++ inner), after, by simp only [List.append_assoc, List.nil_append], ?_, ?_⟩
  · simp only [ne_eq, List.append_eq_nil_iff, hinner, and_false, not_false_eq_true]
  · change Span.mk p _ = ⟨p, p.after (w ++ (before ++ inner))⟩
    rw [Point.after_append, Point.after_append]

namespace Grammar

/-! Terminals -/

/-- From the start of a terminal to the end of the same or a later one is a span with a property. -/
structure Apart (P : Span → Prop) (xs : List Terminal) : Prop where
  each : ∀ x ∈ xs, P (x.upTo x)
  pairs : xs.Pairwise fun x y => P (x.upTo y)

namespace Apart

variable {P : Span → Prop} {x y : Terminal} {xs ys : List Terminal}

theorem sublist (h : Apart P ys) (hxs : xs.Sublist ys) : Apart P xs :=
  ⟨fun x hx => h.each x (hxs.subset hx), h.pairs.sublist hxs⟩

theorem left (h : Apart P (xs ++ ys)) : Apart P xs := h.sublist (List.sublist_append_left xs ys)

theorem right (h : Apart P (xs ++ ys)) : Apart P ys := h.sublist (List.sublist_append_right xs ys)

theorem tail (h : Apart P (x :: xs)) : Apart P xs := h.sublist (List.sublist_cons_self x xs)

theorem upTo (h : Apart P xs) (hxy : [x, y].Sublist xs) : P (x.upTo y) :=
  (List.pairwise_cons.mp (h.sublist hxy).pairs).1 y List.mem_cons_self

theorem through (h : Apart P (x :: xs)) : P (x.through xs) := by
  rw [Terminal.through, List.getLastD_eq_getLast?]
  cases hlast : xs.getLast? with
  | none => exact h.each x List.mem_cons_self
  | some y => exact (List.pairwise_cons.mp h.pairs).1 y (List.mem_of_getLast? hlast)

theorem stretch (h : Apart P xs) {span : Span} (hspan : stretch xs = some span) : P span := by
  cases xs with
  | nil => cases hspan
  | cons x xs =>
      cases hspan
      exact h.through

end Apart

/-- The tokens of a text are apart in it. -/
theorem Cut.apart {p : Point} {cs : List Char} {ts : List Token} (h : Cut p cs ts)
    {xs : List Terminal} (hxs : xs.map Terminal.token = ts) : Apart (·.TakesUp p cs) xs := by
  induction h generalizing xs with
  | done p =>
      obtain rfl := List.map_eq_nil_iff.mp hxs
      exact ⟨List.forall_mem_nil _, .nil⟩
  | skip _ _ _ ih =>
      exact ⟨fun x hx => ((ih hxs).each x hx).shift, (ih hxs).pairs.imp fun hxy => hxy.shift⟩
  | @token p kind w rest ts hlongest hcut ih =>
      cases xs with
      | nil => cases hxs
      | cons x xs =>
          obtain ⟨hx, hxs⟩ := List.cons.inj hxs
          have hlater := ih hxs
          refine ⟨List.forall_mem_cons.mpr ⟨?_, fun y hy => (hlater.each y hy).shift⟩,
            List.pairwise_cons.mpr ⟨fun y hy => ?_, hlater.pairs.imp fun hyz => hyz.shift⟩⟩
          · refine ⟨[], w, rest, rfl, hlongest.spelled.ne_nil, ?_⟩
            rw [Terminal.upTo, hx]
            rfl
          · have hy := (hlater.each y hy).drawOut
            rw [Terminal.upTo, hx]
            exact hy

/-! Trees -/

mutual

/-- The spans of a tree and of all trees in it have a property, and so has the span of every body; only a
body without statements has none. -/
def Tree.Spanned (P : Span → Prop) : Tree → Prop
  | .atom token => P token.span
  | .list span items => P span ∧ Tree.SpannedEach P items
  | .unary span receiver _ => P span ∧ receiver.Spanned P
  | .binary span receiver _ argument => P span ∧ receiver.Spanned P ∧ argument.Spanned P
  | .keyword span receiver _ _ arguments => P span ∧ receiver.Spanned P ∧ Tree.SpannedEach P arguments
  | .block span _ bodySpan body =>
    P span ∧ (body ≠ [] → ∃ inner, bodySpan = some inner ∧ P inner) ∧ Tree.SpannedEach P body
  | .define span _ _ value | .assign span _ _ value | .answer span value => P span ∧ value.Spanned P

def Tree.SpannedEach (P : Span → Prop) : List Tree → Prop
  | [] => True
  | t :: ts => t.Spanned P ∧ Tree.SpannedEach P ts

end

theorem Tree.spannedEach_iff {P : Span → Prop} {ts : List Tree} :
    Tree.SpannedEach P ts ↔ ∀ t ∈ ts, t.Spanned P := by
  induction ts with
  | nil => exact iff_of_true trivial (List.forall_mem_nil _)
  | cons t ts ih => rw [Tree.SpannedEach, List.forall_mem_cons, ih]

/-- The same of the statements of a body. -/
structure Body.Spanned (P : Span → Prop) (b : Body) : Prop where
  span : b.statements ≠ [] → ∃ span, b.span = some span ∧ P span
  statements : Tree.SpannedEach P b.statements

/-- The trees of a phrase have spans with a property; a statement is written with at least one terminal. -/
def Phrase.Spanned (P : Span → Prop) (xs : List Terminal) : Phrase → Prop
  | .body b => b.Spanned P
  | .statements ts => Tree.SpannedEach P ts ∧ (ts ≠ [] → xs ≠ [])
  | .statement t | .expression t => t.Spanned P ∧ xs ≠ []
  | .items ts | .arguments _ ts => Tree.SpannedEach P ts
  | .params _ => True

theorem Tree.SpannedEach.concat {P : Span → Prop} {ts : List Tree} {t : Tree}
    (h : Tree.SpannedEach P ts) (ht : t.Spanned P) : Tree.SpannedEach P (ts ++ [t]) := by
  rw [Tree.spannedEach_iff] at h ⊢
  intro u hu
  rcases List.mem_append.mp hu with hu | hu
  · exact h u hu
  · obtain rfl := List.mem_singleton.mp hu
    exact ht

/-- The stretch of terminals that are apart is a span with the property. -/
theorem Apart.exists_stretch {P : Span → Prop} {xs : List Terminal} (h : Apart P xs) (hxs : xs ≠ []) :
    ∃ span, Grammar.stretch xs = some span ∧ P span := by
  cases hstretch : Grammar.stretch xs with
  | none => exact absurd (stretch_eq_none_iff.mp hstretch) hxs
  | some span => exact ⟨span, rfl, h.stretch hstretch⟩

/-- What is derived from terminals that are apart has spans among them. -/
theorem Derives.spanned {P : Span → Prop} {phrase : Phrase} {xs : List Terminal}
    (h : Derives phrase xs) (hxs : Apart P xs) : phrase.Spanned P xs := by
  induction h with
  | closed _ ih =>
      obtain ⟨htrees, hne⟩ := ih hxs
      exact ⟨fun hstatements => hxs.exists_stretch (hne hstatements), htrees⟩
  | @ended trees tree xs ys _ _ ih ih' =>
      obtain ⟨htree, hne⟩ := ih' hxs.right
      exact ⟨fun _ => hxs.exists_stretch (List.append_ne_nil_of_right_ne_nil xs hne),
        (ih hxs.left).1.concat htree⟩
  | noStatement => exact ⟨trivial, fun h => absurd rfl h⟩
  | @nextStatement trees tree xs ys s _ _ _ ih ih' =>
      exact ⟨(ih hxs.left).1.concat (ih' hxs.right.left).1, fun _ => by simp⟩
  | define _ _ _ _ ih =>
      exact ⟨⟨(hxs.sublist (by simp)).through, (ih hxs.tail.tail.tail).1⟩, List.cons_ne_nil _ _⟩
  | defineSlot _ _ _ _ ih =>
      exact ⟨⟨(hxs.sublist (by simp)).through, (ih hxs.tail.tail.tail).1⟩, List.cons_ne_nil _ _⟩
  | assign _ _ _ ih =>
      exact ⟨⟨(hxs.sublist (by simp)).through, (ih hxs.tail.tail).1⟩, List.cons_ne_nil _ _⟩
  | answer _ _ ih => exact ⟨⟨hxs.through, (ih hxs.tail).1⟩, List.cons_ne_nil _ _⟩
  | bare _ ih => exact ih hxs
  | @atom x _ _ _ => exact ⟨hxs.each x List.mem_cons_self, List.cons_ne_nil _ _⟩
  | @word x _ _ _ => exact ⟨hxs.each x List.mem_cons_self, List.cons_ne_nil _ _⟩
  | paren _ _ _ ih => exact ⟨(ih hxs.tail.left).1, List.cons_ne_nil _ _⟩
  | unary _ _ _ _ ih =>
      exact ⟨⟨hxs.upTo (by simp), (ih hxs.tail.left).1⟩, List.cons_ne_nil _ _⟩
  | named _ _ _ _ _ ih ih' =>
      exact ⟨⟨hxs.upTo (by simp), (ih hxs.tail.left).1, ih' hxs.tail.right.tail.left⟩,
        List.cons_ne_nil _ _⟩
  | unnamed _ _ _ _ ih ih' =>
      exact ⟨⟨hxs.upTo (by simp), (ih hxs.tail.left).1, ih' hxs.tail.right.left⟩,
        List.cons_ne_nil _ _⟩
  | binary _ _ _ _ _ ih ih' =>
      exact ⟨⟨hxs.upTo (by simp), (ih hxs.tail.left).1, (ih' hxs.tail.right.tail.left).1⟩,
        List.cons_ne_nil _ _⟩
  | emptyList _ _ => exact ⟨⟨hxs.upTo (by simp), trivial⟩, List.cons_ne_nil _ _⟩
  | list _ _ _ ih => exact ⟨⟨hxs.upTo (by simp), ih hxs.tail.left⟩, List.cons_ne_nil _ _⟩
  | block _ _ _ ih =>
      have hbody := ih hxs.tail.left
      exact ⟨⟨hxs.upTo (by simp), hbody.span, hbody.statements⟩, List.cons_ne_nil _ _⟩
  | paramBlock _ _ _ _ _ _ _ ih =>
      have hbody := ih hxs.tail.right.tail.tail.left
      exact ⟨⟨hxs.upTo (by simp), hbody.span, hbody.statements⟩, List.cons_ne_nil _ _⟩
  | firstItem _ ih => exact ⟨(ih hxs).1, trivial⟩
  | nextItem _ _ _ ih ih' => exact (ih hxs.left).concat (ih' hxs.right.tail).1
  | firstArgument _ _ _ ih => exact ⟨(ih hxs.tail.tail).1, trivial⟩
  | nextArgument _ _ _ _ _ ih ih' => exact (ih hxs.left).concat (ih' hxs.right.right.tail.tail).1
  | noParam => trivial
  | nextParam _ _ _ _ => trivial

/-- All spans of a program lie in its text. -/
theorem spanned_of_readProgram {text : String} {b : Body} (h : readProgram text = .ok b) :
    b.Spanned (·.LiesIn text) := by
  obtain ⟨xs, hderivation⟩ := decides_program.readText_iff.mp h
  exact hderivation.derives.spanned (hderivation.cut.apart rfl)

end Grammar

end Parley
