import Mathlib
import Parley.Proofs.Grammar.Viability

/-! The reader accepts exactly the grammar. A word is reserved by a state of the reader exactly where the
grammar admits it as a keyword after the terminals before it: what is taken is part of a sentence, and
what was taken can be completed to one. So what is read from a text is the tree of a derivation of it,
every derivation is read, and a text has no two of them. -/

namespace Parley.Grammar

/-- Every terminal stands for what the state before it makes of its token. -/
def Faithful (s : State) (xs : List Terminal) : Prop :=
  ∀ before x after s', xs = before ++ x :: after → s.takes before = some s' →
    x.keyword = s'.reserves x.token

namespace Faithful

variable {s s' : State} {x : Terminal} {xs ys : List Terminal}

theorem head (h : Faithful s (x :: xs)) : x = ⟨x.token, s.reserves x.token⟩ := by
  rw [← h [] x xs s rfl rfl]

theorem tail (h : Faithful s (x :: xs)) (hx : s.take x = some s') : Faithful s' xs := by
  intro before y after s'' heq hbefore
  exact h (x :: before) y after s'' (by rw [heq]; rfl) ((State.takes_cons_of hx).trans hbefore)

theorem cons {t : Token} (hstep : s.step t = some s') (h : Faithful s' xs) :
    Faithful s (⟨t, s.reserves t⟩ :: xs) := by
  intro before y after s'' heq hbefore
  cases before with
  | nil =>
      cases heq
      cases hbefore
      rfl
  | cons z before =>
      obtain ⟨rfl, hxs⟩ := List.cons.inj heq
      rw [State.takes_cons, ← State.step_eq_take, hstep] at hbefore
      exact h before y after s'' hxs hbefore

/-- Taking such terminals is reading their tokens. -/
theorem takes_eq_feed (h : Faithful s xs) : s.takes xs = s.feed (xs.map Terminal.token) := by
  induction xs generalizing s with
  | nil => rfl
  | cons x xs ih =>
      have hx : s.take x = s.step x.token := by
        rw [State.step_eq_take, ← h.head]
      rw [State.takes_cons, List.map_cons, State.feed_cons, hx]
      cases hstep : s.step x.token with
      | none => rfl
      | some s' => exact ih (h.tail (hx.trans hstep))

/-- Tokens that are read can be told apart into names and keywords in one way. -/
theorem unique (h : Faithful s xs) (h' : Faithful s ys)
    (htokens : xs.map Terminal.token = ys.map Terminal.token) (hs : s.takes xs = some s') :
    xs = ys := by
  induction xs generalizing s ys with
  | nil => exact (List.map_eq_nil_iff.mp htokens.symm).symm
  | cons x xs ih =>
      cases ys with
      | nil => cases htokens
      | cons y ys =>
          rw [List.map_cons, List.map_cons, List.cons.injEq] at htokens
          have hxy : x = y := by rw [h.head, h'.head, htokens.1]
          subst hxy
          rw [State.takes_cons] at hs
          obtain ⟨s₁, hx, hs⟩ := Option.bind_eq_some_iff.mp hs
          rw [ih (h.tail hx) (h'.tail hx) htokens.2 hs]

end Faithful

theorem exists_faithful {s s' : State} {ts : List Token} (h : s.feed ts = some s') :
    ∃ xs, xs.map Terminal.token = ts ∧ Faithful s xs := by
  induction ts generalizing s with
  | nil => exact ⟨[], rfl, fun before x after _ heq => by simp at heq⟩
  | cons t ts ih =>
      rw [State.feed_cons] at h
      obtain ⟨s₁, hstep, h⟩ := Option.bind_eq_some_iff.mp h
      obtain ⟨xs, rfl, hxs⟩ := ih h
      exact ⟨_, rfl, hxs.cons hstep⟩

/-- The reader from a starting state to an end that `finish` accepts reads exactly the phrases of a rule,
and from every state that it comes to an end can be reached. -/
structure Decides {α : Type} (start : State) (finish : State → Option α) (rule : α → Phrase) : Prop where
  derives_iff : ∀ a xs, Derives (rule a) xs ↔ ∃ s, start.takes xs = some s ∧ finish s = some a
  viable : ∀ xs s, start.takes xs = some s →
    ∃ (kinds : List Kind) (s' : State) (a : α),
      s.takes (kinds.map Kind.terminal) = some s' ∧ finish s' = some a

theorem decides_program : Decides .programStart State.program? Phrase.body where
  derives_iff b xs := by
    constructor
    · intro h
      obtain ⟨s, hs, hends⟩ := h.taken none []
      exact ⟨s, hs, hends.program?⟩
    · rintro ⟨s, hs, hb⟩
      exact (described_programStart.takes hs).derives_program hb
  viable xs s hs := by
    obtain ⟨kinds, s', hs', b, hb⟩ := (described_programStart.takes hs).viable
    exact ⟨kinds, s', b, hs', hb⟩

theorem decides_expression : Decides .expressionStart State.expression? Phrase.expression where
  derives_iff tree xs := by
    constructor
    · intro h
      obtain ⟨outer, -, htakes⟩ := h.taken
      exact ⟨_, htakes [], rfl⟩
    · rintro ⟨s, hs, htree⟩
      exact (described_expressionStart.takes hs).derives_expression htree
  viable xs s hs := by
    obtain ⟨kinds, s', hs', tree, htree⟩ := (described_expressionStart.takes hs).viable
    exact ⟨kinds, s', tree, hs', htree⟩

namespace Decides

variable {α : Type} {start s : State} {finish : State → Option α} {rule : α → Phrase} {text : String}
  {a b : α} {xs ys : List Terminal}

/-- The grammar admits a keyword exactly where the reader reserves it. -/
theorem admits_iff (h : Decides start finish rule) (hs : start.takes xs = some s) {t : Token} :
    Admits rule xs t ↔ s.reserves t = true := by
  constructor
  · rintro ⟨after, a, hderives⟩
    obtain ⟨s', hs', -⟩ := (h.derives_iff a _).mp hderives
    rw [State.takes_append_of hs, State.takes_cons] at hs'
    obtain ⟨s₁, ht, -⟩ := Option.bind_eq_some_iff.mp hs'
    exact State.reserves_of_take ht
  · intro hreserves
    obtain ⟨s₁, hstep⟩ := State.exists_step_of_reserves hreserves
    have ht : s.takes [⟨t, true⟩] = some s₁ := by
      rw [State.takes_cons_of ((State.take_of_keyword hreserves).trans hstep), State.takes_nil]
    have hs₁ : start.takes (xs ++ [⟨t, true⟩]) = some s₁ := by rw [State.takes_append_of hs, ht]
    obtain ⟨kinds, s', a, hs', ha⟩ := h.viable _ s₁ hs₁
    refine ⟨kinds.map Kind.terminal, a, (h.derives_iff a _).mpr ⟨s', ?_, ha⟩⟩
    rw [State.takes_append_of hs, ← List.singleton_append, State.takes_append_of ht, hs']

theorem classified_iff (h : Decides start finish rule) (hs : start.takes xs = some s) :
    Classified rule xs ↔ Faithful start xs := by
  constructor
  · intro hclassified before x after s' heq hbefore
    rw [Bool.eq_iff_iff, hclassified before x after heq, h.admits_iff hbefore]
  · intro hfaithful before x after heq
    rw [heq, State.takes_append] at hs
    obtain ⟨s', hbefore, -⟩ := Option.bind_eq_some_iff.mp hs
    rw [hfaithful before x after s' heq hbefore, h.admits_iff hbefore]

/-- What a derivation says of the reader. -/
theorem takes_of_derivation (h : Decides start finish rule) (hd : Derivation rule text a xs) :
    ∃ s, start.takes xs = some s ∧ finish s = some a ∧ Faithful start xs := by
  obtain ⟨s, hs, ha⟩ := (h.derives_iff a xs).mp hd.derives
  exact ⟨s, hs, ha, (h.classified_iff hs).mp hd.classified⟩

theorem readText_iff (h : Decides start finish rule) :
    readText start finish text = .ok a ↔ ∃ xs, Derivation rule text a xs := by
  constructor
  · intro hread
    obtain ⟨s, hfeed, ha⟩ := feed_of_readText hread
    obtain ⟨xs, htokens, hfaithful⟩ := exists_faithful hfeed
    have hs : start.takes xs = some s := by rw [hfaithful.takes_eq_feed, htokens, hfeed]
    refine ⟨xs, ?_, (h.classified_iff hs).mpr hfaithful, (h.derives_iff a xs).mpr ⟨s, hs, ha⟩⟩
    rw [cut_iff, htokens, ← stray_of_readText hread]
    rfl
  · rintro ⟨xs, hd⟩
    obtain ⟨s, hs, ha, hfaithful⟩ := h.takes_of_derivation hd
    have hscan : scan text = ⟨xs.map Terminal.token, none⟩ := cut_iff.mp hd.cut
    refine readText_of_feed (by rw [hscan]) ?_ ha
    rw [hscan, ← hfaithful.takes_eq_feed, hs]

/-- A text has no two derivations. -/
theorem unique (h : Decides start finish rule) (hd : Derivation rule text a xs)
    (hd' : Derivation rule text b ys) : a = b ∧ xs = ys := by
  obtain ⟨s, hs, ha, hfaithful⟩ := h.takes_of_derivation hd
  obtain ⟨s', hs', hb, hfaithful'⟩ := h.takes_of_derivation hd'
  have hscan := (cut_iff.mp hd.cut).symm.trans (cut_iff.mp hd'.cut)
  have hxs : xs = ys := hfaithful.unique hfaithful' (congrArg Scan.tokens hscan) hs
  subst hxs
  rw [hs] at hs'
  cases hs'
  exact ⟨Option.some.inj (ha.symm.trans hb), rfl⟩

end Decides

/-- A program or an expression is read from a text exactly if it has a derivation: the text is cut at the
longest lexemes, words are keywords where the grammar admits them and names elsewhere, and the rules
derive the tree. A text has at most one derivation from each rule. -/
theorem read_iff_derivation (text : String) :
    (∀ body, readProgram text = .ok body ↔ ∃ xs, Derivation .body text body xs) ∧
    (∀ tree, readExpression text = .ok tree ↔ ∃ xs, Derivation .expression text tree xs) ∧
    (∀ body body' xs ys, Derivation .body text body xs → Derivation .body text body' ys →
      body = body' ∧ xs = ys) ∧
    ∀ tree tree' xs ys, Derivation .expression text tree xs → Derivation .expression text tree' ys →
      tree = tree' ∧ xs = ys :=
  ⟨fun _ => decides_program.readText_iff, fun _ => decides_expression.readText_iff,
    fun _ _ _ _ => decides_program.unique, fun _ _ _ _ => decides_expression.unique⟩

/-- Words that are spelled like keywords stand for names where no keyword may come, and the first slash is
an operator while the other two begin a comment. -/
theorem read_iff_derivation_words :
    ∃ xs, Derivation .body "let self = [(let) / true] // ;"
      ⟨some ⟨⟨1, 1⟩, ⟨1, 26⟩⟩,
        [.define ⟨⟨1, 1⟩, ⟨1, 26⟩⟩ ⟨.name, "self", ⟨⟨1, 5⟩, ⟨1, 9⟩⟩⟩
          ⟨.equals, "=", ⟨⟨1, 10⟩, ⟨1, 11⟩⟩⟩
          (.binary ⟨⟨1, 12⟩, ⟨1, 26⟩⟩ (.atom ⟨.name, "let", ⟨⟨1, 14⟩, ⟨1, 17⟩⟩⟩)
            ⟨.operator, "/", ⟨⟨1, 19⟩, ⟨1, 20⟩⟩⟩ (.atom ⟨.name, "true", ⟨⟨1, 21⟩, ⟨1, 25⟩⟩⟩))]⟩ xs :=
  ((read_iff_derivation _).1 _).mp (by cbv)

end Parley.Grammar
