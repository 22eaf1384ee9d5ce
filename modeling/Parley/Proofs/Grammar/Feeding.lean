import Parley.Grammar.Reading
import Parley.Proofs.Grammar.Scanning

/-! Reading token after token. `feed` is what the reader does with all tokens of a text; a text is read
exactly when its tokens can be fed and it ends where it may end. `Reads` says of a stretch of tokens
both what comes of it and when it is refused, and stretches can be put one after another. Single steps
that several developments need come last. -/

namespace Parley

/-- What a text is taken for as a whole. -/
inductive StartRule where
  | program
  | expression
  deriving DecidableEq, Repr

namespace Grammar

namespace State

/-- Takes tokens one after another. -/
def feed (s : State) (tokens : List Token) : Option State := tokens.foldlM step s

@[simp] theorem feed_nil (s : State) : s.feed [] = some s := rfl

theorem feed_cons (s : State) (t : Token) (tokens : List Token) :
    s.feed (t :: tokens) = (s.step t).bind fun s' => s'.feed tokens := rfl

theorem feed_append (s : State) (tokens more : List Token) :
    s.feed (tokens ++ more) = (s.feed tokens).bind fun s' => s'.feed more :=
  List.foldlM_append

end State

theorem readTokens_of_feed {s s' : State} (last : Point) {tokens : List Token}
    (h : s.feed tokens = some s') : ∃ last', readTokens s last tokens = .ok (s', last') := by
  induction tokens generalizing s last with
  | nil => exact ⟨last, by rw [readTokens, Option.some.inj h]⟩
  | cons t tokens ih =>
      rw [State.feed_cons] at h
      obtain ⟨s₁, hstep, hfeed⟩ := Option.bind_eq_some_iff.mp h
      obtain ⟨last', hread⟩ := ih t.span.start hfeed
      exact ⟨last', by rw [readTokens, hstep]; exact hread⟩

theorem readTokens_of_feed_eq_none {s : State} (last : Point) {tokens : List Token}
    (h : s.feed tokens = none) : ∃ refusal, readTokens s last tokens = .error refusal := by
  induction tokens generalizing s last with
  | nil => simp at h
  | cons t tokens ih =>
      rw [readTokens]
      cases hstep : s.step t with
      | none => exact ⟨_, rfl⟩
      | some s₁ =>
          rw [State.feed_cons, hstep] at h
          exact ih t.span.start h

section Text

variable {α : Type} {start : State} (finish : State → Option α) {text : String}

variable {finish} in
/-- A text whose tokens can be fed is read if it may end after them. -/
theorem readText_of_feed {s : State} {a : α} (hstray : (scan text).stray = none)
    (hfeed : start.feed (scan text).tokens = some s) (hfinish : finish s = some a) :
    readText start finish text = .ok a := by
  obtain ⟨last, hread⟩ := readTokens_of_feed .first hfeed
  simp only [readText, hread, hstray, hfinish]

/-- A text whose tokens cannot be fed is refused. -/
theorem readText_of_feed_eq_none (hfeed : start.feed (scan text).tokens = none) :
    ∃ refusal, readText start finish text = .error refusal := by
  obtain ⟨refusal, hread⟩ := readTokens_of_feed_eq_none .first hfeed
  exact ⟨refusal, by simp only [readText, hread]⟩

variable {finish} in
/-- What is read comes from feeding the tokens of the text. -/
theorem feed_of_readText {a : α} (h : readText start finish text = .ok a) :
    ∃ s, start.feed (scan text).tokens = some s ∧ finish s = some a := by
  cases hfeed : start.feed (scan text).tokens with
  | none =>
      obtain ⟨refusal, hread⟩ := readText_of_feed_eq_none finish hfeed
      rw [hread] at h
      cases h
  | some s =>
      obtain ⟨last, hread⟩ := readTokens_of_feed .first hfeed
      refine ⟨s, rfl, ?_⟩
      simp only [readText, hread] at h
      split at h
      · cases h
      · split at h
        · next b hb => rw [hb, Except.ok.inj h]
        · cases h

variable {finish} in
/-- A text that is read was scanned to its end. -/
theorem stray_of_readText {a : α} (h : readText start finish text = .ok a) :
    (scan text).stray = none := by
  simp only [readText] at h
  split at h
  · cases h
  · split at h
    · cases h
    · next hstray => exact hstray

end Text

/-- Feeding tokens is refused if `bad`, and otherwise leads to a state with a property. -/
def Reads (bad : Bool) (after : State → Prop) (s : State) (tokens : List Token) : Prop :=
  if bad then s.feed tokens = none else ∃ s', s.feed tokens = some s' ∧ after s'

namespace Reads

variable {bad bad' : Bool} {after after' : State → Prop} {s s' : State} {t : Token}
  {tokens more : List Token}

theorem nil (h : after s) : Reads false after s [] := ⟨s, rfl, h⟩

theorem cons (hstep : s.step t = some s') (h : Reads bad after s' tokens) :
    Reads bad after s (t :: tokens) := by
  unfold Reads at h ⊢
  rw [State.feed_cons, hstep]
  exact h

theorem refused (hstep : s.step t = none) : Reads true after s (t :: tokens) := by
  change s.feed (t :: tokens) = none
  rw [State.feed_cons, hstep]
  rfl

theorem mono (h : Reads bad after s tokens) (hafter : ∀ s', after s' → after' s') :
    Reads bad after' s tokens := by
  cases bad with
  | true => exact h
  | false =>
      obtain ⟨s', hfeed, hs'⟩ := h
      exact ⟨s', hfeed, hafter s' hs'⟩

/-- Two stretches of tokens: the whole is refused if one of them is. -/
theorem append (h : Reads bad after s tokens) (h' : ∀ s', after s' → Reads bad' after' s' more) :
    Reads (bad || bad') after' s (tokens ++ more) := by
  cases bad with
  | true =>
      change s.feed (tokens ++ more) = none
      rw [State.feed_append, show s.feed tokens = none from h]
      rfl
  | false =>
      obtain ⟨s', hfeed, hs'⟩ := h
      have hmore := h' s' hs'
      unfold Reads at hmore ⊢
      rw [State.feed_append, hfeed, Bool.false_or]
      exact hmore

/-- The same tokens from another state that they are fed to with the same effect. -/
theorem of_feed_eq (h : Reads bad after s tokens) (heq : s'.feed tokens = s.feed tokens) :
    Reads bad after s' tokens := by
  unfold Reads at h ⊢
  rw [heq]
  exact h

end Reads

/-! Single steps of the reader -/

namespace State

variable {stack : List Open} {body : OpenBody} {t : Token}

theorem step_expression (ht : t.kind ≠ .closeBracket) :
    step ⟨.expression, stack⟩ t = begin stack t := by
  simp only [step]
  split
  · next h => exact absurd h ht
  · rfl

theorem step_openBracket (ht : t.kind = .openBracket) :
    step ⟨.expression, stack⟩ t = some ⟨.expression, .bracket t :: stack⟩ := by
  rw [step_expression (by simp [ht]), begin, Token.isAtom, ht]
  rfl

end State

/-- The tokens that begin an expression where a statement may stand just as anywhere else. -/
def Plain (w : Word) : Prop :=
  w.1 ≠ .closeBrace ∧ w.1 ≠ .closeBracket ∧ w.1 ≠ .slot ∧ (w.1 = .name → w.2 ∈ literalWords)

theorem Plain.step {t : Token} (ht : Plain t.word) {body : OpenBody} {stack : List Open} :
    State.step ⟨.statement body, stack⟩ t =
      State.step ⟨.expression, .statement body .bare :: stack⟩ t := by
  obtain ⟨hbrace, hbracket, hslot, hname⟩ := ht
  rw [State.step_expression hbracket]
  simp only [State.step, State.beginStatement]
  split
  · next h => exact absurd h hbrace
  · next h =>
      have hmem : t.text ∈ literalWords := hname h
      have hother : t.text ≠ "let" ∧ t.text ≠ "return" := by
        constructor <;> rintro hlet <;> simp [hlet, literalWords] at hmem
      rw [if_neg hother.1, if_neg hother.2, if_pos (by simpa using hmem), State.begin, Token.isAtom,
        h]
      rfl
  · next h => exact absurd h hslot
  · rfl

/-- An open bracket in which the items of a list have been read; before the first comma it is not yet
known to be a list. -/
inductive OpenList (opening : Token) : List Part → Open → Prop
  | first : OpenList opening [] (.bracket opening)
  | more (done : List Part) : OpenList opening done (.items opening done)

theorem OpenList.follow_comma {opening t : Token} {done : List Part} {frame : Open}
    (h : OpenList opening done frame) (p : Part) (stack : List Open) (ht : t.kind = .comma) :
    State.follow p (frame :: stack) t =
      some ⟨.expression, .items opening (p :: done) :: stack⟩ := by
  cases h <;> rw [State.follow, ht]

theorem OpenList.follow_closeBracket {opening t : Token} {done : List Part} {frame : Open}
    (h : OpenList opening done frame) (p : Part) (stack : List Open) (ht : t.kind = .closeBracket) :
    State.follow p (frame :: stack) t =
      some ⟨.completed (listOf opening t (p :: done)), stack⟩ := by
  cases h <;> rw [State.follow, ht]

end Grammar

end Parley
