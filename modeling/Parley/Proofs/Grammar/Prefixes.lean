import Parley.Proofs.Grammar.Exactness
import Parley.Proofs.Grammar.Joining

/-! Beginnings of sentences. Whatever the reader takes is the beginning of a sentence: closing the
constructs that are open gives a text which begins as the one that was read. What it refuses is not: the
reader looks at the words of tokens only, so no sentence has those words at its beginning. -/

namespace Parley

open Grammar

namespace StartRule

/-- Where the reader begins. -/
def start : StartRule → State
  | .program => .programStart
  | .expression => .expressionStart

/-- The terminals are those of a text that has a tree of the rule. -/
def Sentence : StartRule → String → List Terminal → Prop
  | .program, text, xs => ∃ body, Derivation .body text body xs
  | .expression, text, xs => ∃ tree, Derivation .expression text tree xs

/-- The words of some sentence begin with these. -/
def Opens (rule : StartRule) (words : List Word) : Prop :=
  ∃ text xs, rule.Sentence text xs ∧ words <+: (xs.map Terminal.token).map Token.word

/-- The words of some sentence are these. -/
def Spells (rule : StartRule) (words : List Word) : Prop :=
  ∃ text xs, rule.Sentence text xs ∧ (xs.map Terminal.token).map Token.word = words

end StartRule

namespace Grammar

/-- A text has a tree of a rule exactly if it is cut into terminals that the reader takes to an end. -/
theorem Decides.derivation_iff {α : Type} {start : State} {finish : State → Option α} {rule : α → Phrase}
    (h : Decides start finish rule) {text : String} {xs : List Terminal} :
    (∃ a, Derivation rule text a xs) ↔ Cut .first text.toList (xs.map Terminal.token) ∧
      Faithful start xs ∧ ∃ s, start.takes xs = some s ∧ ∃ a, finish s = some a := by
  constructor
  · rintro ⟨a, hd⟩
    obtain ⟨s, hs, ha, hfaithful⟩ := h.takes_of_derivation hd
    exact ⟨hd.cut, hfaithful, s, hs, a, ha⟩
  · rintro ⟨hcut, hfaithful, s, hs, a, ha⟩
    exact ⟨a, hcut, (h.classified_iff hs).mpr hfaithful, (h.derives_iff a xs).mpr ⟨s, hs, ha⟩⟩

theorem Faithful.append {s s' : State} {xs ys : List Terminal} (h : Faithful s xs)
    (hs : s.takes xs = some s') (h' : Faithful s' ys) : Faithful s (xs ++ ys) := by
  induction xs generalizing s with
  | nil =>
      cases hs
      exact h'
  | cons x xs ih =>
      rw [State.takes_cons] at hs
      obtain ⟨s₁, hx, hs⟩ := Option.bind_eq_some_iff.mp hs
      have hstep : s.step x.token = some s₁ := by rw [State.step_eq_take, ← h.head, hx]
      rw [h.head]
      exact (ih (h.tail hx) hs).cons hstep

/-! The reader looks at words only -/

namespace State

theorem feed_congr (s : State) {ts us : List Token} (h : ts.map Token.word = us.map Token.word) :
    (s.feed ts).map (unplaced []) = (s.feed us).map (unplaced []) := by
  rw [← feed_unplaced, ← feed_unplaced, map_unplaced_of_word h]

/-- Tokens of the same words are taken as well and lead to the same state, places apart. -/
theorem exists_feed_of_words {s s' : State} {ts us : List Token} (hs : s.feed ts = some s')
    (h : us.map Token.word = ts.map Token.word) :
    ∃ s'', s.feed us = some s'' ∧ s''.unplaced [] = s'.unplaced [] := by
  have hfeed := s.feed_congr h
  rw [hs] at hfeed
  exact Option.map_eq_some_iff.mp hfeed

theorem expression?_unplaced (s : State) :
    (s.unplaced []).expression? = s.expression?.map Tree.unplaced := by
  obtain ⟨expect, stack⟩ := s
  cases expect <;> cases stack <;> rfl

end State

theorem accepts_unplaced {rule : StartRule} {s : State} :
    Accepts rule (s.unplaced []) ↔ Accepts rule s := by
  cases rule with
  | program =>
      have h := congrArg Option.isSome (@State.program?_unplaced [] s)
      rw [Option.isSome_map, Option.isSome_map] at h
      rw [Accepts, Accepts, ← Option.isSome_iff_exists, ← Option.isSome_iff_exists, h]
  | expression =>
      have h := congrArg Option.isSome s.expression?_unplaced
      rw [Option.isSome_map] at h
      rw [Accepts, Accepts, ← Option.isSome_iff_exists, ← Option.isSome_iff_exists, h]

theorem Accepts.of_unplaced {rule : StartRule} {s s' : State} (h : Accepts rule s)
    (heq : s'.unplaced [] = s.unplaced []) : Accepts rule s' := by
  rwa [← accepts_unplaced, heq, accepts_unplaced]

/-! A text of samples -/

namespace Kind

/-- The sample of a class is one token of it before a blank. -/
theorem lexes_sample (kind : Kind) :
    Lexes anything (kind.sample.toList ++ [' ']) [(kind, kind.sample)] := by
  have hsample : Lexes (· == ' ') kind.sample.toList [(kind, kind.sample)] := by
    cases hcs : kind.sample.toList with
    | nil => cases kind <;> simp [sample] at hcs
    | cons c cs =>
        rw [← String.ofList_toList (s := kind.sample), hcs]
        have hspace : isSpace c = false := by
          cases kind <;> simp [sample] at hcs <;> obtain ⟨rfl, rfl⟩ := hcs <;> rfl
        refine Lexes.token hspace fun rest hrest => ?_
        cases rest with
        | nil => cases kind <;> simp [sample] at hcs <;> obtain ⟨rfl, rfl⟩ := hcs <;> decide
        | cons d rest =>
            obtain rfl : d = ' ' := by simpa using hrest
            cases kind <;> simp [sample] at hcs <;> obtain ⟨rfl, rfl⟩ := hcs <;>
              simp [lexeme, isNameStart, isNameRest, symbolRest, stringRest, isSymbolRest]
  exact hsample.append_cons Lexes.space rfl

theorem reserves_terminal (s : State) (kind : Kind) : s.reserves kind.terminal.token = false := by
  cases kind <;> simp [State.reserves, terminal, sample, literalWords]
  split <;> rfl

theorem takes_terminals (s : State) (kinds : List Kind) :
    s.takes (kinds.map terminal) = s.feed ((kinds.map terminal).map Terminal.token) := by
  refine Faithful.takes_eq_feed fun before x after s' heq _ => ?_
  have hx : x ∈ kinds.map terminal := heq ▸ List.mem_append_right before List.mem_cons_self
  obtain ⟨kind, -, rfl⟩ := List.mem_map.mp hx
  exact (reserves_terminal s' kind).symm

/-- A text of these classes of tokens. -/
def samples (kinds : List Kind) : List Char := kinds.flatMap fun kind => kind.sample.toList ++ [' ']

theorem lexes_samples (kinds : List Kind) :
    Lexes anything (samples kinds) (((kinds.map terminal).map Terminal.token).map Token.word) := by
  induction kinds with
  | nil => exact .nil
  | cons kind kinds ih => exact kind.lexes_sample.append_of_anything ih

end Kind

end Grammar

namespace StartRule

variable {rule : StartRule} {s : State} {ts : List Token}

theorem sentence_iff {text : String} {xs : List Terminal} :
    rule.Sentence text xs ↔ Cut .first text.toList (xs.map Terminal.token) ∧
      Faithful rule.start xs ∧ ∃ s, rule.start.takes xs = some s ∧ Accepts rule s := by
  cases rule with
  | program => exact decides_program.derivation_iff
  | expression => exact decides_expression.derivation_iff

theorem viable_of_takes {xs : List Terminal} (h : rule.start.takes xs = some s) : Viable rule s := by
  cases rule with
  | program => exact (described_programStart.takes h).viable
  | expression => exact (described_expressionStart.takes h).viable

/-- The tokens of a sentence are read to an end. -/
theorem Sentence.feed {text : String} {xs : List Terminal} (h : rule.Sentence text xs) :
    ∃ s, rule.start.feed (xs.map Terminal.token) = some s ∧ Accepts rule s := by
  obtain ⟨-, hfaithful, s, hs, haccepts⟩ := sentence_iff.mp h
  exact ⟨s, hfaithful.takes_eq_feed ▸ hs, haccepts⟩

/-- Characters whose tokens are taken begin a sentence, which has the same terminals at its beginning. -/
theorem exists_sentence {before : List Char} {xs : List Terminal}
    (hcut : Cut .first before (xs.map Terminal.token)) (hxs : Faithful rule.start xs)
    (hs : rule.start.takes xs = some s) : ∃ text more, rule.Sentence text (xs ++ more) := by
  obtain ⟨kinds, s₁, hkinds, haccepts⟩ := viable_of_takes hs
  rw [Kind.takes_terminals] at hkinds
  -- the text goes on on a new line with a sample of each class
  obtain ⟨us, stop, hwords, hsamples⟩ := Kind.lexes_samples kinds ((Point.first.after before).next '\n') [] rfl
  obtain ⟨s₂, hfeed, hunplaced⟩ := State.exists_feed_of_words hkinds hwords
  obtain ⟨more, rfl, hmore⟩ := exists_faithful hfeed
  have hscan := cut_iff.mp hcut
  have htext : scanFrom .first (before ++ '\n' :: Kind.samples kinds) =
      ⟨(xs ++ more).map Terminal.token, none⟩ := by
    rw [List.append_nil, scanFrom, List.append_nil] at hsamples
    rw [scanFrom_append_lineFeed (by rw [hscan]), hscan, hsamples, List.map_append]
  refine ⟨String.ofList (before ++ '\n' :: Kind.samples kinds), more,
    sentence_iff.mpr ⟨?_, hxs.append hs hmore, s₂, ?_, haccepts.of_unplaced hunplaced⟩⟩
  · rwa [String.toList_ofList, cut_iff]
  · rw [State.takes_append_of hs, hmore.takes_eq_feed, hfeed]

/-- No sentence begins with the words of tokens the last of which is refused. -/
theorem not_opens {t : Token} (hs : rule.start.feed ts = some s) (ht : s.step t = none) :
    ¬rule.Opens ((ts ++ [t]).map Token.word) := by
  rintro ⟨text, xs, hsentence, hprefix⟩
  obtain ⟨s', hfeed, -⟩ := hsentence.feed
  obtain ⟨words, hwords⟩ := hprefix
  obtain ⟨us, vs, hsplit, hus, -⟩ := List.map_eq_append_iff.mp hwords.symm
  rw [hsplit, State.feed_append] at hfeed
  obtain ⟨s₁, hs₁, -⟩ := Option.bind_eq_some_iff.mp hfeed
  obtain ⟨s₂, hs₂, -⟩ := State.exists_feed_of_words hs₁ hus.symm
  rw [State.feed_append, hs, Option.bind_some, State.feed_cons, ht] at hs₂
  cases hs₂

/-- Tokens after which the text may not end are not all the tokens of a sentence. -/
theorem not_spells (hs : rule.start.feed ts = some s) (hends : ¬Accepts rule s) :
    ¬rule.Spells (ts.map Token.word) := by
  rintro ⟨text, xs, hsentence, hwords⟩
  obtain ⟨s', hfeed, haccepts⟩ := hsentence.feed
  obtain ⟨s₁, hs₁, hunplaced⟩ := State.exists_feed_of_words hfeed hwords.symm
  rw [hs] at hs₁
  cases hs₁
  exact hends (haccepts.of_unplaced hunplaced)

end StartRule

end Parley
