import Mathlib
import Parley.Proofs.Grammar.Prefixes
import Parley.Proofs.Grammar.SyntaxErrors
import Parley.Proofs.Node.Conversion
import Parley.Proofs.Node.RoundTrip

/-! What a parse error points at. A text is refused by the grammar at the first place where no sentence goes
on: the terminals before it begin a sentence, and the error names what stands there. Only a block that
names a parameter twice is refused later, when the tree becomes a node. -/

namespace Parley

open Parley.Grammar

/-! Errors of the conversion -/

section Conversion

variable {file : Option String} {e : ParseError}

/-- The error is about parameters that are not distinct. -/
def ParseError.OfParameters (e : ParseError) : Prop := ∃ params, e.problem = .duplicateParameter params

theorem Grammar.Tree.Fault.ofParameters {t : Tree} (h : t.Fault file (.refused e)) : e.OfParameters := by
  generalize hf : ParseFailure.refused e = f at h
  induction h with
  | integer => cases hf
  | params =>
      cases hf
      exact ⟨_, rfl⟩
  | part _ _ ih => exact ih hf

theorem ofParameters_of_ofTree {t : Tree} (h : Node.ofTree file t = .error (.refused e)) : e.OfParameters :=
  (fault_of_ofTree h).ofParameters

theorem ofParameters_of_ofBody {body : Body} (h : Node.ofBody file body = .error (.refused e)) :
    e.OfParameters := by
  obtain ⟨t, -, hf⟩ := exists_fault_of_ofBody h
  exact hf.ofParameters

/-- An error that is not about parameters is a refusal by the grammar. -/
theorem exists_refusal_of_parseWith {α : Type} {read : String → Except Refusal α}
    {convert : Option String → α → Except ParseFailure Node} {text : String}
    (hconvert : ∀ a, convert file a = .error (.refused e) → e.OfParameters)
    (h : parseWith read convert text file = .error (.refused e)) (he : ¬e.OfParameters) :
    ∃ refusal, read text = .error refusal ∧ e = .ofRefusal file refusal := by
  rw [parseWith] at h
  cases hread : read text with
  | ok a =>
      rw [hread] at h
      exact absurd (hconvert a h) he
  | error refusal =>
      rw [hread] at h
      cases h
      exact ⟨refusal, rfl, rfl⟩

end Conversion

/-! Errors of the grammar -/

/-- No lexeme, blanks and comments included, begins with these characters. -/
def Grammar.Strays (cs : List Char) : Prop := ∀ l w, Lexical.Spells l w → ¬w <+: cs

theorem Grammar.strays_of_leading {c : Char} {rest : List Char} (h : leading c rest = none) :
    Strays (c :: rest) := by
  rintro l w hw ⟨more, hmore⟩
  cases w with
  | nil => exact hw.ne_nil rfl
  | cons d w =>
      rw [List.cons_append, List.cons.injEq] at hmore
      obtain ⟨rfl, rfl⟩ := hmore
      obtain ⟨l', n, hleading, -⟩ := hw.leads more
      rw [h] at hleading
      cases hleading

/-- What an error says, and the place that it gives, of a text that begins with some terminals and goes on
at `next` with some characters. -/
inductive StartRule.Blames (rule : StartRule) (xs : List Terminal) (next : Point) :
    List Char → ParseProblem → Point → Prop
  /-- a token that no sentence has after the terminals -/
  | unexpected {kind : Kind} {w rest : List Char} : Longest (.token kind) w rest →
      ¬rule.Opens ((xs.map Terminal.token).map Token.word ++ [(kind, String.ofList w)]) →
      Blames rule xs next (w ++ rest) (.unexpected (String.ofList w)) next
  /-- the end, at the last terminal: the terminals are no sentence -/
  | unexpectedEnd : ¬rule.Spells ((xs.map Terminal.token).map Token.word) →
      Blames rule xs next [] .unexpectedEnd (lastStart .first (xs.map Terminal.token))
  | unexpectedCharacter {c : Char} {rest : List Char} : Strays (c :: rest) → c ≠ '"' → c ≠ '\'' →
      Blames rule xs next (c :: rest) (.unexpectedCharacter c) next
  | unterminatedString {c : Char} {rest : List Char} : Strays (c :: rest) → c = '"' ∨ c = '\'' →
      Blames rule xs next (c :: rest) .unterminatedString next

/-- The fault that the reader finds is what the error says. -/
theorem Grammar.Faults.blames {α : Type} {finish : State → Option α} {rule : StartRule} {s : State}
    {xs : List Terminal} {next : Point} {rest : List Char} {refusal : Refusal} (file : Option String)
    (h : Faults finish s (lastStart .first (xs.map Terminal.token)) next rest refusal)
    (hs : rule.start.feed (xs.map Terminal.token) = some s)
    (hfinish : finish s = none → ¬Accepts rule s) :
    ∃ place, rule.Blames xs next rest (ParseError.ofRefusal file refusal).problem place ∧
      (ParseError.ofRefusal file refusal).position = place.position file := by
  cases h with
  | unexpected hlongest hstep =>
      have hopens := StartRule.not_opens hs hstep
      rw [List.map_append] at hopens
      exact ⟨_, .unexpected hlongest hopens, rfl⟩
  | ended hends => exact ⟨_, .unexpectedEnd (StartRule.not_spells hs (hfinish hends)), rfl⟩
  | @stray c after hleading =>
      have hstrays := strays_of_leading hleading
      by_cases hquote : c = '"' ∨ c = '\''
      · exact ⟨_, by simpa [ParseError.ofRefusal, hquote] using .unterminatedString hstrays hquote,
          by simp [ParseError.ofRefusal, hquote]⟩
      · obtain ⟨hdouble, hsingle⟩ := not_or.mp hquote
        exact ⟨_, by simpa [ParseError.ofRefusal, hquote] using .unexpectedCharacter hstrays hdouble hsingle,
          by simp [ParseError.ofRefusal, hquote]⟩

/-- A text that the grammar refuses begins with the terminals of a sentence, and the error is about the
first place where no sentence goes on with it: it names the token that no sentence has there, the end of a
text that is no sentence, or a character that begins no lexeme. -/
theorem parse_error_first_fault (rule : StartRule) (text : String) (file : Option String) (e : ParseError)
    (h : rule.parse text file = .error (.refused e)) (he : ¬e.OfParameters) :
    ∃ (xs : List Terminal) (before rest : List Char) (place : Point),
      text.toList = before ++ rest ∧ Cut .first before (xs.map Terminal.token) ∧
      (∃ text' more, rule.Sentence text' (xs ++ more)) ∧
      rule.Blames xs (Point.first.after before) rest e.problem place ∧
      e.position = place.position file := by
  have hblames {α : Type} {finish : State → Option α} {refusal : Refusal}
      (hread : readText rule.start finish text = .error refusal)
      (hfinish : ∀ s, finish s = none → ¬Accepts rule s) :
      ∃ (xs : List Terminal) (before rest : List Char) (place : Point),
        text.toList = before ++ rest ∧ Cut .first before (xs.map Terminal.token) ∧
        (∃ text' more, rule.Sentence text' (xs ++ more)) ∧
        rule.Blames xs (Point.first.after before) rest (ParseError.ofRefusal file refusal).problem place ∧
        (ParseError.ofRefusal file refusal).position = place.position file := by
    obtain ⟨ts, before, rest, s, htext, hcut, hfeed, hfault⟩ := exists_fault hread
    obtain ⟨xs, rfl, hxs⟩ := exists_faithful hfeed
    obtain ⟨place, hplace, hposition⟩ := hfault.blames file hfeed (hfinish s)
    have hs : rule.start.takes xs = some s := hxs.takes_eq_feed.trans hfeed
    exact ⟨xs, before, rest, place, htext, hcut, StartRule.exists_sentence hcut hxs hs, hplace, hposition⟩
  cases rule with
  | program =>
      obtain ⟨refusal, hread, rfl⟩ := exists_refusal_of_parseWith (fun _ => ofParameters_of_ofBody) h he
      refine hblames hread fun s hnone => ?_
      rintro ⟨body, hbody⟩
      rw [hnone] at hbody
      cases hbody
  | expression =>
      obtain ⟨refusal, hread, rfl⟩ := exists_refusal_of_parseWith (fun _ => ofParameters_of_ofTree) h he
      refine hblames hread fun s hnone => ?_
      rintro ⟨tree, htree⟩
      rw [hnone] at htree
      cases htree

/-- Where only an equals sign may come, it is taken, and what is left of a comparison is refused. -/
theorem parse_error_first_fault_comparison :
    ∃ (xs : List Terminal) (before rest : List Char) (place : Point),
      "x == 3".toList = before ++ rest ∧ Cut .first before (xs.map Terminal.token) ∧
      (∃ text' more, StartRule.program.Sentence text' (xs ++ more)) ∧
      StartRule.program.Blames xs (Point.first.after before) rest (.unexpected "=") place ∧
      (Point.mk 1 4).position none = place.position none :=
  parse_error_first_fault .program "x == 3" none ⟨.unexpected "=", (Point.mk 1 4).position none⟩ (by cbv) (by
    rintro ⟨params, h⟩
    cases h)

end Parley
