import Parley.Command
import Parley.Proofs.Colour
import Parley.Proofs.Repl
import Parley.Proofs.Store.Spelling

/-! What a user sees without a terminal. A report is one marked text, and its place and its message are
searched for colour codes along with it, as is the text of a value at the prompt. Codes do not reach over
the marks that stand between the parts, so each part comes out without its own codes: a report shows what
the program wrote exactly if there is no code in it. The value of a text from the command line is shown as
it is. -/

namespace Parley

open Colour Interpreter

/-! Reports -/

/-- The marks of a report go, and its place and message lose their own codes. -/
theorem strip_reportLine {kind : String} (hkind : '\\' ∉ kind.toList) (message : String)
    (position : Option Position) (file : Option String) :
    strip (reportLine kind message position file) =
      strip (reportPlace position file) ++ (": " ++ kind ++ ": ") ++ strip message := by
  have hcolon : IsInert ':' := ⟨by decide, by decide, by decide⟩
  have hkindEnd : segments ('\\' :: '-' :: 'n' :: '-' :: ':' :: ' ' :: message.toList) =
      .code ['n'] :: .char ':' :: .char ' ' :: segments message.toList := by
    rw [segments_letter (by decide), segments_cons_of_ne (by decide), segments_cons_of_ne (by decide)]
  have hplaceEnd (rest : List Char) :
      segments (':' :: '\\' :: '-' :: 'n' :: '-' :: ' ' :: '\\' :: '-' :: 'r' :: '-' :: rest) =
        .char ':' :: .code ['n'] :: .char ' ' :: .code ['r'] :: segments rest := by
    rw [segments_cons_of_ne (by decide), segments_letter (by decide), segments_cons_of_ne (by decide),
      segments_letter (by decide)]
  have hline : (reportLine kind message position file).toList =
      '\\' :: '-' :: 's' :: '-' :: ((reportPlace position file).toList ++
        ':' :: '\\' :: '-' :: 'n' :: '-' :: ' ' :: '\\' :: '-' :: 'r' :: '-' :: (kind.toList ++
          '\\' :: '-' :: 'n' :: '-' :: ':' :: ' ' :: message.toList)) := by
    simp [reportLine]
  apply String.toList_inj.mp
  rw [toList_strip, hline, segments_letter (by decide), segments_append_cons hcolon, hplaceEnd,
    segments_append_of_not_mem hkind, hkindEnd]
  simp [flatMap_plain_map_char, toList_strip, Segment.plain]

theorem Error.backslash_not_mem_kind (e : Error) : '\\' ∉ e.kind.toList := by
  cases e <;> simp [Error.kind]

section Plain

variable {stream : Stream} (hstream : stream.isTerminal = false ∨ stream.noColour = true)

include hstream

theorem reportTo_reportLine {kind : String} (hkind : '\\' ∉ kind.toList) (message : String)
    (position : Option Position) (file : Option String) :
    Command.reportTo stream (reportLine kind message position file) =
      strip (reportPlace position file) ++ (": " ++ kind ++ ": ") ++ strip message ++ "\n" := by
  rw [Command.reportTo, render_of_not_painted hstream, strip_reportLine hkind]

theorem reportTo_reportLine_eq_iff {kind : String} (hkind : '\\' ∉ kind.toList) (message : String)
    (position : Option Position) (file : Option String) :
    Command.reportTo stream (reportLine kind message position file) =
        reportPlace position file ++ ": " ++ kind ++ ": " ++ message ++ "\n" ↔
      ¬HasCode (reportPlace position file).toList ∧ ¬HasCode message.toList := by
  have hparts : reportPlace position file ++ ": " ++ kind ++ ": " ++ message =
      reportPlace position file ++ (": " ++ kind ++ ": ") ++ message := by
    simp only [String.append_assoc]
  rw [reportTo_reportLine hstream hkind, hparts, String.append_left_inj, strip_append_eq_iff]

/-! Values -/

/-- At the prompt a value is shown without its codes, and not at all if it has no text. -/
theorem reply_value {limit : Machine.Limit} {fuel : Nat} {line text : String} {session after : Repl.Session}
    {result : Result} {v : Value} (hline : Repl.isFarewell line = false)
    (heval : Repl.evalLine limit fuel line session = some (result, after)) (hv : result.value? = some v)
    (hnil : v ≠ .nil) (htext : after.store.literal v = .ok text) :
    Repl.reply limit fuel stream (some (.line line)) session =
      some (.more (after.write (if text = "" then "" else strip text ++ "\n"))) := by
  have hshow : Repl.showResult after.store result = .ok text := by
    have hvalue : Repl.showValue after.store v = .ok text := by
      rw [Repl.showValue, if_neg hnil, htext]
      rfl
    rcases result with e | ⟨w | w | ⟨e, site⟩ | c⟩ <;> cases hv <;> exact hvalue
  rw [Repl.reply, hline, if_neg Bool.false_ne_true, heval]
  dsimp only
  rw [hshow]
  by_cases hempty : text = ""
  · subst hempty
    rw [if_pos rfl, Repl.Session.write, String.append_empty]
    rfl
  · rw [if_neg hempty, ← render_of_not_painted hstream]
    split
    next heq => cases heq
    next heq => exact absurd (Except.ok.inj heq) hempty
    next heq => rw [Except.ok.inj heq]

theorem reply_value_eq_iff {limit : Machine.Limit} {fuel : Nat} {line text : String}
    {session after : Repl.Session} {result : Result} {v : Value} (hline : Repl.isFarewell line = false)
    (heval : Repl.evalLine limit fuel line session = some (result, after)) (hv : result.value? = some v)
    (hnil : v ≠ .nil) (htext : after.store.literal v = .ok text) :
    Repl.reply limit fuel stream (some (.line line)) session =
        some (.more (after.write (text ++ "\n"))) ↔ text ≠ "" ∧ ¬HasCode text.toList := by
  have hwrite : ∀ shown shown' : String, some (Repl.Next.more (after.write shown)) =
      some (.more (after.write shown')) ↔ shown = shown' := by
    refine fun shown shown' => ⟨fun h => ?_, fun h => h ▸ rfl⟩
    have hstore := congrArg Repl.Session.store (Repl.Next.more.inj (Option.some.inj h))
    exact (String.append_right_inj _).mp (congrArg Store.output hstore)
  rw [reply_value hstream hline heval hv hnil htext, hwrite]
  by_cases hempty : text = ""
  · subst hempty
    rw [if_pos rfl]
    exact ⟨nofun, fun h => absurd rfl h.1⟩
  · rw [if_neg hempty, String.append_left_inj, strip_eq_self_iff]
    exact (and_iff_right hempty).symm

end Plain

/-- The value of a text from the command line is shown as it is. -/
theorem runAndReport_value {stream : Stream} {fuel : Nat} {o : Command.Options} {file text : String}
    {program : Node} {ending : Ending} {s : Store} {v : Value} (ho : o.code.isSome)
    (hrun : runProgram o.limit fuel program (.initial o.trace) = some (ending, s))
    (hv : (Result.ended ending).value? = some v) (htext : s.literal v = .ok text) :
    Command.runAndReport stream fuel o file program =
      some ⟨.code 0, s.output ++ text ++ "\n", s.trace.getD ""⟩ := by
  have hcode : ¬o.code.isNone = true := by
    rw [Option.isNone_iff_eq_none]
    exact Option.isSome_iff_ne_none.mp ho
  rw [Command.runAndReport, hrun]
  cases ending with
  | completed w | returned w =>
      cases hv
      dsimp only
      rw [if_neg hcode, htext]
  | failed e site => cases hv
  | crashed c => cases hv

/-- Without a terminal, what a program wrote is shown as it is exactly if there is no colour code in it.
This is so of the text of a value at the prompt, which has to have some text to be shown, and of the place
and the message of an error, whether the text of a program is refused or its run fails. The text of a value
that the command line asks for is shown as it is in any case. -/
theorem shown_verbatim_iff (limit : Machine.Limit) (fuel : Nat) {stream : Stream}
    (hstream : stream.isTerminal = false ∨ stream.noColour = true) :
    (∀ line session result after v text, Repl.isFarewell line = false →
      Repl.evalLine limit fuel line session = some (result, after) → result.value? = some v → v ≠ .nil →
      after.store.literal v = .ok text →
      (Repl.reply limit fuel stream (some (.line line)) session =
        some (.more (after.write (text ++ "\n"))) ↔ text ≠ "" ∧ ¬HasCode text.toList)) ∧
    (∀ (o : Command.Options) file program ending s v text, o.code.isSome →
      runProgram o.limit fuel program (.initial o.trace) = some (ending, s) →
      (Result.ended ending).value? = some v → s.literal v = .ok text →
      Command.runAndReport stream fuel o file program =
        some ⟨.code 0, s.output ++ text ++ "\n", s.trace.getD ""⟩) ∧
    (∀ (e : Error) site file, Command.reportTo stream (e.report site file) =
        reportPlace (sitePosition site) file ++ ": " ++ e.kind ++ ": " ++ e.message ++ "\n" ↔
      ¬HasCode (reportPlace (sitePosition site) file).toList ∧ ¬HasCode e.message.toList) ∧
    ∀ (e : ParseError) file, Command.reportTo stream (e.report file) =
        reportPlace (some e.position) file ++ ": " ++ "ParseError" ++ ": " ++ e.message ++ "\n" ↔
      ¬HasCode (reportPlace (some e.position) file).toList ∧ ¬HasCode e.message.toList := by
  refine ⟨?_, ?_, ?_, ?_⟩
  · intro line session result after v text hline heval hv hnil htext
    exact reply_value_eq_iff hstream hline heval hv hnil htext
  · intro o file program ending s v text ho hrun hv htext
    exact runAndReport_value ho hrun hv htext
  · intro e site file
    exact reportTo_reportLine_eq_iff hstream e.backslash_not_mem_kind e.message (sitePosition site) file
  · intro e file
    exact reportTo_reportLine_eq_iff hstream (by decide) e.message (some e.position) file

/-- A text in quotes, as a line is parsed that holds nothing else. -/
def quotedLine (stop : Nat) (text : String) : Node :=
  .suite (onFirstLine (some Repl.fileName) 1 stop) .program
    [.atom (onFirstLine (some Repl.fileName) 1 stop) (.string text)]

theorem evalLine_quotedLine {line text : String} {stop : Nat} {session : Repl.Session}
    (hblank : (Text.strip line).isEmpty = false)
    (hparse : parseProgram (Text.strip line) (some Repl.fileName) = .ok (quotedLine stop text)) :
    ∃ after, Repl.evalLine (.frames 20) 9 line session =
      some (.ended (.completed (.string text)), after) := by
  obtain ⟨s, hrun⟩ : ∃ s, runProgram (.frames 20) 9 (quotedLine stop text) session.store =
      some (.completed (.string text), s) := ⟨_, rfl⟩
  rw [Repl.evalLine_of_not_isEmpty hblank, runText_of_parseProgram hparse, hrun]
  exact ⟨_, rfl⟩

/-- The beginning of a code is not a code. -/
theorem shown_verbatim_iff_open : (false = false ∨ false = true) ∧
    (∃ after : Repl.Session, Repl.reply (.frames 20) 9 ⟨false, false⟩ (some (.line "\"a\\\\-b\""))
      (.initial false) = some (.more (after.write ("\"a\\\\-b\"" ++ "\n")))) ∧
    Command.reportTo ⟨false, false⟩ ((Error.doesNotUnderstand "foo" "A\\-r").report none none) =
      "<input>: DoesNotUnderstand: A\\-r does not understand #foo\n" := by
  have hstream : false = false ∨ false = true := .inl rfl
  obtain ⟨hprompt, -, hreport, -⟩ := @shown_verbatim_iff (.frames 20) 9 ⟨false, false⟩ hstream
  have hline : Repl.isFarewell "\"a\\\\-b\"" = false := by cbv
  have hblank : (Text.strip "\"a\\\\-b\"").isEmpty = false := by cbv
  have hparse : parseProgram (Text.strip "\"a\\\\-b\"") (some Repl.fileName) =
      .ok (quotedLine 8 "a\\-b") := by cbv
  obtain ⟨after, heval⟩ := @evalLine_quotedLine _ _ _ (.initial false) hblank hparse
  have hnone (text : String) (h : (segments text.toList).any Segment.isCode = false) :
      ¬HasCode text.toList := by
    rw [← any_isCode_iff, h]
    exact Bool.false_ne_true
  have hnil : Value.string "a\\-b" ≠ .nil := by simp
  have hquoted : stringLiteral "a\\-b" = "\"a\\\\-b\"" := by cbv
  have htext : after.store.literal (.string "a\\-b") = .ok "\"a\\\\-b\"" := by
    rw [← hquoted]
    exact Store.literal_eq_ok_iff.mpr (.string _)
  refine ⟨hstream, ⟨after, ?_⟩, ?_⟩
  · refine (hprompt _ _ _ after (.string "a\\-b") _ hline heval rfl hnil htext).mpr ⟨by decide, ?_⟩
    exact hnone _ (by cbv)
  · have hmessage : (Error.doesNotUnderstand "foo" "A\\-r").message =
        "A\\-r does not understand #foo" := by decide
    refine ((hreport (.doesNotUnderstand "foo" "A\\-r") none none).mpr ⟨?_, ?_⟩).trans (by decide)
    · exact hnone "<input>" (by cbv)
    · rw [hmessage]
      exact hnone _ (by cbv)

/-- A code in a text is lost at the prompt, and one in the name of a class is lost in a report. -/
theorem code_lost : ∃ after : Repl.Session,
    Repl.evalLine (.frames 20) 9 "\"a\\\\-r-b\"" (.initial false) =
      some (.ended (.completed (.string "a\\-r-b")), after) ∧
    after.store.literal (.string "a\\-r-b") = .ok "\"a\\\\-r-b\"" ∧
    Repl.reply (.frames 20) 9 ⟨false, false⟩ (some (.line "\"a\\\\-r-b\"")) (.initial false) =
      some (.more (after.write "\"a\\b\"\n")) ∧
    Repl.reply (.frames 20) 9 ⟨false, false⟩ (some (.line "\"a\\\\-r-b\"")) (.initial false) ≠
      some (.more (after.write ("\"a\\\\-r-b\"" ++ "\n"))) ∧
    Command.reportTo ⟨false, false⟩ ((Error.doesNotUnderstand "foo" "A\\-r-B").report none none) =
      "<input>: DoesNotUnderstand: AB does not understand #foo\n" := by
  have hline : Repl.isFarewell "\"a\\\\-r-b\"" = false := by cbv
  have hblank : (Text.strip "\"a\\\\-r-b\"").isEmpty = false := by cbv
  have hparse : parseProgram (Text.strip "\"a\\\\-r-b\"") (some Repl.fileName) =
      .ok (quotedLine 10 "a\\-r-b") := by cbv
  obtain ⟨after, heval⟩ := @evalLine_quotedLine _ _ _ (.initial false) hblank hparse
  have hnil : Value.string "a\\-r-b" ≠ .nil := by simp
  have hquoted : stringLiteral "a\\-r-b" = "\"a\\\\-r-b\"" := by cbv
  have htext : after.store.literal (.string "a\\-r-b") = .ok "\"a\\\\-r-b\"" := by
    rw [← hquoted]
    exact Store.literal_eq_ok_iff.mpr (.string _)
  have hshown : strip "\"a\\\\-r-b\"" = "\"a\\b\"" := by cbv
  have hmessage : (Error.doesNotUnderstand "foo" "A\\-r-B").message =
      "A\\-r-B does not understand #foo" := by decide
  have hplace : strip "<input>" = "<input>" := by cbv
  have hname : strip "A\\-r-B does not understand #foo" = "AB does not understand #foo" := by cbv
  refine ⟨after, heval, htext, ?_, ?_, ?_⟩
  · rw [reply_value (.inl rfl) hline heval rfl hnil htext, if_neg (by decide), hshown]
    rfl
  · intro hreply
    have hplain := ((reply_value_eq_iff (.inl rfl) hline heval rfl hnil htext).mp hreply).2
    rw [← strip_eq_self_iff, hshown] at hplain
    exact absurd hplain (by decide)
  · refine (reportTo_reportLine (.inl rfl) (Error.backslash_not_mem_kind _) _ none none).trans ?_
    rw [hmessage, hname]
    change strip "<input>" ++ _ ++ _ ++ _ = _
    rw [hplace]
    decide

end Parley
