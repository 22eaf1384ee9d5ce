import Parley.Proofs.Machine.Unused
import Parley.Repl

/-! An interactive session is a series of programs that run one after another in one store. As long as
nobody uses the name of the latest result, its binding makes no difference: each line comes to what it
would come to without it, and the stores differ in that binding only. -/

namespace Parley

open Parley.Interpreter

/-- The value that a text has come to, if it succeeded. -/
def Interpreter.Result.value? : Result → Option Value
  | .ended (.completed v) | .ended (.returned v) => some v
  | _ => none

namespace Repl

/-- A line of a session, what came of it, and the session after it. -/
structure Turn where
  line : String
  result : Result
  session : Session

/-- The value of a line that succeeded; a blank line has none. -/
def Turn.value? (t : Turn) : Option Value :=
  if (Text.strip t.line).isEmpty then none else t.result.value?

/-- What comes of some lines one after another, up to the first that does not end. -/
def turns (limit : Machine.Limit) (fuel : Nat) : List String → Session → List Turn
  | [], _ => []
  | line :: rest, session =>
    match evalLine limit fuel line session with
    | none => []
    | some (result, after) => ⟨line, result, after⟩ :: turns limit fuel rest after

/-- What comes of the same lines as programs in one store, and the store after each, up to the first
program that does not end. -/
def programs (limit : Machine.Limit) (fuel : Nat) : List String → Store → List (Result × Store)
  | [], _ => []
  | line :: rest, s =>
    match runText limit fuel (Text.strip line) (some fileName) s with
    | none => []
    | some (result, after) => (result, after) :: programs limit fuel rest after

/-- The value of the latest line that succeeded. -/
def latest? (ts : List Turn) : Option Value := ts.reverse.findSome? Turn.value?

@[simp] theorem latest?_nil : latest? [] = none := rfl

theorem latest?_cons (t : Turn) (ts : List Turn) : latest? (t :: ts) = (latest? ts).or t.value? := by
  rw [latest?, List.reverse_cons, List.findSome?_append, List.findSome?_singleton]
  rfl

section Lines

variable {limit : Machine.Limit} {fuel : Nat} {line : String} {session : Session}

/-- A blank text is a program without statements. -/
theorem runText_empty (file : Option String) (s : Store) :
    runText limit fuel "" file s = some (.ended (.completed .nil), s) := by
  have hparse : parseProgram "" file = .ok (.suite none .program []) := by
    have hread : Grammar.readProgram "" = .ok ⟨none, []⟩ := by cbv
    rw [parseProgram, parseWith, hread]
    rfl
  rw [runText, hparse]
  rfl

theorem evalLine_of_not_isEmpty (h : (Text.strip line).isEmpty = false) :
    evalLine limit fuel line session =
      (runText limit fuel (Text.strip line) (some fileName) session.store).map fun r =>
        (r.1, match r.1.value? with
          | some v => ⟨r.2.define Store.globals "_" v, v⟩
          | none => ⟨r.2, session.last⟩) := by
  rw [evalLine, h, if_neg Bool.false_ne_true]
  rcases runText limit fuel (Text.strip line) (some fileName) session.store with
    _ | ⟨e | ⟨v | v | ⟨e, site⟩ | c⟩, s⟩ <;> rfl

/-- A line does what its text does as a program in the store without `_`, and binds `_` if it succeeds. -/
theorem evalLine_refines {bound : Option Value} (hs : session.store.Spares "_" bound)
    (hline : ¬Grammar.Mentions (Text.strip line) "_") :
    runText limit fuel (Text.strip line) (some fileName) (session.store.without "_") =
        (evalLine limit fuel line session).map (fun r => (r.1, r.2.store.without "_")) ∧
      ∀ result after, evalLine limit fuel line session = some (result, after) →
        after.store.Spares "_" ((Turn.mk line result after).value?.or bound) ∧
        after.last = (Turn.mk line result after).value?.getD session.last := by
  cases hblank : (Text.strip line).isEmpty with
  | true =>
      have heval : evalLine limit fuel line session = some (.ended (.completed .nil), session) := by
        rw [evalLine, hblank]
        rfl
      rw [String.isEmpty_iff.mp hblank, runText_empty, heval]
      refine ⟨rfl, ?_⟩
      rintro _ _ ⟨⟩
      rw [Turn.value?, if_pos hblank]
      exact ⟨hs, rfl⟩
  | false =>
      obtain ⟨hkept, hrun⟩ := @runText_ignores "_" bound limit fuel session.store _ hs hline (some fileName)
      rw [evalLine_of_not_isEmpty hblank, hrun]
      cases hend : runText limit fuel (Text.strip line) (some fileName) session.store with
      | none => exact ⟨rfl, fun _ _ => nofun⟩
      | some r =>
          obtain ⟨result, s⟩ := r
          have hs' := hkept _ hend
          have hvalue : ∀ after, (Turn.mk line result after).value? = result.value? := by
            intro after
            rw [Turn.value?, if_neg (by simp [hblank])]
          cases hresult : result.value? with
          | none =>
              rw [hresult] at hvalue
              simp only [Option.map_some, hresult]
              refine ⟨rfl, ?_⟩
              rintro _ _ ⟨⟩
              rw [hvalue]
              exact ⟨hs', rfl⟩
          | some v =>
              rw [hresult] at hvalue
              simp only [Option.map_some, hresult]
              refine ⟨?_, ?_⟩
              · rw [Store.without_define_globals]
                rfl
              · rintro _ _ ⟨⟩
                rw [hvalue]
                refine ⟨⟨hs'.code.congr rfl rfl, ?_, s.global?_define_globals hs'.globals "_" v⟩, rfl⟩
                rw [Store.define, Array.size_modify]
                exact hs'.globals

end Lines

/-- Lines that do not mention `_` do what they do as programs in one store without `_`. -/
theorem turns_refine {limit : Machine.Limit} {fuel : Nat} {lines : List String} {session : Session}
    {bound : Option Value} (hs : session.store.Spares "_" bound) (hlast : session.last = bound.getD .nil)
    (hlines : ∀ line ∈ lines, ¬Grammar.Mentions (Text.strip line) "_") :
    programs limit fuel lines (session.store.without "_") =
        (turns limit fuel lines session).map (fun t => (t.result, t.session.store.without "_")) ∧
      ∀ before t after, turns limit fuel lines session = before ++ t :: after →
        t.session.store.global? "_" = (latest? (before ++ [t])).or bound ∧
        t.session.last = ((latest? (before ++ [t])).or bound).getD .nil := by
  induction lines generalizing session bound with
  | nil =>
      refine ⟨rfl, fun before t after h => ?_⟩
      cases before <;> cases h
  | cons line rest ih =>
      obtain ⟨hline, hrest⟩ := List.forall_mem_cons.mp hlines
      obtain ⟨hrun, hkept⟩ := @evalLine_refines limit fuel line session bound hs hline
      rw [programs, turns, hrun]
      cases heval : evalLine limit fuel line session with
      | none =>
          refine ⟨rfl, fun before t after h => ?_⟩
          cases before <;> cases h
      | some r =>
          obtain ⟨result, next⟩ := r
          obtain ⟨hs', hlast'⟩ := hkept result next heval
          have hbound : next.last = ((Turn.mk line result next).value?.or bound).getD .nil := by
            rw [hlast', hlast]
            cases (Turn.mk line result next).value? <;> rfl
          obtain ⟨hprograms, hturns⟩ := ih hs' hbound hrest
          refine ⟨?_, fun before t after h => ?_⟩
          · exact congrArg ((result, next.store.without "_") :: ·) hprograms
          · dsimp only at h
            cases before with
            | nil =>
                cases h
                rw [List.nil_append, latest?_cons, latest?_nil, Option.none_or]
                exact ⟨hs'.bound, hbound⟩
            | cons first before =>
                obtain ⟨rfl, hmore⟩ := List.cons.inj h
                rw [List.cons_append, latest?_cons, Option.or_assoc]
                exact hturns before t after hmore

/-- An interactive session is a series of programs in one store. If no line mentions `_`, the lines come to
the same results as the programs, one by one, and end or not together. After each line the stores are the
same but for the global binding of `_`: it holds the value of the latest line that succeeded, which the
session keeps too, and there is none before. -/
theorem session_refines_programs (limit : Machine.Limit) (fuel : Nat) (traced : Bool) (lines : List String)
    (hlines : ∀ line ∈ lines, ¬Grammar.Mentions (Text.strip line) "_") :
    programs limit fuel lines (.initial traced) =
        (turns limit fuel lines (.initial traced)).map (fun t => (t.result, t.session.store.without "_")) ∧
      ∀ before t after, turns limit fuel lines (.initial traced) = before ++ t :: after →
        t.session.store.global? "_" = latest? (before ++ [t]) ∧
        t.session.last = (latest? (before ++ [t])).getD .nil := by
  have hinitial : (Store.initial traced).Spares "_" none := ⟨.initial traced, Nat.one_pos, rfl⟩
  have hstore : (Session.initial traced).store.without "_" = .initial traced :=
    Store.without_initial traced "_"
  have h := @turns_refine limit fuel lines (.initial traced) none hinitial rfl hlines
  simp only [Option.or_none] at h
  rwa [hstore] at h

/-- A line that binds a name, as it is parsed. -/
def bindingLine : Node :=
  .suite (onFirstLine (some fileName) 1 10) .program
    [.store (onFirstLine (some fileName) 1 10) (.define "x" "=")
      (.atom (onFirstLine (some fileName) 9 10) (.integer 7))]

/-- A line that uses another one. -/
def unboundLine : Node :=
  .suite (onFirstLine (some fileName) 1 2) .program
    [.atom (onFirstLine (some fileName) 1 2) (.variable "y")]

/-- After a line that fails, `_` holds the value of the line before. -/
theorem session_refines_programs_failing : ∃ first second : Turn,
    turns (.frames 20) 9 ["let x = 7", "y"] (.initial false) = [first, second] ∧
    programs (.frames 20) 9 ["let x = 7", "y"] (.initial false) =
      [(first.result, first.session.store.without "_"), (second.result, second.session.store.without "_")] ∧
    second.result.value? = none ∧ second.session.store.global? "_" = some (.integer 7) := by
  have hx : parseProgram (Text.strip "let x = 7") (some fileName) = .ok bindingLine := by cbv
  have hy : parseProgram (Text.strip "y") (some fileName) = .ok unboundLine := by cbv
  have hxs : (Text.strip "let x = 7").isEmpty = false := by cbv
  have hys : (Text.strip "y").isEmpty = false := by cbv
  have hwords : (["let x = 7", "y"].all fun line => (Grammar.scan (Text.strip line)).tokens.all fun t =>
      t.kind != .name || t.text != "_") = true := by cbv
  have hlines : ∀ line ∈ ["let x = 7", "y"], ¬Grammar.Mentions (Text.strip line) "_" := by
    rintro line hline ⟨t, ht, hkind, htext⟩
    have h := List.all_eq_true.mp (List.all_eq_true.mp hwords line hline) t ht
    simp [hkind, htext] at h
  have hruns : (runProgram (.frames 20) 9 bindingLine (.initial false)).any (fun r =>
      decide ((Result.ended r.1).value? = some (.integer 7)) &&
        (runProgram (.frames 20) 9 unboundLine (r.2.define Store.globals "_" (.integer 7))).any fun r' =>
          decide ((Result.ended r'.1).value? = none)) = true := by
    decide +kernel
  obtain ⟨⟨ending, s⟩, hrun, hmore⟩ := (Option.any_eq_true _ _).mp hruns
  obtain ⟨hvalue, hmore⟩ := (Bool.and_eq_true _ _).mp hmore
  obtain ⟨⟨ending', s'⟩, hrun', hvalue'⟩ := (Option.any_eq_true _ _).mp hmore
  replace hvalue := of_decide_eq_true hvalue
  replace hvalue' := of_decide_eq_true hvalue'
  dsimp only at hvalue hvalue' hrun'
  have hfirst : evalLine (.frames 20) 9 "let x = 7" (.initial false) =
      some (.ended ending, ⟨s.define Store.globals "_" (.integer 7), .integer 7⟩) := by
    rw [evalLine_of_not_isEmpty hxs, runText_of_parseProgram hx, Session.initial, hrun]
    simp only [Option.map_some, hvalue]
  have hsecond : evalLine (.frames 20) 9 "y" ⟨s.define Store.globals "_" (.integer 7), .integer 7⟩ =
      some (.ended ending', ⟨s', .integer 7⟩) := by
    rw [evalLine_of_not_isEmpty hys, runText_of_parseProgram hy, hrun']
    simp only [Option.map_some, hvalue']
  have hturns : turns (.frames 20) 9 ["let x = 7", "y"] (.initial false) =
      [⟨"let x = 7", .ended ending, ⟨s.define Store.globals "_" (.integer 7), .integer 7⟩⟩,
        ⟨"y", .ended ending', ⟨s', .integer 7⟩⟩] := by
    simp only [turns, hfirst, hsecond]
  obtain ⟨hprograms, hlatest⟩ :=
    session_refines_programs (.frames 20) 9 false ["let x = 7", "y"] hlines
  rw [hturns] at hprograms hlatest
  refine ⟨_, _, hturns, hprograms, hvalue', ?_⟩
  rw [(hlatest [_] _ [] rfl).1]
  simp only [List.singleton_append, latest?_cons, latest?_nil, Turn.value?, hxs, hys, hvalue, hvalue',
    Bool.false_eq_true, if_false, Option.none_or]

end Repl

end Parley
