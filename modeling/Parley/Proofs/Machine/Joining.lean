import Parley.Proofs.Machine.Bare
import Parley.Proofs.Machine.Sites
import Parley.Proofs.Node.Joining

/-! Programs in pieces. Runs of the same code from the same store, places apart, end the same, places apart.
The statements of two lists run one after another as the first list does and then, if that completes,
the second. So a text that was cut where a statement ends runs as its pieces do. -/

namespace Parley

namespace Machine

/-! Machines without places -/

def Suspended.bare (f : Suspended) : Suspended := ⟨f.task.bare, f.scope, f.work.bare⟩

def Control.bare : Control → Control
  | .start task scope => .start task.bare scope
  | .value v => .value v
  | .failure f => .failure f.bare

def Config.bare (c : Config) : Config :=
  ⟨c.control.bare, c.stack.map Suspended.bare, c.depth, c.store.bare⟩

def Outcome.bare : Outcome → Outcome
  | .failure f => .failure f.bare
  | outcome => outcome

/-- The end of a run without places. -/
def bareEnd (r : Outcome × Store) : Outcome × Store := (r.1.bare, r.2.bare)

/-- What a step leads to, without places. -/
def bareNext : Config ⊕ (Outcome × Store) → Config ⊕ (Outcome × Store) := Sum.map Config.bare bareEnd

@[simp] theorem Suspended.bare_bare (f : Suspended) : f.bare.bare = f.bare := by simp [Suspended.bare]

theorem map_bare_map_bare (stack : List Suspended) :
    (stack.map Suspended.bare).map Suspended.bare = stack.map Suspended.bare := by
  simp

theorem stamp_bare (task : Task) (f : Failure) : stamp task.bare f.bare = (stamp task f).bare := by
  cases f with
  | signal v home => rfl
  | error e site => cases site <;> rfl

section Steps

variable {limit : Limit}

theorem carryOut_bare (task : Task) (scope : Scope) (stack : List Suspended) (depth : Nat)
    (act : Action × Store) :
    carryOut limit task.bare scope (stack.map Suspended.bare) depth (bareAct act) =
      bareNext (carryOut limit task scope stack depth act) := by
  obtain ⟨action, s⟩ := act
  cases action with
  | finish v => rfl
  | fail f =>
      simp only [bareAct, Action.bare, carryOut, stamp_bare]
      rfl
  | crash c => rfl
  | request n inner work =>
      cases limit with
      | unset => rfl
      | frames count =>
          simp only [bareAct, Action.bare, carryOut]
          split_ifs <;> rfl

/-- Actions that are the same without places lead to the same without places. -/
theorem carryOut_congr (task : Task) (scope : Scope) (stack : List Suspended) (depth : Nat)
    {act act' : Action × Store} (h : bareAct act = bareAct act') :
    bareNext (carryOut limit task.bare scope (stack.map Suspended.bare) depth act) =
      bareNext (carryOut limit task scope stack depth act') :=
  calc bareNext (carryOut limit task.bare scope (stack.map Suspended.bare) depth act)
      = carryOut limit task.bare.bare scope ((stack.map Suspended.bare).map Suspended.bare) depth
          (bareAct act) := (carryOut_bare _ _ _ _ _).symm
    _ = carryOut limit task.bare scope (stack.map Suspended.bare) depth (bareAct act') := by
        rw [Task.bare_bare, map_bare_map_bare, h]
    _ = bareNext (carryOut limit task scope stack depth act') := carryOut_bare _ _ _ _ _

theorem advance_bare (c : Config) : bareNext (advance limit c.bare) = bareNext (advance limit c) := by
  obtain ⟨control, stack, depth, s⟩ := c
  cases control with
  | start task scope => exact carryOut_congr task scope stack depth (begin_bare s scope task)
  | value v =>
      cases stack with
      | nil => simp [advance, Config.bare, Control.bare, bareNext, bareEnd]
      | cons f stack =>
          exact carryOut_congr f.task f.scope stack (depth - 1) (resume_bare s f.scope v f.work)
  | failure e =>
      cases stack with
      | nil => simp [advance, Config.bare, Control.bare, Outcome.bare, bareNext, bareEnd]
      | cons f stack =>
          have hguarded : f.bare.work.isGuarded = f.work.isGuarded := by
            obtain ⟨task, scope, work⟩ := f
            cases work <;> rfl
          simp only [advance, Config.bare, Control.bare, List.map_cons, hguarded]
          split_ifs
          · exact carryOut_congr f.task f.scope stack (depth - 1) (recover_bare s e f.work)
          · simp [bareNext, Config.bare, Control.bare]

/-- Runs that start the same without places end the same without places. -/
theorem run_congr {fuel : Nat} {c c' : Config} (h : c.bare = c'.bare) :
    (run limit fuel c).map bareEnd = (run limit fuel c').map bareEnd := by
  induction fuel generalizing c c' with
  | zero => rfl
  | succ fuel ih =>
      have hnext : bareNext (advance limit c) = bareNext (advance limit c') := by
        rw [← advance_bare c, h, advance_bare]
      rw [run, run]
      cases hc : advance limit c with
      | inl d =>
          cases hc' : advance limit c' with
          | inl d' =>
              rw [hc, hc'] at hnext
              exact ih (Sum.inl.inj hnext)
          | inr r' =>
              rw [hc, hc'] at hnext
              cases hnext
      | inr r =>
          cases hc' : advance limit c' with
          | inl d' =>
              rw [hc, hc'] at hnext
              cases hnext
          | inr r' =>
              rw [hc, hc'] at hnext
              exact congrArg some (Sum.inr.inj hnext)

end Steps

end Machine

namespace Interpreter

open Machine Grammar

/-! Statements -/

def Ending.bare : Ending → Ending
  | .failed e site => .failed e (site.map Task.bare)
  | ending => ending

/-- What a program comes to without places. -/
def bareEnding (r : Ending × Store) : Ending × Store := (r.1.bare, r.2.bare)

theorem conclude_bareEnd (r : Outcome × Store) : conclude (bareEnd r) = bareEnding (conclude r) := by
  obtain ⟨outcome, s⟩ := r
  cases outcome with
  | value v => rfl
  | failure f => cases f <;> rfl
  | crash c => rfl

variable {limit : Limit} {fuel : Nat}

theorem execute_congr {n m : Node} (h : n.bare = m.bare) {s s' : Store} (hs : s.bare = s'.bare) :
    (execute limit fuel (.node n) s).map bareEnd = (execute limit fuel (.node m) s').map bareEnd := by
  refine run_congr ?_
  simp only [Config.initial, Config.bare, Control.bare, Task.bare, h, hs]

/-- After statements that came to the same, places apart, the rest goes on or the program ends. -/
theorem goOn_congr {r r' : Outcome × Store} (h : bareEnd r = bareEnd r')
    {go go' : Value → Store → Option (Ending × Store)}
    (hgo : ∀ v s s', s.bare = s'.bare → (go v s).map bareEnding = (go' v s').map bareEnding) :
    (match r with
      | (.value v, s) => go v s
      | r => some (conclude r)).map bareEnding =
    (match r' with
      | (.value v, s) => go' v s
      | r => some (conclude r)).map bareEnding := by
  have hconclude : bareEnding (conclude r) = bareEnding (conclude r') := by
    rw [← conclude_bareEnd, ← conclude_bareEnd, h]
  obtain ⟨outcome, s⟩ := r
  obtain ⟨outcome', s'⟩ := r'
  obtain ⟨houtcome, hs⟩ := Prod.mk.inj h
  -- without places an outcome is still a value, a failure or a crash
  cases outcome with
  | value v =>
      cases outcome' with
      | value v' =>
          cases houtcome
          exact hgo v s s' hs
      | failure f => cases houtcome
      | crash c => cases houtcome
  | failure f =>
      cases outcome' with
      | value v => cases houtcome
      | failure f' => exact congrArg some hconclude
      | crash c => cases houtcome
  | crash c =>
      cases outcome' with
      | value v => cases houtcome
      | failure f => cases houtcome
      | crash c' => exact congrArg some hconclude

/-- Statements that are the same without places come to the same without places. -/
theorem runStatements_congr {ns ms : List Node} (h : Node.bareEach ns = Node.bareEach ms)
    (latest : Value) {s s' : Store} (hs : s.bare = s'.bare) :
    (runStatements limit fuel latest ns s).map bareEnding =
      (runStatements limit fuel latest ms s').map bareEnding := by
  induction ns generalizing ms latest s s' with
  | nil =>
      cases ms with
      | nil => exact congrArg (fun s => some (Ending.completed latest, s)) hs
      | cons m ms => cases h
  | cons n ns ih =>
      cases ms with
      | nil => cases h
      | cons m ms =>
          obtain ⟨hn, hns⟩ := List.cons.inj h
          have hruns : (execute limit fuel (.node n) s).map bareEnd =
              (execute limit fuel (.node m) s').map bareEnd := execute_congr hn hs
          rw [runStatements_cons, runStatements_cons]
          cases hx : execute limit fuel (.node n) s with
          | none =>
              rw [hx] at hruns
              rw [Option.map_eq_none_iff.mp hruns.symm]
              rfl
          | some r =>
              rw [hx] at hruns
              obtain ⟨r', hy, hend⟩ := Option.map_eq_some_iff.mp hruns.symm
              rw [hy]
              exact goOn_congr hend.symm fun v _ _ hs => ih hns v hs

/-- Statements after others run if those complete, and their value is that of the last one of all. -/
theorem runStatements_append (latest : Value) (ns ms : List Node) (s : Store) :
    runStatements limit fuel latest (ns ++ ms) s =
      (runStatements limit fuel latest ns s).bind fun
        | (.completed v, s') => runStatements limit fuel v ms s'
        | r => some r := by
  induction ns generalizing latest s with
  | nil => rfl
  | cons n ns ih =>
      rw [List.cons_append, runStatements_cons, runStatements_cons, Option.bind_assoc]
      refine congrArg (Option.bind (execute limit fuel (.node n) s)) (funext fun r => ?_)
      obtain ⟨outcome, s'⟩ := r
      cases outcome with
      | value v => exact ih v s'
      | failure f => cases f <;> rfl
      | crash c => rfl

/-- The value before the first of some statements is not used. -/
theorem runStatements_of_ne_nil {ns : List Node} (h : ns ≠ []) (latest latest' : Value) (s : Store) :
    runStatements limit fuel latest ns s = runStatements limit fuel latest' ns s := by
  cases ns with
  | nil => exact absurd rfl h
  | cons n ns => rw [runStatements_cons, runStatements_cons]

/-! Texts -/

def Result.bare : Result → Result
  | .ended ending => .ended ending.bare
  | result => result

/-- What a text comes to without places. -/
def bareResult (r : Result × Store) : Result × Store := (r.1.bare, r.2.bare)

/-- The result of a program that ran. -/
def ended (r : Ending × Store) : Result × Store := (.ended r.1, r.2)

theorem map_bareResult (x : Option (Ending × Store)) :
    (x.map ended).map bareResult = (x.map bareEnding).map ended := by
  rw [Option.map_map, Option.map_map]
  rfl

/-- A program and then, if it completes, another one come to what the statements of both come to. -/
theorem runText_pieces {a b : String} {fileA fileB : Option String} {p q : Node}
    (ha : parseProgram a fileA = .ok p) (hb : parseProgram b fileB = .ok q) (hq : q.statements ≠ [])
    (s : Store) :
    ((runText limit fuel a fileA s).bind fun
      | (.ended (.completed _), s') => runText limit fuel b fileB s'
      | r => some r) =
      (runStatements limit fuel .nil (p.statements ++ q.statements) s).map ended := by
  rw [runText_of_parseProgram ha, runProgram, runStatements_append]
  rcases runStatements limit fuel .nil p.statements s with _ | ⟨ending, s'⟩
  · rfl
  · cases ending with
    | completed v =>
        have hsecond : runText limit fuel b fileB s' =
            (runStatements limit fuel v q.statements s').map ended := by
          rw [runStatements_of_ne_nil hq v .nil]
          exact runText_of_parseProgram hb s'
        exact hsecond
    | _ => rfl

/-- One text runs as its pieces do. If a program ends with a semicolon, or has no token, and another one
has a statement, then the two with a line feed between them are parsed to the statements of both, places
apart. On every store that text comes to what the first program comes to and then, if that completes,
the second one: the same ending, output and store, places apart. -/
theorem text_in_pieces {a b : String} {fileA fileB : Option String} {p q : Node}
    (ha : parseProgram a fileA = .ok p) (hb : parseProgram b fileB = .ok q)
    (hlast : ∀ t ∈ (scan a).tokens.getLast?, t.kind = .semicolon) (hq : q.statements ≠ [])
    (file : Option String) :
    (∃ r, parseProgram (a ++ "\n" ++ b) file = .ok r ∧
      r.bare = .suite none .program (Node.bareEach (p.statements ++ q.statements))) ∧
    ∀ limit fuel s, (runText limit fuel (a ++ "\n" ++ b) file s).map bareResult =
      ((runText limit fuel a fileA s).bind fun
        | (.ended (.completed _), s') => runText limit fuel b fileB s'
        | r => some r).map bareResult := by
  obtain ⟨r, hr, hbare⟩ := exists_of_parseProgram_append ha hb hlast file
  refine ⟨⟨r, hr, hbare⟩, fun limit fuel s => ?_⟩
  obtain ⟨_, ns, -, -, rfl⟩ := exists_of_parseProgram hr
  have hstatements : Node.bareEach ns = Node.bareEach (p.statements ++ q.statements) :=
    (Node.suite.inj hbare).2.2
  have hjoined : runText limit fuel (a ++ "\n" ++ b) file s =
      (runStatements limit fuel .nil ns s).map ended := runText_of_parseProgram hr s
  rw [runText_pieces ha hb hq, map_bareResult, hjoined, map_bareResult]
  exact congrArg (Option.map ended) (runStatements_congr hstatements .nil rfl)

/-- A program that binds a block which divides by its argument. -/
def dividing : Node :=
  .suite (onFirstLine none 1 26) .program
    [.store (onFirstLine none 1 25) (.define "f" "=")
      (.block (onFirstLine none 9 25) ["n"] (onFirstLine none 16 23)
        [.send (onFirstLine none 16 23) (.atom (onFirstLine none 17 18) (.integer 1)) "/"
          [.atom (onFirstLine none 21 22) (.variable "n")]])]

/-- A call of that block which fails. -/
def dividingByZero : Node :=
  .send (onFirstLine none 1 12) (.atom (onFirstLine none 2 3) (.variable "f")) "call:"
    [.atom (onFirstLine none 10 11) (.integer 0)]

/-- Whether a result is a failure with an error. -/
def failsWith (e : Error) : Result → Bool
  | .ended (.failed e' _) => e = e'
  | _ => false

theorem failsWith_bare (e : Error) (r : Result) : failsWith e r.bare = failsWith e r := by
  cases r with
  | refused f => rfl
  | ended ending => cases ending <;> rfl

/-- A comment between the two pieces is no part of either, and the joined text fails as the second one
does after the first. -/
theorem text_in_pieces_commented : ∃ result s',
    runText (.frames 20) 60 ("let f = |n:| { [1 / n] }; // by n" ++ "\n" ++ "[f call: 0]") (some "joined")
      (.initial false) = some (result, s') ∧
    failsWith (.primitiveFailed "/" .divisionByZero) result = true := by
  have hfirst : parseProgram "let f = |n:| { [1 / n] }; // by n" none = .ok dividing := by cbv
  have hsecond : parseProgram "[f call: 0]" none =
      .ok (.suite (onFirstLine none 1 12) .program [dividingByZero]) := by cbv
  have hall : (scan "let f = |n:| { [1 / n] }; // by n").tokens.getLast?.all
      (·.kind = .semicolon) = true := by cbv
  have hlast : ∀ t ∈ (scan "let f = |n:| { [1 / n] }; // by n").tokens.getLast?,
      t.kind = .semicolon := by
    intro t ht
    exact of_decide_eq_true ((Option.all_eq_true _ _).mp hall t ht)
  have hruns : runsTo (.frames 20) 60 false dividing.statements dividingByZero (fun outcome _ =>
      failsWith (.primitiveFailed "/" .divisionByZero) (.ended (endingOf outcome))) = true := by
    decide +kernel
  obtain ⟨v, s, outcome, s', hbefore, hexecute, hfails⟩ := exists_of_runsTo hruns
  have hpieces := (text_in_pieces hfirst hsecond hlast (by simp [Node.statements])
    (some "joined")).2 (.frames 20) 60 (.initial false)
  have hbegins : runText (.frames 20) 60 "let f = |n:| { [1 / n] }; // by n" none (.initial false) =
      some (.ended (.completed v), s) := by
    rw [runText_of_parseProgram hfirst, runProgram, hbefore]
    rfl
  cases outcome with
  | failure f =>
      cases f with
      | error e site =>
          have hends : runText (.frames 20) 60 "[f call: 0]" none s =
              some (.ended (.failed e site), (Ending.failed e site).logged s') := by
            rw [runText_of_parseProgram hsecond, runProgram, Node.statements, runStatements_cons,
              hexecute]
            rfl
          rw [hbegins, Option.bind_some] at hpieces
          dsimp only at hpieces
          rw [hends] at hpieces
          obtain ⟨⟨result, s''⟩, hjoined, hbare⟩ := Option.map_eq_some_iff.mp hpieces
          refine ⟨result, s'', hjoined, ?_⟩
          have hresult : result.bare = .ended (.failed e (site.map Task.bare)) := congrArg Prod.fst hbare
          rw [← failsWith_bare, hresult]
          exact hfails
      | signal v home => cases hfails
  | _ => cases hfails

end Interpreter

end Parley
