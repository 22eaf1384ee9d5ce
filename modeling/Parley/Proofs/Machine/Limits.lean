import Parley.Interpreter
import Parley.Proofs.Machine.Recursion
import Parley.Proofs.Session

/-! What the limit of the stack does. It refuses a request by a task that lies too deep, and that is all: a
run in which no request is refused is the same run under every greater limit, step by step. A refusal
that a handler takes up counts too, since the error that it gets names the limit. -/

namespace Parley

namespace Machine

/-- A stack overflow is on its way outward. -/
def Config.overflows (c : Config) : Bool :=
  c.control matches .failure (.error (.stackOverflow _) _)

/-- No stack overflow is raised from a state on, not even one that is recovered from. -/
def Spared (limit : Limit) (c : Config) : Prop := ∀ c', Reaches limit c c' → c'.overflows = false

namespace Spared

variable {limit : Limit} {c c' : Config}

theorem reaches (h : Spared limit c) (hreaches : Reaches limit c c') : Spared limit c' :=
  fun c'' hc'' => h c'' (hreaches.trans hc'')

theorem step (h : Spared limit c) (hstep : Steps limit c c') : Spared limit c' :=
  h.reaches (.single hstep)

end Spared

/-- Whether a run ends within some steps and no stack overflow is raised in it. -/
def sparedWithin (limit : Limit) : Nat → Config → Bool
  | 0, _ => false
  | fuel + 1, c =>
    !c.overflows && match advance limit c with
      | .inl c' => sparedWithin limit fuel c'
      | .inr _ => true

theorem spared_of_sparedWithin {limit : Limit} {fuel : Nat} {c : Config}
    (h : sparedWithin limit fuel c = true) : Spared limit c := by
  induction fuel generalizing c with
  | zero => cases h
  | succ fuel ih =>
      rw [sparedWithin, Bool.and_eq_true, Bool.not_eq_true'] at h
      obtain ⟨hc, hnext⟩ := h
      intro c' hreaches
      rcases hreaches.cases_head with rfl | ⟨c₁, hstep, hreaches⟩
      · exact hc
      · have hstep : advance limit c = .inl c₁ := hstep
        rw [hstep] at hnext
        exact ih hnext c' hreaches

/-! Greater limits -/

section Greater

variable {d d' : Int} (hle : d ≤ d')

include hle

/-- A request that is not refused is served in the same way under a greater limit. -/
theorem carryOut_of_le {task : Task} {scope : Scope} {stack : List Suspended} {depth : Nat}
    {act : Action × Store}
    (h : ∀ c, carryOut (.frames d) task scope stack depth act = .inl c → c.overflows = false) :
    carryOut (.frames d') task scope stack depth act =
      carryOut (.frames d) task scope stack depth act := by
  obtain ⟨action, s⟩ := act
  cases action with
  | finish v => rfl
  | fail f => rfl
  | crash c => rfl
  | request n inner work =>
      by_cases hreached : d ≤ depth
      · have hrefused := h _ (if_pos hreached)
        cases hrefused
      · have hgreater : ¬d' ≤ depth := by omega
        simp only [carryOut, if_neg hreached, if_neg hgreater]

theorem advance_of_le {c : Config} (h : Spared (.frames d) c) :
    advance (.frames d') c = advance (.frames d) c := by
  have hnext : ∀ c', advance (.frames d) c = .inl c' → c'.overflows = false :=
    fun c' hstep => h c' (.single hstep)
  obtain ⟨control, stack, depth, s⟩ := c
  cases control with
  | start task scope => exact carryOut_of_le hle hnext
  | value v =>
      cases stack with
      | nil => rfl
      | cons f stack => exact carryOut_of_le hle hnext
  | failure e =>
      cases stack with
      | nil => rfl
      | cons f stack =>
          cases hguarded : f.work.isGuarded with
          | true =>
              simp only [advance, hguarded, if_true] at hnext ⊢
              exact carryOut_of_le hle hnext
          | false => simp only [advance, hguarded, Bool.false_eq_true, if_false]

theorem run_of_le {fuel : Nat} {c : Config} {r : Outcome × Store}
    (h : run (.frames d) fuel c = some r) (hspared : Spared (.frames d) c) :
    run (.frames d') fuel c = some r := by
  induction fuel generalizing c with
  | zero => cases h
  | succ fuel ih =>
      rw [run_succ] at h ⊢
      rw [advance_of_le hle hspared]
      cases hstep : advance (.frames d) c with
      | inl c' =>
          rw [hstep] at h
          exact ih h (hspared.step hstep)
      | inr r' =>
          rw [hstep] at h
          exact h

end Greater

end Machine

namespace Interpreter

open Parley.Machine

/-- The states that statements pass when they run one after another, each after the ones before it have
come to values. -/
inductive Passes (limit : Limit) : List Node → Store → Config → Prop
  | here {n : Node} {ns : List Node} {s : Store} {c : Config}
      (h : Reaches limit (.initial (.node n) .global s) c) : Passes limit (n :: ns) s c
  | later {n : Node} {ns : List Node} {s s' : Store} {fuel : Nat} {v : Value} {c : Config}
      (hn : execute limit fuel (.node n) s = some (.value v, s')) (h : Passes limit ns s' c) :
      Passes limit (n :: ns) s c

/-- No stack overflow is raised while statements run. -/
def SparedEach (limit : Limit) (ns : List Node) (s : Store) : Prop :=
  ∀ c, Passes limit ns s c → c.overflows = false

namespace SparedEach

variable {limit : Limit} {n : Node} {ns : List Node} {s s' : Store}

theorem head (h : SparedEach limit (n :: ns) s) : Spared limit (.initial (.node n) .global s) :=
  fun c hc => h c (.here hc)

theorem tail (h : SparedEach limit (n :: ns) s) {fuel : Nat} {v : Value}
    (hn : execute limit fuel (.node n) s = some (.value v, s')) : SparedEach limit ns s' :=
  fun c hc => h c (.later hn hc)

end SparedEach

/-- Whether statements run to an ending, each within some steps, and no stack overflow is raised. -/
def sparedEachWithin (limit : Limit) (fuel : Nat) : List Node → Store → Bool
  | [], _ => true
  | n :: ns, s =>
    sparedWithin limit fuel (.initial (.node n) .global s) &&
      match execute limit fuel (.node n) s with
      | some (.value _, s') => sparedEachWithin limit fuel ns s'
      | some _ => true
      | none => false

theorem sparedEach_of_sparedEachWithin {limit : Limit} {fuel : Nat} {ns : List Node} {s : Store}
    (h : sparedEachWithin limit fuel ns s = true) : SparedEach limit ns s := by
  induction ns generalizing s with
  | nil =>
      intro c hc
      cases hc
  | cons n ns ih =>
      rw [sparedEachWithin, Bool.and_eq_true] at h
      obtain ⟨hhead, hrest⟩ := h
      intro c hc
      cases hc with
      | here hreaches => exact spared_of_sparedWithin hhead c hreaches
      | later hn hlater =>
          cases hexecute : execute limit fuel (.node n) s with
          | none =>
              rw [hexecute] at hrest
              cases hrest
          | some r =>
              obtain rfl := runOn_unique (x := .inl (.initial (.node n) .global s)) hn hexecute
              rw [hexecute] at hrest
              exact ih hrest c hlater

/-! Endings -/

/-- How a program ends whose last statement came to an outcome. -/
def endingOf : Outcome → Ending
  | .value v => .completed v
  | .failure (.signal v _) => .returned v
  | .failure (.error e site) => .failed e site
  | .crash c => .crashed c

/-- The line that the end of a program leaves in the log. -/
def Ending.note : Ending → Option String
  | .returned _ => some "oops.interp: top level return"
  | .failed e _ => some ("oops.interp: statement aborted: " ++ e.describe)
  | .completed _ | .crashed _ => none

/-- The store with the end of a program in its log. Nothing but the log is changed. -/
def Ending.logged (ending : Ending) (s : Store) : Store :=
  match ending.note with
  | some line => s.log line
  | none => s

/-- Ends a program with what its last statement came to. -/
def conclude (r : Outcome × Store) : Ending × Store := (endingOf r.1, (endingOf r.1).logged r.2)

/-- Statements go on after a value, and any other outcome ends them. -/
theorem runStatements_cons (limit : Limit) (fuel : Nat) (latest : Value) (n : Node) (ns : List Node)
    (s : Store) : runStatements limit fuel latest (n :: ns) s =
      (execute limit fuel (.node n) s).bind fun
        | (.value v, s') => runStatements limit fuel v ns s'
        | r => some (conclude r) := by
  rw [runStatements]
  cases execute limit fuel (.node n) s with
  | none => rfl
  | some r =>
      obtain ⟨outcome, s'⟩ := r
      cases outcome with
      | value v => rfl
      | failure f => cases f <;> rfl
      | crash c => rfl

theorem runStatements_of_le {d d' : Int} (hle : d ≤ d') {fuel : Nat} {latest : Value} {ns : List Node}
    {s : Store} {r : Ending × Store} (h : runStatements (.frames d) fuel latest ns s = some r)
    (hspared : SparedEach (.frames d) ns s) : runStatements (.frames d') fuel latest ns s = some r := by
  induction ns generalizing latest s with
  | nil => exact h
  | cons n ns ih =>
      rw [runStatements_cons] at h ⊢
      obtain ⟨⟨outcome, s'⟩, hn, hrest⟩ := Option.bind_eq_some_iff.mp h
      have hn' : execute (.frames d') fuel (.node n) s = some (outcome, s') :=
        run_of_le hle hn hspared.head
      rw [hn', Option.bind_some]
      cases outcome with
      | value v => exact ih hrest (hspared.tail hn)
      | failure f => exact hrest
      | crash c => exact hrest

/-- The limit of the stack is only a limit. What a task or a program comes to without a stack overflow, be
it recovered from or not, it comes to in as many steps under every greater limit: the same outcome, with
the same node where that is an error, and the same store. -/
theorem limit_only_limits (d d' : Int) (hle : d ≤ d') (s : Store) :
    (∀ task scope fuel r, run (.frames d) fuel (.initial task scope s) = some r →
      Spared (.frames d) (.initial task scope s) →
      run (.frames d') fuel (.initial task scope s) = some r) ∧
    ∀ program fuel r, runProgram (.frames d) fuel program s = some r →
      SparedEach (.frames d) program.statements s →
      runProgram (.frames d') fuel program s = some r :=
  ⟨fun _ _ _ _ h hspared => run_of_le hle h hspared,
    fun _ _ _ h hspared => runStatements_of_le hle h hspared⟩

/-- A statement in which a division fails two blocks deep and a handler takes the error in words. -/
def recoveringStatement : Node :=
  .send none
    (.block none [] none
      [.send none
        (.block none [] none
          [.send none (.atom none (.integer 1)) "/" [.atom none (.integer 0)]])
        "call" []])
    "catch:" [.block none ["e"] none [.atom none (.variable "e")]]

/-- The statement needs five frames, and with more of them it comes to the same value. -/
theorem limit_only_limits_recovering : ∃ s', ∀ d', 5 ≤ d' →
    runProgram (.frames d') 60 (.suite none .program [recoveringStatement]) (.initial false) =
      some (.completed (.string "PrimitiveFailed: #/ failed: division by zero"), s') := by
  have hany : (execute (.frames 5) 60 (.node recoveringStatement) (.initial false)).any (fun r =>
      valueOf? r.1 == some (.string "PrimitiveFailed: #/ failed: division by zero")) = true := by
    decide +kernel
  have hwithin : sparedEachWithin (.frames 5) 60 [recoveringStatement] (.initial false) = true := by
    decide +kernel
  obtain ⟨⟨outcome, s'⟩, hrun, hvalue⟩ := (Option.any_eq_true _ _).mp hany
  obtain rfl := eq_value_of_valueOf? (eq_of_beq hvalue)
  have hprogram : runProgram (.frames 5) 60 (.suite none .program [recoveringStatement])
      (.initial false) =
        some (.completed (.string "PrimitiveFailed: #/ failed: division by zero"), s') := by
    rw [runProgram, Node.statements, runStatements_cons, hrun]
    rfl
  refine ⟨s', fun d' hle => ?_⟩
  exact (limit_only_limits 5 d' hle _).2 _ _ _ hprogram
    (sparedEach_of_sparedEachWithin hwithin)

end Interpreter

end Parley
