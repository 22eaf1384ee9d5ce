import Parley.Machine.Evaluate

/-! The machine: a stack of suspended tasks. A request suspends the running task and starts a new one above
it, a value resumes the task below, a failure drops tasks until one has asked for failures. A task
that runs at the depth of the limit cannot request anything, and without a limit nothing can. A crash
leaves the store as it is: the tasks that are still suspended are told nothing, and their methods stay
alive. -/

namespace Parley.Machine

/-- How deep the stack may grow. -/
inductive Limit where
  /-- at most so many; an overflow writes the count out, so negative counts of more than 4300 digits, which
  have no text, are left aside -/
  | frames (count : Int)
  /-- no number: the first request ends the run -/
  | unset
  deriving DecidableEq, Repr, Inhabited

/-- A task that waits for the value it requested. -/
structure Suspended where
  task : Task
  scope : Scope
  work : Work
  deriving Repr, Inhabited

/-- What the machine does next. -/
inductive Control where
  | start (task : Task) (scope : Scope)
  | value (value : Value)
  | failure (failure : Failure)
  deriving Repr, Inhabited

/-- A state of the machine. The depth is the height of the stack. -/
structure Config where
  control : Control
  stack : List Suspended
  depth : Nat
  store : Store
  deriving Repr, Inhabited

/-- How a run ends. -/
inductive Outcome where
  | value (value : Value)
  | failure (failure : Failure)
  | crash (crash : Crash)
  deriving Repr, Inhabited

/-- An error that has no site yet arose in the running task. -/
def stamp (task : Task) : Failure → Failure
  | .error e none => .error e (some task)
  | f => f

/-- Carries out the action of a task that ran above a stack. -/
def carryOut (limit : Limit) (task : Task) (scope : Scope) (stack : List Suspended) (depth : Nat) :
    Action × Store → Config ⊕ (Outcome × Store)
  | (.finish v, s) => .inl ⟨.value v, stack, depth, s⟩
  | (.fail f, s) => .inl ⟨.failure (stamp task f), stack, depth, s⟩
  | (.crash c, s) => .inr (.crash c, s)
  | (.request n inner work, s) =>
    let stack := ⟨task, scope, work⟩ :: stack
    match limit with
    | .unset => .inr (.crash .missingLimit, s)
    | .frames count =>
      if count ≤ depth then
        let s := s.log ("oops.engine: stack overflow at depth " ++ toString depth)
        .inl ⟨.failure (.error (.stackOverflow count) (some (.node n))), stack, depth + 1, s⟩
      else .inl ⟨.start (.node n) inner, stack, depth + 1, s⟩

/-- One step. -/
def advance (limit : Limit) (c : Config) : Config ⊕ (Outcome × Store) :=
  match c with
  | ⟨.start task scope, stack, depth, s⟩ =>
    carryOut limit task scope stack depth (begin s scope task)
  | ⟨.value v, [], _, s⟩ => .inr (.value v, s)
  | ⟨.value v, f :: stack, depth, s⟩ =>
    carryOut limit f.task f.scope stack (depth - 1) (resume s f.scope v f.work)
  | ⟨.failure e, [], _, s⟩ => .inr (.failure e, s)
  | ⟨.failure e, f :: stack, depth, s⟩ =>
    if f.work.isGuarded then
      carryOut limit f.task f.scope stack (depth - 1) (recover s e f.work)
    else .inl ⟨.failure e, stack, depth - 1, s⟩

/-- Runs at most `fuel` steps; `none` when the run has not ended by then. -/
def run (limit : Limit) : Nat → Config → Option (Outcome × Store)
  | 0, _ => none
  | fuel + 1, c =>
    match advance limit c with
    | .inl c => run limit fuel c
    | .inr end_ => some end_

/-- Before a task runs on an empty stack. -/
def Config.initial (task : Task) (scope : Scope) (s : Store) : Config :=
  ⟨.start task scope, [], 0, s⟩

end Parley.Machine
