import Parley.Proofs.Machine.CodeRun
import Parley.Proofs.Machine.Recursion
import Parley.Proofs.Machine.Returns

/-! Termination. Without loops every evaluation ends: a request goes one level deeper, which the limit
allows only so often, and what a task does after a request comes later in the task. However methods and
blocks call each other, and whatever becomes of the lists that they go through, there is an end. -/

namespace Parley

/-- Whether a send carries as many arguments as its selector takes and is no loop. -/
def Selector.isBounded (selector : String) (count : Nat) : Bool :=
  Selector.arity selector == count && !Selector.isLoop selector

theorem Selector.arity_of_isBounded (selector : String) (count : Nat)
    (h : Selector.isBounded selector count = true) : Selector.arity selector = count := by
  rw [Selector.isBounded, Bool.and_eq_true, beq_iff_eq] at h
  exact h.1

/-- Code without loops is in no loop. -/
theorem Work.AllSends.not_isLoop {work : Work} (h : work.AllSends Selector.isBounded) :
    ¬work.IsLoop False := by
  intro hloop
  have hsend : ∃ selector count,
      Selector.isBounded selector count = true ∧ Selector.isLoop selector = true := by
    cases work with
    | testing expected condition body => exact h.2
    | looping expected condition body => exact h.2
    | _ => cases hloop
  obtain ⟨selector, count, hbounded, hselector⟩ := hsend
  rw [Selector.isBounded, hselector, Bool.not_true, Bool.and_false] at hbounded
  cases hbounded

namespace Machine

/-- How many levels below a depth are left. -/
def Limit.room : Limit → Nat → Nat
  | .frames count, depth => (count - depth).toNat
  | .unset, _ => 0

theorem Limit.room_succ_lt {limit : Limit} {depth : Nat} (h : ¬limit.isReached depth = true) :
    limit.room (depth + 1) < limit.room depth := by
  cases limit with
  | unset => exact absurd rfl h
  | frames count =>
      have hlt : (depth : Int) < count := by
        by_contra hle
        exact h (decide_eq_true (Int.not_lt.mp hle))
      simp only [Limit.room]
      omega

/-- What the evaluation of code without loops comes to: the code of the store is without loops again, and
only a text or a comparison without end, or the lack of a limit, ends the run. -/
structure Settled (limit : Limit) (r : Outcome × Store) : Prop where
  code : r.2.AllSends Selector.isBounded
  crash : ∀ c, r.1 = .crash c →
    c = .bottomless ∧ r.2.Endless ∨ c = .missingLimit ∧ limit = .unset

section Settling

variable {limit : Limit} {depth : Nat} {task : Task} {scope : Scope}

theorem settled_value {s : Store} (hs : s.AllSends Selector.isBounded) (v : Value) :
    Settled limit (.value v, s) :=
  ⟨hs, fun _ => nofun⟩

theorem settled_failure {s : Store} (hs : s.AllSends Selector.isBounded) (f : Failure) :
    Settled limit (.failure f, s) :=
  ⟨hs, fun _ => nofun⟩

theorem settled_refused {n : Node} {s : Store} (hs : s.AllSends Selector.isBounded) :
    Settled limit (refused limit depth n s) := by
  cases limit with
  | frames count => exact ⟨hs.congr rfl rfl, fun _ => nofun⟩
  | unset =>
      refine ⟨hs, ?_⟩
      rintro c ⟨⟩
      exact .inr ⟨rfl, rfl⟩

/-- What a task does with the outcome of its request comes to an end if everything later in it does. -/
theorem exists_takeUp {next : Action × Store → Option (Outcome × Store)} {work : Work}
    (hwork : work.AllSends Selector.isBounded)
    (hnext : ∀ act, ActSends Selector.isBounded (fun later => later.rank < work.rank) act →
      ∃ r, next act = some r ∧ Settled limit r)
    {result : Outcome × Store} (hresult : Settled limit result) :
    ∃ r, takeUp next scope work result = some r ∧ Settled limit r := by
  obtain ⟨outcome, s⟩ := result
  cases outcome with
  | value v =>
      refine hnext _ (actSends_resume Selector.arity_of_isBounded hresult.code hwork ?_ ?_ v)
      · exact fun _ hlater => hlater
      · exact fun hloop => absurd hloop hwork.not_isLoop
  | failure e =>
      rw [takeUp]
      split_ifs with hguarded
      · exact hnext _ (actSends_recover hresult.code (fun _ hlater => hlater) hguarded e)
      · exact ⟨_, rfl, settled_failure hresult.code e⟩
  | crash c => exact ⟨_, rfl, hresult⟩

/-- A task comes to an end if what it requests does: each request has a lower rank than the one before. -/
theorem exists_settle
    (hdeeper : ¬limit.isReached depth = true → ∀ n inner s, s.AllSends Selector.isBounded →
      n.allSends Selector.isBounded = true →
      ∃ r, evaluate limit (depth + 1) (.node n) inner s = some r ∧ Settled limit r)
    {bound : Nat ×ₗ Nat} {act : Action × Store}
    (hact : ActSends Selector.isBounded (fun work => work.rank < bound) act) :
    ∃ r, limit.settle depth task scope act = some r ∧ Settled limit r := by
  induction bound using WellFoundedLT.induction generalizing act with
  | ind bound ih =>
      obtain ⟨action, s⟩ := act
      cases action with
      | finish v => exact ⟨(.value v, s), by rw [Limit.settle], settled_value hact v⟩
      | fail f => exact ⟨(.failure (stamp task f), s), by rw [Limit.settle], settled_failure hact _⟩
      | crash c =>
          refine ⟨_, by rw [Limit.settle], hact.1, ?_⟩
          rintro c' ⟨⟩
          exact .inl hact.2
      | request n inner work =>
          obtain ⟨hs, hn, hwork, hrank⟩ := hact
          obtain ⟨result, hresult, hsettled⟩ : ∃ result,
              (if limit.isReached depth then some (refused limit depth n s)
                else evaluate limit (depth + 1) (.node n) inner s) = some result ∧
              Settled limit result := by
            split_ifs with hreached
            · exact ⟨_, rfl, settled_refused hs⟩
            · exact hdeeper hreached n inner s hs hn
          rw [settle_request, hresult]
          exact exists_takeUp hwork (fun act hact => ih work.rank hrank hact) hsettled

/-- Every evaluation of code without loops ends, at every depth. -/
theorem exists_evaluate (limit : Limit) (depth : Nat) (scope : Scope) {n : Node} {s : Store}
    (hs : s.AllSends Selector.isBounded) (hn : n.allSends Selector.isBounded = true) :
    ∃ r, evaluate limit depth (.node n) scope s = some r ∧ Settled limit r := by
  -- the induction is on the levels that are left
  induction hroom : limit.room depth using Nat.strongRecOn generalizing depth scope n s with
  | ind room ih =>
      refine exists_settle ?_ (actSends_beginNode hs hn fun _ hwork => hwork)
      intro hreached m inner s' hs' hm
      exact ih _ (hroom ▸ Limit.room_succ_lt hreached) (depth + 1) inner hs' hm rfl

end Settling

end Machine

namespace Interpreter

open Parley.Machine

/-- Code in which every send carries as many arguments as its selector takes and none is a loop. -/
def IsLoopless (n : Node) : Prop := n.allSends Selector.isBounded = true

theorem exists_execute (limit : Limit) {n : Node} {s : Store} (hs : s.AllSends Selector.isBounded)
    (hn : IsLoopless n) : ∃ fuel r, execute limit fuel (.node n) s = some r ∧ Settled limit r := by
  obtain ⟨r, hr, hsettled⟩ := exists_evaluate limit 0 .global hs hn
  obtain ⟨fuel, hrun⟩ := exists_run_of_evaluate hr
  exact ⟨fuel, r, hrun, hsettled⟩

/-- Between statements all code of the store is without loops. -/
theorem kept_allSends : Kept IsLoopless (Store.AllSends Selector.isBounded) :=
  kept_code Selector.arity_of_isBounded

/-! Programs -/

theorem runStatements_mono {limit : Limit} {fuel : Nat} {latest : Value} {ns : List Node} {s : Store}
    {r : Ending × Store} (h : runStatements limit fuel latest ns s = some r) (more : Nat) :
    runStatements limit (fuel + more) latest ns s = some r := by
  induction ns generalizing latest s with
  | nil => exact h
  | cons n ns ih =>
      rw [runStatements] at h ⊢
      cases hexecute : execute limit fuel (.node n) s with
      | none =>
          rw [hexecute] at h
          cases h
      | some q =>
          have hmore : execute limit (fuel + more) (.node n) s = some q := run_mono hexecute more
          rw [hexecute] at h
          rw [hmore]
          obtain ⟨outcome, s'⟩ := q
          cases outcome with
          | value v => exact ih h
          | failure f => cases f <;> exact h
          | crash c => exact h

/-- Statements without loops run to an ending. -/
theorem exists_runStatements (limit : Limit) {ns : List Node} (hns : ∀ n ∈ ns, IsLoopless n)
    {s : Store} (hs : s.AllSends Selector.isBounded) (latest : Value) :
    ∃ fuel r, runStatements limit fuel latest ns s = some r := by
  induction ns generalizing s latest with
  | nil => exact ⟨0, _, rfl⟩
  | cons n ns ih =>
      obtain ⟨hn, hns⟩ := List.forall_mem_cons.mp hns
      obtain ⟨fuel, ⟨outcome, s'⟩, hexecute, hsettled⟩ := exists_execute limit hs hn
      match outcome with
      | .value v =>
          obtain ⟨fuel', r, hrest⟩ := ih hns hsettled.code v
          refine ⟨fuel + fuel', r, ?_⟩
          have hmore : execute limit (fuel + fuel') (.node n) s = some (.value v, s') :=
            run_mono hexecute fuel'
          rw [runStatements, hmore, Nat.add_comm]
          exact runStatements_mono hrest fuel
      | .failure (.signal v home) => exact ⟨fuel, _, by rw [runStatements, hexecute]⟩
      | .failure (.error e site) => exact ⟨fuel, _, by rw [runStatements, hexecute]⟩
      | .crash c => exact ⟨fuel, _, by rw [runStatements, hexecute]⟩

/-- How a statement without loops ends: with a value, an error, a return out of the program, which may have
been meant for a method that an earlier crash left alive, or a text or comparison without end; without a
limit also with the first request. -/
def IsOrderly (limit : Limit) (before after : Store) : Outcome → Prop
  | .value _ => True
  | .failure (.error _ _) => True
  | .failure (.signal _ home) => ∀ r, home = some r → before.Alive r
  | .crash .bottomless => after.Endless
  | .crash .missingArgument => False
  | .crash .missingLimit => limit = .unset

theorem isOrderly_of_crash {limit : Limit} {fuel : Nat} {n : Node} {s s' : Store}
    {outcome : Outcome} (hs : s.HomesExist) (h : execute limit fuel (.node n) s = some (outcome, s'))
    (hcrash : ∀ c, outcome = .crash c → IsCrash limit s' c) : IsOrderly limit s s' outcome := by
  match outcome with
  | .value v => trivial
  | .failure (.error e site) => trivial
  | .failure (.signal v home) =>
      rintro r rfl
      obtain ⟨c, hsafely⟩ := endsSafely_of_execute hs h
      exact hsafely.signal v r rfl
  | .crash c =>
      rcases hcrash c rfl with ⟨rfl, hendless⟩ | ⟨rfl, hlimit⟩
      · exact hendless
      · exact hlimit

theorem isOrderly_of_execute {limit : Limit} {fuel : Nat} {n : Node} {s s' : Store}
    {outcome : Outcome} (hs : s.HomesExist) (h : execute limit fuel (.node n) s = some (outcome, s'))
    (hsettled : Settled limit (outcome, s')) : IsOrderly limit s s' outcome :=
  isOrderly_of_crash hs h hsettled.crash

/-- In every session without loops, and whatever the limit, every program runs to an ending, and every
statement that it comes to ends in order. -/
theorem ends_without_loops (limit : Limit) (program : Node) (s : Store)
    (hs : Session IsLoopless s) (hprogram : ∀ n ∈ program.statements, IsLoopless n) :
    (∃ fuel ending s', runProgram limit fuel program s = some (ending, s')) ∧
    ∀ before n after fuel v s', program.statements = before ++ n :: after →
      runStatements limit fuel .nil before s = some (.completed v, s') →
      ∃ fuel' outcome s'', execute limit fuel' (.node n) s' = some (outcome, s'') ∧
        IsOrderly limit s' s'' outcome := by
  refine ⟨?_, ?_⟩
  · obtain ⟨fuel, ⟨ending, s'⟩, hrun⟩ :=
      exists_runStatements limit hprogram (kept_allSends.session hs) .nil
    exact ⟨fuel, ending, s', hrun⟩
  · intro before n after fuel v s' hstatements hbefore
    have hbegins : Begins IsLoopless limit n s' := .intro hs hprogram hstatements hbefore
    obtain ⟨hn, hcode⟩ := kept_allSends.begins hbegins
    obtain ⟨fuel', ⟨outcome, s''⟩, hexecute, hsettled⟩ := exists_execute limit hcode hn
    refine ⟨fuel', outcome, s'', hexecute, ?_⟩
    exact isOrderly_of_execute ((kept_homesExist _).begins hbegins).2 hexecute hsettled

/-- Statements that add to a list while going through it, and make a block that calls itself, and once
more whenever that fails. -/
def retryingProgram : List Node :=
  [.store none (.define "items" "=") (.list none [.atom none (.integer 1), .atom none .nil]),
    .send none (.atom none (.variable "items")) "do:"
      [.block none ["x"] none
        [.send none (.atom none (.variable "items")) "add:" [.atom none (.variable "x")]]],
    .store none (.define "again" "=")
      (.block none ["e"] none
        [.send none
          (.block none [] none
            [.send none (.atom none (.variable "again")) "value:" [.atom none (.variable "e")]])
          "catch:" [.atom none (.variable "again")]])]

def retryingCall : Node :=
  .send none (.atom none (.variable "again")) "value:" [.atom none (.variable "items")]

/-- With a stack of the usual depth the failures are too many to meet them one by one, yet the program runs
to an ending, and the call of the block ends in order. -/
theorem ends_without_loops_retrying :
    (∃ fuel ending s', runProgram defaultLimit fuel
      (.suite none .program (retryingProgram ++ [retryingCall])) (.initial false) = some (ending, s')) ∧
    ∃ v s fuel outcome s',
      runStatements defaultLimit 60 .nil retryingProgram (.initial false) = some (.completed v, s) ∧
      execute defaultLimit fuel (.node retryingCall) s = some (outcome, s') ∧
      IsOrderly defaultLimit s s' outcome := by
  have hloopless : ∀ n ∈ retryingProgram ++ [retryingCall], IsLoopless n := by
    have hall : (retryingProgram ++ [retryingCall]).all (Node.allSends Selector.isBounded) = true := by
      decide
    exact fun n hn => List.all_eq_true.mp hall n hn
  obtain ⟨hends, horderly⟩ := ends_without_loops defaultLimit
    (.suite none .program (retryingProgram ++ [retryingCall])) _ (.fresh false) hloopless
  refine ⟨hends, ?_⟩
  have hrun : (storeAfter? defaultLimit 60 false retryingProgram).isSome = true := by decide +kernel
  obtain ⟨s, hs⟩ := Option.isSome_iff_exists.mp hrun
  obtain ⟨v, hbefore⟩ := exists_of_storeAfter? hs
  obtain ⟨fuel, outcome, s', hexecute, houtcome⟩ :=
    horderly retryingProgram retryingCall [] 60 v s rfl hbefore
  exact ⟨v, s, fuel, outcome, s', hbefore, hexecute, houtcome⟩

/-! A ring of instances -/

/-- Statements that make an instance with a method to set its variable. -/
def ringProgram : List Node :=
  [.send none (.atom none (.variable "Object")) "subclass name: fields:"
      [.atom none (.symbol "A"), .list none [.atom none (.symbol "x")]],
    .send none (.atom none (.variable "A")) "def: do:"
      [.atom none (.symbol "set"), .block none ["v"] none
        [.store none (.slot "x") (.atom none (.variable "v"))]],
    .store none (.define "a" "=") (.send none (.atom none (.variable "A")) "new" [])]

/-- The variable of the instance is set to the instance itself. -/
def ringCall : Node :=
  .send none (.atom none (.variable "a")) "set v:" [.atom none (.variable "a")]

/-- Once the instance holds itself, it has no log text: the second send of it while a log is kept ends the
run, and no list contains itself. -/
theorem exists_ring_crash {P : Node → Prop} (hP : ∀ n ∈ ringProgram ++ [ringCall], P n) :
    ∃ s s', Begins P (.frames 20) ringCall s ∧
      execute (.frames 20) 60 (.node ringCall) s = some (.crash .bottomless, s') ∧ ¬s'.Circular := by
  have hrun : runsTo (.frames 20) 60 true (ringProgram ++ [ringCall]) ringCall (fun outcome s' =>
      crashOf? outcome = some .bottomless &&
        s'.lists.all fun items => items.all fun v => v.kind ≠ .list) = true := by decide +kernel
  obtain ⟨_, s, outcome, s', hbefore, hexecute, hcheck⟩ := exists_of_runsTo hrun
  obtain ⟨hcrash, hflat⟩ := (Bool.and_eq_true _ _).mp hcheck
  obtain rfl := eq_crash_of_crashOf? (of_decide_eq_true hcrash)
  have hcall : P ringCall := hP ringCall (List.mem_append_right _ List.mem_cons_self)
  have hbegins : Begins P (.frames 20) ringCall s :=
    .of_fresh (List.forall_mem_append.mpr ⟨hP, List.forall_mem_singleton.mpr hcall⟩) hbefore
  exact ⟨s, s', hbegins, hexecute, Store.not_circular_of_flat hflat⟩

/-- Without loops, too, a run can end although no list contains itself. -/
theorem crash_without_loops : ∃ s s', Begins IsLoopless (.frames 20) ringCall s ∧
    execute (.frames 20) 60 (.node ringCall) s = some (.crash .bottomless, s') ∧ ¬s'.Circular := by
  have hall : (ringProgram ++ [ringCall]).all (Node.allSends Selector.isBounded) = true := by decide
  exact exists_ring_crash fun n hn => List.all_eq_true.mp hall n hn

end Interpreter

end Parley
