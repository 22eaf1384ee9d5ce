import Mathlib.Logic.Relation
import Mathlib.Tactic.Common
import Parley.Machine.Run

/-! What one step of the machine can do, and the states that a run passes. Every later fact about runs
starts from `carryOut_cases` and `advance_cases`. -/

namespace Parley.Machine

/-- A step that does not end the run. -/
def Steps (limit : Limit) (c c' : Config) : Prop := advance limit c = .inl c'

/-- The states that a run passes from a state on. -/
def Reaches (limit : Limit) : Config → Config → Prop := Relation.ReflTransGen (Steps limit)

/-- An action is a value, a failure, or a request that starts a new task or fails at the limit. -/
theorem carryOut_cases {limit : Limit} {task : Task} {scope : Scope} {stack : List Suspended}
    {depth : Nat} {act : Action × Store} {c : Config}
    (h : carryOut limit task scope stack depth act = .inl c) :
    (∃ v s, act = (.finish v, s) ∧ c = ⟨.value v, stack, depth, s⟩) ∨
    (∃ f s, act = (.fail f, s) ∧ c = ⟨.failure (stamp task f), stack, depth, s⟩) ∨
    ∃ n inner work s count, act = (.request n inner work, s) ∧ limit = .frames count ∧
      ((count ≤ depth ∧ c = ⟨.failure (.error (.stackOverflow count) (some (.node n))),
          ⟨task, scope, work⟩ :: stack, depth + 1,
          s.log ("oops.engine: stack overflow at depth " ++ toString depth)⟩) ∨
        (depth < count ∧
          c = ⟨.start (.node n) inner, ⟨task, scope, work⟩ :: stack, depth + 1, s⟩)) := by
  obtain ⟨action, s⟩ := act
  cases action with
  | finish v => exact .inl ⟨v, s, rfl, (Sum.inl.inj h).symm⟩
  | fail f => exact .inr (.inl ⟨f, s, rfl, (Sum.inl.inj h).symm⟩)
  | crash e => cases h
  | request n inner work =>
      cases limit with
      | unset => cases h
      | frames count =>
          refine .inr (.inr ⟨n, inner, work, s, count, rfl, rfl, ?_⟩)
          simp only [carryOut] at h
          split_ifs at h with hcount
          · exact .inl ⟨hcount, (Sum.inl.inj h).symm⟩
          · exact .inr ⟨by omega, (Sum.inl.inj h).symm⟩

/-- A step starts a task, hands a value or a failure to the task that waits for it, or drops a task
that takes no failures. -/
theorem advance_cases {limit : Limit} {c c' : Config} (h : Steps limit c c') :
    (∃ task scope stack depth s, c = ⟨.start task scope, stack, depth, s⟩ ∧
      carryOut limit task scope stack depth (begin s scope task) = .inl c') ∨
    (∃ v task scope work stack depth s, c = ⟨.value v, ⟨task, scope, work⟩ :: stack, depth, s⟩ ∧
      carryOut limit task scope stack (depth - 1) (resume s scope v work) = .inl c') ∨
    (∃ e task scope work stack depth s, c = ⟨.failure e, ⟨task, scope, work⟩ :: stack, depth, s⟩ ∧
      work.isGuarded = true ∧
      carryOut limit task scope stack (depth - 1) (recover s e work) = .inl c') ∨
    ∃ e task scope work stack depth s, c = ⟨.failure e, ⟨task, scope, work⟩ :: stack, depth, s⟩ ∧
      work.isGuarded = false ∧ c' = ⟨.failure e, stack, depth - 1, s⟩ := by
  obtain ⟨control, stack, depth, s⟩ := c
  cases control with
  | start task scope => exact .inl ⟨task, scope, stack, depth, s, rfl, h⟩
  | value v =>
      cases stack with
      | nil => cases h
      | cons f stack => exact .inr (.inl ⟨v, f.task, f.scope, f.work, stack, depth, s, rfl, h⟩)
  | failure e =>
      cases stack with
      | nil => cases h
      | cons f stack =>
          refine .inr (.inr ?_)
          cases hguarded : f.work.isGuarded with
          | true =>
              rw [Steps, advance, if_pos hguarded] at h
              exact .inl ⟨e, f.task, f.scope, f.work, stack, depth, s, rfl, hguarded, h⟩
          | false =>
              rw [Steps, advance, if_neg (by simp [hguarded])] at h
              refine .inr ⟨e, f.task, f.scope, f.work, stack, depth, s, rfl, hguarded, ?_⟩
              exact (Sum.inl.inj h).symm

/-- What ends the run is a crash, of the action or for the lack of a limit, and it leaves the store as the
action did. -/
theorem carryOut_ending_cases {limit : Limit} {task : Task} {scope : Scope} {stack : List Suspended}
    {depth : Nat} {act : Action × Store} {r : Outcome × Store}
    (h : carryOut limit task scope stack depth act = .inr r) :
    (∃ c s, act = (.crash c, s) ∧ r = (.crash c, s)) ∨
    ∃ n inner work s, act = (.request n inner work, s) ∧ limit = .unset ∧
      r = (.crash .missingLimit, s) := by
  obtain ⟨action, s⟩ := act
  cases action with
  | finish v => cases h
  | fail f => cases h
  | crash c => exact .inl ⟨c, s, rfl, (Sum.inr.inj h).symm⟩
  | request n inner work =>
      cases limit with
      | unset => exact .inr ⟨n, inner, work, s, rfl, rfl, (Sum.inr.inj h).symm⟩
      | frames count =>
          rw [carryOut] at h
          split_ifs at h

/-- A run ends with a value or failure that no task waits for, or while a task acts. -/
theorem advance_ending_cases {limit : Limit} {c : Config} {r : Outcome × Store}
    (h : advance limit c = .inr r) :
    (∃ v depth s, c = ⟨.value v, [], depth, s⟩ ∧ r = (.value v, s)) ∨
    (∃ e depth s, c = ⟨.failure e, [], depth, s⟩ ∧ r = (.failure e, s)) ∨
    (∃ task scope stack depth s, c = ⟨.start task scope, stack, depth, s⟩ ∧
      carryOut limit task scope stack depth (begin s scope task) = .inr r) ∨
    (∃ v task scope work stack depth s, c = ⟨.value v, ⟨task, scope, work⟩ :: stack, depth, s⟩ ∧
      carryOut limit task scope stack (depth - 1) (resume s scope v work) = .inr r) ∨
    ∃ e task scope work stack depth s, c = ⟨.failure e, ⟨task, scope, work⟩ :: stack, depth, s⟩ ∧
      work.isGuarded = true ∧
      carryOut limit task scope stack (depth - 1) (recover s e work) = .inr r := by
  obtain ⟨control, stack, depth, s⟩ := c
  cases control with
  | start task scope => exact .inr (.inr (.inl ⟨task, scope, stack, depth, s, rfl, h⟩))
  | value v =>
      cases stack with
      | nil => exact .inl ⟨v, depth, s, rfl, (Sum.inr.inj h).symm⟩
      | cons f stack =>
          exact .inr (.inr (.inr (.inl ⟨v, f.task, f.scope, f.work, stack, depth, s, rfl, h⟩)))
  | failure e =>
      cases stack with
      | nil => exact .inr (.inl ⟨e, depth, s, rfl, (Sum.inr.inj h).symm⟩)
      | cons f stack =>
          rw [advance] at h
          split_ifs at h with hguarded
          refine .inr (.inr (.inr (.inr ?_)))
          exact ⟨e, f.task, f.scope, f.work, stack, depth, s, rfl, hguarded, h⟩

/-- What holds at first and is kept by every step holds throughout a run. -/
theorem Reaches.invariant {limit : Limit} {P : Config → Prop}
    (hstep : ∀ c c', P c → Steps limit c c' → P c') {c c' : Config} (hc : P c)
    (h : Reaches limit c c') : P c' := by
  induction h with
  | refl => exact hc
  | tail _ hlast ih => exact hstep _ _ ih hlast

/-- A run that has ended came to a state whose step ended it. -/
theorem exists_reaches_of_run {limit : Limit} {fuel : Nat} {c : Config} {r : Outcome × Store}
    (h : run limit fuel c = some r) : ∃ c', Reaches limit c c' ∧ advance limit c' = .inr r := by
  induction fuel generalizing c with
  | zero => cases h
  | succ fuel ih =>
      rw [run] at h
      cases hstep : advance limit c with
      | inl c₁ =>
          rw [hstep] at h
          obtain ⟨c', hreaches, hend⟩ := ih h
          exact ⟨c', .head hstep hreaches, hend⟩
      | inr r' =>
          rw [hstep] at h
          cases h
          exact ⟨c, .refl, hstep⟩

/-- The message that a state sends next, and the scope of the send: the last operand has got its value. -/
inductive Config.Sends : Config → Scope → Value → String → List Value → Bool → Prop
  | bare {v : Value} {task : Task} {scope : Scope} {selector : String} {isSuper : Bool}
      {stack : List Suspended} {depth : Nat} {s : Store} :
      Sends ⟨.value v, ⟨task, scope, .receiver selector [] isSuper⟩ :: stack, depth, s⟩
        scope v selector [] isSuper
  | full {v receiver : Value} {task : Task} {scope : Scope} {selector : String} {done : List Value}
      {isSuper : Bool} {stack : List Suspended} {depth : Nat} {s : Store} :
      Sends ⟨.value v, ⟨task, scope, .argument receiver selector done [] isSuper⟩ :: stack, depth, s⟩
        scope receiver selector (v :: done).reverse isSuper

/-! Frames -/

/-- How deep frames may lie. -/
def Limit.deepest : Limit → Int
  | .frames count => max count 0
  | .unset => 0

/-- The depths of the frames that exist in a state: one for each suspended task, and one for a task that
is about to start. -/
def Config.frameDepths (c : Config) : List Nat :=
  match c.control with
  | .start _ _ => List.range (c.stack.length + 1)
  | _ => List.range c.stack.length

/-- The stack is as high as the depth says and holds no frame below the limit. -/
structure Config.Within (limit : Limit) (c : Config) : Prop where
  depth : c.depth = c.stack.length
  frames : ∀ d ∈ c.frameDepths, (d : Int) ≤ limit.deepest

theorem Config.Within.carryOut {limit : Limit} {task : Task} {scope : Scope}
    {stack : List Suspended} {depth : Nat} (hdepth : depth = stack.length)
    (hstack : (stack.length : Int) ≤ limit.deepest) {act : Action × Store} {c : Config}
    (h : carryOut limit task scope stack depth act = .inl c) : c.Within limit := by
  obtain ⟨v, s, -, rfl⟩ | ⟨f, s, -, rfl⟩ |
    ⟨n, inner, work, s, count, -, rfl, ⟨-, rfl⟩ | ⟨hcount, rfl⟩⟩ := carryOut_cases h
  · refine ⟨hdepth, ?_⟩
    intro d hd
    have hlt : d < stack.length := List.mem_range.mp hd
    omega
  · refine ⟨hdepth, ?_⟩
    intro d hd
    have hlt : d < stack.length := List.mem_range.mp hd
    omega
  · refine ⟨congrArg (· + 1) hdepth, ?_⟩
    intro d hd
    have hlt : d < stack.length + 1 := List.mem_range.mp hd
    omega
  · refine ⟨congrArg (· + 1) hdepth, ?_⟩
    intro d hd
    have hlt : d < stack.length + 1 + 1 := List.mem_range.mp hd
    have hmax : count ≤ Limit.deepest (.frames count) := Int.le_max_left count 0
    omega

theorem Config.Within.step {limit : Limit} {c c' : Config} (hc : c.Within limit)
    (h : Steps limit c c') : c'.Within limit := by
  obtain ⟨hdepth, hframes⟩ := hc
  obtain ⟨task, scope, stack, depth, s, rfl, h⟩ | ⟨v, task, scope, work, stack, depth, s, rfl, h⟩ |
    ⟨e, task, scope, work, stack, depth, s, rfl, -, h⟩ |
    ⟨e, task, scope, work, stack, depth, s, rfl, -, rfl⟩ := advance_cases h
  · exact .carryOut hdepth (hframes _ (List.mem_range.mpr (Nat.lt_succ_self _))) h
  · have hbelow : depth - 1 = stack.length := Nat.sub_eq_of_eq_add hdepth
    exact .carryOut hbelow (hframes _ (List.mem_range.mpr (Nat.lt_succ_self _))) h
  · have hbelow : depth - 1 = stack.length := Nat.sub_eq_of_eq_add hdepth
    exact .carryOut hbelow (hframes _ (List.mem_range.mpr (Nat.lt_succ_self _))) h
  · refine ⟨Nat.sub_eq_of_eq_add hdepth, fun d hd => hframes d (List.mem_range.mpr ?_)⟩
    exact Nat.lt_succ_of_lt (List.mem_range.mp hd)

theorem Config.Within.initial (limit : Limit) (task : Task) (scope : Scope) (s : Store) :
    (Config.initial task scope s).Within limit := by
  refine ⟨rfl, ?_⟩
  intro d hd
  obtain rfl : d = 0 := Nat.lt_one_iff.mp (List.mem_range.mp hd)
  cases limit with
  | frames count => exact Int.le_max_right count 0
  | unset => exact Int.le_refl 0

/-- No frame of a run lies deeper than the limit allows. -/
theorem Reaches.frameDepths_le {limit : Limit} {task : Task} {scope : Scope} {s : Store} {c : Config}
    (h : Reaches limit (.initial task scope s) c) : ∀ d ∈ c.frameDepths, (d : Int) ≤ limit.deepest :=
  (h.invariant (fun _ _ => Config.Within.step) (.initial limit task scope s)).frames

end Parley.Machine
