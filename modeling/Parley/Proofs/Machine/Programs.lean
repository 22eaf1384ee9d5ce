import Parley.Proofs.Machine.Limits
import Parley.Proofs.Machine.Termination

/-! A program as one task. Its statements then run above the task of the program, one frame deeper than
alone, and the task takes up their values. As long as no request is refused, the tasks below a stack
only wait: what runs above them runs as it does alone. So it makes no difference whether a program runs
as one task or statement by statement. -/

namespace Parley

namespace Machine

/-- A state with further tasks that wait below its stack. -/
def Config.above (below : List Suspended) (c : Config) : Config :=
  { c with stack := c.stack ++ below, depth := c.depth + below.length }

/-- What a step led to, with further tasks that wait below: an end is handed to them. -/
def above (below : List Suspended) : Config ⊕ (Outcome × Store) → Config ⊕ (Outcome × Store)
  | .inl c => .inl (c.above below)
  | .inr r => deliver below below.length r

/-- No stack overflow is raised from what a step led to. -/
def SparedFrom (limit : Limit) (x : Config ⊕ (Outcome × Store)) : Prop :=
  ∀ c, x = .inl c → Spared limit c

theorem Spared.advance {limit : Limit} {c : Config} (h : Spared limit c) :
    SparedFrom limit (advance limit c) :=
  fun _ hstep => h.step hstep

theorem SparedFrom.overflows {limit : Limit} {x : Config ⊕ (Outcome × Store)} (h : SparedFrom limit x)
    {c : Config} (hx : x = .inl c) : c.overflows = false :=
  h c hx c .refl

/-- Requests that no limit refuses are served alike at every depth. -/
theorem carryOut_frames_of_served {count : Int} {task : Task} {scope : Scope} {stack : List Suspended}
    {depth : Nat} {n : Node} {inner : Scope} {work : Work} {s : Store}
    (h : SparedFrom (.frames count)
      (carryOut (.frames count) task scope stack depth (.request n inner work, s))) :
    carryOut (.frames count) task scope stack depth (.request n inner work, s) =
      .inl ⟨.start (.node n) inner, ⟨task, scope, work⟩ :: stack, depth + 1, s⟩ := by
  by_cases hreached : (Limit.frames count).isReached depth = true
  · have hrefused := h.overflows (carryOut_of_isReached hreached)
    cases hrefused
  · exact carryOut_of_not_isReached hreached

section Above

variable {d d' : Int} {below : List Suspended}

theorem carryOut_above {task : Task} {scope : Scope} {stack : List Suspended} {depth : Nat}
    {act : Action × Store}
    (h : SparedFrom (.frames d) (carryOut (.frames d) task scope stack depth act))
    (h' : SparedFrom (.frames d')
      (carryOut (.frames d') task scope (stack ++ below) (depth + below.length) act)) :
    carryOut (.frames d') task scope (stack ++ below) (depth + below.length) act =
      above below (carryOut (.frames d) task scope stack depth act) := by
  obtain ⟨action, s⟩ := act
  cases action with
  | finish v => rfl
  | fail f => rfl
  | crash c => rfl
  | request n inner work =>
      rw [carryOut_frames_of_served h, carryOut_frames_of_served h', above, Config.above,
        Nat.add_right_comm, List.cons_append]

/-- A step above waiting tasks is the step without them, until the stack is empty and they are due. -/
theorem advance_above {c : Config} (hdepth : c.depth = c.stack.length) (h : Spared (.frames d) c)
    (h' : Spared (.frames d') (c.above below)) :
    advance (.frames d') (c.above below) = above below (advance (.frames d) c) ∨
      ∃ r, advance (.frames d) c = .inr r ∧ deliver below below.length r = .inl (c.above below) := by
  have hnext := h.advance
  have hnext' := h'.advance
  obtain ⟨control, stack, depth, s⟩ := c
  obtain rfl : depth = stack.length := hdepth
  cases control with
  | start task scope => exact .inl (carryOut_above hnext hnext')
  | value v =>
      cases stack with
      | nil =>
          refine .inr ⟨(.value v, s), rfl, ?_⟩
          rw [deliver, Config.above, List.nil_append, List.length_nil, Nat.zero_add]
      | cons f stack =>
          have hbelow : stack.length + 1 + below.length - 1 = stack.length + below.length := by omega
          simp only [Config.above, List.cons_append, List.length_cons, advance, hbelow,
            Nat.add_sub_cancel] at hnext hnext' ⊢
          exact .inl (carryOut_above hnext hnext')
  | failure e =>
      cases stack with
      | nil =>
          refine .inr ⟨(.failure e, s), rfl, ?_⟩
          rw [deliver, Config.above, List.nil_append, List.length_nil, Nat.zero_add]
      | cons f stack =>
          have hbelow : stack.length + 1 + below.length - 1 = stack.length + below.length := by omega
          simp only [Config.above, List.cons_append, List.length_cons, advance, hbelow,
            Nat.add_sub_cancel] at hnext hnext' ⊢
          refine .inl ?_
          split_ifs at hnext hnext' ⊢ with hguarded
          · exact carryOut_above hnext hnext'
          · rfl

/-- What a run comes to is handed to the tasks that wait below it. -/
theorem leads_above_of_run {fuel : Nat} {c : Config} {r : Outcome × Store}
    (hc : c.Within (.frames d)) (h : Spared (.frames d) c) (h' : Spared (.frames d') (c.above below))
    (hrun : run (.frames d) fuel c = some r) :
    Leads (.frames d') (.inl (c.above below)) (deliver below below.length r) ∧
      SparedFrom (.frames d') (deliver below below.length r) := by
  induction fuel generalizing c with
  | zero => cases hrun
  | succ fuel ih =>
      rw [run_succ] at hrun
      have hnext' := h'.advance
      rcases advance_above hc.depth h h' with hstep | ⟨r', hend, hdue⟩
      · have hlead : Leads (.frames d') (.inl (c.above below)) _ := .advance (c.above below)
        rw [hstep] at hnext' hlead
        cases hadvance : advance (.frames d) c with
        | inl c₁ =>
            rw [hadvance] at hrun hnext' hlead
            obtain ⟨hleads, hspared⟩ := ih (hc.step hadvance) (h.step hadvance) (hnext' _ rfl) hrun
            exact ⟨hlead.trans hleads, hspared⟩
        | inr r' =>
            rw [hadvance] at hrun hnext' hlead
            cases hrun
            exact ⟨hlead, hnext'⟩
      · rw [hend] at hrun
        cases hrun
        rw [hdue]
        exact ⟨.refl _, fun _ hc' => Sum.inl.inj hc' ▸ h'⟩

/-- What runs to an end above waiting tasks does so without them. -/
theorem exists_run_of_run_above {fuel : Nat} {c : Config} {r : Outcome × Store}
    (hc : c.Within (.frames d)) (h : Spared (.frames d) c) (h' : Spared (.frames d') (c.above below))
    (hrun : run (.frames d') fuel (c.above below) = some r) :
    ∃ fuel r', run (.frames d) fuel c = some r' := by
  induction fuel generalizing c with
  | zero => cases hrun
  | succ fuel ih =>
      cases hadvance : advance (.frames d) c with
      | inr r' => exact ⟨1, r', by rw [run, hadvance]⟩
      | inl c₁ =>
          rcases advance_above hc.depth h h' with hstep | ⟨r', hend, -⟩
          · have hnext' := h'.advance
            rw [run_succ, hstep, hadvance] at hrun
            rw [hstep, hadvance] at hnext'
            obtain ⟨fuel, r', hr'⟩ := ih (hc.step hadvance) (h.step hadvance) (hnext' _ rfl) hrun
            refine ⟨fuel + 1, r', ?_⟩
            rw [run_succ, hadvance]
            exact hr'
          · rw [hadvance] at hend
            cases hend

end Above

end Machine

namespace Interpreter

open Parley.Machine

section Statements

variable {d d' : Int} {task : Task} {n : Node} {ns : List Node} {latest : Value} {s : Store}

/-- A task goes on with statements in the global scope, on an empty stack. -/
def proceed (limit : Limit) (task : Task) (latest : Value) (ns : List Node) (s : Store) :
    Config ⊕ (Outcome × Store) :=
  carryOut limit task .global [] 0 (nextStatement s .global latest ns)

/-- The first of the statements starts above the task, unless its request is refused. -/
theorem proceed_cons (h : SparedFrom (.frames d) (proceed (.frames d) task latest (n :: ns) s)) :
    proceed (.frames d) task latest (n :: ns) s =
      .inl ((Config.initial (.node n) .global s).above [⟨task, .global, .statements ns⟩]) :=
  carryOut_frames_of_served h

/-- What a statement comes to above the task, the task takes up. -/
theorem leads_proceed (h : SparedFrom (.frames d) (proceed (.frames d) task latest (n :: ns) s))
    (hn : Spared (.frames d') (.initial (.node n) .global s)) {fuel : Nat} {r : Outcome × Store}
    (hrun : execute (.frames d') fuel (.node n) s = some r) :
    Leads (.frames d) (proceed (.frames d) task latest (n :: ns) s)
        (deliver [⟨task, .global, .statements ns⟩] 1 r) ∧
      SparedFrom (.frames d) (deliver [⟨task, .global, .statements ns⟩] 1 r) := by
  have hstarts := proceed_cons h
  rw [hstarts] at h ⊢
  exact leads_above_of_run (.initial _ _ _ _) hn (h _ rfl) hrun

theorem leads_proceed_of_value {v : Value} {limit : Limit} :
    Leads limit (deliver [⟨task, .global, .statements ns⟩] 1 (.value v, s))
      (proceed limit task v ns s) :=
  Leads.advance _

theorem sparedFrom_proceed_of_value {v : Value} {limit : Limit}
    (h : SparedFrom limit (deliver [⟨task, .global, .statements ns⟩] 1 (.value v, s))) :
    SparedFrom limit (proceed limit task v ns s) :=
  (h _ rfl).advance

/-- Statements that run to an end one by one do so as parts of a task. -/
theorem exists_runOn_of_runStatements (hs : SparedEach (.frames d') ns s)
    (h : SparedFrom (.frames d) (proceed (.frames d) task latest ns s)) {fuel : Nat}
    {r : Ending × Store} (hrun : runStatements (.frames d') fuel latest ns s = some r) :
    ∃ fuel r', runOn (.frames d) fuel (proceed (.frames d) task latest ns s) = some r' ∧
      r = conclude r' := by
  induction ns generalizing latest s with
  | nil =>
      cases hrun
      exact ⟨1, (.value latest, s), rfl, rfl⟩
  | cons n ns ih =>
      rw [runStatements_cons] at hrun
      obtain ⟨⟨outcome, s'⟩, hn, hrest⟩ := Option.bind_eq_some_iff.mp hrun
      obtain ⟨hleads, hspared⟩ := leads_proceed h hs.head hn
      cases outcome with
      | value v =>
          obtain ⟨fuel', r', hr', hconclude⟩ :=
            ih (hs.tail hn) (sparedFrom_proceed_of_value hspared) hrest
          obtain ⟨k, hk⟩ := hleads.trans leads_proceed_of_value
          exact ⟨fuel' + k, r', (hk fuel').trans hr', hconclude⟩
      | failure f =>
          cases hrest
          obtain ⟨k, hk⟩ := hleads
          exact ⟨2 + k, (.failure f, s'), hk 2, rfl⟩
      | crash c =>
          cases hrest
          obtain ⟨k, hk⟩ := hleads
          exact ⟨0 + k, (.crash c, s'), hk 0, rfl⟩

/-- Statements that run to an end as parts of a task do so one by one. -/
theorem exists_runStatements_of_runOn (hs : SparedEach (.frames d') ns s)
    (h : SparedFrom (.frames d) (proceed (.frames d) task latest ns s)) {fuel : Nat}
    {r : Outcome × Store}
    (hrun : runOn (.frames d) fuel (proceed (.frames d) task latest ns s) = some r) :
    ∃ fuel r', runStatements (.frames d') fuel latest ns s = some r' := by
  induction ns generalizing latest s with
  | nil => exact ⟨0, _, rfl⟩
  | cons n ns ih =>
      obtain ⟨fuel', ⟨outcome, s'⟩, hn⟩ : ∃ fuel' r', execute (.frames d') fuel' (.node n) s = some r' := by
        have hstarts := proceed_cons h
        rw [hstarts] at hrun h
        exact exists_run_of_run_above (.initial _ _ _ _) hs.head (h _ rfl) hrun
      obtain ⟨hleads, hspared⟩ := leads_proceed h hs.head hn
      cases outcome with
      | value v =>
          have hrest := (hleads.trans leads_proceed_of_value).runOn_eq hrun
          obtain ⟨fuel'', r', hr'⟩ := ih (hs.tail hn) (sparedFrom_proceed_of_value hspared) hrest
          refine ⟨fuel' + fuel'', r', ?_⟩
          have hn' : execute (.frames d') (fuel' + fuel'') (.node n) s = some (.value v, s') :=
            run_mono hn fuel''
          rw [runStatements_cons, hn', Option.bind_some, Nat.add_comm]
          exact runStatements_mono hr' fuel'
      | failure f => exact ⟨fuel', conclude (.failure f, s'), by rw [runStatements_cons, hn]; rfl⟩
      | crash c => exact ⟨fuel', conclude (.crash c, s'), by rw [runStatements_cons, hn]; rfl⟩

end Statements

/-- A program that runs as one task and one that runs statement by statement come to the same, whatever
the limits are under which neither overflows its stack. A value of the task is that of a program which
completes, an error is the one that a program fails with at the same node, a return is one out of the
program, and the stores differ in nothing but the line that the end of a program leaves in the log. -/
theorem program_as_task (d d' : Int) (origin : Option Origin) (statements : List Node) (s : Store)
    (htask : Spared (.frames d) (.initial (.node (.suite origin .program statements)) .global s))
    (hprogram : SparedEach (.frames d') statements s) (r : Ending × Store) :
    (∃ fuel, runProgram (.frames d') fuel (.suite origin .program statements) s = some r) ↔
      ∃ fuel r', execute (.frames d) fuel (.node (.suite origin .program statements)) s = some r' ∧
        r = conclude r' := by
  have hfrom : SparedFrom (.frames d)
      (proceed (.frames d) (.node (.suite origin .program statements)) .nil statements s) :=
    htask.advance
  constructor
  · rintro ⟨fuel, hrun⟩
    obtain ⟨fuel', r', hr', hconclude⟩ := exists_runOn_of_runStatements hprogram hfrom hrun
    exact ⟨fuel' + 1, r', (run_succ _ _ _).trans hr', hconclude⟩
  · rintro ⟨fuel, r', hrun, rfl⟩
    cases fuel with
    | zero => cases hrun
    | succ fuel =>
        have hrun' := (run_succ _ _ _).symm.trans hrun
        obtain ⟨fuel', r, hr⟩ := exists_runStatements_of_runOn hprogram hfrom hrun'
        obtain ⟨fuel'', r'', hr'', rfl⟩ := exists_runOn_of_runStatements hprogram hfrom hr
        obtain rfl := runOn_unique hrun' hr''
        exact ⟨fuel', hr⟩

/-- A program that binds a name, returns its value and goes on with what is never run. -/
def earlyReturn : Node :=
  .suite none .program
    [.store none (.define "x" ":=") (.atom none (.integer 3)),
      .answer none (.atom none (.variable "x")),
      .atom none (.variable "y")]

/-- The value that a program returned, if it did. -/
def returnedBy? : Ending → Option Value
  | .returned v => some v
  | _ => none

theorem eq_returned_of_returnedBy? {ending : Ending} {v : Value} (h : returnedBy? ending = some v) :
    ending = .returned v := by
  cases ending with
  | returned w => rw [Option.some.inj h]
  | _ => cases h

/-- As a task the program takes one frame more than its statements do, and it returns out of both. -/
theorem program_as_task_returning : ∃ fuel s',
    runProgram (.frames 1) fuel earlyReturn (.initial false) = some (.returned (.integer 3), s') := by
  have hany : (execute (.frames 2) 10 (.node earlyReturn) (.initial false)).any (fun r =>
      returnedBy? (endingOf r.1) == some (.integer 3)) = true := by decide +kernel
  have htask : sparedWithin (.frames 2) 10
      (.initial (.node earlyReturn) .global (.initial false)) = true := by decide +kernel
  have hprogram : sparedEachWithin (.frames 1) 10 earlyReturn.statements (.initial false) = true := by
    decide +kernel
  obtain ⟨r, hrun, hreturns⟩ := (Option.any_eq_true _ _).mp hany
  have hending := eq_returned_of_returnedBy? (eq_of_beq hreturns)
  obtain ⟨fuel, hends⟩ := (program_as_task 2 1 none earlyReturn.statements (.initial false)
    (spared_of_sparedWithin htask) (sparedEach_of_sparedEachWithin hprogram) _).mpr ⟨10, r, hrun, rfl⟩
  rw [conclude, hending] at hends
  exact ⟨fuel, _, hends⟩

end Interpreter

end Parley
