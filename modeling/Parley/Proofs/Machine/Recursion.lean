import Parley.Proofs.Machine.Steps

/-! Recursive evaluation, and that the machine does the same with its stack. Here a request is a nested
evaluation one level deeper, and what comes out of it goes back to the task that made the request. The
machine ends exactly when this recursion does, with the same outcome and store, and its stack never
grows beyond the limit. -/

namespace Parley.Machine

/-- Whether a task at a depth can request nothing any more. -/
def Limit.isReached : Limit → Nat → Bool
  | .frames count, depth => count ≤ depth
  | .unset, _ => true

/-- What becomes of a request that is not served: it fails for the requested node, and without a limit
it ends the run. -/
def refused (limit : Limit) (depth : Nat) (n : Node) (s : Store) : Outcome × Store :=
  match limit with
  | .frames count =>
    (.failure (.error (.stackOverflow count) (some (.node n))),
      s.log ("oops.engine: stack overflow at depth " ++ toString depth))
  | .unset => (.crash .missingLimit, s)

/-- Carries out the actions of a task at a depth to the end. A request is evaluated one level deeper,
unless the limit is reached. A value is taken up by the task, a failure only if the task asked for
failures; anything else goes outward. -/
def Limit.settle (limit : Limit) (depth : Nat) (task : Task) (scope : Scope) (act : Action × Store) :
    Option (Outcome × Store) :=
  match act with
  | (.finish v, s) => some (.value v, s)
  | (.fail f, s) => some (.failure (stamp task f), s)
  | (.crash c, s) => some (.crash c, s)
  | (.request n inner work, s) =>
    (if limit.isReached depth then some (refused limit depth n s)
      else limit |>.settle (depth + 1) (.node n) inner (begin s inner (.node n))) >>= fun
    | (.value v, s) => limit |>.settle depth task scope (resume s scope v work)
    | (.failure e, s) =>
      if work.isGuarded then limit |>.settle depth task scope (recover s e work)
      else some (.failure e, s)
    | (.crash c, s) => some (.crash c, s)
partial_fixpoint

theorem settle_finish (limit : Limit) (depth : Nat) (task : Task) (scope : Scope) (v : Value)
    (s : Store) : limit.settle depth task scope (.finish v, s) = some (.value v, s) := by
  rw [Limit.settle]

theorem settle_fail (limit : Limit) (depth : Nat) (task : Task) (scope : Scope) (f : Failure)
    (s : Store) : limit.settle depth task scope (.fail f, s) = some (.failure (stamp task f), s) := by
  rw [Limit.settle]

/-- Evaluates a task at a depth. -/
def evaluate (limit : Limit) (depth : Nat) (task : Task) (scope : Scope) (s : Store) :
    Option (Outcome × Store) :=
  limit.settle depth task scope (begin s scope task)

/-! Runs from what a step led to -/

section Runs

variable {limit : Limit}

/-- Goes on from what a step led to. -/
def runOn (limit : Limit) (fuel : Nat) : Config ⊕ (Outcome × Store) → Option (Outcome × Store)
  | .inl c => run limit fuel c
  | .inr r => some r

theorem run_succ (limit : Limit) (fuel : Nat) (c : Config) :
    run limit (fuel + 1) c = runOn limit fuel (advance limit c) := by
  rw [run]
  cases advance limit c <;> rfl

/-- A run that has ended is not changed by more steps. -/
theorem run_mono {fuel : Nat} {c : Config} {r : Outcome × Store} (h : run limit fuel c = some r)
    (more : Nat) : run limit (fuel + more) c = some r := by
  induction fuel generalizing c with
  | zero => cases h
  | succ fuel ih =>
      rw [run_succ] at h
      rw [Nat.add_right_comm, run_succ]
      cases hstep : advance limit c with
      | inl c' => rw [hstep] at h; exact ih h
      | inr r' => rw [hstep] at h; exact h

theorem runOn_mono {fuel : Nat} {x : Config ⊕ (Outcome × Store)} {r : Outcome × Store}
    (h : runOn limit fuel x = some r) (more : Nat) : runOn limit (fuel + more) x = some r := by
  cases x with
  | inl c => exact run_mono h more
  | inr r' => exact h

/-- A run has one end, however many steps it may take. -/
theorem runOn_unique {x : Config ⊕ (Outcome × Store)} {fuel fuel' : Nat} {r r' : Outcome × Store}
    (h : runOn limit fuel x = some r) (h' : runOn limit fuel' x = some r') : r = r' := by
  have hmore := runOn_mono h fuel'
  rw [Nat.add_comm, runOn_mono h' fuel] at hmore
  exact (Option.some.inj hmore).symm

/-- From `x` on, the machine does after some steps what it does from `y` on. -/
def Leads (limit : Limit) (x y : Config ⊕ (Outcome × Store)) : Prop :=
  ∃ k, ∀ fuel, runOn limit (fuel + k) x = runOn limit fuel y

theorem Leads.refl (x : Config ⊕ (Outcome × Store)) : Leads limit x x := ⟨0, fun _ => rfl⟩

theorem Leads.trans {x y z : Config ⊕ (Outcome × Store)} (h : Leads limit x y)
    (h' : Leads limit y z) : Leads limit x z := by
  obtain ⟨k, hk⟩ := h
  obtain ⟨k', hk'⟩ := h'
  exact ⟨k' + k, fun fuel => by rw [← Nat.add_assoc, hk, hk']⟩

theorem Leads.advance (c : Config) : Leads limit (.inl c) (advance limit c) :=
  ⟨1, fun fuel => run_succ limit fuel c⟩

/-- The end of a run is also the end from where it leads, within the same number of steps. -/
theorem Leads.runOn_eq {x y : Config ⊕ (Outcome × Store)} (h : Leads limit x y) {fuel : Nat}
    {r : Outcome × Store} (hx : runOn limit fuel x = some r) : runOn limit fuel y = some r := by
  obtain ⟨k, hk⟩ := h
  rw [← hk]
  exact runOn_mono hx k

end Runs

/-- The state in which the outcome of a task is handed to the tasks below it. -/
def deliver (stack : List Suspended) (depth : Nat) :
    Outcome × Store → Config ⊕ (Outcome × Store)
  | (.value v, s) => .inl ⟨.value v, stack, depth, s⟩
  | (.failure e, s) => .inl ⟨.failure e, stack, depth, s⟩
  | (.crash c, s) => .inr (.crash c, s)

section Refinement

variable {limit : Limit} {task : Task} {scope : Scope} {stack : List Suspended} {depth : Nat}
  {n : Node} {inner : Scope} {work : Work} {s : Store}

theorem carryOut_of_isReached (h : limit.isReached depth = true) :
    carryOut limit task scope stack depth (.request n inner work, s) =
      deliver (⟨task, scope, work⟩ :: stack) (depth + 1) (refused limit depth n s) := by
  cases limit with
  | unset => rfl
  | frames count => exact if_pos (of_decide_eq_true h)

theorem carryOut_of_not_isReached (h : ¬limit.isReached depth = true) :
    carryOut limit task scope stack depth (.request n inner work, s) =
      .inl ⟨.start (.node n) inner, ⟨task, scope, work⟩ :: stack, depth + 1, s⟩ := by
  cases limit with
  | unset => exact absurd rfl h
  | frames count => exact if_neg (fun hcount => h (decide_eq_true hcount))

/-- What a task does with the outcome of its request, as the recursion has it. -/
def takeUp (next : Action × Store → Option (Outcome × Store)) (scope : Scope) (work : Work) :
    Outcome × Store → Option (Outcome × Store)
  | (.value v, s) => next (resume s scope v work)
  | (.failure e, s) => if work.isGuarded then next (recover s e work) else some (.failure e, s)
  | (.crash c, s) => some (.crash c, s)

theorem settle_request : limit.settle depth task scope (.request n inner work, s) =
    (if limit.isReached depth then some (refused limit depth n s)
      else evaluate limit (depth + 1) (.node n) inner s) >>=
    takeUp (limit.settle depth task scope) scope work := by
  rw [Limit.settle]
  rfl

/-- The machine hands the outcome of a request to the task below as the recursion does. -/
theorem leads_takeUp {next : Action × Store → Option (Outcome × Store)}
    (hnext : ∀ act r, next act = some r →
      Leads limit (carryOut limit task scope stack depth act) (deliver stack depth r))
    {result r : Outcome × Store} (h : takeUp next scope work result = some r) :
    Leads limit (deliver (⟨task, scope, work⟩ :: stack) (depth + 1) result)
      (deliver stack depth r) := by
  obtain ⟨outcome, s⟩ := result
  cases outcome with
  | value v => exact (Leads.advance _).trans (hnext _ r h)
  | failure e =>
      rw [takeUp] at h
      split_ifs at h with hguarded
      · refine (Leads.advance _).trans ?_
        rw [advance, if_pos hguarded]
        exact hnext _ r h
      · cases h
        refine (Leads.advance _).trans ?_
        rw [advance, if_neg hguarded]
        exact .refl _
  | crash c =>
      cases h
      exact .refl _

/-- Whatever a task comes to by recursion, the machine comes to above any stack. -/
theorem leads_of_settle {act : Action × Store} {r : Outcome × Store}
    (h : limit.settle depth task scope act = some r) :
    ∀ stack, Leads limit (carryOut limit task scope stack depth act) (deliver stack depth r) := by
  refine Limit.settle.partial_correctness limit (fun depth task scope act r => ∀ stack,
    Leads limit (carryOut limit task scope stack depth act) (deliver stack depth r))
    ?_
    depth task scope act r h
  intro next ih depth task scope act r h stack
  obtain ⟨action, s⟩ := act
  cases action with
  | finish v => cases h; exact .refl _
  | fail f => cases h; exact .refl _
  | crash c => cases h; exact .refl _
  | request n inner work =>
      obtain ⟨result, hresult, htake⟩ := Option.bind_eq_some_iff.mp h
      have htakeUp : takeUp (next depth task scope) scope work result = some r := htake
      refine Leads.trans ?_
        (leads_takeUp (fun act r hnext => ih depth task scope act r hnext stack) htakeUp)
      split_ifs at hresult with hreached
      · cases hresult
        rw [carryOut_of_isReached hreached]
        exact .refl _
      · rw [carryOut_of_not_isReached hreached]
        exact (Leads.advance _).trans (ih _ _ _ _ _ hresult _)

theorem exists_takeUp_of_runOn {next : Action × Store → Option (Outcome × Store)} {fuel : Nat}
    {r : Outcome × Store}
    (hnext : ∀ fuel' < fuel, ∀ act,
      runOn limit fuel' (carryOut limit task scope stack depth act) = some r → ∃ r', next act = some r')
    {result : Outcome × Store}
    (h : runOn limit fuel (deliver (⟨task, scope, work⟩ :: stack) (depth + 1) result) = some r) :
    ∃ r', takeUp next scope work result = some r' := by
  obtain ⟨outcome, s⟩ := result
  cases fuel with
  | zero =>
      cases outcome with
      | value v => cases h
      | failure e => cases h
      | crash c => exact ⟨_, rfl⟩
  | succ fuel =>
      cases outcome with
      | value v =>
          rw [deliver, runOn, run_succ] at h
          exact hnext fuel (Nat.lt_succ_self fuel) _ h
      | failure e =>
          rw [takeUp]
          split_ifs with hguarded
          · rw [deliver, runOn, run_succ, advance, if_pos hguarded] at h
            exact hnext fuel (Nat.lt_succ_self fuel) _ h
          · exact ⟨_, rfl⟩
      | crash c => exact ⟨_, rfl⟩

/-- If the machine ends, then so does the recursion for the running task. -/
theorem exists_settle_of_runOn {fuel : Nat} {act : Action × Store} {r : Outcome × Store}
    (h : runOn limit fuel (carryOut limit task scope stack depth act) = some r) :
    ∃ r', limit.settle depth task scope act = some r' := by
  induction fuel using Nat.strongRecOn generalizing task scope stack depth act with
  | ind fuel ih =>
      obtain ⟨action, s⟩ := act
      cases action with
      | finish v => exact ⟨_, by rw [Limit.settle]⟩
      | fail f => exact ⟨_, by rw [Limit.settle]⟩
      | crash c => exact ⟨_, by rw [Limit.settle]⟩
      | request n inner work =>
          -- the request has an outcome, and the machine ends from where that is handed back
          obtain ⟨result, hresult, hback⟩ : ∃ result,
              (if limit.isReached depth then some (refused limit depth n s)
                else evaluate limit (depth + 1) (.node n) inner s) = some result ∧
              runOn limit fuel (deliver (⟨task, scope, work⟩ :: stack) (depth + 1) result) =
                some r := by
            split_ifs with hreached
            · rw [carryOut_of_isReached hreached] at h
              exact ⟨_, rfl, h⟩
            · rw [carryOut_of_not_isReached hreached, runOn] at h
              cases fuel with
              | zero => cases h
              | succ fuel =>
                  rw [run_succ] at h
                  obtain ⟨result, hresult⟩ := ih fuel (Nat.lt_succ_self fuel) h
                  exact ⟨result, hresult, runOn_mono ((leads_of_settle hresult _).runOn_eq h) 1⟩
          rw [settle_request, hresult]
          exact exists_takeUp_of_runOn (fun fuel' hfuel act => ih fuel' hfuel) hback

end Refinement

/-- On the empty stack an outcome is the end of the run. -/
theorem runOn_deliver_nil (limit : Limit) (fuel : Nat) {depth : Nat} (r : Outcome × Store) :
    runOn limit (fuel + 1) (deliver [] depth r) = some r := by
  obtain ⟨outcome, s⟩ := r
  cases outcome <;> rfl

/-- A task settles what the machine comes to when it carries out the task's actions above nothing. -/
theorem settle_eq_some_iff {limit : Limit} {depth : Nat} {task : Task} {scope : Scope}
    {act : Action × Store} {r : Outcome × Store} :
    limit.settle depth task scope act = some r ↔
      ∃ fuel, runOn limit fuel (carryOut limit task scope [] depth act) = some r := by
  constructor
  · intro h
    obtain ⟨k, hk⟩ := leads_of_settle h []
    exact ⟨1 + k, (hk 1).trans (runOn_deliver_nil limit 0 r)⟩
  · rintro ⟨fuel, hrun⟩
    obtain ⟨r', hr'⟩ := exists_settle_of_runOn hrun
    have hdeliver := runOn_mono ((leads_of_settle hr' []).runOn_eq hrun) 1
    rw [runOn_deliver_nil] at hdeliver
    rw [hr', hdeliver]

/-- Actions settle alike, up to a map of what they come to, if the machine carries them out alike. -/
theorem settle_map_of_runOn {limit : Limit} {depth : Nat} {task : Task} {scope : Scope}
    {act act' : Action × Store} {f : Outcome × Store → Outcome × Store}
    (h : ∀ fuel, runOn limit fuel (carryOut limit task scope [] depth act') =
      (runOn limit fuel (carryOut limit task scope [] depth act)).map f) :
    limit.settle depth task scope act' = (limit.settle depth task scope act).map f := by
  refine Option.ext fun r => ?_
  rw [settle_eq_some_iff, Option.map_eq_some_iff]
  constructor
  · rintro ⟨fuel, hr⟩
    rw [h, Option.map_eq_some_iff] at hr
    obtain ⟨r', hr', rfl⟩ := hr
    exact ⟨r', settle_eq_some_iff.mpr ⟨fuel, hr'⟩, rfl⟩
  · rintro ⟨r', hr', rfl⟩
    obtain ⟨fuel, hr⟩ := settle_eq_some_iff.mp hr'
    exact ⟨fuel, by rw [h, hr, Option.map_some]⟩

/-- What a task comes to by recursion, a run of the machine comes to. -/
theorem exists_run_of_evaluate {limit : Limit} {task : Task} {scope : Scope} {s : Store}
    {r : Outcome × Store} (h : evaluate limit 0 task scope s = some r) :
    ∃ fuel, run limit fuel (.initial task scope s) = some r := by
  obtain ⟨fuel, hrun⟩ := settle_eq_some_iff.mp h
  exact ⟨fuel + 1, (run_succ limit fuel _).trans hrun⟩

theorem evaluate_of_run {limit : Limit} {fuel : Nat} {task : Task} {scope : Scope} {s : Store}
    {r : Outcome × Store} (h : run limit fuel (.initial task scope s) = some r) :
    evaluate limit 0 task scope s = some r := by
  cases fuel with
  | zero => cases h
  | succ fuel =>
      rw [run_succ] at h
      exact settle_eq_some_iff.mpr ⟨fuel, h⟩

/-- A run of the machine ends exactly when the recursive evaluation of the task does, with the same
outcome and store, and no frame of the run lies deeper than the limit. -/
theorem run_iff_evaluate (limit : Limit) (task : Task) (scope : Scope) (s : Store) :
    (∀ r, (∃ fuel, run limit fuel (.initial task scope s) = some r) ↔
      evaluate limit 0 task scope s = some r) ∧
    ∀ c, Reaches limit (.initial task scope s) c →
      ∀ d ∈ c.frameDepths, (d : Int) ≤ limit.deepest := by
  refine ⟨fun r => ⟨?_, exists_run_of_evaluate⟩, fun c hc => hc.frameDepths_le⟩
  rintro ⟨fuel, hrun⟩
  exact evaluate_of_run hrun

end Parley.Machine
