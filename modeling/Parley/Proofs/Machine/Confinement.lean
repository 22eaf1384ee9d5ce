import Parley.Proofs.Machine.Blending
import Parley.Proofs.Machine.Recursion

/-! Confined runs. Code that starts with cells of a confined region stays in the region for good, whatever
it comes to, and what lies outside makes no difference to it: a run in a blended store goes through the
same states with the same stores blended. Both are shown together, for each action of a node, for each
step and for a whole run, and then for the recursive evaluation of a task at any depth. -/

namespace Parley

section Regions

variable (inside : Cell → Prop)

/-- What surrounds a task is in a region. -/
structure Scope.Within (scope : Scope) : Prop where
  env : inside (.frame scope.env)
  self : inside (.value scope.self)
  home : ∀ a ∈ scope.home, inside (.activation a)

/-- The values that a work keeps are in a region. -/
def Work.Within (work : Work) : Prop := ∀ v ∈ work.values, inside (.value v)

/-- What a failure carries outward is in a region. -/
def Failure.Within : Failure → Prop
  | .error _ _ => True
  | .signal v _ => inside (.value v)

end Regions

namespace Machine

open Store

/-- An action that stays in a region, in a store that the region is confined in. -/
def ActWithin (inside : Cell → Prop) : Action × Store → Prop
  | (.finish v, s) => s.Confines inside ∧ inside (.value v)
  | (.fail f, s) => s.Confines inside ∧ f.Within inside
  | (.crash _, s) => s.Confines inside
  | (.request _ scope work, s) => s.Confines inside ∧ scope.Within inside ∧ work.Within inside

/-- An action stays in a region, and another one is the same in the blended store. -/
structure Follows (inside : Cell → Prop) (outside : Store) (act act' : Action × Store) : Prop where
  within : ActWithin inside act
  eq : act' = blendAct inside outside act

section Actions

variable {inside : Cell → Prop} {outside s : Store} {scope : Scope}

/-- The values of a region are known. -/
def regionTerms (inside : Cell → Prop) : Terms where
  known v := inside (.value v)
  allowed _ := True
  invoked _ _ := True
  lacking := True

theorem knows_regionTerms (hs : s.Confines inside) : (regionTerms inside).Knows s :=
  ⟨fun _ hv => hs.free hv, fun r hr v hv => hs.lists r hr v (Array.mem_toList_iff.mp hv)⟩

theorem admits_regionTerms (selector : String) {args : List Value}
    (hargs : ∀ v ∈ args, inside (.value v)) : Admits (regionTerms inside) selector args :=
  ⟨fun _ _ => trivial, fun _ _ _ => trivial, hargs, .inl trivial⟩

/-- However a message is served, the region is not left. -/
theorem actWithin_of_serves (hs : s.Confines inside) {act : Action × Store}
    (hact : Serves (regionTerms inside) s act) : ActWithin inside act := by
  cases hact with
  | finish hc hv =>
      refine ⟨hs.changes hc, ?_⟩
      rcases hv with hv | hv
      · exact hv
      · exact hs.made hv
  | refuse ha hc =>
      have hs' := hs.changes hc
      obtain ⟨e, rfl⟩ | ⟨rfl, -⟩ | ⟨rfl, -⟩ := ha.cases
      · exact ⟨hs', trivial⟩
      · exact hs'
      · exact hs'
  | call hc hr hargs hwork =>
      have hs' := hs.changes hc
      have hb := hs'.blocks _ hr
      exact ⟨hs'.newFrame hb.env _ hargs, ⟨hs'.closes.nextFrame, hb.receiver, hb.home⟩, hwork.2⟩
  | @invoke s' m receiver args hc _ hreceiver hargs =>
      have hs' := hs.changes hc
      have hframe := hs'.newFrame hs'.globals m.params hargs
      refine ⟨hframe.newActivation m hreceiver, ⟨hs'.closes.nextFrame, hreceiver, ?_⟩, List.forall_mem_nil _⟩
      rintro a ⟨⟩
      exact hs'.fresh _ (Nat.lt_irrefl _)

theorem follows_of_serves (hs : s.Confines inside) {act act' : Action × Store}
    (hact : Serves (regionTerms inside) s act) (heq : act' = blendAct inside outside act) :
    Follows inside outside act act' :=
  ⟨actWithin_of_serves hs hact, heq⟩

theorem Follows.error (hs : s.Confines inside) (e : Error) :
    Follows inside outside (.error e, s) (.error e, s.blend inside outside) :=
  ⟨⟨hs, trivial⟩, rfl⟩

theorem Follows.value (hs : s.Confines inside) {v : Value} (hv : inside (.value v)) :
    Follows inside outside (.finish v, s) (.finish v, s.blend inside outside) :=
  ⟨⟨hs, hv⟩, rfl⟩

theorem follows_send (hs : s.Confines inside) {receiver : Value} (hreceiver : inside (.value receiver))
    (selector : String) {args : List Value} (hargs : ∀ v ∈ args, inside (.value v)) :
    Follows inside outside (s.send receiver selector args)
      ((s.blend inside outside).send receiver selector args) :=
  follows_of_serves hs
    (serves_send (admits_regionTerms selector hargs) (knows_regionTerms hs) hreceiver
      fun _ _ _ _ => trivial)
    (send_blend hs.closes hreceiver selector hargs)

theorem follows_sendSuper (hs : s.Confines inside) {receiver : Value}
    (hreceiver : inside (.value receiver)) (owner selector : String) {args : List Value}
    (hargs : ∀ v ∈ args, inside (.value v)) :
    Follows inside outside (s.sendSuper receiver owner selector args)
      ((s.blend inside outside).sendSuper receiver owner selector args) :=
  follows_of_serves hs
    (serves_sendSuper (admits_regionTerms selector hargs) (knows_regionTerms hs) hreceiver
      fun _ _ => trivial)
    (sendSuper_blend hs.closes hreceiver owner selector hargs)

theorem follows_invoke (hs : s.Confines inside) (m : Method) {receiver : Value}
    (hreceiver : inside (.value receiver)) {args : List Value} (hargs : ∀ v ∈ args, inside (.value v)) :
    Follows inside outside (s.invoke m receiver args)
      ((s.blend inside outside).invoke m receiver args) :=
  follows_of_serves hs (serves_invoke trivial hreceiver hargs) (invoke_blend hs.closes m receiver args)

/-! Parts of nodes -/

theorem follows_request (hs : s.Confines inside) (hscope : scope.Within inside) (n : Node) {work : Work}
    (hwork : work.Within inside) :
    Follows inside outside (.request n scope work, s) (.request n scope work, s.blend inside outside) :=
  ⟨⟨hs, hscope, hwork⟩, rfl⟩

theorem follows_nextItem (hs : s.Confines inside) (hscope : scope.Within inside) {done : List Value}
    (hdone : ∀ v ∈ done, inside (.value v)) (todo : List Node) :
    Follows inside outside (nextItem s scope done todo)
      (nextItem (s.blend inside outside) scope done todo) := by
  cases todo with
  | nil =>
      exact follows_of_serves hs (serves_finishList fun v hv => hdone v (List.mem_reverse.mp hv))
        (finishList_blend hs.closes done.reverse)
  | cons n todo => exact follows_request hs hscope n hdone

theorem follows_nextStatement (hs : s.Confines inside) (hscope : scope.Within inside) {latest : Value}
    (hlatest : inside (.value latest)) (todo : List Node) :
    Follows inside outside (nextStatement s scope latest todo)
      (nextStatement (s.blend inside outside) scope latest todo) := by
  cases todo with
  | nil => exact .value hs hlatest
  | cons n todo => exact follows_request hs hscope n (List.forall_mem_nil _)

theorem follows_nextArgument (hs : s.Confines inside) (hscope : scope.Within inside) {receiver : Value}
    (selector : String) {done : List Value} (hvalues : ∀ v ∈ receiver :: done, inside (.value v))
    (isSuper : Bool) (todo : List Node) :
    Follows inside outside (nextArgument s scope receiver selector done isSuper todo)
      (nextArgument (s.blend inside outside) scope receiver selector done isSuper todo) := by
  cases todo with
  | nil =>
      obtain ⟨hreceiver, hdone⟩ := List.forall_mem_cons.mp hvalues
      have hargs : ∀ v ∈ done.reverse, inside (.value v) :=
        fun v hv => hdone v (List.mem_reverse.mp hv)
      rw [nextArgument, nextArgument, sendFrom.eq_def, sendFrom.eq_def]
      cases isSuper with
      | false => exact follows_send hs hreceiver selector hargs
      | true =>
          cases scope.home with
          | none => exact follows_send hs hreceiver selector hargs
          | some home => exact follows_sendSuper hs hreceiver _ selector hargs
  | cons n todo => exact follows_request hs hscope n hvalues

/-- A name, a variable or a constant has the same value, and it is in the region. -/
theorem follows_atom (hs : s.Confines inside) (hscope : scope.Within inside) (origin : Option Origin)
    (a : Atom) :
    Follows inside outside (beginNode s scope (.atom origin a))
      (beginNode (s.blend inside outside) scope (.atom origin a)) := by
  cases a with
  | «variable» name =>
      simp only [beginNode, atomValue, variableValue, lookup?_blend hs hscope.env, classes_blend]
      cases hv : s.lookup? scope.env name with
      | some v => exact .value hs (hs.lookup? hscope.env hv)
      | none =>
          cases s.classes.find? name with
          | some c => exact .value hs (hs.free rfl)
          | none =>
              dsimp only
              split_ifs
              · exact .error hs _
              · exact .error hs _
  | slot name =>
      have hself := hscope.self
      simp only [beginNode, atomValue, slotValue]
      cases hr : scope.self with
      | object r =>
          rw [hr] at hself
          dsimp only
          rw [object_blend hself]
          cases hv : (s.object r).slots.get? name with
          | some v => exact .value hs ((hs.objects r hself).get? hv)
          | none => exact .error hs _
      | _ => exact .error hs _
  | self => exact .value hs hscope.self
  | super => exact .value hs hscope.self
  | _ => exact .value hs (hs.free rfl)

/-- A statement writes inside the region. -/
theorem follows_putValue (hs : s.Confines inside) (hscope : scope.Within inside) (target : Target)
    {v : Value} (hv : inside (.value v)) :
    Follows inside outside (putValue s scope target v)
      (putValue (s.blend inside outside) scope target v) := by
  refine follows_of_serves hs (serves_putValue hscope.self target hv) ?_
  cases target with
  | define name operator =>
      rw [putValue, define_blend hscope.env]
      rfl
  | assign name =>
      rw [putValue, putValue, holder?_blend hs hscope.env]
      cases hr : s.holder? scope.env name with
      | some r =>
          dsimp only
          rw [define_blend (hs.holder? hscope.env hr)]
          rfl
      | none => rfl
  | slot name =>
      have hself := hscope.self
      rw [putValue, putValue]
      cases hr : scope.self with
      | object r =>
          rw [hr] at hself
          dsimp only
          rw [object_blend hself, setSlot_blend hself]
          split_ifs <;> rfl
      | _ => rfl

/-! The actions of a task -/

theorem follows_beginNode (hs : s.Confines inside) (hscope : scope.Within inside) (n : Node) :
    Follows inside outside (beginNode s scope n) (beginNode (s.blend inside outside) scope n) := by
  cases n with
  | atom origin a => exact follows_atom hs hscope origin a
  | list origin items => exact follows_nextItem hs hscope (List.forall_mem_nil _) items
  | store origin target value => exact follows_request hs hscope value (List.forall_mem_nil _)
  | answer origin value => exact follows_request hs hscope value (List.forall_mem_nil _)
  | send origin receiver selector args =>
      exact follows_request hs hscope receiver (List.forall_mem_nil _)
  | block origin params bodyOrigin body =>
      refine ⟨⟨hs.newBlock ⟨hscope.env, hscope.self, hscope.home⟩, ?_⟩, rfl⟩
      exact hs.fresh _ fun hin => Nat.lt_irrefl _ hin.2
  | suite origin kind statements => exact follows_nextStatement hs hscope (hs.free rfl) statements

theorem follows_resume (hs : s.Confines inside) (hscope : scope.Within inside) {work : Work}
    (hwork : work.Within inside) {v : Value} (hv : inside (.value v)) :
    Follows inside outside (resume s scope v work) (resume (s.blend inside outside) scope v work) := by
  have hserves := fun act act' => @follows_of_serves inside outside s hs act act'
  have hknows := knows_regionTerms hs
  cases work with
  | items done todo =>
      exact follows_nextItem hs hscope (List.forall_mem_cons.mpr ⟨hv, hwork⟩) todo
  | store target => exact follows_putValue hs hscope target hv
  | answer =>
      refine ⟨?_, rfl⟩
      rw [resume, returnValue]
      split
      · exact ⟨hs, hv⟩
      · split_ifs
        · exact ⟨hs, hv⟩
        · exact ⟨hs, trivial⟩
  | receiver selector args isSuper =>
      exact follows_nextArgument hs hscope selector (List.forall_mem_singleton.mpr hv) isSuper args
  | argument receiver selector done todo isSuper =>
      obtain ⟨hreceiver, hdone⟩ := List.forall_mem_cons.mp hwork
      refine follows_nextArgument hs hscope selector ?_ isSuper todo
      exact List.forall_mem_cons.mpr ⟨hreceiver, List.forall_mem_cons.mpr ⟨hv, hdone⟩⟩
  | statements todo => exact follows_nextStatement hs hscope hv todo
  | method home => exact ⟨⟨hs.retire home, hv⟩, rfl⟩
  | result => exact .value hs hv
  | catching handler => exact .value hs hv
  | repeating answer block left =>
      refine hserves _ _ (serves_repeatBlock ?_ fun _ _ => trivial) (repeatBlock_blend hs.closes _ _ _)
      exact hwork
  | counting answer block next left =>
      refine hserves _ _ (serves_countBlock hknows ?_ next fun _ _ => trivial)
        (countBlock_blend hs.closes _ _ _ _)
      exact hwork
  | visiting answer block todo =>
      refine hserves _ _ (serves_visitItems ?_ fun _ _ _ => trivial) (visitItems_blend hs.closes _ _ _)
      exact hwork
  | collecting block done todo =>
      refine hserves _ _ (serves_collectItems ?_ fun _ _ _ => trivial) (collectItems_blend hs.closes _ _ _)
      obtain ⟨hblock, hrest⟩ := List.forall_mem_cons.mp hwork
      exact List.forall_mem_cons.mpr ⟨hblock, List.forall_mem_cons.mpr ⟨hv, hrest⟩⟩
  | testing expected condition body =>
      refine hserves _ _ (serves_afterTest hknows v ?_ (.inl trivial) trivial trivial)
        (afterTest_blend hs.closes _ _ _ _)
      exact hwork
  | looping expected condition body =>
      refine hserves _ _ (serves_testLoop ?_ trivial) (testLoop_blend hs.closes _ _ _)
      exact hwork

theorem follows_recover (hs : s.Confines inside) {work : Work} (hwork : work.Within inside)
    {failure : Failure} (hfailure : failure.Within inside) :
    Follows inside outside (recover s failure work)
      (recover (s.blend inside outside) failure work) := by
  cases work with
  | method home =>
      have hretired := hs.retire home
      rcases failure with ⟨e, site⟩ | ⟨v, _ | target⟩
      · exact ⟨⟨hretired, trivial⟩, rfl⟩
      · exact ⟨⟨hretired, hfailure⟩, rfl⟩
      · rw [recover, recover]
        split_ifs
        · exact ⟨⟨hretired, hfailure⟩, rfl⟩
        · exact ⟨⟨hretired, hfailure⟩, rfl⟩
  | catching handler =>
      cases failure with
      | signal v target => exact ⟨⟨hs, hfailure⟩, rfl⟩
      | error e site =>
          exact follows_of_serves hs
            (serves_handle (knows_regionTerms hs) e (hwork handler List.mem_cons_self) trivial)
            (handle_blend hs.closes e handler)
  | _ => exact ⟨⟨hs, hfailure⟩, rfl⟩

end Actions

/-! States -/

section States

variable (inside : Cell → Prop)

/-- What a run comes to is in a region. -/
def Outcome.Within : Outcome → Prop
  | .value v => inside (.value v)
  | .failure f => f.Within inside
  | .crash _ => True

/-- What a state hands on is in a region. -/
def Control.Within : Control → Prop
  | .start task scope => (∃ n, task = .node n) ∧ scope.Within inside
  | .value v => inside (.value v)
  | .failure f => f.Within inside

/-- Suspended tasks that know a region only. -/
def StackWithin (stack : List Suspended) : Prop :=
  ∀ f ∈ stack, f.scope.Within inside ∧ f.work.Within inside

/-- A state in which all code knows a confined region only. -/
structure Config.Confined (c : Config) : Prop where
  store : c.store.Confines inside
  control : c.control.Within inside
  stack : StackWithin inside c.stack

/-- A step leads to such a state, or to an end that is in the region. -/
def NextConfined : Config ⊕ (Outcome × Store) → Prop
  | .inl c => c.Confined inside
  | .inr r => r.2.Confines inside ∧ r.1.Within inside

variable (outside : Store)

/-- The end of a run with its store blended. -/
noncomputable def blendEnd (r : Outcome × Store) : Outcome × Store :=
  (r.1, r.2.blend inside outside)

/-- What a step leads to with its store blended. -/
noncomputable def blendNext : Config ⊕ (Outcome × Store) → Config ⊕ (Outcome × Store)
  | .inl c => .inl { c with store := c.store.blend inside outside }
  | .inr r => .inr (blendEnd inside outside r)

end States

section Runs

variable {inside : Cell → Prop} {outside : Store} {limit : Limit} {task : Task} {scope : Scope}
  {stack : List Suspended} {depth : Nat} {act : Action × Store}

theorem within_stamp {f : Failure} (h : f.Within inside) (task : Task) :
    (stamp task f).Within inside := by
  cases f with
  | signal v home => exact h
  | error e site => cases site <;> trivial

theorem carryOut_blend (act : Action × Store) :
    carryOut limit task scope stack depth (blendAct inside outside act) =
      blendNext inside outside (carryOut limit task scope stack depth act) := by
  obtain ⟨action, s⟩ := act
  cases action with
  | finish v => rfl
  | fail f => rfl
  | crash c => rfl
  | request n inner work =>
      cases limit with
      | unset => rfl
      | frames count =>
          simp only [blendAct, carryOut]
          split_ifs <;> rfl

theorem nextConfined_carryOut (hact : ActWithin inside act) (hscope : scope.Within inside)
    (hstack : StackWithin inside stack) :
    NextConfined inside (carryOut limit task scope stack depth act) := by
  obtain ⟨action, s⟩ := act
  cases action with
  | finish v => exact ⟨hact.1, hact.2, hstack⟩
  | fail f => exact ⟨hact.1, within_stamp hact.2 task, hstack⟩
  | crash c => exact ⟨hact, trivial⟩
  | request n inner work =>
      obtain ⟨hs, hinner, hwork⟩ := hact
      have hpushed : StackWithin inside (⟨task, scope, work⟩ :: stack) :=
        List.forall_mem_cons.mpr ⟨⟨hscope, hwork⟩, hstack⟩
      cases limit with
      | unset => exact ⟨hs, trivial⟩
      | frames count =>
          simp only [carryOut]
          split_ifs
          · exact ⟨hs.change (.log s _), trivial, hpushed⟩
          · exact ⟨hs, ⟨⟨n, rfl⟩, hinner⟩, hpushed⟩

/-- One step stays in the region, and it is the same step in the blended store. -/
theorem advance_follows {c : Config} (hc : c.Confined inside) :
    NextConfined inside (advance limit c) ∧
      advance limit { c with store := c.store.blend inside outside } =
        blendNext inside outside (advance limit c) := by
  obtain ⟨control, stack, depth, s⟩ := c
  obtain ⟨hs, hcontrol, hstack⟩ := hc
  have hcarry : ∀ {task scope stack depth act act'}, Follows inside outside act act' →
      scope.Within inside → StackWithin inside stack →
      NextConfined inside (carryOut limit task scope stack depth act) ∧
        carryOut limit task scope stack depth act' =
          blendNext inside outside (carryOut limit task scope stack depth act) := by
    intro task scope stack depth act act' hfollows hscope hstack
    refine ⟨nextConfined_carryOut hfollows.within hscope hstack, ?_⟩
    rw [hfollows.eq, carryOut_blend]
  cases control with
  | start task scope =>
      obtain ⟨⟨n, rfl⟩, hscope⟩ := hcontrol
      exact hcarry (follows_beginNode hs hscope n) hscope hstack
  | value v =>
      cases stack with
      | nil => exact ⟨⟨hs, hcontrol⟩, rfl⟩
      | cons f stack =>
          obtain ⟨⟨hscope, hwork⟩, hrest⟩ := List.forall_mem_cons.mp hstack
          exact hcarry (follows_resume hs hscope hwork hcontrol) hscope hrest
  | failure e =>
      cases stack with
      | nil => exact ⟨⟨hs, hcontrol⟩, rfl⟩
      | cons f stack =>
          obtain ⟨⟨hscope, hwork⟩, hrest⟩ := List.forall_mem_cons.mp hstack
          simp only [advance]
          split_ifs
          · exact hcarry (follows_recover hs hwork hcontrol) hscope hrest
          · exact ⟨⟨hs, hcontrol, hrest⟩, rfl⟩

/-- A run stays in the region, and it is the same run in the blended store. -/
theorem runOn_follows {next : Config ⊕ (Outcome × Store)} (hnext : NextConfined inside next)
    (fuel : Nat) :
    (∀ r, runOn limit fuel next = some r → r.2.Confines inside ∧ r.1.Within inside) ∧
      runOn limit fuel (blendNext inside outside next) =
        (runOn limit fuel next).map (blendEnd inside outside) := by
  induction fuel generalizing next with
  | zero =>
      cases next with
      | inl c => exact ⟨(fun r hr => by cases hr), rfl⟩
      | inr r =>
          refine ⟨?_, rfl⟩
          rintro _ ⟨⟩
          exact hnext
  | succ fuel ih =>
      cases next with
      | inl c =>
          obtain ⟨hstep, hblend⟩ := @advance_follows inside outside limit c hnext
          obtain ⟨hends, hrun⟩ := ih hstep
          simp only [blendNext, runOn, run_succ, hblend]
          exact ⟨hends, hrun⟩
      | inr r =>
          refine ⟨?_, rfl⟩
          rintro _ ⟨⟩
          exact hnext

/-- What a task comes to is in the region. -/
theorem within_of_settle (hact : ActWithin inside act) (hscope : scope.Within inside)
    {r : Outcome × Store} (h : limit.settle depth task scope act = some r) :
    r.2.Confines inside ∧ r.1.Within inside := by
  obtain ⟨fuel, hrun⟩ := settle_eq_some_iff.mp h
  have hnext := @nextConfined_carryOut _ limit task _ _ depth _ hact hscope (List.forall_mem_nil _)
  exact (@runOn_follows inside r.2 limit _ hnext fuel).1 r hrun

/-- A task comes to an end in the blended store exactly if it does without blending, and then to the same
end. -/
theorem settle_blend (hact : ActWithin inside act) (hscope : scope.Within inside) :
    limit.settle depth task scope (blendAct inside outside act) =
      (limit.settle depth task scope act).map (blendEnd inside outside) := by
  have hnext := @nextConfined_carryOut _ limit task _ _ depth _ hact hscope (List.forall_mem_nil _)
  refine settle_map_of_runOn fun fuel => ?_
  rw [carryOut_blend]
  exact (@runOn_follows inside outside limit _ hnext fuel).2

end Runs

end Machine

end Parley
