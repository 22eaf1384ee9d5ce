import Parley.Proofs.Machine.Blending
import Parley.Proofs.Machine.Sites
import Parley.Proofs.Node.Names
import Parley.Proofs.Store.Globals

/-! Names that no code uses. Where neither the code in a store nor the code that runs uses a name, a global
binding of it is never read or changed: a run in the store without the binding goes through the same
states without it, to the same end, and the binding stays what it is. Both are shown together, for each
action of a task, for each step, and for whole runs. -/

namespace Parley

/-! Code without a name -/

/-- The name that a task will bind or assign. -/
def Work.names : Work → List String
  | .store target => target.names
  | _ => []

/-- What a task has still to do does not use a name. -/
structure Work.Avoids (name : String) (work : Work) : Prop where
  names : name ∉ work.names
  nodes : ∀ n ∈ work.nodes, n.Avoids name

/-- No code in a store uses a name, whose global binding is as given. -/
structure Store.Spares (name : String) (bound : Option Value) (s : Store) : Prop where
  code : s.AllCode (Node.Avoids name)
  globals : 0 < s.frames.size
  bound : s.global? name = bound

section Code

variable {name : String} {bound : Option Value} {s s' : Store} {work : Work}

theorem Work.Avoids.of_nodes (hnames : work.names = []) (hnodes : work.nodes = []) :
    work.Avoids name := by
  refine ⟨?_, ?_⟩
  · rw [hnames]
    exact List.not_mem_nil
  · rw [hnodes]
    exact List.forall_mem_nil _

theorem Work.Avoids.of_isCall (h : work.isCall = true) : work.Avoids name := by
  refine .of_nodes ?_ (nodes_of_isCall h)
  cases work <;> first | rfl | cases h

theorem Work.Avoids.of_isLoop {lacking : Prop} (h : work.IsLoop lacking) : work.Avoids name := by
  refine .of_nodes ?_ (nodes_of_isLoop h)
  cases work <;> first | rfl | exact h.elim

/-- Only frames, blocks and classes of a store count. -/
theorem Store.Spares.congr (h : s.Spares name bound) (hframes : s'.frames = s.frames)
    (hblocks : s'.blocks = s.blocks) (hclasses : s'.classes = s.classes) : s'.Spares name bound := by
  refine ⟨h.code.congr hblocks hclasses, ?_, ?_⟩
  · rw [hframes]
    exact h.globals
  · rw [Store.global?, Store.frame, hframes]
    exact h.bound

theorem Store.Spares.define (h : s.Spares name bound) {other : String} (hname : other ≠ name)
    (env : FrameRef) (v : Value) : (s.define env other v).Spares name bound := by
  refine ⟨h.code.congr rfl rfl, ?_, ?_⟩
  · rw [Store.define, Array.size_modify]
    exact h.globals
  · rw [Store.global?_define_of_ne s hname, h.bound]

end Code

namespace Machine

open Store

/-! Actions -/

/-- An action in a store whose code does not use a name, nor does what the action requests and has still to
do. -/
structure ActSpares (name : String) (bound : Option Value) (act : Action × Store) : Prop where
  store : act.2.Spares name bound
  request : ∀ n inner work, act.1 = .request n inner work → n.Avoids name ∧ work.Avoids name

/-- An action in the store without the global binding of a name. -/
def withoutAct (name : String) (act : Action × Store) : Action × Store := (act.1, act.2.without name)

/-- An action does not use a name, and another one is the same in the store without the binding. -/
structure Ignores (name : String) (bound : Option Value) (act act' : Action × Store) : Prop where
  spares : ActSpares name bound act
  eq : act' = withoutAct name act

section Actions

variable {name : String} {bound : Option Value} {s : Store} {scope : Scope}

/-- The terms on which no method that is invoked and no work uses a name. -/
def unusedTerms (name : String) : Terms where
  known _ := True
  allowed work := work.Avoids name
  invoked m _ := m.body.Avoids name
  lacking := True

theorem knows_unusedTerms : (unusedTerms name).Knows s := Terms.knows_of_forall fun _ => trivial

theorem admits_unusedTerms (selector : String) (args : List Value) :
    Admits (unusedTerms name) selector args :=
  ⟨fun _ => Work.Avoids.of_isCall, fun _ _ => Work.Avoids.of_isLoop, fun _ _ => trivial, .inl trivial⟩

/-- However a message is served, the code that runs next is code of the store. -/
theorem avoids_of_serves (hs : s.AllCode (Node.Avoids name)) {act : Action × Store}
    (hact : Serves (unusedTerms name) s act) :
    act.2.AllCode (Node.Avoids name) ∧
      ∀ n inner work, act.1 = .request n inner work → n.Avoids name ∧ work.Avoids name := by
  have hdefault := avoids_default name
  cases hact with
  | finish hc => exact ⟨hs.changes hdefault hc, fun _ _ _ => nofun⟩
  | refuse ha hc =>
      refine ⟨hs.changes hdefault hc, ?_⟩
      rintro n inner work rfl
      exact ha.elim
  | @call s' r args work hc _ _ hwork =>
      have hs' := hs.changes hdefault hc
      refine ⟨hs'.congr rfl rfl, ?_⟩
      rintro _ _ _ ⟨⟩
      exact ⟨hs'.block hdefault r, hwork.1⟩
  | @invoke s' m receiver args hc hm _ _ =>
      refine ⟨(hs.changes hdefault hc).congr rfl rfl, ?_⟩
      rintro _ _ _ ⟨⟩
      exact ⟨hm, .of_nodes rfl rfl⟩

/-- An operation that does the same whatever is bound in the global frame ignores a global binding. -/
theorem ignores_of_serves (hs : s.Spares name bound) {op : Store → Action × Store}
    (hserves : Serves (unusedTerms name) s (op s))
    (hblend : ∀ outside, op (s.blend offGlobals outside) = blendAct offGlobals outside (op s)) :
    Ignores name bound (op s) (op (s.without name)) := by
  have hself := hblend s
  have hwithout := hblend (s.without name)
  rw [blend_self] at hself
  rw [blend_without] at hwithout
  have hstore : (op s).2 = (op s).2.blend offGlobals s := congrArg Prod.snd hself
  have hsize : 0 < (op s).2.frames.size :=
    (Store.Evolves.retains hserves.evolves).frames.lt_size hs.globals
  obtain ⟨hcode, hrequest⟩ := avoids_of_serves hs.code hserves
  refine ⟨⟨⟨hcode, hsize, ?_⟩, hrequest⟩, ?_⟩
  · rw [global?, bindings_globals_of_blend hs.globals hsize hstore]
    exact hs.bound
  · rw [hwithout, blendAct, withoutAct, without_eq_blend hs.globals hsize hstore]

theorem Ignores.value (hs : s.Spares name bound) (v : Value) :
    Ignores name bound (.finish v, s) (.finish v, s.without name) :=
  ⟨⟨hs, fun _ _ _ => nofun⟩, rfl⟩

theorem Ignores.failure (hs : s.Spares name bound) (f : Failure) :
    Ignores name bound (.fail f, s) (.fail f, s.without name) :=
  ⟨⟨hs, fun _ _ _ => nofun⟩, rfl⟩

theorem Ignores.request (hs : s.Spares name bound) {n : Node} {work : Work} (hn : n.Avoids name)
    (hwork : work.Avoids name) :
    Ignores name bound (.request n scope work, s) (.request n scope work, s.without name) := by
  refine ⟨⟨hs, ?_⟩, rfl⟩
  rintro _ _ _ ⟨⟩
  exact ⟨hn, hwork⟩

/-! Parts of nodes -/

theorem ignores_sendFrom (hs : s.Spares name bound) (receiver : Value) (selector : String)
    (args : List Value) (isSuper : Bool) :
    Ignores name bound (sendFrom s scope receiver selector args isSuper)
      (sendFrom (s.without name) scope receiver selector args isSuper) := by
  have hvalues : ∀ v ∈ args, offGlobals (.value v) := fun v _ => offGlobals_value v
  have hsend : Ignores name bound (s.send receiver selector args)
      ((s.without name).send receiver selector args) :=
    @ignores_of_serves name bound s hs (·.send receiver selector args)
      (serves_send (admits_unusedTerms selector args) knows_unusedTerms trivial
        fun _ m _ hm => hs.code.methods m (ClassTable.has_of_lookup hm))
      (fun _ => send_blend (closes_offGlobals hs.globals) (offGlobals_value receiver) selector hvalues)
  cases isSuper with
  | false => exact hsend
  | true =>
      obtain ⟨env, self, home⟩ := scope
      cases home with
      | none => exact hsend
      | some home =>
          exact @ignores_of_serves name bound s hs
            (·.sendSuper receiver (s.activation home).method.owner selector args)
            (serves_sendSuper (admits_unusedTerms selector args) knows_unusedTerms trivial
              fun m hm => hs.code.methods m (ClassTable.has_of_lookupSuper hm))
            (fun _ => sendSuper_blend (closes_offGlobals hs.globals) (offGlobals_value receiver) _
              selector hvalues)

theorem ignores_nextItem (hs : s.Spares name bound) (done : List Value) {todo : List Node}
    (htodo : ∀ n ∈ todo, n.Avoids name) :
    Ignores name bound (nextItem s scope done todo) (nextItem (s.without name) scope done todo) := by
  cases todo with
  | nil =>
      exact @ignores_of_serves name bound s hs (·.finishList done.reverse)
        (serves_finishList fun _ _ => trivial)
        (fun _ => finishList_blend (closes_offGlobals hs.globals) done.reverse)
  | cons n todo =>
      obtain ⟨hn, htodo⟩ := List.forall_mem_cons.mp htodo
      exact .request hs hn ⟨List.not_mem_nil, htodo⟩

theorem ignores_nextStatement (hs : s.Spares name bound) (latest : Value) {todo : List Node}
    (htodo : ∀ n ∈ todo, n.Avoids name) :
    Ignores name bound (nextStatement s scope latest todo)
      (nextStatement (s.without name) scope latest todo) := by
  cases todo with
  | nil => exact .value hs latest
  | cons n todo =>
      obtain ⟨hn, htodo⟩ := List.forall_mem_cons.mp htodo
      exact .request hs hn ⟨List.not_mem_nil, htodo⟩

theorem ignores_nextArgument (hs : s.Spares name bound) (receiver : Value) (selector : String)
    (done : List Value) (isSuper : Bool) {todo : List Node} (htodo : ∀ n ∈ todo, n.Avoids name) :
    Ignores name bound (nextArgument s scope receiver selector done isSuper todo)
      (nextArgument (s.without name) scope receiver selector done isSuper todo) := by
  cases todo with
  | nil => exact ignores_sendFrom hs receiver selector done.reverse isSuper
  | cons n todo =>
      obtain ⟨hn, htodo⟩ := List.forall_mem_cons.mp htodo
      exact .request hs hn ⟨List.not_mem_nil, htodo⟩

theorem atomValue_without {a : Atom} {origin : Option Origin}
    (h : name ∉ (Node.atom origin a).names) :
    atomValue (s.without name) scope a = atomValue s scope a := by
  cases a with
  | «variable» other =>
      have hne : other ≠ name := fun heq => h (List.mem_singleton.mpr heq.symm)
      rw [atomValue, atomValue, variableValue, variableValue, lookup?_without s hne]
      rfl
  | _ => rfl

theorem ignores_putValue (hs : s.Spares name bound) {target : Target} (htarget : name ∉ target.names)
    (v : Value) :
    Ignores name bound (putValue s scope target v) (putValue (s.without name) scope target v) := by
  cases target with
  | define other operator =>
      have hne : other ≠ name := fun heq => htarget (List.mem_singleton.mpr heq.symm)
      rw [putValue, putValue, define_without s hne]
      exact .value (hs.define hne scope.env v) v
  | assign other =>
      have hne : other ≠ name := fun heq => htarget (List.mem_singleton.mpr heq.symm)
      rw [putValue, putValue, holder?_without s hne]
      cases s.holder? scope.env other with
      | some r =>
          dsimp only
          rw [define_without s hne]
          exact .value (hs.define hne r v) v
      | none => exact .failure hs _
  | slot slot =>
      obtain ⟨env, self, home⟩ := scope
      cases self with
      | object r =>
          rw [putValue, putValue]
          dsimp only
          have hobject : (s.without name).object r = s.object r := rfl
          rw [hobject]
          split_ifs
          · exact .value (hs.congr rfl rfl rfl : (s.setSlot r slot v).Spares name bound) v
          · exact .failure hs _
      | _ => exact .failure hs _

/-! The actions of a task -/

theorem ignores_beginNode (hs : s.Spares name bound) {n : Node} (hn : n.Avoids name) :
    Ignores name bound (beginNode s scope n) (beginNode (s.without name) scope n) := by
  cases n with
  | atom origin a =>
      rw [beginNode, beginNode, atomValue_without hn.names]
      cases atomValue s scope a with
      | ok v => exact .value hs v
      | error e => exact .failure hs _
  | list origin items => exact ignores_nextItem hs [] fun _ => hn.operand
  | store origin target value =>
      exact .request hs (hn.operand List.mem_cons_self) ⟨hn.names, List.forall_mem_nil _⟩
  | answer origin value =>
      exact .request hs (hn.operand List.mem_cons_self) (.of_nodes rfl rfl)
  | send origin receiver selector args =>
      exact .request hs (hn.operand List.mem_cons_self)
        ⟨List.not_mem_nil, fun m hm => hn.operand (List.mem_cons_of_mem _ hm)⟩
  | block origin params bodyOrigin body =>
      exact .value ⟨hs.code.newBlock hn.body, hs.globals, hs.bound⟩ _
  | suite origin kind statements => exact ignores_nextStatement hs .nil fun _ => hn.operand

theorem ignores_returnValue (hs : s.Spares name bound) (v : Value) :
    Ignores name bound (returnValue s scope v, s) (returnValue (s.without name) scope v, s.without name) := by
  have hsame : returnValue (s.without name) scope v = returnValue s scope v := rfl
  rw [hsame, returnValue]
  split
  · exact .failure hs _
  · split_ifs
    · exact .failure hs _
    · exact .failure hs _

theorem ignores_resume (hs : s.Spares name bound) {work : Work} (hwork : work.Avoids name) (v : Value) :
    Ignores name bound (resume s scope v work) (resume (s.without name) scope v work) := by
  have hserves := fun op => @ignores_of_serves name bound s hs op
  have hcloses := closes_offGlobals hs.globals
  cases work with
  | items done todo => exact ignores_nextItem hs (v :: done) hwork.nodes
  | store target => exact ignores_putValue hs hwork.names v
  | answer => exact ignores_returnValue hs v
  | receiver selector args isSuper => exact ignores_nextArgument hs v selector [] isSuper hwork.nodes
  | argument receiver selector done todo isSuper =>
      exact ignores_nextArgument hs receiver selector (v :: done) isSuper hwork.nodes
  | statements todo => exact ignores_nextStatement hs v hwork.nodes
  | method home => exact .value (hs.congr rfl rfl rfl : (s.retire home).Spares name bound) v
  | result => exact .value hs v
  | catching handler => exact .value hs v
  | repeating answer block left =>
      exact hserves (·.repeatBlock answer block left)
        (serves_repeatBlock (fun _ _ => trivial) fun _ _ => .of_nodes rfl rfl)
        (fun _ => repeatBlock_blend hcloses answer block left)
  | counting answer block next left =>
      exact hserves (·.countBlock answer block next left)
        (serves_countBlock knows_unusedTerms (fun _ _ => trivial) next
          fun _ _ => .of_nodes rfl rfl)
        (fun _ => countBlock_blend hcloses answer block next left)
  | visiting answer block todo =>
      exact hserves (·.visitItems answer block todo)
        (serves_visitItems (fun _ _ => trivial) fun _ _ _ => .of_nodes rfl rfl)
        (fun _ => visitItems_blend hcloses answer block todo)
  | collecting block done todo =>
      exact hserves (·.collectItems block (v :: done) todo)
        (serves_collectItems (fun _ _ => trivial) fun _ _ _ => .of_nodes rfl rfl)
        (fun _ => collectItems_blend hcloses block (v :: done) todo)
  | testing expected condition body =>
      exact hserves (·.afterTest expected condition body v)
        (serves_afterTest knows_unusedTerms v (fun _ _ => trivial) (.inl trivial)
          (.of_nodes rfl rfl) (.of_nodes rfl rfl))
        (fun _ => afterTest_blend hcloses expected condition body v)
  | looping expected condition body =>
      exact hserves (·.testLoop expected condition body)
        (serves_testLoop (fun _ _ => trivial) (.of_nodes rfl rfl))
        (fun _ => testLoop_blend hcloses expected condition body)

theorem ignores_recover (hs : s.Spares name bound) (failure : Failure) (work : Work) :
    Ignores name bound (recover s failure work) (recover (s.without name) failure work) := by
  cases work with
  | method home =>
      have hretired : (s.retire home).Spares name bound := hs.congr rfl rfl rfl
      match failure with
      | .error e site => exact .failure hretired _
      | .signal v none => exact .failure hretired _
      | .signal v (some target) =>
          rw [recover, recover]
          split_ifs
          · exact .value hretired v
          · exact .failure hretired _
  | catching handler =>
      cases failure with
      | signal v home => exact .failure hs _
      | error e site =>
          exact @ignores_of_serves name bound s hs (·.handle e handler)
            (serves_handle knows_unusedTerms e trivial (.of_nodes rfl rfl))
            (fun _ => handle_blend (closes_offGlobals hs.globals) e handler)
  | _ => exact .failure hs _

end Actions

/-! States -/

/-- A state in which no code uses a name. -/
structure Config.Spares (name : String) (bound : Option Value) (c : Config) : Prop where
  store : c.store.Spares name bound
  stack : ∀ f ∈ c.stack, f.work.Avoids name
  start : ∀ task scope, c.control = .start task scope → ∃ n, task = .node n ∧ n.Avoids name

/-- A step leads to such a state, or to an end with such a store. -/
def NextSpares (name : String) (bound : Option Value) : Config ⊕ (Outcome × Store) → Prop
  | .inl c => c.Spares name bound
  | .inr r => r.2.Spares name bound

/-- A state in the store without a global binding. -/
def Config.without (c : Config) (name : String) : Config := { c with store := c.store.without name }

/-- What a step leads to in the store without a global binding. -/
def withoutNext (name : String) : Config ⊕ (Outcome × Store) → Config ⊕ (Outcome × Store) :=
  Sum.map (·.without name) (Prod.map id (·.without name))

section Runs

variable {name : String} {bound : Option Value} {limit : Limit} {task : Task} {scope : Scope}
  {stack : List Suspended} {depth : Nat}

theorem carryOut_without (act : Action × Store) :
    carryOut limit task scope stack depth (withoutAct name act) =
      withoutNext name (carryOut limit task scope stack depth act) := by
  obtain ⟨action, s⟩ := act
  cases action with
  | finish v => rfl
  | fail f => rfl
  | crash c => rfl
  | request n inner work =>
      cases limit with
      | unset => rfl
      | frames count =>
          simp only [withoutAct, carryOut]
          split_ifs <;> rfl

theorem nextSpares_carryOut {act : Action × Store} (hact : ActSpares name bound act)
    (hstack : ∀ f ∈ stack, f.work.Avoids name) :
    NextSpares name bound (carryOut limit task scope stack depth act) := by
  obtain ⟨action, s⟩ := act
  obtain ⟨hs, hrequest⟩ := hact
  cases action with
  | finish v => exact ⟨hs, hstack, by rintro _ _ ⟨⟩⟩
  | fail f => exact ⟨hs, hstack, by rintro _ _ ⟨⟩⟩
  | crash c => exact hs
  | request n inner work =>
      obtain ⟨hn, hwork⟩ := hrequest n inner work rfl
      have hpushed : ∀ f ∈ (⟨task, scope, work⟩ : Suspended) :: stack, f.work.Avoids name :=
        List.forall_mem_cons.mpr ⟨hwork, hstack⟩
      cases limit with
      | unset => exact hs
      | frames count =>
          simp only [carryOut]
          split_ifs
          · exact ⟨hs.congr rfl rfl rfl, hpushed, by rintro _ _ ⟨⟩⟩
          · refine ⟨hs, hpushed, ?_⟩
            rintro _ _ ⟨⟩
            exact ⟨n, rfl, hn⟩

/-- One step uses no binding of the name, and it is the same step without the binding. -/
theorem advance_ignores {c : Config} (hc : c.Spares name bound) :
    NextSpares name bound (advance limit c) ∧
      advance limit (c.without name) = withoutNext name (advance limit c) := by
  obtain ⟨control, stack, depth, s⟩ := c
  obtain ⟨hs, hstack, hstart⟩ := hc
  have hcarry : ∀ {task scope stack depth act act'}, Ignores name bound act act' →
      (∀ f ∈ stack, f.work.Avoids name) →
      NextSpares name bound (carryOut limit task scope stack depth act) ∧
        carryOut limit task scope stack depth act' =
          withoutNext name (carryOut limit task scope stack depth act) := by
    intro task scope stack depth act act' hignores hstack
    refine ⟨nextSpares_carryOut hignores.spares hstack, ?_⟩
    rw [hignores.eq, carryOut_without]
  cases control with
  | start task scope =>
      obtain ⟨n, rfl, hn⟩ := hstart task scope rfl
      exact hcarry (ignores_beginNode hs hn) hstack
  | value v =>
      cases stack with
      | nil => exact ⟨hs, rfl⟩
      | cons f stack =>
          obtain ⟨hwork, hrest⟩ := List.forall_mem_cons.mp hstack
          exact hcarry (ignores_resume hs hwork v) hrest
  | failure e =>
      cases stack with
      | nil => exact ⟨hs, rfl⟩
      | cons f stack =>
          obtain ⟨hwork, hrest⟩ := List.forall_mem_cons.mp hstack
          simp only [Config.without, advance]
          split_ifs
          · exact hcarry (ignores_recover hs e f.work) hrest
          · exact ⟨⟨hs, hrest, by rintro _ _ ⟨⟩⟩, rfl⟩

/-- A run uses no binding of the name, and it is the same run without the binding. -/
theorem run_ignores {c : Config} (hc : c.Spares name bound) (fuel : Nat) :
    (∀ r, run limit fuel c = some r → r.2.Spares name bound) ∧
      run limit fuel (c.without name) = (run limit fuel c).map (Prod.map id (·.without name)) := by
  induction fuel generalizing c with
  | zero => exact ⟨fun _ => nofun, rfl⟩
  | succ fuel ih =>
      obtain ⟨hnext, hwithout⟩ := @advance_ignores name bound limit c hc
      rw [run, run, hwithout]
      cases hstep : advance limit c with
      | inl c' =>
          rw [hstep] at hnext
          exact ih hnext
      | inr r =>
          rw [hstep] at hnext
          refine ⟨?_, rfl⟩
          rintro _ ⟨⟩
          exact hnext

end Runs

end Machine

namespace Interpreter

open Parley.Machine

variable {name : String} {bound : Option Value} {limit : Limit} {fuel : Nat} {s : Store}

theorem execute_ignores {n : Node} (hs : s.Spares name bound) (hn : n.Avoids name) :
    (∀ r, execute limit fuel (.node n) s = some r → r.2.Spares name bound) ∧
      execute limit fuel (.node n) (s.without name) =
        (execute limit fuel (.node n) s).map (Prod.map id (·.without name)) := by
  refine run_ignores (c := .initial (.node n) .global s) ⟨hs, List.forall_mem_nil _, ?_⟩ fuel
  rintro _ _ ⟨⟩
  exact ⟨n, rfl, hn⟩

/-- Statements use no binding of the name, and they come to the same end without the binding. -/
theorem runStatements_ignores {ns : List Node} (hs : s.Spares name bound)
    (hns : ∀ n ∈ ns, n.Avoids name) (latest : Value) :
    (∀ r, runStatements limit fuel latest ns s = some r → r.2.Spares name bound) ∧
      runStatements limit fuel latest ns (s.without name) =
        (runStatements limit fuel latest ns s).map (Prod.map id (·.without name)) := by
  induction ns generalizing latest s with
  | nil =>
      refine ⟨?_, rfl⟩
      rintro _ ⟨⟩
      exact hs
  | cons n ns ih =>
      obtain ⟨hn, hns⟩ := List.forall_mem_cons.mp hns
      obtain ⟨hkept, hexecute⟩ := @execute_ignores name bound limit fuel s n hs hn
      rw [runStatements, runStatements, hexecute]
      cases hrun : execute limit fuel (.node n) s with
      | none => exact ⟨by rintro _ ⟨⟩, rfl⟩
      | some r =>
          obtain ⟨outcome, s'⟩ := r
          have hs' := hkept _ hrun
          cases outcome with
          | value v => exact ih hs' hns v
          | failure f =>
              cases f with
              | signal v home =>
                  refine ⟨?_, rfl⟩
                  rintro _ ⟨⟩
                  exact hs'.congr rfl rfl rfl
              | error e site =>
                  refine ⟨?_, rfl⟩
                  rintro _ ⟨⟩
                  exact hs'.congr rfl rfl rfl
          | crash c =>
              refine ⟨?_, rfl⟩
              rintro _ ⟨⟩
              exact hs'

/-- A text that does not mention a name runs to the same end without the global binding of it, which stays
what it is. -/
theorem runText_ignores {text : String} (hs : s.Spares name bound)
    (htext : ¬Grammar.Mentions text name) (file : Option String) :
    (∀ r, runText limit fuel text file s = some r → r.2.Spares name bound) ∧
      runText limit fuel text file (s.without name) =
        (runText limit fuel text file s).map (Prod.map id (·.without name)) := by
  rw [runText, runText]
  cases hparse : parseProgram text file with
  | error e =>
      refine ⟨?_, rfl⟩
      rintro _ ⟨⟩
      exact hs
  | ok program =>
      have hprogram := avoids_of_parseProgram hparse htext
      obtain ⟨body, ns, -, -, rfl⟩ := exists_of_parseProgram hparse
      obtain ⟨hkept, hrun⟩ := @runStatements_ignores name bound limit fuel s ns hs
        (fun _ => hprogram.operand) .nil
      dsimp only
      rw [runProgram, runProgram, Node.statements, hrun]
      cases hend : runStatements limit fuel .nil ns s with
      | none => exact ⟨by rintro _ ⟨⟩, rfl⟩
      | some r =>
          refine ⟨?_, rfl⟩
          rintro _ ⟨⟩
          exact hkept r hend

end Interpreter

end Parley
