import Parley.Proofs.ClassTable.Lookup
import Parley.Proofs.Machine.Activations

/-! How the store evolves. A run takes the store through single events: a change that code makes, a new
block, frame or activation, or the end of an activation. What every event keeps is kept by every run,
whatever comes of it. -/

namespace Parley

/-- A single event in a store. -/
inductive Store.Event : Store → Store → Prop
  | change {s s' : Store} (h : s.Change (fun _ => True) s') : Event s s'
  | newBlock (s : Store) (b : Block) : Event s (s.newBlock b).2
  | newFrame (s : Store) (parent : FrameRef) (bindings : List (String × Value)) :
      Event s (s.newFrame (some parent) bindings).2
  | newActivation (s : Store) (m : Method) (receiver : Value) :
      Event s (s.newActivation m receiver).2
  | retire (s : Store) (r : ActivationRef) : Event s (s.retire r)

/-- Events one after another. -/
def Store.Evolves : Store → Store → Prop := Relation.ReflTransGen Store.Event

theorem Store.Evolves.refl (s : Store) : s.Evolves s := Relation.ReflTransGen.refl

theorem Store.Event.evolves {s s' : Store} (h : s.Event s') : s.Evolves s' :=
  Relation.ReflTransGen.single h

theorem Store.Change.weaken {known : Value → Prop} {s s' : Store} (h : s.Change known s') :
    s.Change (fun _ => True) s' := by
  cases h with
  | newList => exact .newList _ fun _ _ => trivial
  | newObject h => exact .newObject h fun _ _ => trivial
  | setList => exact .setList _ _ trivial trivial
  | pushList => exact .pushList _ trivial trivial
  | setSlot _ hname => exact .setSlot trivial hname trivial
  | define => exact .define _ _ _ trivial
  | print => exact .print _ _
  | log => exact .log _ _
  | subclass h => exact .subclass h
  | install _ h => exact .install trivial h

theorem Store.Changes.evolves {known : Value → Prop} {s s' : Store} (h : s.Changes known s') :
    s.Evolves s' := by
  induction h with
  | refl => exact .refl s
  | tail _ hchange ih => exact ih.tail (.change hchange.weaken)

theorem Serves.evolves {t : Terms} {s : Store} {act : Action × Store} (h : Serves t s act) :
    s.Evolves act.2 := by
  cases h with
  | finish h => exact h.evolves
  | refuse _ h => exact h.evolves
  | call h => exact h.evolves.tail (.newFrame _ _ _)
  | invoke h => exact (h.evolves.tail (.newFrame _ _ _)).tail (.newActivation _ _ _)

namespace Machine

section Actions

variable {s : Store} {scope : Scope}

theorem evolves_send (receiver : Value) (selector : String) (args : List Value) :
    s.Evolves (s.send receiver selector args).2 :=
  (serves_send (admits_callTerms selector args) knows_callTerms trivial fun _ _ _ _ => trivial).evolves

theorem evolves_sendSuper (receiver : Value) (owner selector : String) (args : List Value) :
    s.Evolves (s.sendSuper receiver owner selector args).2 :=
  (serves_sendSuper (admits_callTerms selector args) knows_callTerms trivial
    fun _ _ => trivial).evolves

theorem evolves_nextItem (done : List Value) (todo : List Node) :
    s.Evolves (nextItem s scope done todo).2 := by
  cases todo with
  | nil => exact (@serves_finishList callTerms s done.reverse fun _ _ => trivial).evolves
  | cons n todo => exact .refl s

theorem evolves_nextStatement (latest : Value) (todo : List Node) :
    s.Evolves (nextStatement s scope latest todo).2 := by
  cases todo with
  | nil => exact .refl s
  | cons n todo => exact .refl s

theorem evolves_nextArgument (receiver : Value) (selector : String) (done : List Value)
    (isSuper : Bool) (todo : List Node) :
    s.Evolves (nextArgument s scope receiver selector done isSuper todo).2 := by
  cases todo with
  | nil =>
      rw [nextArgument, sendFrom.eq_def]
      split
      · exact evolves_sendSuper _ _ _ _
      · exact evolves_send _ _ _
  | cons n todo => exact .refl s

theorem evolves_begin (s : Store) (scope : Scope) (task : Task) :
    s.Evolves (begin s scope task).2 := by
  cases task with
  | message receiver selector args => exact evolves_send receiver selector args
  | superMessage receiver owner selector args => exact evolves_sendSuper receiver owner selector args
  | node n =>
      cases n with
      | atom origin a =>
          rw [begin, beginNode]
          split <;> exact .refl s
      | list origin items => exact evolves_nextItem [] items
      | block origin params bodyOrigin body => exact (Store.Event.newBlock s _).evolves
      | suite origin kind statements => exact evolves_nextStatement .nil statements
      | _ => exact .refl s

theorem evolves_resume (s : Store) (scope : Scope) (v : Value) (work : Work) :
    s.Evolves (resume s scope v work).2 := by
  have hserves : ∀ act, Serves callTerms s act → s.Evolves act.2 := fun _ => Serves.evolves
  cases work with
  | items done todo => exact evolves_nextItem (v :: done) todo
  | store target => exact hserves _ (serves_putValue trivial target trivial)
  | answer => exact .refl s
  | receiver selector args isSuper => exact evolves_nextArgument v selector [] isSuper args
  | argument receiver selector done todo isSuper =>
      exact evolves_nextArgument receiver selector (v :: done) isSuper todo
  | statements todo => exact evolves_nextStatement v todo
  | method home => exact (Store.Event.retire s home).evolves
  | result => exact .refl s
  | catching handler => exact .refl s
  | repeating answer block left =>
      exact hserves _ (serves_repeatBlock (fun _ _ => trivial) fun _ _ _ => nofun)
  | counting answer block next left =>
      exact hserves _
        (serves_countBlock knows_callTerms (fun _ _ => trivial) next fun _ _ _ => nofun)
  | visiting answer block todo =>
      exact hserves _ (serves_visitItems (fun _ _ => trivial) fun _ _ _ _ => nofun)
  | collecting block done todo =>
      exact hserves _ (serves_collectItems (fun _ _ => trivial) fun _ _ _ _ => nofun)
  | testing expected condition body =>
      exact hserves _ (serves_afterTest knows_callTerms v (fun _ _ => trivial) (.inl trivial)
        (fun _ => nofun) (fun _ => nofun))
  | looping expected condition body =>
      exact hserves _ (serves_testLoop (fun _ _ => trivial) fun _ => nofun)

theorem evolves_recover (s : Store) (failure : Failure) (work : Work) :
    s.Evolves (recover s failure work).2 := by
  cases work with
  | method home =>
      have hretired : s.Evolves (s.retire home) := (Store.Event.retire s home).evolves
      cases failure with
      | error e site => exact hretired
      | signal v target =>
          cases target with
          | none => exact hretired
          | some target =>
              rw [recover]
              split_ifs <;> exact hretired
  | catching handler =>
      cases failure with
      | signal v target => exact .refl s
      | error e site => exact (serves_handle knows_callTerms e trivial (by rintro _ ⟨⟩)).evolves
  | _ => exact .refl s

end Actions

/-! Runs -/

section Runs

variable {limit : Limit}

theorem evolves_carryOut {task : Task} {scope : Scope} {stack : List Suspended} {depth : Nat}
    {act : Action × Store} {c : Config}
    (h : carryOut limit task scope stack depth act = .inl c) : act.2.Evolves c.store := by
  obtain ⟨v, s, rfl, rfl⟩ | ⟨f, s, rfl, rfl⟩ |
    ⟨n, inner, work, s, count, rfl, rfl, ⟨-, rfl⟩ | ⟨-, rfl⟩⟩ := carryOut_cases h
  · exact .refl s
  · exact .refl s
  · exact (Store.Event.change (.log s _)).evolves
  · exact .refl s

theorem Steps.evolves {c c' : Config} (h : Steps limit c c') : c.store.Evolves c'.store := by
  obtain ⟨task, scope, stack, depth, s, rfl, h⟩ | ⟨v, task, scope, work, stack, depth, s, rfl, h⟩ |
    ⟨e, task, scope, work, stack, depth, s, rfl, -, h⟩ |
    ⟨e, task, scope, work, stack, depth, s, rfl, -, rfl⟩ := advance_cases h
  · exact (evolves_begin s scope task).trans (evolves_carryOut h)
  · exact (evolves_resume s scope v work).trans (evolves_carryOut h)
  · exact (evolves_recover s e work).trans (evolves_carryOut h)
  · exact .refl s

theorem Reaches.evolves {c c' : Config} (h : Reaches limit c c') : c.store.Evolves c'.store := by
  induction h with
  | refl => exact .refl c.store
  | tail _ hstep ih => exact ih.trans hstep.evolves

theorem evolves_of_carryOut_ending {task : Task} {scope : Scope} {stack : List Suspended}
    {depth : Nat} {act : Action × Store} {r : Outcome × Store}
    (h : carryOut limit task scope stack depth act = .inr r) : act.2.Evolves r.2 := by
  obtain ⟨c, s, rfl, rfl⟩ | ⟨n, inner, work, s, rfl, rfl, rfl⟩ := carryOut_ending_cases h
  · exact .refl s
  · exact .refl s

theorem evolves_of_advance_ending {c : Config} {r : Outcome × Store}
    (h : advance limit c = .inr r) : c.store.Evolves r.2 := by
  obtain ⟨v, depth, s, rfl, rfl⟩ | ⟨e, depth, s, rfl, rfl⟩ | ⟨task, scope, stack, depth, s, rfl, h⟩ |
    ⟨v, task, scope, work, stack, depth, s, rfl, h⟩ |
    ⟨e, task, scope, work, stack, depth, s, rfl, -, h⟩ := advance_ending_cases h
  · exact .refl s
  · exact .refl s
  · exact (evolves_begin s scope task).trans (evolves_of_carryOut_ending h)
  · exact (evolves_resume s scope v work).trans (evolves_of_carryOut_ending h)
  · exact (evolves_recover s e work).trans (evolves_of_carryOut_ending h)

/-- Whatever comes of a run, the store has gone through events only. -/
theorem evolves_of_run {fuel : Nat} {c : Config} {r : Outcome × Store}
    (h : run limit fuel c = some r) : c.store.Evolves r.2 := by
  obtain ⟨c', hreaches, hend⟩ := exists_reaches_of_run h
  exact hreaches.evolves.trans (evolves_of_advance_ending hend)

end Runs

end Machine

/-! Classes -/

theorem Store.Event.extends_classes {s s' : Store} (h : s.Event s') (hs : s.classes.WellFormed) :
    s.classes.Extends s'.classes := by
  cases h with
  | change hchange =>
      cases hchange with
      | subclass hsubclass => exact hs.extends_subclass hsubclass
      | install _ hdefine => exact hs.extends_define hdefine
      | _ => exact .refl hs
  | _ => exact .refl hs

/-- Classes stay where they are in the hierarchy, and the table stays well formed. -/
theorem Store.Evolves.extends_classes {s s' : Store} (h : s.Evolves s')
    (hs : s.classes.WellFormed) : s.classes.Extends s'.classes := by
  induction h with
  | refl => exact .refl hs
  | tail _ hevent ih => exact ih.trans (hevent.extends_classes ih.wellFormed)

end Parley
