import Parley.Proofs.Machine.Sending
import Parley.Proofs.Machine.Steps

/-! Activations and the stack. An activation is alive exactly as long as the task that invoked its method
waits on the stack for the value of the method's body. Every way out of a method goes through that task,
so a return that finds its activation alive ends there. Only a crash goes past the tasks on the stack, and
leaves their activations alive for good. -/

namespace Parley

namespace Store

/-- An activation that exists in a store. -/
def Created (s : Store) (r : ActivationRef) : Prop := r.index < s.activations.size

/-- An activation that has not been ended. -/
def Alive (s : Store) (r : ActivationRef) : Prop := (s.activation r).alive = true

/-- The home of every block is an activation that exists. -/
def HomesExist (s : Store) : Prop := ∀ b ∈ s.blocks, ∀ r ∈ b.home, s.Created r

theorem alive_retire {s : Store} {r r' : ActivationRef} :
    (s.retire r).Alive r' ↔ r' ≠ r ∧ s.Alive r' := by
  have hne : r' ≠ r ↔ r'.index ≠ r.index := by
    rw [ne_eq, ne_eq, ActivationRef.mk.injEq]
  rw [hne]
  simp only [Alive, activation, retire, Array.getD_eq_getD_getElem?, Array.getElem?_modify]
  by_cases h : r.index = r'.index
  · rw [if_pos h]
    cases s.activations[r'.index]? with
    | none => simp [h]; rfl
    | some a => simp [h]
  · rw [if_neg h]
    simp [Ne.symm h]

theorem alive_newActivation {s : Store} {m : Method} {receiver : Value} {r : ActivationRef} :
    (s.newActivation m receiver).2.Alive r ↔ r = ⟨s.activations.size⟩ ∨ s.Alive r := by
  simp only [Alive, activation, newActivation, Array.getD_eq_getD_getElem?, Array.getElem?_push]
  by_cases h : r.index = s.activations.size
  · rw [if_pos h]
    simp [← h]
  · rw [if_neg h]
    have hne : r ≠ ⟨s.activations.size⟩ := fun heq => h (congrArg ActivationRef.index heq)
    simp [hne]

theorem created_of_alive {s : Store} {r : ActivationRef} (h : s.Alive r) : s.Created r := by
  by_contra hlt
  rw [Alive, activation, Array.getD_eq_getD_getElem?, Array.getElem?_eq_none (Nat.le_of_not_lt hlt)] at h
  cases h

/-- Changes leave blocks and activations as they are. -/
theorem Changes.blocks_activations {known : Value → Prop} {s s' : Store} (h : s.Changes known s') :
    s'.blocks = s.blocks ∧ s'.activations = s.activations := by
  induction h with
  | refl => exact ⟨rfl, rfl⟩
  | tail _ hchange ih => cases hchange <;> exact ih

end Store

/-- The home of a scope is an activation that exists. -/
def Scope.Known (s : Store) (scope : Scope) : Prop := ∀ r ∈ scope.home, s.Created r

namespace Machine

/-- The activation that a suspended task ends when it gets the value it waits for. -/
def Suspended.activation? (f : Suspended) : Option ActivationRef :=
  match f.work with
  | .method r => some r
  | _ => none

/-- The activations whose methods are suspended on a stack. -/
def suspended (stack : List Suspended) : List ActivationRef := stack.filterMap Suspended.activation?

theorem suspended_cons_of_ne {task : Task} {scope : Scope} {work : Work}
    (hwork : ∀ r, work ≠ .method r) (stack : List Suspended) :
    suspended (⟨task, scope, work⟩ :: stack) = suspended stack := by
  refine List.filterMap_cons_none ?_
  rw [Suspended.activation?]
  split
  · next r hr => exact absurd hr (hwork r)
  · rfl

/-- The activations that are alive are those suspended on the stack, each once, and the stale ones, which
are never suspended again. Every home refers to an activation. -/
structure Tracks (stale : ActivationRef → Prop) (stack : List Suspended) (s : Store) : Prop where
  alive : ∀ r, s.Alive r ↔ r ∈ suspended stack ∨ stale r
  apart : ∀ r ∈ suspended stack, ¬stale r
  nodup : (suspended stack).Nodup
  scopes : ∀ f ∈ stack, f.scope.Known s
  blocks : s.HomesExist

/-- Where nothing is suspended, whatever is alive is stale. -/
theorem tracks_of_homesExist {s : Store} (h : s.HomesExist) : Tracks s.Alive [] s :=
  ⟨fun _ => ⟨.inr, fun halive => halive.resolve_left List.not_mem_nil⟩, List.forall_mem_nil _, .nil,
    List.forall_mem_nil _, h⟩

namespace Tracks

variable {stale : ActivationRef → Prop} {stack : List Suspended} {s s' : Store} {task : Task}
  {scope : Scope} {work : Work}

/-- Only blocks and activations of a store count. -/
theorem congr (h : Tracks stale stack s) (hblocks : s'.blocks = s.blocks)
    (hactivations : s'.activations = s.activations) : Tracks stale stack s' := by
  have hcreated : ∀ r, s'.Created r ↔ s.Created r := fun r => by
    rw [Store.Created, hactivations, Store.Created]
  refine ⟨fun r => ?_, h.apart, h.nodup, fun f hf r hr => (hcreated r).mpr (h.scopes f hf r hr), ?_⟩
  · rw [Store.Alive, Store.activation, hactivations]
    exact h.alive r
  · intro b hb r hr
    rw [hblocks] at hb
    exact (hcreated r).mpr (h.blocks b hb r hr)

theorem changes {known : Value → Prop} (h : Tracks stale stack s) (hc : s.Changes known s') :
    Tracks stale stack s' :=
  h.congr hc.blocks_activations.1 hc.blocks_activations.2

theorem newBlock (h : Tracks stale stack s) {b : Block} (hb : ∀ r ∈ b.home, s.Created r) :
    Tracks stale stack (s.newBlock b).2 := by
  refine ⟨h.alive, h.apart, h.nodup, h.scopes, ?_⟩
  intro c hc
  rcases Array.mem_push.mp hc with hc | rfl
  · exact h.blocks c hc
  · exact hb

theorem created_of_block (h : Tracks stale stack s) {r : BlockRef} {home : ActivationRef}
    (hhome : home ∈ (s.block r).home) : s.Created home := by
  rw [Store.block, Array.getD_eq_getD_getElem?] at hhome
  cases hr : s.blocks[r.index]? with
  | none =>
      rw [hr] at hhome
      cases hhome
  | some b =>
      rw [hr] at hhome
      exact h.blocks b (Array.mem_of_getElem? hr) home hhome

/-- A task that does not run a method is suspended. -/
theorem push (h : Tracks stale stack s) (hscope : scope.Known s) (hwork : ∀ r, work ≠ .method r) :
    Tracks stale (⟨task, scope, work⟩ :: stack) s := by
  refine ⟨?_, ?_, ?_, List.forall_mem_cons.mpr ⟨hscope, h.scopes⟩, h.blocks⟩
  · rw [suspended_cons_of_ne hwork]
    exact h.alive
  · rw [suspended_cons_of_ne hwork]
    exact h.apart
  · rw [suspended_cons_of_ne hwork]
    exact h.nodup

/-- A task that does not run a method is taken from the stack. -/
theorem pop (h : Tracks stale (⟨task, scope, work⟩ :: stack) s) (hwork : ∀ r, work ≠ .method r) :
    Tracks stale stack s := by
  obtain ⟨halive, hapart, hnodup, hscopes, hblocks⟩ := h
  rw [suspended_cons_of_ne hwork] at halive hapart hnodup
  exact ⟨halive, hapart, hnodup, fun f hf => hscopes f (List.mem_cons_of_mem _ hf), hblocks⟩

/-- A method is invoked: its activation is new, and its task is suspended. -/
theorem invoke (h : Tracks stale stack s) (hscope : scope.Known s) (m : Method) (receiver : Value) :
    Tracks stale (⟨task, scope, .method ⟨s.activations.size⟩⟩ :: stack) (s.newActivation m receiver).2 := by
  have hnew : ¬s.Alive ⟨s.activations.size⟩ := fun halive =>
    absurd (Store.created_of_alive halive) (Nat.lt_irrefl _)
  rw [h.alive, not_or] at hnew
  have hcreated : ∀ r, s.Created r → (s.newActivation m receiver).2.Created r := by
    intro r hr
    rw [Store.Created, Store.newActivation, Array.size_push]
    exact Nat.lt_succ_of_lt hr
  refine ⟨fun r => ?_, List.forall_mem_cons.mpr ⟨hnew.2, h.apart⟩,
    List.nodup_cons.mpr ⟨hnew.1, h.nodup⟩, ?_, ?_⟩
  · rw [Store.alive_newActivation, h.alive, ← or_assoc]
    exact or_congr_left List.mem_cons.symm
  · intro f hf r hr
    rcases List.mem_cons.mp hf with rfl | hf
    · exact hcreated r (hscope r hr)
    · exact hcreated r (h.scopes f hf r hr)
  · exact fun b hb r hr => hcreated r (h.blocks b hb r hr)

/-- A method ends: its activation dies with the task that invoked it. -/
theorem retire {r : ActivationRef} (h : Tracks stale (⟨task, scope, .method r⟩ :: stack) s) :
    Tracks stale stack (s.retire r) := by
  obtain ⟨hr, hnodup⟩ := List.nodup_cons.mp h.nodup
  obtain ⟨hopen, hapart⟩ := List.forall_mem_cons.mp h.apart
  have hcreated : ∀ r', s.Created r' → (s.retire r).Created r' := by
    intro r' hr'
    rw [Store.Created, Store.retire, Array.size_modify]
    exact hr'
  refine ⟨fun r' => ?_, hapart, hnodup, ?_, fun b hb r' hr' => hcreated r' (h.blocks b hb r' hr')⟩
  · rw [Store.alive_retire, h.alive]
    constructor
    · rintro ⟨hne, hmem | hstale⟩
      · exact .inl ((List.mem_cons.mp hmem).resolve_left hne)
      · exact .inr hstale
    · rintro (hmem | hstale)
      · exact ⟨fun heq => hr (heq ▸ hmem), .inl (List.mem_cons_of_mem r hmem)⟩
      · exact ⟨fun heq => hopen (heq ▸ hstale), .inr hstale⟩
  · exact fun f hf r' hr' => hcreated r' (h.scopes f (List.mem_cons_of_mem _ hf) r' hr')

end Tracks

/-- An action above a stack keeps track of the activations, and a return that it makes is to a method on
the stack or to a stale one. -/
def ActTracks (stale : ActivationRef → Prop) (task : Task) (scope : Scope) (stack : List Suspended) : Action × Store → Prop
  | (.finish _, s) => Tracks stale stack s
  | (.fail f, s) => Tracks stale stack s ∧ ∀ v r, f = .signal v (some r) → r ∈ suspended stack ∨ stale r
  | (.crash _, s) => Tracks stale stack s
  | (.request _ inner work, s) => Tracks stale (⟨task, scope, work⟩ :: stack) s ∧ inner.Known s

section Acts

variable {stale : ActivationRef → Prop} {task : Task} {scope : Scope} {stack : List Suspended} {s : Store}

theorem ActTracks.error (h : Tracks stale stack s) (e : Error) :
    ActTracks stale task scope stack (.error e, s) := ⟨h, fun _ _ => nofun⟩

/-- Blocks are called for works other than those of methods. -/
def callTerms : Terms where
  known _ := True
  allowed work := ∀ r, work ≠ .method r
  invoked _ _ := True
  lacking := True

theorem knows_callTerms : callTerms.Knows s := Terms.knows_of_forall fun _ => trivial

/-- However a message is served, the activations are kept track of. -/
theorem actTracks_of_serves (h : Tracks stale stack s) (hscope : scope.Known s) {act : Action × Store}
    (hact : Serves callTerms s act) : ActTracks stale task scope stack act := by
  have hknown : ∀ s', s.Changes callTerms.known s' → scope.Known s' := fun s' hc r hr => by
    rw [Store.Created, hc.blocks_activations.2]
    exact hscope r hr
  cases hact with
  | finish hc => exact h.changes hc
  | refuse ha hc =>
      obtain ⟨e, rfl⟩ | ⟨rfl, -⟩ | ⟨rfl, -⟩ := ha.cases
      · exact .error (h.changes hc) e
      · exact h.changes hc
      · exact h.changes hc
  | @call s' r args work hc _ _ hwork =>
      have hs' := h.changes hc
      refine ⟨Tracks.congr (hs'.push (hknown s' hc) hwork.1) rfl rfl, ?_⟩
      intro home hhome
      exact hs'.created_of_block hhome
  | @invoke s' m receiver args hc _ _ _ =>
      have hs' : Tracks stale stack (s'.newFrame (some Store.globals) (m.params.zip args)).2 :=
        (h.changes hc).congr rfl rfl
      refine ⟨hs'.invoke (hknown s' hc) m receiver, ?_⟩
      intro home hhome
      obtain rfl := Option.some.inj hhome
      rw [Store.Created, Store.newActivation, Array.size_push]
      exact Nat.lt_succ_self _

theorem admits_callTerms (selector : String) (args : List Value) : Admits callTerms selector args := by
  refine ⟨?_, ?_, fun _ _ => trivial, .inl trivial⟩
  · rintro work hwork r rfl
    cases hwork
  · rintro - work hwork r rfl
    cases hwork

theorem actTracks_send (h : Tracks stale stack s) (hscope : scope.Known s) (receiver : Value)
    (selector : String) (args : List Value) :
    ActTracks stale task scope stack (s.send receiver selector args) :=
  actTracks_of_serves h hscope (serves_send (admits_callTerms selector args) knows_callTerms trivial
    fun _ _ _ _ => trivial)

theorem actTracks_sendSuper (h : Tracks stale stack s) (hscope : scope.Known s) (receiver : Value)
    (owner selector : String) (args : List Value) :
    ActTracks stale task scope stack (s.sendSuper receiver owner selector args) :=
  actTracks_of_serves h hscope (serves_sendSuper (admits_callTerms selector args) knows_callTerms
    trivial fun _ _ => trivial)

/-- A part of a node is requested in the scope of the node. -/
theorem actTracks_request (h : Tracks stale stack s) (hscope : scope.Known s) (n : Node) {work : Work}
    (hwork : ∀ r, work ≠ .method r) : ActTracks stale task scope stack (.request n scope work, s) :=
  ⟨h.push hscope hwork, hscope⟩

theorem actTracks_nextItem (h : Tracks stale stack s) (hscope : scope.Known s) (done : List Value)
    (todo : List Node) : ActTracks stale task scope stack (nextItem s scope done todo) := by
  cases todo with
  | nil => exact actTracks_of_serves h hscope (serves_finishList fun _ _ => trivial)
  | cons n todo => exact actTracks_request h hscope n (fun _ => nofun)

theorem actTracks_nextStatement (h : Tracks stale stack s) (hscope : scope.Known s) (latest : Value)
    (todo : List Node) : ActTracks stale task scope stack (nextStatement s scope latest todo) := by
  cases todo with
  | nil => exact h
  | cons n todo => exact actTracks_request h hscope n (fun _ => nofun)

theorem actTracks_nextArgument (h : Tracks stale stack s) (hscope : scope.Known s) (receiver : Value)
    (selector : String) (done : List Value) (isSuper : Bool) (todo : List Node) :
    ActTracks stale task scope stack (nextArgument s scope receiver selector done isSuper todo) := by
  cases todo with
  | nil =>
      rw [nextArgument, sendFrom.eq_def]
      split
      · exact actTracks_sendSuper h hscope receiver _ selector _
      · exact actTracks_send h hscope receiver selector _
  | cons n todo => exact actTracks_request h hscope n (by rintro _ ⟨⟩)

theorem actTracks_begin (h : Tracks stale stack s) (hscope : scope.Known s) :
    ActTracks stale task scope stack (begin s scope task) := by
  cases task with
  | message receiver selector args => exact actTracks_send h hscope receiver selector args
  | superMessage receiver owner selector args =>
      exact actTracks_sendSuper h hscope receiver owner selector args
  | node n =>
      cases n with
      | atom origin a =>
          rw [begin, beginNode]
          split
          · exact h
          · exact .error h _
      | list origin items => exact actTracks_nextItem h hscope [] items
      | store origin target value => exact actTracks_request h hscope value (by rintro _ ⟨⟩)
      | answer origin value => exact actTracks_request h hscope value (by rintro _ ⟨⟩)
      | send origin receiver selector args => exact actTracks_request h hscope receiver (by rintro _ ⟨⟩)
      | block origin params bodyOrigin body => exact h.newBlock hscope
      | suite origin kind statements => exact actTracks_nextStatement h hscope .nil statements

/-- A return goes to a method on the stack or to a stale one, or is refused. -/
theorem actTracks_returnValue (h : Tracks stale stack s) (v : Value) :
    ActTracks stale task scope stack (returnValue s scope v, s) := by
  rw [returnValue]
  split
  · exact ⟨h, fun _ _ => nofun⟩
  · split_ifs with halive
    · refine ⟨h, ?_⟩
      intro v' r hsignal
      cases hsignal
      exact (h.alive _).mp halive
    · exact .error h _

theorem actTracks_resume {work : Work} (h : Tracks stale (⟨task, scope, work⟩ :: stack) s) (v : Value) :
    ActTracks stale task scope stack (resume s scope v work) := by
  have hscope : scope.Known s := h.scopes _ List.mem_cons_self
  have hserves : ∀ act, (∀ r, work ≠ .method r) → Serves callTerms s act →
      ActTracks stale task scope stack act :=
    fun act hwork hact => actTracks_of_serves (h.pop hwork) hscope hact
  cases work with
  | items done todo => exact actTracks_nextItem (h.pop fun _ => nofun) hscope (v :: done) todo
  | store target => exact hserves _ (fun _ => nofun) (serves_putValue trivial target trivial)
  | answer => exact actTracks_returnValue (h.pop fun _ => nofun) v
  | receiver selector args isSuper =>
      exact actTracks_nextArgument (h.pop fun _ => nofun) hscope v selector [] isSuper args
  | argument receiver selector done todo isSuper =>
      exact actTracks_nextArgument (h.pop fun _ => nofun) hscope receiver selector _ isSuper todo
  | statements todo => exact actTracks_nextStatement (h.pop fun _ => nofun) hscope v todo
  | method home => exact h.retire
  | result => exact h.pop fun _ => nofun
  | catching handler => exact h.pop fun _ => nofun
  | repeating answer block left =>
      exact hserves _ (fun _ => nofun) (serves_repeatBlock (fun _ _ => trivial) fun _ _ _ => nofun)
  | counting answer block next left =>
      exact hserves _ (fun _ => nofun)
        (serves_countBlock knows_callTerms (fun _ _ => trivial) next fun _ _ _ => nofun)
  | visiting answer block todo =>
      exact hserves _ (fun _ => nofun) (serves_visitItems (fun _ _ => trivial) fun _ _ _ _ => nofun)
  | collecting block done todo =>
      exact hserves _ (fun _ => nofun) (serves_collectItems (fun _ _ => trivial) fun _ _ _ _ => nofun)
  | testing expected condition body =>
      exact hserves _ (fun _ => nofun) (serves_afterTest knows_callTerms v (fun _ _ => trivial)
        (.inl trivial) (fun _ => nofun) (fun _ => nofun))
  | looping expected condition body =>
      exact hserves _ (fun _ => nofun) (serves_testLoop (fun _ _ => trivial) fun _ => nofun)

/-- A failure that is handed back ends the method if it was one; a return to that method is its value, and
any other return goes on to a method further out. -/
theorem actTracks_recover {work : Work} (h : Tracks stale (⟨task, scope, work⟩ :: stack) s)
    {failure : Failure}
    (hfailure : ∀ v r, failure = .signal v (some r) →
      r ∈ suspended (⟨task, scope, work⟩ :: stack) ∨ stale r)
    (hguarded : work.isGuarded = true) : ActTracks stale task scope stack (recover s failure work) := by
  have hscope : scope.Known s := h.scopes _ List.mem_cons_self
  cases work with
  | method home =>
      match failure with
      | .error e site => exact ⟨h.retire, fun _ _ => nofun⟩
      | .signal v none => exact ⟨h.retire, fun _ _ => nofun⟩
      | .signal v (some target) =>
          rw [recover]
          split_ifs with htarget
          · exact h.retire
          · refine ⟨h.retire, ?_⟩
            intro v' r hsignal
            cases hsignal
            exact (hfailure v target rfl).imp_left fun hmem =>
              (List.mem_cons.mp hmem).resolve_left htarget
  | catching handler =>
      have hpop : Tracks stale stack s := h.pop fun _ => nofun
      cases failure with
      | error e site =>
          exact actTracks_of_serves hpop hscope
            (serves_handle knows_callTerms e trivial fun _ => nofun)
      | signal v target =>
          have hne : ∀ r, Work.catching handler ≠ .method r := fun _ => nofun
          rw [suspended_cons_of_ne hne] at hfailure
          exact ⟨hpop, hfailure⟩
  | _ => cases hguarded

end Acts

/-- A state in which the activations are kept track of, and a return on its way out is to a method on the
stack or to a stale one. -/
structure Config.Tracked (stale : ActivationRef → Prop) (c : Config) : Prop where
  tracks : Tracks stale c.stack c.store
  start : ∀ task scope, c.control = .start task scope → scope.Known c.store
  signal : ∀ v r, c.control = .failure (.signal v (some r)) → r ∈ suspended c.stack ∨ stale r

theorem eq_signal_of_stamp {task : Task} {f : Failure} {v : Value} {home : Option ActivationRef}
    (h : stamp task f = .signal v home) : f = .signal v home := by
  cases f with
  | signal v' home' => exact h
  | error e site => cases site <;> cases h

theorem Config.Tracked.carryOut {stale : ActivationRef → Prop} {limit : Limit} {task : Task} {scope : Scope}
    {stack : List Suspended} {depth : Nat} {act : Action × Store} {c : Config}
    (hact : ActTracks stale task scope stack act)
    (h : carryOut limit task scope stack depth act = .inl c) : c.Tracked stale := by
  obtain ⟨v, s, rfl, rfl⟩ | ⟨f, s, rfl, rfl⟩ |
    ⟨n, inner, work, s, count, rfl, rfl, ⟨-, rfl⟩ | ⟨-, rfl⟩⟩ := carryOut_cases h
  · exact ⟨hact, fun _ _ => nofun, fun _ _ => nofun⟩
  · refine ⟨hact.1, fun _ _ => nofun, ?_⟩
    intro v r hsignal
    exact hact.2 v r (eq_signal_of_stamp (Control.failure.inj hsignal))
  · exact ⟨hact.1.congr rfl rfl, fun _ _ => nofun, fun _ _ => nofun⟩
  · refine ⟨hact.1, fun task' scope' hstart => ?_, fun _ _ => nofun⟩
    cases hstart
    exact hact.2

theorem Config.Tracked.step {stale : ActivationRef → Prop} {limit : Limit} {c c' : Config}
    (hc : c.Tracked stale) (h : Steps limit c c') : c'.Tracked stale := by
  obtain ⟨htracks, hstart, hsignal⟩ := hc
  obtain ⟨task, scope, stack, depth, s, rfl, h⟩ | ⟨v, task, scope, work, stack, depth, s, rfl, h⟩ |
    ⟨e, task, scope, work, stack, depth, s, rfl, hguarded, h⟩ |
    ⟨e, task, scope, work, stack, depth, s, rfl, hguarded, rfl⟩ := advance_cases h
  · exact .carryOut (actTracks_begin htracks (hstart task scope rfl)) h
  · exact .carryOut (actTracks_resume htracks v) h
  · refine .carryOut (actTracks_recover htracks (fun v r hr => hsignal v r ?_) hguarded) h
    rw [hr]
  · have hne : ∀ r, work ≠ .method r := by
      rintro r rfl
      cases hguarded
    refine ⟨htracks.pop hne, fun _ _ => nofun, ?_⟩
    intro v r hr
    rw [← suspended_cons_of_ne hne]
    exact hsignal v r hr

theorem Reaches.tracked {stale : ActivationRef → Prop} {limit : Limit} {c c' : Config}
    (h : Reaches limit c c') (hc : c.Tracked stale) : c'.Tracked stale := h.invariant (fun _ _ => Config.Tracked.step) hc

end Machine

end Parley
