import Parley.Proofs.Session
import Parley.Proofs.Store.Coherence

/-! Coherence along runs. Receiver and home travel separately through scopes, blocks, methods and `super`
sends; at every point of every run they belong together. The receiver of a `super` send is the one of the
scope: the word `super` is evaluated at once, in the scope of the send, so its value is still known when
the method is looked up. -/

namespace Parley

def Scope.Coheres (s : Store) (scope : Scope) : Prop := s.Coheres scope.self scope.home

/-- A failure that carries no value, or one that refers to something that exists. -/
def Failure.Stored (s : Store) : Failure → Prop
  | .error _ _ => True
  | .signal v _ => v.Stored s

/-- Whether a work waits for the value of the word `super`. -/
def Work.awaitsSuper : Work → Bool
  | .receiver _ _ isSuper => isSuper
  | _ => false

/-- The values of a work refer to something that exists, and a `super` send is to the receiver of the
scope. -/
structure Work.Coheres (s : Store) (scope : Scope) (work : Work) : Prop where
  stored : ∀ v ∈ work.values, v.Stored s
  self : ∀ receiver selector done todo,
    work = .argument receiver selector done todo true → receiver = scope.self

namespace Machine

/-- An action of a task in a scope that keeps the store coherent, and with it what it hands on. -/
def ActCoheres (scope : Scope) : Action × Store → Prop
  | (.finish v, s) => s.Coherent ∧ v.Stored s
  | (.fail f, s) => s.Coherent ∧ f.Stored s
  | (.crash _, s) => s.Coherent
  | (.request n inner work, s) => s.Coherent ∧ inner.Coheres s ∧ work.Coheres s scope ∧
    (work.awaitsSuper = true → n.isSuper = true ∧ inner = scope)

section Acts

variable {s : Store} {scope : Scope}

/-- Values that exist are known, and a method is invoked for a receiver that suits it. -/
def coherentTerms (s : Store) : Terms where
  known v := v.Stored s
  allowed work := work.awaitsSuper = false ∧
    ∀ receiver selector done todo, work ≠ .argument receiver selector done todo true
  invoked := s.Suits
  lacking := True

theorem knows_coherentTerms (hs : s.Coherent) : (coherentTerms s).Knows s :=
  ⟨fun _ hv => Value.stored_of_isFree hv, fun r _ _ hv => hs.closed.item r hv⟩

theorem allowed_of_isCall {work : Work} (h : work.isCall = true) :
    (coherentTerms s).allowed work := by
  cases work <;> cases h <;> exact ⟨rfl, fun _ _ _ _ => nofun⟩

theorem allowed_of_isLoop {work : Work} (h : work.IsLoop True) : (coherentTerms s).allowed work := by
  cases work with
  | testing expected condition body => exact ⟨rfl, fun _ _ _ _ => nofun⟩
  | looping expected condition body => exact ⟨rfl, fun _ _ _ _ => nofun⟩
  | _ => cases h

theorem admits_coherentTerms (selector : String) {args : List Value}
    (hargs : ∀ v ∈ args, v.Stored s) : Admits (coherentTerms s) selector args :=
  ⟨fun _ => allowed_of_isCall, fun _ _ => allowed_of_isLoop, hargs, .inl trivial⟩

theorem ActCoheres.error (hs : s.Coherent) (e : Error) : ActCoheres scope (.error e, s) :=
  ⟨hs, trivial⟩

/-- However a message is served, what runs next runs for a receiver that belongs to its home. -/
theorem actCoheres_of_serves (hs : s.Coherent) {act : Action × Store}
    (hact : Serves (coherentTerms s) s act) : ActCoheres scope act := by
  have hgrows : ∀ s', s.Evolves s' → s.Grows s' ∧ s.classes.Extends s'.classes :=
    fun s' he => ⟨he.grows, he.extends_classes hs.classes⟩
  have hchanges : ∀ s', s.Changes (coherentTerms s).known s' → s'.Coherent :=
    fun s' hc => hs.changes (fun _ hv => hv) hc
  cases hact with
  | @finish v s' hc hv =>
      refine ⟨hchanges s' hc, ?_⟩
      rcases hv with hv | hv
      · exact hv.mono hc.evolves.grows
      · exact hv.stored
  | @refuse a s' ha hc =>
      obtain ⟨e, rfl⟩ | ⟨rfl, -⟩ | ⟨rfl, -⟩ := ha.cases
      · exact .error (hchanges s' hc) e
      · exact hchanges s' hc
      · exact hchanges s' hc
  | @call s' r args work hc _ hargs hwork =>
      have hs' := hchanges s' hc
      have hevent := Store.Event.newFrame s' (s'.block r).env ((s'.block r).params.zip args)
      have hstored : ∀ v : Value, v.Stored s → v.Stored s' := fun v hv => hv.mono hc.evolves.grows
      refine ⟨hs'.newFrame _ _ fun v hv => hstored v (hargs v hv), ?_, ⟨?_, ?_⟩, ?_⟩
      · exact (hs'.block r).mono hevent.grows (hevent.extends_classes hs'.classes)
      · exact fun v hv => (hstored v (hwork.2 v hv)).mono hevent.grows
      · exact fun receiver selector done todo heq => absurd heq (hwork.1.2 _ _ _ _)
      · exact fun hsuper => nomatch hwork.1.1.symm.trans hsuper
  | @invoke s' m receiver args hc hm hreceiver hargs =>
      have hs' := hchanges s' hc
      have hargs' : ∀ v ∈ args, v.Stored s' := fun v hv => (hargs v hv).mono hc.evolves.grows
      have hframe := hs'.newFrame Store.globals m.params hargs'
      have hevolves := ((hc.evolves.tail (.newFrame s' Store.globals (m.params.zip args))).tail
        (.newActivation _ m receiver))
      obtain ⟨hgrows', hextends⟩ := hgrows _ hevolves
      refine ⟨hframe.newActivation m receiver, ?_, ⟨List.forall_mem_nil _, fun _ _ _ _ => nofun⟩,
        nofun⟩
      have hself := Store.activation_newActivation_self
        (s'.newFrame (some Store.globals) (m.params.zip args)).2 m receiver
      refine ⟨?_, ?_, ?_⟩
      · rw [Store.Created, Store.newActivation, Array.size_push]
        exact Nat.lt_succ_self _
      · exact congrArg Activation.receiver hself
      · rw [show ((s'.newFrame (some Store.globals) (m.params.zip args)).2.newActivation m
          receiver).2.activation ⟨s'.activations.size⟩ = _ from hself]
        exact hm.mono hgrows' hextends

theorem actCoheres_send (hs : s.Coherent) {receiver : Value} (hreceiver : receiver.Stored s)
    (selector : String) {args : List Value} (hargs : ∀ v ∈ args, v.Stored s) :
    ActCoheres scope (s.send receiver selector args) := by
  refine actCoheres_of_serves hs (serves_send (admits_coherentTerms selector hargs)
    (knows_coherentTerms hs) hreceiver ?_)
  rintro r m rfl hm
  exact hs.suits_of_lookup hreceiver hm

/-- A `super` send in a method is to the receiver of the method. -/
theorem actCoheres_sendFrom (hs : s.Coherent) (hscope : scope.Coheres s) {receiver : Value}
    (hreceiver : receiver.Stored s) (selector : String) {args : List Value}
    (hargs : ∀ v ∈ args, v.Stored s) {isSuper : Bool}
    (hself : isSuper = true → receiver = scope.self) :
    ActCoheres scope (sendFrom s scope receiver selector args isSuper) := by
  rw [sendFrom.eq_def]
  split
  · next home hhome =>
      obtain rfl := hself rfl
      rw [Scope.Coheres, hhome] at hscope
      exact actCoheres_of_serves hs (serves_sendSuper (admits_coherentTerms selector hargs)
        (knows_coherentTerms hs) hreceiver fun m hm => hs.suits_of_lookupSuper hscope.2.2 hm)
  · exact actCoheres_send hs hreceiver selector hargs

/-! Parts of nodes -/

/-- A part of a node is requested in the scope of the node. -/
theorem actCoheres_request (hs : s.Coherent) (hscope : scope.Coheres s) (n : Node) {work : Work}
    (hwork : work.Coheres s scope) (hsuper : work.awaitsSuper = true → n.isSuper = true) :
    ActCoheres scope (.request n scope work, s) :=
  ⟨hs, hscope, hwork, fun h => ⟨hsuper h, rfl⟩⟩

theorem actCoheres_nextItem (hs : s.Coherent) (hscope : scope.Coheres s) {done : List Value}
    (hdone : ∀ v ∈ done, v.Stored s) (todo : List Node) :
    ActCoheres scope (nextItem s scope done todo) := by
  cases todo with
  | nil =>
      exact actCoheres_of_serves hs
        (serves_finishList fun v hv => hdone v (List.mem_reverse.mp hv))
  | cons n todo =>
      exact actCoheres_request hs hscope n ⟨hdone, fun _ _ _ _ => nofun⟩ nofun

theorem actCoheres_nextStatement (hs : s.Coherent) (hscope : scope.Coheres s) (latest : Value)
    (hlatest : latest.Stored s) (todo : List Node) :
    ActCoheres scope (nextStatement s scope latest todo) := by
  cases todo with
  | nil => exact ⟨hs, hlatest⟩
  | cons n todo =>
      exact actCoheres_request hs hscope n ⟨List.forall_mem_nil _, fun _ _ _ _ => nofun⟩ nofun

theorem actCoheres_nextArgument (hs : s.Coherent) (hscope : scope.Coheres s) {receiver : Value}
    (selector : String) {done : List Value} (hvalues : ∀ v ∈ receiver :: done, v.Stored s)
    {isSuper : Bool} (hself : isSuper = true → receiver = scope.self) (todo : List Node) :
    ActCoheres scope (nextArgument s scope receiver selector done isSuper todo) := by
  cases todo with
  | nil =>
      obtain ⟨hreceiver, hdone⟩ := List.forall_mem_cons.mp hvalues
      exact actCoheres_sendFrom hs hscope hreceiver selector
        (fun v hv => hdone v (List.mem_reverse.mp hv)) hself
  | cons n todo =>
      refine actCoheres_request hs hscope n ⟨hvalues, ?_⟩ nofun
      rintro _ _ _ _ ⟨⟩
      exact hself rfl

theorem stored_of_atomValue (hs : s.Coherent) (hscope : scope.Coheres s) {a : Atom} {v : Value}
    (h : atomValue s scope a = .ok v) : v.Stored s := by
  cases a with
  | «variable» name =>
      rw [atomValue, variableValue] at h
      split at h
      · next hv =>
          cases h
          exact hs.closed.lookup? hv
      · split at h
        · cases h
          trivial
        · split_ifs at h
  | slot name =>
      rw [atomValue, slotValue] at h
      split at h
      · split at h
        · next hv =>
            cases h
            exact hs.closed.slot hv
        · cases h
      · cases h
  | self =>
      cases h
      exact Store.Coheres.stored hscope
  | super =>
      cases h
      exact Store.Coheres.stored hscope
  | _ =>
      cases h
      trivial

theorem actCoheres_atom (hs : s.Coherent) (hscope : scope.Coheres s) (origin : Option Origin)
    (a : Atom) : ActCoheres scope (beginNode s scope (.atom origin a)) := by
  rw [beginNode]
  split
  · next hv => exact ⟨hs, stored_of_atomValue hs hscope hv⟩
  · exact .error hs _

theorem actCoheres_beginNode (hs : s.Coherent) (hscope : scope.Coheres s) (n : Node) :
    ActCoheres scope (beginNode s scope n) := by
  cases n with
  | atom origin a => exact actCoheres_atom hs hscope origin a
  | list origin items => exact actCoheres_nextItem hs hscope (List.forall_mem_nil _) items
  | store origin target value =>
      exact actCoheres_request hs hscope value ⟨List.forall_mem_nil _, fun _ _ _ _ => nofun⟩ nofun
  | answer origin value =>
      exact actCoheres_request hs hscope value ⟨List.forall_mem_nil _, fun _ _ _ _ => nofun⟩ nofun
  | send origin receiver selector args =>
      exact actCoheres_request hs hscope receiver ⟨List.forall_mem_nil _, fun _ _ _ _ => nofun⟩
        fun h => h
  | block origin params bodyOrigin body =>
      refine ⟨hs.newBlock hscope, ?_⟩
      show s.blocks.size < (s.blocks.push _).size
      rw [Array.size_push]
      exact Nat.lt_succ_self _
  | suite origin kind statements => exact actCoheres_nextStatement hs hscope .nil trivial statements

/-- The next action after a value; a work that waits for the word `super` gets the receiver of the scope. -/
theorem actCoheres_resume (hs : s.Coherent) (hscope : scope.Coheres s) {work : Work}
    (hwork : work.Coheres s scope) {v : Value} (hv : v.Stored s)
    (hsuper : work.awaitsSuper = true → v = scope.self) :
    ActCoheres scope (resume s scope v work) := by
  have hserves : ∀ act, Serves (coherentTerms s) s act → ActCoheres scope act :=
    fun _ => actCoheres_of_serves hs
  have hknows := knows_coherentTerms hs
  obtain ⟨hstored, hself⟩ := hwork
  cases work with
  | items done todo =>
      exact actCoheres_nextItem hs hscope (List.forall_mem_cons.mpr ⟨hv, hstored⟩) todo
  | store target => exact hserves _ (serves_putValue (Store.Coheres.stored hscope) target hv)
  | answer =>
      rw [resume, returnValue]
      split
      · exact ⟨hs, hv⟩
      · split_ifs
        · exact ⟨hs, hv⟩
        · exact .error hs _
  | receiver selector args isSuper =>
      exact actCoheres_nextArgument hs hscope selector (List.forall_mem_singleton.mpr hv) hsuper args
  | argument receiver selector done todo isSuper =>
      obtain ⟨hreceiver, hdone⟩ := List.forall_mem_cons.mp hstored
      refine actCoheres_nextArgument hs hscope selector ?_ ?_ todo
      · exact List.forall_mem_cons.mpr ⟨hreceiver, List.forall_mem_cons.mpr ⟨hv, hdone⟩⟩
      · rintro rfl
        exact hself receiver selector done todo rfl
  | statements todo => exact actCoheres_nextStatement hs hscope v hv todo
  | method home => exact ⟨hs.retire home, hv⟩
  | result => exact ⟨hs, hv⟩
  | catching handler => exact ⟨hs, hv⟩
  | repeating answer block left =>
      refine hserves _ (serves_repeatBlock ?_ fun _ _ => allowed_of_isCall rfl)
      exact hstored
  | counting answer block next left =>
      refine hserves _ (serves_countBlock hknows ?_ next fun _ _ => allowed_of_isCall rfl)
      exact hstored
  | visiting answer block todo =>
      refine hserves _ (serves_visitItems ?_ fun _ _ _ => allowed_of_isCall rfl)
      exact hstored
  | collecting block done todo =>
      refine hserves _ (serves_collectItems ?_ fun _ _ _ => allowed_of_isCall rfl)
      obtain ⟨hblock, hrest⟩ := List.forall_mem_cons.mp hstored
      exact List.forall_mem_cons.mpr ⟨hblock, List.forall_mem_cons.mpr ⟨hv, hrest⟩⟩
  | testing expected condition body =>
      refine hserves _ (serves_afterTest hknows v ?_ (.inl trivial)
        (allowed_of_isLoop (.inl trivial)) (allowed_of_isLoop (.inl trivial)))
      exact hstored
  | looping expected condition body =>
      refine hserves _ (serves_testLoop ?_ (allowed_of_isLoop (.inl trivial)))
      exact hstored

theorem actCoheres_recover (hs : s.Coherent) {work : Work} (hwork : work.Coheres s scope)
    {failure : Failure} (hfailure : failure.Stored s) :
    ActCoheres scope (recover s failure work) := by
  cases work with
  | method home =>
      have hretired := hs.retire home
      match failure with
      | .error e site => exact ⟨hretired, trivial⟩
      | .signal v none => exact ⟨hretired, hfailure⟩
      | .signal v (some target) =>
          rw [recover]
          split_ifs
          · exact ⟨hretired, hfailure⟩
          · exact ⟨hretired, hfailure⟩
  | catching handler =>
      cases failure with
      | signal v target => exact ⟨hs, hfailure⟩
      | error e site =>
          exact actCoheres_of_serves hs (serves_handle (knows_coherentTerms hs) e
            (hwork.stored handler List.mem_cons_self) (allowed_of_isCall rfl))
  | _ => exact ⟨hs, hfailure⟩

end Acts

/-! States -/

/-- What a state hands to a task that waits for the word `super` is the receiver of the task's scope, or a
failure. -/
def Control.Delivers (scope : Scope) : Control → Prop
  | .start task inner => (∃ n, task = .node n ∧ n.isSuper = true) ∧ inner = scope
  | .value v => v = scope.self
  | .failure _ => True

/-- What a state hands on exists, and belongs together. -/
def Control.Coheres (s : Store) : Control → Prop
  | .start task scope => (∃ n, task = .node n) ∧ scope.Coheres s
  | .value v => v.Stored s
  | .failure f => f.Stored s

/-- Suspended tasks with receivers that belong to their homes. -/
def StackCoheres (s : Store) (stack : List Suspended) : Prop :=
  ∀ f ∈ stack, f.scope.Coheres s ∧ f.work.Coheres s f.scope

/-- A state in which receivers and homes belong together everywhere. Only the task on top can wait for the
word `super`. -/
structure Config.Coherent (c : Config) : Prop where
  store : c.store.Coherent
  control : c.control.Coheres c.store
  stack : StackCoheres c.store c.stack
  top : ∀ f ∈ c.stack.head?, f.work.awaitsSuper = true → c.control.Delivers f.scope
  below : ∀ f ∈ c.stack.tail, f.work.awaitsSuper = false

theorem StackCoheres.mono {s s' : Store} {stack : List Suspended} (h : StackCoheres s stack)
    (hgrows : s.Grows s') (hclasses : s.classes.Extends s'.classes) : StackCoheres s' stack := by
  intro f hf
  obtain ⟨hscope, hstored, hself⟩ := h f hf
  exact ⟨Store.Coheres.mono hscope hgrows hclasses, fun v hv => (hstored v hv).mono hgrows, hself⟩

section Runs

variable {limit : Limit}

theorem stored_stamp {s : Store} {f : Failure} (h : f.Stored s) (task : Task) :
    (stamp task f).Stored s := by
  cases f with
  | signal v home => exact h
  | error e site => cases site <;> trivial

/-- An action is carried out above tasks that do not wait for the word `super`, or it finishes with the
value of that word. -/
theorem Config.Coherent.carryOut {task : Task} {scope : Scope} {stack : List Suspended} {depth : Nat}
    {act : Action × Store} {c : Config} (hact : ActCoheres scope act) (hscope : scope.Coheres act.2)
    (hstack : StackCoheres act.2 stack)
    (htop : ∀ f ∈ stack.head?, f.work.awaitsSuper = true → act.1 = .finish f.scope.self)
    (hbelow : ∀ f ∈ stack.tail, f.work.awaitsSuper = false)
    (h : carryOut limit task scope stack depth act = .inl c) : c.Coherent := by
  have hnone : (∀ f ∈ stack.head?, act.1 ≠ .finish f.scope.self) →
      ∀ f ∈ stack, f.work.awaitsSuper = false := by
    intro hne f hf
    cases stack with
    | nil => cases hf
    | cons g rest =>
        rcases List.mem_cons.mp hf with rfl | hf
        · by_contra hawaits
          exact hne f rfl (htop f rfl (Bool.not_eq_false _ ▸ hawaits))
        · exact hbelow f hf
  obtain ⟨v, s, rfl, rfl⟩ | ⟨f, s, rfl, rfl⟩ |
    ⟨n, inner, work, s, count, rfl, rfl, ⟨-, rfl⟩ | ⟨-, rfl⟩⟩ := carryOut_cases h
  · refine ⟨hact.1, hact.2, hstack, ?_, hbelow⟩
    intro f hf hawaits
    exact Action.finish.inj (htop f hf hawaits)
  · exact ⟨hact.1, stored_stamp hact.2 task, hstack, fun _ _ _ => trivial, hbelow⟩
  · have hevent := Store.Event.change
      (.log s ("oops.engine: stack overflow at depth " ++ toString depth))
    obtain ⟨hs, -, hwork, -⟩ := hact
    have hpushed : StackCoheres s (⟨task, scope, work⟩ :: stack) :=
      List.forall_mem_cons.mpr ⟨⟨hscope, hwork⟩, hstack⟩
    refine ⟨hs.change (fun _ hv => hv) (.log s _), trivial, ?_, fun _ _ _ => trivial,
      hnone fun _ _ => nofun⟩
    exact hpushed.mono hevent.grows (hevent.extends_classes hs.classes)
  · obtain ⟨hs, hinner, hwork, hawaits⟩ := hact
    refine ⟨hs, ⟨⟨n, rfl⟩, hinner⟩, List.forall_mem_cons.mpr ⟨⟨hscope, hwork⟩, hstack⟩, ?_,
      hnone fun _ _ => nofun⟩
    rintro f ⟨⟩ hf
    obtain ⟨hn, hsame⟩ := hawaits hf
    exact ⟨⟨n, rfl, hn⟩, hsame⟩

/-- The word `super` has the receiver of the scope for its value. -/
theorem beginNode_of_isSuper {n : Node} (h : n.isSuper = true) (s : Store) (scope : Scope) :
    beginNode s scope n = (.finish scope.self, s) := by
  unfold Node.isSuper at h
  split at h
  · rfl
  · cases h

theorem Config.Coherent.step {c c' : Config} (hc : c.Coherent) (h : Steps limit c c') :
    c'.Coherent := by
  obtain ⟨hs, hcontrol, hstack, htop, hbelow⟩ := hc
  have hlater : ∀ s', c.store.Evolves s' → StackCoheres s' c.stack ∧
      ∀ scope : Scope, scope.Coheres c.store → scope.Coheres s' := by
    intro s' he
    have hextends := he.extends_classes hs.classes
    exact ⟨hstack.mono he.grows hextends, fun scope hscope => hscope.mono he.grows hextends⟩
  obtain ⟨task, scope, stack, depth, s, rfl, h⟩ | ⟨v, task, scope, work, stack, depth, s, rfl, h⟩ |
    ⟨e, task, scope, work, stack, depth, s, rfl, -, h⟩ |
    ⟨e, task, scope, work, stack, depth, s, rfl, -, rfl⟩ := advance_cases h
  · obtain ⟨⟨n, rfl⟩, hscope⟩ := hcontrol
    obtain ⟨hstack', hscope'⟩ := hlater _ (evolves_begin s scope (.node n))
    refine .carryOut (actCoheres_beginNode hs hscope n) (hscope' scope hscope) hstack' ?_ hbelow h
    intro f hf hawaits
    obtain ⟨⟨m, hm, hsuper⟩, rfl⟩ := htop f hf hawaits
    cases hm
    exact congrArg Prod.fst (beginNode_of_isSuper hsuper s f.scope)
  · obtain ⟨hscope, hwork⟩ := hstack _ List.mem_cons_self
    obtain ⟨hstack', hscope'⟩ := hlater _ (evolves_resume s scope v work)
    have hact := actCoheres_resume hs hscope hwork hcontrol fun hawaits => htop _ rfl hawaits
    refine .carryOut hact (hscope' scope hscope) (List.forall_mem_cons.mp hstack').2 ?_ ?_ h
    · intro f hf hawaits
      exact nomatch (hbelow f (List.mem_of_mem_head? hf)).symm.trans hawaits
    · exact fun f hf => hbelow f (List.mem_of_mem_tail hf)
  · obtain ⟨hscope, hwork⟩ := hstack _ List.mem_cons_self
    obtain ⟨hstack', hscope'⟩ := hlater _ (evolves_recover s e work)
    refine .carryOut (actCoheres_recover hs hwork hcontrol) (hscope' scope hscope)
      (List.forall_mem_cons.mp hstack').2 ?_ ?_ h
    · intro f hf hawaits
      exact nomatch (hbelow f (List.mem_of_mem_head? hf)).symm.trans hawaits
    · exact fun f hf => hbelow f (List.mem_of_mem_tail hf)
  · refine ⟨hs, hcontrol, (List.forall_mem_cons.mp hstack).2, fun _ _ _ => trivial, ?_⟩
    exact fun f hf => hbelow f (List.mem_of_mem_tail hf)

theorem Reaches.coherent {c c' : Config} (h : Reaches limit c c') (hc : c.Coherent) : c'.Coherent :=
  h.invariant (fun _ _ => Config.Coherent.step) hc

/-! The end of a run -/

theorem ActCoheres.ending {task : Task} {scope : Scope} {stack : List Suspended} {depth : Nat}
    {act : Action × Store} {r : Outcome × Store} (hact : ActCoheres scope act)
    (h : Machine.carryOut limit task scope stack depth act = .inr r) : r.2.Coherent := by
  obtain ⟨c, s, rfl, rfl⟩ | ⟨n, inner, work, s, rfl, rfl, rfl⟩ := carryOut_ending_cases h
  · exact hact
  · exact hact.1

theorem Config.Coherent.ending {c : Config} {r : Outcome × Store} (hc : c.Coherent)
    (h : advance limit c = .inr r) : r.2.Coherent := by
  obtain ⟨hs, hcontrol, hstack, htop, -⟩ := hc
  obtain ⟨v, depth, s, rfl, rfl⟩ | ⟨e, depth, s, rfl, rfl⟩ | ⟨task, scope, stack, depth, s, rfl, h⟩ |
    ⟨v, task, scope, work, stack, depth, s, rfl, h⟩ |
    ⟨e, task, scope, work, stack, depth, s, rfl, -, h⟩ := advance_ending_cases h
  · exact hs
  · exact hs
  · obtain ⟨⟨n, rfl⟩, hscope⟩ := hcontrol
    exact (actCoheres_beginNode hs hscope n).ending h
  · obtain ⟨hscope, hwork⟩ := hstack _ List.mem_cons_self
    exact (actCoheres_resume hs hscope hwork hcontrol fun hawaits => htop _ rfl hawaits).ending h
  · exact (actCoheres_recover hs (hstack _ List.mem_cons_self).2 hcontrol).ending h

end Runs

/-- The scopes of all frames: of the suspended tasks, and of a task that is about to start. -/
def Config.scopes (c : Config) : List Scope :=
  match c.control with
  | .start _ scope => scope :: c.stack.map (·.scope)
  | _ => c.stack.map (·.scope)

theorem Config.Coherent.scope {c : Config} (hc : c.Coherent) : ∀ scope ∈ c.scopes,
    scope.Coheres c.store := by
  obtain ⟨control, stack, depth, s⟩ := c
  have hstack : ∀ scope ∈ stack.map (·.scope), scope.Coheres s := by
    intro scope hscope
    obtain ⟨f, hf, rfl⟩ := List.mem_map.mp hscope
    exact (hc.stack f hf).1
  cases control with
  | start task scope => exact List.forall_mem_cons.mpr ⟨hc.control.2, hstack⟩
  | value v => exact hstack
  | failure e => exact hstack

/-- A `super` send is to the receiver of its scope. -/
theorem Config.Coherent.receiver_eq {c : Config} (hc : c.Coherent) {scope : Scope} {receiver : Value}
    {selector : String} {args : List Value} (h : c.Sends scope receiver selector args true) :
    scope.Coheres c.store ∧ receiver = scope.self := by
  cases h with
  | bare => exact ⟨(hc.stack _ List.mem_cons_self).1, hc.top _ rfl rfl⟩
  | full =>
      obtain ⟨hscope, hwork⟩ := hc.stack _ List.mem_cons_self
      exact ⟨hscope, hwork.self _ _ _ _ rfl⟩

end Machine

namespace Interpreter

open Parley.Machine

theorem coherent_initial {s : Store} (hs : s.Coherent) (n : Node) :
    (Config.initial (.node n) .global s).Coherent where
  store := hs
  control := ⟨⟨n, rfl⟩, rfl⟩
  stack _ hf := nomatch hf
  top _ hf := nomatch hf
  below _ hf := nomatch hf

theorem coherent_of_execute {limit : Limit} {fuel : Nat} {n : Node} {s s' : Store}
    {outcome : Outcome} (hs : s.Coherent)
    (h : execute limit fuel (.node n) s = some (outcome, s')) : s'.Coherent := by
  obtain ⟨c, hreaches, hend⟩ := exists_reaches_of_run h
  exact (hreaches.coherent (coherent_initial hs n)).ending hend

theorem Starts.coherent {limit : Limit} {n : Node} {s : Store} (h : Starts limit n s) :
    s.Coherent :=
  h.invariant .initial (fun s line hs => hs.change (fun _ hv => hv) (.log s line))
    fun _ _ _ _ _ _ hs hrun => coherent_of_execute hs hrun

/-- Where nothing is bound from outside, receiver and home belong together in every frame at every point of
every run, and in every block. So a `super` send in a method, or in a block made by it, looks among the
classes above the owner of the method, which are also above the class of the receiver, and finds all of
them registered. -/
theorem coherent_throughout (limit : Limit) (n : Node) (s : Store) (hstarts : Starts limit n s) :
    (∀ c, Reaches limit (.initial (.node n) .global s) c →
      (∀ scope ∈ c.scopes, c.store.Coheres scope.self scope.home) ∧
      (∀ b ∈ c.store.blocks, c.store.Coheres b.receiver b.home) ∧
      ∀ scope receiver selector args home, c.Sends scope receiver selector args true →
        scope.home = some home →
        ∃ r name below d above, receiver = .object r ∧ (c.store.object r).cls = .registered name ∧
          c.store.classes.ancestors name = .ok (below ++ d :: above) ∧
          d.name = (c.store.activation home).method.owner ∧
          c.store.classes.ancestors (c.store.activation home).method.owner = .ok (d :: above) ∧
          c.store.classes.lookupSuper (c.store.activation home).method.owner selector =
            .ok (ClassTable.firstDefinition above selector)) ∧
    ∀ fuel outcome s', execute limit fuel (.node n) s = some (outcome, s') →
      ∀ b ∈ s'.blocks, s'.Coheres b.receiver b.home := by
  have hs := hstarts.coherent
  refine ⟨?_, fun fuel outcome s' hrun => (coherent_of_execute hs hrun).blocks⟩
  intro c hreaches
  have hc := hreaches.coherent (coherent_initial hs n)
  refine ⟨hc.scope, hc.store.blocks, ?_⟩
  intro scope receiver selector args home hsends hhome
  obtain ⟨hscope, rfl⟩ := hc.receiver_eq hsends
  rw [Scope.Coheres, hhome] at hscope
  obtain ⟨r, name, below, d, above, hreceiver, hcls, hancestors, hd, howner, hsuper⟩ :=
    hc.store.exists_above hscope.2.2
  exact ⟨r, name, below, d, above, hreceiver, hcls, hancestors, hd, howner, hsuper selector⟩

/-- Statements that define a method `m` on a class, and on a subclass one in which a block sends `m` to
`super`. -/
def climbingProgram : List Node :=
  [.send none (.atom none (.variable "Object")) "subclass name:" [.atom none (.symbol "A")],
    .send none (.atom none (.variable "A")) "def: do:"
      [.atom none (.symbol "m"), .block none [] none [.atom none (.integer 1)]],
    .send none (.atom none (.variable "A")) "subclass name:" [.atom none (.symbol "B")],
    .send none (.atom none (.variable "B")) "def: do:"
      [.atom none (.symbol "m"), .block none [] none
        [.send none (.block none [] none [.send none (.atom none .super) "m" []]) "call" []]]]

def climbingCall : Node :=
  .send none (.send none (.atom none (.variable "B")) "new" []) "m" []

/-- The block finds the method of the superclass, and the receiver that it captured belongs to its home. -/
theorem coherent_throughout_climbing : ∃ s s', Starts (.frames 20) climbingCall s ∧
    execute (.frames 20) 60 (.node climbingCall) s = some (.value (.integer 1), s') ∧
    ∃ b ∈ s'.blocks, b.home = some ⟨0⟩ ∧ s'.Coheres b.receiver (some ⟨0⟩) := by
  have hrun : runsTo (.frames 20) 60 false climbingProgram climbingCall (fun outcome s' =>
      valueOf? outcome == some (.integer 1) && s'.blocks.any fun b => b.home == some ⟨0⟩) = true := by
    decide +kernel
  obtain ⟨v, s, outcome, s', hbefore, hexecute, hcheck⟩ := exists_of_runsTo hrun
  obtain ⟨houtcome, hblock⟩ := (Bool.and_eq_true _ _).mp hcheck
  obtain ⟨b, hb, hhome⟩ := Array.any_eq_true'.mp hblock
  obtain rfl := eq_value_of_valueOf? (beq_iff_eq.mp houtcome)
  have hstarts : Starts (.frames 20) climbingCall s := .of_fresh hbefore
  have hcoheres := (coherent_throughout _ _ s hstarts).2 60 _ s' hexecute b hb
  rw [beq_iff_eq.mp hhome] at hcoheres
  exact ⟨s, s', hstarts, hexecute, b, hb, beq_iff_eq.mp hhome, hcoheres⟩

end Interpreter

end Parley
