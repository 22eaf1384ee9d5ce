import Parley.Proofs.Machine.CodeRun
import Parley.Proofs.Machine.Limits
import Parley.Proofs.Node.Parsed
import Parley.Proofs.Node.Places

/-! Where errors arise. An error is stamped with the node that was running, or, at the limit of the stack,
with the node that was requested. The running node is never an empty suite, since that finishes at once.
A request can be refused only if it is the first one of a task, and the first request of a node is for an
operand of it: what is called, and so may be an empty body, is called by a task that has been served
before at the same depth. Hence every error names a node that was written in one of the texts. -/

namespace Parley

/-- Nodes that come with their parts, and of which no operand is an empty suite. -/
structure Node.Inherited (P : Node → Prop) : Prop where
  operand : ∀ {n m : Node}, P n → m ∈ n.operands → P m
  full : ∀ {n m : Node}, P n → m ∈ n.operands → m.isEmptySuite = false
  body : ∀ {origin bodyOrigin : Option Origin} {params : List String} {statements : List Node},
    P (.block origin params bodyOrigin statements) → P (.suite bodyOrigin .sequence statements)

/-- One of the nodes that is no empty suite. -/
def Node.Full (P : Node → Prop) (n : Node) : Prop := P n ∧ n.isEmptySuite = false

/-- What can be started: one of the nodes, or the body of a block that does not exist. -/
def Node.Sound (P : Node → Prop) (n : Node) : Prop := P n ∨ n = default

theorem Node.Inherited.fullOperand {P : Node → Prop} (h : Inherited P) {n m : Node} (hn : P n)
    (hm : m ∈ n.operands) : m.Full P :=
  ⟨h.operand hn hm, h.full hn hm⟩

/-- The nodes that a task has still to evaluate. -/
def Work.nodes : Work → List Node
  | .items _ todo | .statements todo | .argument _ _ _ todo _ => todo
  | .receiver _ args _ => args
  | _ => []

theorem Work.nodes_of_isCall {work : Work} (h : work.isCall = true) : work.nodes = [] := by
  cases work <;> first | rfl | cases h

theorem Work.nodes_of_isLoop {lacking : Prop} {work : Work} (h : work.IsLoop lacking) :
    work.nodes = [] := by
  cases work <;> first | rfl | exact h.elim

/-- All code in a store can be started. -/
abbrev Store.Keeps (P : Node → Prop) (s : Store) : Prop := s.AllCode (Node.Sound P)

namespace Machine

/-! Failures -/

/-- What an error may name: no empty suite, and for an overflow of the stack an operand, which its node
requested. -/
def Names (P : Node → Prop) (e : Error) (n : Node) : Prop :=
  n.Full P ∧ (e.isOverflow = true → ∃ m, P m ∧ n ∈ m.operands)

/-- A failure on its way outward: an error names a node. -/
def Stamped (P : Node → Prop) : Failure → Prop
  | .error e site => ∃ n, site = some (.node n) ∧ Names P e n
  | .signal _ _ => True

/-- A failure of a task: one that it hands on, or an error that names nothing yet. -/
def Raised (P : Node → Prop) (f : Failure) : Prop :=
  Stamped P f ∨ ∃ e, f = .error e none ∧ e.isOverflow = false

/-- An error that names nothing yet gets the running node. -/
theorem stamped_stamp {P : Node → Prop} {n : Node} (hn : n.Full P) {f : Failure} (hf : Raised P f) :
    Stamped P (stamp (.node n) f) := by
  rcases hf with hf | ⟨e, rfl, he⟩
  · match f with
    | .error e none =>
        obtain ⟨m, hm, -⟩ := hf
        cases hm
    | .error e (some site) => exact hf
    | .signal v home => trivial
  · refine ⟨n, rfl, hn, fun hoverflow => ?_⟩
    rw [he] at hoverflow
    cases hoverflow

/-! Actions -/

/-- What a node does is done with code among some nodes. If it fails or requests something, then it is no
empty suite. -/
def ActSited (P : Node → Prop) (n : Node) : Action × Store → Prop
  | (.finish _, s) => s.Keeps P
  | (.crash _, s) => s.Keeps P
  | (.fail f, s) => s.Keeps P ∧ n.Full P ∧ Raised P f
  | (.request m _ work, s) => s.Keeps P ∧ n.Full P ∧ m.Sound P ∧ ∀ k ∈ work.nodes, k.Full P

section Acts

variable {P : Node → Prop} {n : Node} {s : Store} {scope : Scope}

theorem actSited_error (hs : s.Keeps P) (hn : n.Full P) {e : Error} (he : e.isOverflow = false) :
    ActSited P n (.error e, s) :=
  ⟨hs, hn, .inr ⟨e, rfl, he⟩⟩

/-- The terms on which no work of a call holds nodes. -/
def siteTerms (P : Node → Prop) : Terms where
  known _ := True
  allowed work := work.nodes = []
  invoked m _ := m.body.Sound P
  lacking := True

theorem knows_siteTerms : (siteTerms P).Knows s := Terms.knows_of_forall fun _ => trivial

theorem actSited_of_serves (hs : s.Keeps P) (hn : n.Full P) {act : Action × Store}
    (hact : Serves (siteTerms P) s act) : ActSited P n act := by
  cases hact with
  | finish hc => exact hs.changes (.inr rfl) hc
  | refuse ha hc =>
      obtain ⟨e, rfl⟩ | ⟨rfl, -⟩ | ⟨rfl, -⟩ := ha.cases
      · exact actSited_error (hs.changes (.inr rfl) hc) hn ha
      · exact hs.changes (.inr rfl) hc
      · exact hs.changes (.inr rfl) hc
  | @call s' r args work hc _ _ hwork =>
      have hs' := hs.changes (.inr rfl) hc
      refine ⟨hs'.congr rfl rfl, hn, hs'.block (.inr rfl) r, ?_⟩
      rw [hwork.1]
      exact List.forall_mem_nil _
  | @invoke s' m receiver args hc hm _ _ =>
      have hs' := hs.changes (.inr rfl) hc
      exact ⟨hs'.congr rfl rfl, hn, hm, List.forall_mem_nil _⟩

theorem actSited_sendFrom (hs : s.Keeps P) (hn : n.Full P) (receiver : Value) (selector : String)
    (args : List Value) (isSuper : Bool) :
    ActSited P n (sendFrom s scope receiver selector args isSuper) := by
  have hadmits : Admits (siteTerms P) selector args :=
    ⟨fun _ => Work.nodes_of_isCall, fun _ _ => Work.nodes_of_isLoop, fun _ _ => trivial, .inl trivial⟩
  rw [sendFrom.eq_def]
  split
  · exact actSited_of_serves hs hn (serves_sendSuper hadmits knows_siteTerms trivial
      fun m hm => hs.methods m (ClassTable.has_of_lookupSuper hm))
  · exact actSited_of_serves hs hn (serves_send hadmits knows_siteTerms trivial
      fun _ m _ hm => hs.methods m (ClassTable.has_of_lookup hm))

/-! Parts of nodes -/

theorem actSited_request (hs : s.Keeps P) (hn : n.Full P) {m : Node} {todo : List Node}
    (htodo : ∀ k ∈ m :: todo, k.Full P) {work : Work} (hwork : work.nodes = todo) :
    ActSited P n (.request m scope work, s) := by
  obtain ⟨hm, htodo⟩ := List.forall_mem_cons.mp htodo
  rw [← hwork] at htodo
  exact ⟨hs, hn, .inl hm.1, htodo⟩

theorem actSited_nextItem (hs : s.Keeps P) {todo : List Node} (hn : todo ≠ [] → n.Full P)
    (htodo : ∀ k ∈ todo, k.Full P) (done : List Value) :
    ActSited P n (nextItem s scope done todo) := by
  cases todo with
  | nil => exact hs.congr rfl rfl
  | cons m todo => exact actSited_request hs (hn (List.cons_ne_nil _ _)) htodo rfl

theorem actSited_nextStatement (hs : s.Keeps P) {todo : List Node} (hn : todo ≠ [] → n.Full P)
    (htodo : ∀ k ∈ todo, k.Full P) (latest : Value) :
    ActSited P n (nextStatement s scope latest todo) := by
  cases todo with
  | nil => exact hs
  | cons m todo => exact actSited_request hs (hn (List.cons_ne_nil _ _)) htodo rfl

theorem actSited_nextArgument (hs : s.Keeps P) (hn : n.Full P) {todo : List Node}
    (htodo : ∀ k ∈ todo, k.Full P) (receiver : Value) (selector : String) (done : List Value)
    (isSuper : Bool) :
    ActSited P n (nextArgument s scope receiver selector done isSuper todo) := by
  cases todo with
  | nil => exact actSited_sendFrom hs hn receiver selector _ isSuper
  | cons m todo => exact actSited_request hs hn htodo rfl

theorem actSited_putValue (hs : s.Keeps P) (hn : n.Full P) (target : Target) (v : Value) :
    ActSited P n (putValue s scope target v) := by
  cases target with
  | define name operator => exact hs.congr rfl rfl
  | assign name =>
      rw [putValue]
      split
      · exact hs.congr rfl rfl
      · exact actSited_error hs hn rfl
  | slot name =>
      rw [putValue]
      split
      · split_ifs
        · exact hs.congr rfl rfl
        · exact actSited_error hs hn rfl
      · exact actSited_error hs hn rfl

theorem actSited_returnValue (hs : s.Keeps P) (hn : n.Full P) (v : Value) :
    ActSited P n (returnValue s scope v, s) := by
  rw [returnValue]
  split
  · exact ⟨hs, hn, .inl trivial⟩
  · split_ifs
    · exact ⟨hs, hn, .inl trivial⟩
    · exact actSited_error hs hn rfl

/-! The actions of a task -/

/-- The first request of a node is for an operand, and takes back no failures. -/
theorem beginNode_request {m : Node} {inner : Scope} {work : Work} {s' : Store}
    (h : beginNode s scope n = (.request m inner work, s')) :
    m ∈ n.operands ∧ work.isGuarded = false := by
  cases n with
  | atom origin a =>
      rw [beginNode] at h
      split at h <;> cases h
  | list origin items =>
      cases items with
      | nil => cases h
      | cons n items =>
          cases h
          exact ⟨List.mem_cons_self, rfl⟩
  | store origin target value =>
      cases h
      exact ⟨List.mem_cons_self, rfl⟩
  | answer origin value =>
      cases h
      exact ⟨List.mem_cons_self, rfl⟩
  | send origin receiver selector args =>
      cases h
      exact ⟨List.mem_cons_self, rfl⟩
  | block origin params bodyOrigin body => cases h
  | suite origin kind statements =>
      cases statements with
      | nil => cases h
      | cons n statements =>
          cases h
          exact ⟨List.mem_cons_self, rfl⟩

theorem mild_atomValue (s : Store) (scope : Scope) (a : Atom) : Mild (atomValue s scope a) := by
  match a with
  | .variable name =>
      rw [atomValue, variableValue]
      split
      · exact .ok
      · split
        · exact .ok
        · split_ifs
          · exact .error rfl
          · exact .error rfl
  | .slot name =>
      rw [atomValue, slotValue]
      split
      · split
        · exact .ok
        · exact .error rfl
      · exact .error rfl
  | .integer _ | .string _ | .symbol _ | .boolean _ | .nil | .self | .super => exact .ok

theorem actSited_beginNode (hP : Node.Inherited P) (hs : s.Keeps P) (hn : n.Sound P) :
    ActSited P n (beginNode s scope n) := by
  rcases hn with hn | rfl
  · have hoperand : ∀ m ∈ n.operands, m.Full P := fun m hm => hP.fullOperand hn hm
    cases n with
    | atom origin a =>
        rw [beginNode]
        split
        · exact hs
        · next herror => exact actSited_error hs ⟨hn, rfl⟩ ((mild_atomValue s scope a).not_overflow herror)
    | list origin items => exact actSited_nextItem hs (fun _ => ⟨hn, rfl⟩) hoperand []
    | store origin target value => exact actSited_request hs ⟨hn, rfl⟩ hoperand rfl
    | answer origin value => exact actSited_request hs ⟨hn, rfl⟩ hoperand rfl
    | send origin receiver selector args => exact actSited_request hs ⟨hn, rfl⟩ hoperand rfl
    | block origin params bodyOrigin body => exact hs.newBlock (.inl (hP.body hn))
    | suite origin kind statements =>
        refine actSited_nextStatement hs (fun hne => ⟨hn, ?_⟩) hoperand .nil
        obtain ⟨m, ms, rfl⟩ := List.exists_cons_of_ne_nil hne
        rfl
  · exact hs

theorem actSited_resume (hs : s.Keeps P) (hn : n.Full P) {work : Work}
    (hwork : ∀ k ∈ work.nodes, k.Full P) (v : Value) :
    ActSited P n (resume s scope v work) := by
  have hserves : ∀ act, Serves (siteTerms P) s act → ActSited P n act :=
    fun _ => actSited_of_serves hs hn
  cases work with
  | items done todo => exact actSited_nextItem hs (fun _ => hn) hwork (v :: done)
  | store target => exact actSited_putValue hs hn target v
  | answer => exact actSited_returnValue hs hn v
  | receiver selector args isSuper => exact actSited_nextArgument hs hn hwork v selector [] isSuper
  | argument receiver selector done todo isSuper =>
      exact actSited_nextArgument hs hn hwork receiver selector (v :: done) isSuper
  | statements todo => exact actSited_nextStatement hs (fun _ => hn) hwork v
  | method home => exact hs.congr rfl rfl
  | result => exact hs
  | catching handler => exact hs
  | repeating answer block left =>
      exact hserves _ (serves_repeatBlock (fun _ _ => trivial) fun _ _ => rfl)
  | counting answer block next left =>
      exact hserves _ (serves_countBlock knows_siteTerms (fun _ _ => trivial) next fun _ _ => rfl)
  | visiting answer block todo =>
      exact hserves _ (serves_visitItems (fun _ _ => trivial) fun _ _ _ => rfl)
  | collecting block done todo =>
      exact hserves _ (serves_collectItems (fun _ _ => trivial) fun _ _ _ => rfl)
  | testing expected condition body =>
      exact hserves _
        (serves_afterTest knows_siteTerms v (fun _ _ => trivial) (.inl trivial) rfl rfl)
  | looping expected condition body => exact hserves _ (serves_testLoop (fun _ _ => trivial) rfl)

theorem actSited_recover (hs : s.Keeps P) (hn : n.Full P) {failure : Failure}
    (hfailure : Stamped P failure) (work : Work) : ActSited P n (recover s failure work) := by
  have hretired : ∀ home, (s.retire home).Keeps P := fun _ => hs.congr rfl rfl
  cases work with
  | method home =>
      match failure with
      | .error e site => exact ⟨hretired home, hn, .inl hfailure⟩
      | .signal v none => exact ⟨hretired home, hn, .inl hfailure⟩
      | .signal v (some target) =>
          rw [recover]
          split_ifs
          · exact hretired home
          · exact ⟨hretired home, hn, .inl hfailure⟩
  | catching handler =>
      cases failure with
      | signal v home => exact ⟨hs, hn, .inl hfailure⟩
      | error e site => exact actSited_of_serves hs hn (serves_handle knows_siteTerms e trivial rfl)
  | _ => exact ⟨hs, hn, .inl hfailure⟩

end Acts

/-! Room on the stack -/

/-- The task on top of a stack can make requests; so can those below it, which lie less deep. -/
def Roomy (limit : Limit) (stack : List Suspended) : Prop :=
  ∀ f rest, stack = f :: rest → limit.isReached rest.length = false

theorem Roomy.nil {limit : Limit} : Roomy limit [] := fun _ _ => nofun

theorem Roomy.tail {limit : Limit} {f : Suspended} {stack : List Suspended}
    (h : Roomy limit (f :: stack)) : Roomy limit stack := by
  rintro g rest rfl
  have hroom := h f _ rfl
  cases limit with
  | unset => cases hroom
  | frames count =>
      have hlt := of_decide_eq_false hroom
      rw [List.length_cons] at hlt
      refine decide_eq_false ?_
      omega

theorem roomy_cons {limit : Limit} {f : Suspended} {stack : List Suspended} :
    Roomy limit (f :: stack) ↔ limit.isReached stack.length = false := by
  refine ⟨fun h => h f stack rfl, fun h => ?_⟩
  rintro _ _ ⟨⟩
  exact h

/-- There is room for all tasks on the stack, except that the one on top may just have been refused: then
a failure is on its way, and the task does not take it back. -/
def Config.HasRoom (limit : Limit) (c : Config) : Prop :=
  match c.control, c.stack with
  | .failure _, f :: rest => Roomy limit rest ∧ (f.work.isGuarded = true → Roomy limit (f :: rest))
  | _, stack => Roomy limit stack

theorem Config.HasRoom.of_roomy {limit : Limit} {c : Config} (h : Roomy limit c.stack) :
    c.HasRoom limit := by
  rw [Config.HasRoom]
  split
  · next heq =>
      rw [heq] at h
      exact ⟨h.tail, fun _ => h⟩
  · exact h

/-! One step and a whole run -/

/-- A state in which all code is among some nodes and every error has a site among them. -/
structure Config.Sited (P : Node → Prop) (limit : Limit) (c : Config) : Prop where
  level : c.depth = c.stack.length
  code : c.store.Keeps P
  tasks : ∀ f ∈ c.stack, ∃ n, f.task = .node n ∧ n.Full P
  works : ∀ f ∈ c.stack, ∀ k ∈ f.work.nodes, k.Full P
  start : ∀ task scope, c.control = .start task scope → ∃ n, task = .node n ∧ n.Sound P
  failure : ∀ f, c.control = .failure f → Stamped P f
  room : c.HasRoom limit

section Runs

variable {P : Node → Prop} {limit : Limit}

theorem Config.Sited.carryOut {n : Node} {scope : Scope} {stack : List Suspended} {depth : Nat}
    {act : Action × Store} {c : Config} (hlevel : depth = stack.length) (hact : ActSited P n act)
    (htasks : ∀ f ∈ stack, ∃ n, f.task = .node n ∧ n.Full P)
    (hworks : ∀ f ∈ stack, ∀ k ∈ f.work.nodes, k.Full P) (hroom : Roomy limit stack)
    (hserved : limit.isReached depth = false ∨ ∀ m inner work s, act = (.request m inner work, s) →
      m.Full P ∧ m ∈ n.operands ∧ work.isGuarded = false)
    (h : carryOut limit (.node n) scope stack depth act = .inl c) : c.Sited P limit := by
  subst hlevel
  obtain ⟨v, s, rfl, rfl⟩ | ⟨f, s, rfl, rfl⟩ |
    ⟨m, inner, work, s, count, rfl, rfl, ⟨hcount, rfl⟩ | ⟨hcount, rfl⟩⟩ := carryOut_cases h
  · exact ⟨rfl, hact, htasks, hworks, fun _ _ => nofun, fun _ => nofun, .of_roomy hroom⟩
  · obtain ⟨hs, hn, hraised⟩ := hact
    refine ⟨rfl, hs, htasks, hworks, fun _ _ => nofun, ?_, .of_roomy hroom⟩
    rintro _ ⟨⟩
    exact stamped_stamp hn hraised
  · obtain ⟨hs, hn, -, hwork⟩ := hact
    have hreached : (Limit.frames count).isReached stack.length = true := decide_eq_true hcount
    rcases hserved with hserved | hserved
    · rw [hreached] at hserved
      cases hserved
    · obtain ⟨hm, hoperand, hguarded⟩ := hserved m inner work s rfl
      refine ⟨rfl, hs.congr rfl rfl, List.forall_mem_cons.mpr ⟨⟨n, rfl, hn⟩, htasks⟩,
        List.forall_mem_cons.mpr ⟨hwork, hworks⟩, fun _ _ => nofun, ?_, hroom, ?_⟩
      · rintro _ ⟨⟩
        exact ⟨m, rfl, hm, fun _ => ⟨n, hn.1, hoperand⟩⟩
      · intro hguarded'
        rw [hguarded] at hguarded'
        cases hguarded'
  · obtain ⟨hs, hn, hm, hwork⟩ := hact
    refine ⟨rfl, hs, List.forall_mem_cons.mpr ⟨⟨n, rfl, hn⟩, htasks⟩,
      List.forall_mem_cons.mpr ⟨hwork, hworks⟩, ?_, fun _ => nofun, .of_roomy ?_⟩
    · rintro task scope' ⟨⟩
      exact ⟨m, rfl, hm⟩
    · exact roomy_cons.mpr (decide_eq_false (Int.not_le.mpr hcount))

/-- The first action of a node that is not one of those is its value. -/
theorem served_beginNode (hP : Node.Inherited P) {n : Node} (hn : n.Sound P) {s : Store} {scope : Scope}
    {m : Node} {inner : Scope} {work : Work} {s' : Store}
    (h : beginNode s scope n = (.request m inner work, s')) :
    m.Full P ∧ m ∈ n.operands ∧ work.isGuarded = false := by
  obtain ⟨hm, hguarded⟩ := beginNode_request h
  rcases hn with hn | rfl
  · exact ⟨hP.fullOperand hn hm, hm, hguarded⟩
  · cases hm

theorem Config.Sited.step (hP : Node.Inherited P) {c c' : Config} (hc : c.Sited P limit)
    (h : Steps limit c c') : c'.Sited P limit := by
  obtain ⟨hlevel, hcode, htasks, hworks, hstart, hfailure, hroom⟩ := hc
  obtain ⟨task, scope, stack, depth, s, rfl, h⟩ | ⟨v, task, scope, work, stack, depth, s, rfl, h⟩ |
    ⟨e, task, scope, work, stack, depth, s, rfl, hguarded, h⟩ |
    ⟨e, task, scope, work, stack, depth, s, rfl, hguarded, rfl⟩ := advance_cases h
  · obtain ⟨n, rfl, hn⟩ := hstart task scope rfl
    refine .carryOut hlevel (actSited_beginNode hP hcode hn) htasks hworks hroom (.inr ?_) h
    intro m inner work s' hact
    exact served_beginNode hP hn hact
  · obtain ⟨⟨n, rfl, hn⟩, hrest⟩ := List.forall_mem_cons.mp htasks
    obtain ⟨hwork, hworks⟩ := List.forall_mem_cons.mp hworks
    have hbelow : depth - 1 = stack.length := Nat.sub_eq_of_eq_add hlevel
    refine .carryOut hbelow (actSited_resume hcode hn hwork v) hrest hworks hroom.tail (.inl ?_) h
    rw [hbelow]
    exact roomy_cons.mp hroom
  · obtain ⟨⟨n, rfl, hn⟩, hrest⟩ := List.forall_mem_cons.mp htasks
    obtain ⟨hwork, hworks⟩ := List.forall_mem_cons.mp hworks
    have hbelow : depth - 1 = stack.length := Nat.sub_eq_of_eq_add hlevel
    refine .carryOut hbelow (actSited_recover hcode hn (hfailure e rfl) work) hrest hworks hroom.1 (.inl ?_) h
    rw [hbelow]
    exact roomy_cons.mp (hroom.2 hguarded)
  · exact ⟨Nat.sub_eq_of_eq_add hlevel, hcode, (List.forall_mem_cons.mp htasks).2,
      (List.forall_mem_cons.mp hworks).2, fun _ _ => nofun, hfailure, .of_roomy hroom.1⟩

theorem Reaches.sited (hP : Node.Inherited P) {c c' : Config} (h : Reaches limit c c')
    (hc : c.Sited P limit) : c'.Sited P limit :=
  h.invariant (fun _ _ hc hstep => hc.step hP hstep) hc

theorem sited_initial {n : Node} {s : Store} (hs : s.Keeps P) (hn : n.Sound P) (scope : Scope) :
    (Config.initial (.node n) scope s).Sited P limit := by
  refine ⟨rfl, hs, List.forall_mem_nil _, List.forall_mem_nil _, ?_, fun _ => nofun, Roomy.nil⟩
  rintro task scope' ⟨⟩
  exact ⟨n, rfl, hn⟩

/-- What a run leaves behind that a crash ends. -/
theorem ActSited.ending {n : Node} {scope : Scope} {stack : List Suspended} {depth : Nat}
    {act : Action × Store} {r : Outcome × Store} (hact : ActSited P n act)
    (h : Machine.carryOut limit (.node n) scope stack depth act = .inr r) :
    r.2.Keeps P ∧ ∀ f, r.1 ≠ .failure f := by
  obtain ⟨c, s, rfl, rfl⟩ | ⟨m, inner, work, s, rfl, rfl, rfl⟩ := carryOut_ending_cases h
  · exact ⟨hact, fun _ => nofun⟩
  · exact ⟨hact.1, fun _ => nofun⟩

/-- Whatever failure a run ends with, an error names a node. -/
theorem Config.Sited.ending (hP : Node.Inherited P) {c : Config} {r : Outcome × Store}
    (hc : c.Sited P limit) (h : advance limit c = .inr r) :
    r.2.Keeps P ∧ ∀ f, r.1 = .failure f → Stamped P f := by
  obtain ⟨-, hcode, htasks, hworks, hstart, hfailure, -⟩ := hc
  have hcrash : (r.2.Keeps P ∧ ∀ f, r.1 ≠ .failure f) →
      r.2.Keeps P ∧ ∀ f, r.1 = .failure f → Stamped P f :=
    fun hr => ⟨hr.1, fun f heq => absurd heq (hr.2 f)⟩
  obtain ⟨v, depth, s, rfl, rfl⟩ | ⟨e, depth, s, rfl, rfl⟩ | ⟨task, scope, stack, depth, s, rfl, h⟩ |
    ⟨v, task, scope, work, stack, depth, s, rfl, h⟩ |
    ⟨e, task, scope, work, stack, depth, s, rfl, -, h⟩ := advance_ending_cases h
  · exact ⟨hcode, fun _ => nofun⟩
  · refine ⟨hcode, ?_⟩
    rintro _ ⟨⟩
    exact hfailure e rfl
  · obtain ⟨n, rfl, hn⟩ := hstart task scope rfl
    exact hcrash ((actSited_beginNode hP hcode hn).ending h)
  · obtain ⟨n, rfl, hn⟩ := htasks _ List.mem_cons_self
    exact hcrash ((actSited_resume hcode hn (hworks _ List.mem_cons_self) v).ending h)
  · obtain ⟨n, rfl, hn⟩ := htasks _ List.mem_cons_self
    exact hcrash ((actSited_recover hcode hn (hfailure e rfl) work).ending h)

end Runs

end Machine

namespace Interpreter

open Parley.Machine

variable {P : Node → Prop} {limit : Limit} {fuel : Nat}

theorem sited_of_execute (hP : Node.Inherited P) {n : Node} (hn : P n) {s s' : Store}
    {outcome : Outcome} (hs : s.Keeps P) (h : execute limit fuel (.node n) s = some (outcome, s')) :
    s'.Keeps P ∧ ∀ f, outcome = .failure f → Stamped P f := by
  obtain ⟨c, hreaches, hend⟩ := exists_reaches_of_run h
  exact (hreaches.sited hP (sited_initial hs (.inl hn) .global)).ending hP hend

theorem sited_of_runStatements (hP : Node.Inherited P) {ns : List Node} (hns : ∀ n ∈ ns, P n)
    {latest : Value} {s s' : Store} {ending : Ending} (hs : s.Keeps P)
    (h : runStatements limit fuel latest ns s = some (ending, s')) :
    s'.Keeps P ∧ ∀ e site, ending = .failed e site → Stamped P (.error e site) := by
  induction ns generalizing latest s with
  | nil =>
      cases h
      exact ⟨hs, fun _ _ => nofun⟩
  | cons n ns ih =>
      obtain ⟨hn, hns⟩ := List.forall_mem_cons.mp hns
      rw [runStatements_cons] at h
      obtain ⟨⟨outcome, s₁⟩, hexecute, hrest⟩ := Option.bind_eq_some_iff.mp h
      obtain ⟨hs₁, hsite⟩ := sited_of_execute hP hn hs hexecute
      match outcome with
      | .value v => exact ih hns hs₁ hrest
      | .failure (.signal v home) =>
          cases hrest
          exact ⟨hs₁.congr rfl rfl, fun _ _ => nofun⟩
      | .failure (.error e site) =>
          cases hrest
          refine ⟨hs₁.congr rfl rfl, ?_⟩
          rintro _ _ ⟨⟩
          exact hsite _ rfl
      | .crash c =>
          cases hrest
          exact ⟨hs₁, fun _ _ => nofun⟩

/-! Texts -/

/-- A text with the name of its file, if that has one. -/
abbrev SourceText := String × Option String

/-- The store of an interpreter that started afresh and ran some texts, the latest of them first. -/
inductive Transcript : List SourceText → Store → Prop
  | fresh (traced : Bool) : Transcript [] (.initial traced)
  | text {sources : List SourceText} {s s' : Store} {limit : Limit} {fuel : Nat} {text : String}
      {file : Option String} {result : Result} (hs : Transcript sources s)
      (h : runText limit fuel text file s = some (result, s')) :
      Transcript ((text, file) :: sources) s'

theorem runText_of_parseProgram {text : String} {file : Option String} {program : Node}
    (h : parseProgram text file = .ok program) (s : Store) : runText limit fuel text file s =
      (runProgram limit fuel program s).map fun r => (.ended r.1, r.2) := by
  rw [runText, h]

/-- A node was read from a text. -/
def ReadFrom (source : SourceText) (n : Node) : Prop :=
  ∃ program, parseProgram source.1 source.2 = .ok program ∧ program.Holds n

/-- A node was read from one of some texts. -/
def WrittenIn (sources : List SourceText) (n : Node) : Prop := ∃ source ∈ sources, ReadFrom source n

theorem inherited_writtenIn (sources : List SourceText) : Node.Inherited (WrittenIn sources) where
  operand := by
    rintro n m ⟨source, hsource, program, hparse, hn⟩ hm
    exact ⟨source, hsource, program, hparse, hn.operand hm⟩
  full := by
    rintro n m ⟨source, hsource, program, hparse, hn⟩ hm
    exact ((located_of_parseProgram hparse).part hn).full hm
  body := by
    rintro _ _ _ _ ⟨source, hsource, program, hparse, hn⟩
    exact ⟨source, hsource, program, hparse, hn.body⟩

theorem sited_of_runText {sources : List SourceText} {text : String} {file : Option String}
    {s s' : Store} {result : Result} (hs : s.Keeps (WrittenIn sources))
    (h : runText limit fuel text file s = some (result, s')) :
    s'.Keeps (WrittenIn ((text, file) :: sources)) ∧
      ∀ e site, result = .ended (.failed e site) →
        Stamped (WrittenIn ((text, file) :: sources)) (.error e site) := by
  have hs' : s.Keeps (WrittenIn ((text, file) :: sources)) :=
    hs.mono fun n hn => hn.imp_left fun ⟨source, hsource, hread⟩ =>
      ⟨source, List.mem_cons_of_mem _ hsource, hread⟩
  cases hparse : parseProgram text file with
  | error e =>
      rw [runText, hparse] at h
      cases h
      exact ⟨hs', fun _ _ => nofun⟩
  | ok program =>
      rw [runText_of_parseProgram hparse] at h
      obtain ⟨⟨ending, s₁⟩, hrun, hend⟩ := Option.map_eq_some_iff.mp h
      cases hend
      have hstatements : ∀ n ∈ program.statements, WrittenIn ((text, file) :: sources) n := by
        obtain ⟨origin, statements, rfl⟩ : ∃ origin statements,
            program = .suite origin .program statements := by
          obtain ⟨origin, statements, hsuite, -⟩ := proper_of_parseProgram hparse
          exact ⟨origin, statements, hsuite⟩
        intro n hn
        exact ⟨(text, file), List.mem_cons_self, _, hparse, Node.Holds.self.operand hn⟩
      obtain ⟨hkeeps, hsite⟩ :=
        sited_of_runStatements (inherited_writtenIn _) hstatements hs' hrun
      refine ⟨hkeeps, ?_⟩
      rintro e site ⟨⟩
      exact hsite e site rfl

theorem Transcript.keeps {sources : List SourceText} {s : Store} (h : Transcript sources s) :
    s.Keeps (WrittenIn sources) := by
  induction h with
  | fresh traced => exact .initial traced
  | text _ hrun ih => exact (sited_of_runText ih hrun).1

/-- A node that was read from a text, unless it is an empty suite, has a place in that text. -/
theorem ReadFrom.origin {text : String} {file : Option String} {n : Node} (h : ReadFrom (text, file) n)
    (hn : n.isEmptySuite = false) : ∃ span, n.origin = some ⟨file, span⟩ ∧ span.LiesIn text := by
  obtain ⟨program, hparse, hholds⟩ := h
  obtain ⟨⟨file', span⟩, horigin, hfile, hlies⟩ :=
    ((located_of_parseProgram hparse).part hholds).origin hn
  obtain rfl : file' = file := hfile
  exact ⟨span, horigin, hlies⟩

/-- Every error can be located. However many texts ran before on an interpreter that started afresh, an
error that a text fails with names a node which was read from it or from one of the others. The node
remembers the file of that text and a stretch of it, and is never a body without statements. An
overflow of the stack names the operand that another node of the same text requested. -/
theorem errors_located {sources : List SourceText} {s : Store} (hs : Transcript sources s)
    (limit : Limit) (fuel : Nat) (text : String) (file : Option String) {e : Error}
    {site : Option Task} {s' : Store}
    (h : runText limit fuel text file s = some (.ended (.failed e site), s')) :
    ∃ n, site = some (.node n) ∧ n.isEmptySuite = false ∧
      ∃ text' file', (text', file') ∈ (text, file) :: sources ∧ ReadFrom (text', file') n ∧
        (∃ span, n.origin = some ⟨file', span⟩ ∧ span.LiesIn text') ∧
        ∀ count, e = .stackOverflow count → ∃ m, ReadFrom (text', file') m ∧ n ∈ m.operands := by
  obtain ⟨n, rfl, ⟨hwritten, hfull⟩, hoverflow⟩ := (sited_of_runText hs.keeps h).2 e site rfl
  refine ⟨n, rfl, hfull, ?_⟩
  cases hkind : e.isOverflow with
  | false =>
      obtain ⟨⟨text', file'⟩, hsource, hread⟩ := hwritten
      refine ⟨text', file', hsource, hread, hread.origin hfull, ?_⟩
      rintro count rfl
      cases hkind
  | true =>
      obtain ⟨m, ⟨⟨text', file'⟩, hsource, hread⟩, hm⟩ := hoverflow hkind
      have hn : ReadFrom (text', file') n := by
        obtain ⟨program, hparse, hholds⟩ := hread
        exact ⟨program, hparse, hholds.operand hm⟩
      exact ⟨text', file', hsource, hn, hn.origin hfull, fun _ _ => ⟨m, hread, hm⟩⟩

/-- A place on the first line of a text. -/
def onFirstLine (file : Option String) (start stop : Nat) : Option Origin :=
  some ⟨file, ⟨⟨1, start⟩, ⟨1, stop⟩⟩⟩

/-- A program that binds a block in which a division fails. -/
def failingLibrary : Node :=
  .suite (onFirstLine (some "lib") 1 21) .program
    [.store (onFirstLine (some "lib") 1 20) (.define "f" "=")
      (.block (onFirstLine (some "lib") 9 20) [] (onFirstLine (some "lib") 11 18)
        [.send (onFirstLine (some "lib") 11 18) (.atom (onFirstLine (some "lib") 12 13) (.integer 1))
          "/" [.atom (onFirstLine (some "lib") 16 17) (.integer 0)]])]

/-- A call of that block. -/
def failingCall : Node :=
  .send (onFirstLine none 1 9) (.atom (onFirstLine none 2 3) (.variable "f")) "call" []

/-- The call of a block from another text fails, and the error names a node of one of the two texts. -/
theorem errors_located_called : ∃ s e n s',
    Transcript [("let f = { [1 / 0] };", some "lib")] s ∧
    runText (.frames 20) 60 "[f call]" none s = some (.ended (.failed e (some (.node n))), s') ∧
    ∃ text file, (text, file) ∈ [("[f call]", none), ("let f = { [1 / 0] };", some "lib")] ∧
      ReadFrom (text, file) n ∧ ∃ span, n.origin = some ⟨file, span⟩ ∧ span.LiesIn text := by
  have hlibrary : parseProgram "let f = { [1 / 0] };" (some "lib") = .ok failingLibrary := by cbv
  have hcall : parseProgram "[f call]" none =
      .ok (.suite (onFirstLine none 1 9) .program [failingCall]) := by cbv
  have hruns : runsTo (.frames 20) 60 false failingLibrary.statements failingCall
      (fun outcome _ => (errorOf? outcome).isSome) = true := by decide +kernel
  obtain ⟨v, s, outcome, s', hbefore, hexecute, hfails⟩ := exists_of_runsTo hruns
  have hfirst : runText (.frames 20) 60 "let f = { [1 / 0] };" (some "lib") (.initial false) =
      some (.ended (.completed v), s) := by
    rw [runText_of_parseProgram hlibrary, runProgram, hbefore]
    rfl
  have htranscript := Transcript.text (.fresh false) hfirst
  obtain ⟨e, he⟩ := Option.isSome_iff_exists.mp hfails
  obtain ⟨site, rfl⟩ := exists_of_errorOf? he
  have hrun : runText (.frames 20) 60 "[f call]" none s =
      some (.ended (.failed e site), (Ending.failed e site).logged s') := by
    rw [runText_of_parseProgram hcall, runProgram, Node.statements, runStatements_cons, hexecute]
    rfl
  obtain ⟨n, rfl, -, text, file, hsource, hread, hplace, -⟩ :=
    errors_located htranscript _ _ _ _ hrun
  exact ⟨s, e, n, _, htranscript, hrun, text, file, hsource, hread, hplace⟩

end Interpreter

end Parley
