import Mathlib.Data.Prod.Lex
import Parley.Machine.Evaluate
import Parley.Proofs.Machine.Sending

/-! Code and what it does next. The code that a store keeps in blocks and methods comes from the programs
that ran, so a property of all sends in those programs is one of all sends that will ever run. What a
task does after a request comes later than the request: first the parts of a node are evaluated one
after another, then blocks are called as often as was settled when the calls began. Loops are the
exception. -/

namespace Parley

mutual

/-- Whether all sends in a node have a property of their selectors and numbers of arguments. -/
def Node.allSends (p : String → Nat → Bool) : Node → Bool
  | .atom _ _ => true
  | .list _ items => Node.allSendsEach p items
  | .store _ _ value => value.allSends p
  | .answer _ value => value.allSends p
  | .send _ receiver selector args =>
    p selector args.length && receiver.allSends p && Node.allSendsEach p args
  | .block _ _ _ body => Node.allSendsEach p body
  | .suite _ _ statements => Node.allSendsEach p statements

/-- Whether all sends in several nodes have a property. -/
def Node.allSendsEach (p : String → Nat → Bool) : List Node → Bool
  | [] => true
  | n :: ns => n.allSends p && Node.allSendsEach p ns

end

/-! Code in a store -/

/-- A new class has no methods. -/
theorem ClassTable.has_of_subclass {t t' : ClassTable} {parent name : String} {fields : List String}
    {c : Class} {m : Method} (h : t.subclass parent name fields = .ok (c, t')) (hm : t'.Has m) :
    t.Has m := by
  rw [ClassTable.subclass] at h
  obtain ⟨p, -, h⟩ := exists_of_bind_eq_ok h
  dsimp only at h
  split_ifs at h
  · cases h
  · obtain ⟨slots, -, h⟩ := exists_of_bind_eq_ok h
    split at h
    · cases h
    · cases h
      obtain ⟨d, hd, selector, hselector⟩ := hm
      rcases List.mem_cons.mp hd with rfl | hd
      · cases hselector
      · exact ⟨d, hd, selector, hselector⟩

/-- A method of a table after a definition was there before or has the body that was defined. -/
theorem ClassTable.has_of_define {t t' : ClassTable} {className selector : String}
    {params : List String} {body : Node} {m defined : Method} {replaced : Bool}
    (h : t.define className selector params body = .ok (defined, replaced, t')) (hm : t'.Has m) :
    t.Has m ∨ m.body = body := by
  rw [ClassTable.define] at h
  obtain ⟨c, -, h⟩ := exists_of_bind_eq_ok h
  dsimp only at h
  split_ifs at h
  · cases h
  · cases h
    obtain ⟨d', hd', key, hkey⟩ := hm
    obtain ⟨d, hd, rfl⟩ := List.mem_map.mp hd'
    split_ifs at hkey
    · by_cases hselector : key = selector
      · subst hselector
        rw [OrderedMap.get?_put_self] at hkey
        cases hkey
        exact .inr rfl
      · rw [OrderedMap.get?_put_of_ne _ hselector] at hkey
        exact .inl ⟨d, hd, key, hkey⟩
    · exact .inl ⟨d, hd, key, hkey⟩

/-- The code of all blocks and methods in a store has a property. -/
structure Store.AllCode (C : Node → Prop) (s : Store) : Prop where
  blocks : ∀ b ∈ s.blocks, C b.body
  methods : ∀ m, s.classes.Has m → C m.body

namespace Store.AllCode

variable {C C' : Node → Prop} {s s' : Store}

theorem initial (traced : Bool) : (Store.initial traced).AllCode C := by
  refine ⟨fun b hb => absurd hb (Array.not_mem_empty b), ?_⟩
  rintro m ⟨c, hc, selector, hm⟩
  obtain rfl := List.mem_singleton.mp hc
  cases hm

theorem mono (h : s.AllCode C) (himp : ∀ n, C n → C' n) : s.AllCode C' :=
  ⟨fun b hb => himp _ (h.blocks b hb), fun m hm => himp _ (h.methods m hm)⟩

/-- Only blocks and classes of a store count. -/
theorem congr (h : s.AllCode C) (hblocks : s'.blocks = s.blocks) (hclasses : s'.classes = s.classes) :
    s'.AllCode C := by
  refine ⟨?_, ?_⟩
  · rw [hblocks]
    exact h.blocks
  · rw [hclasses]
    exact h.methods

theorem newBlock (h : s.AllCode C) {b : Block} (hb : C b.body) : (s.newBlock b).2.AllCode C := by
  refine ⟨fun c hc => ?_, h.methods⟩
  rcases Array.mem_push.mp hc with hc | rfl
  · exact h.blocks c hc
  · exact hb

/-- The code of a block; one that does not exist has the default body. -/
theorem block (h : s.AllCode C) (hdefault : C default) (r : BlockRef) : C (s.block r).body := by
  rw [Store.block, Array.getD_eq_getD_getElem?]
  cases hr : s.blocks[r.index]? with
  | none => exact hdefault
  | some b => exact h.blocks b (Array.mem_of_getElem? hr)

/-- The code of a method comes from a block. -/
theorem change {known : Value → Prop} (h : s.AllCode C) (hdefault : C default)
    (hc : s.Change known s') : s'.AllCode C := by
  cases hc with
  | subclass hsubclass =>
      exact ⟨h.blocks, fun m hm => h.methods m (ClassTable.has_of_subclass hsubclass hm)⟩
  | @install owner selector r m replaced classes _ hdefine =>
      refine ⟨h.blocks, ?_⟩
      intro m hm
      rcases ClassTable.has_of_define hdefine hm with hm | hbody
      · exact h.methods m hm
      · rw [hbody]
        exact h.block hdefault r
  | _ => exact h.congr rfl rfl

theorem changes {known : Value → Prop} (h : s.AllCode C) (hdefault : C default)
    (hc : s.Changes known s') : s'.AllCode C := by
  induction hc with
  | refl => exact h
  | tail _ hchange ih => exact ih.change hdefault hchange

end Store.AllCode

/-- All sends in the blocks and methods of a store have a property. -/
structure Store.AllSends (p : String → Nat → Bool) (s : Store) : Prop where
  blocks : ∀ b ∈ s.blocks, b.body.allSends p = true
  methods : ∀ m, s.classes.Has m → m.body.allSends p = true

namespace Store.AllSends

variable {p : String → Nat → Bool} {s s' : Store}

theorem iff_allCode : s.AllSends p ↔ s.AllCode fun n => n.allSends p = true :=
  ⟨fun h => ⟨h.blocks, h.methods⟩, fun h => ⟨h.blocks, h.methods⟩⟩

theorem congr (h : s.AllSends p) (hblocks : s'.blocks = s.blocks) (hclasses : s'.classes = s.classes) :
    s'.AllSends p :=
  iff_allCode.mpr ((iff_allCode.mp h).congr hblocks hclasses)

theorem newBlock (h : s.AllSends p) {b : Block} (hb : b.body.allSends p = true) :
    (s.newBlock b).2.AllSends p :=
  iff_allCode.mpr ((iff_allCode.mp h).newBlock hb)

theorem block (h : s.AllSends p) (r : BlockRef) : (s.block r).body.allSends p = true :=
  (iff_allCode.mp h).block rfl r

theorem changes {known : Value → Prop} (h : s.AllSends p) (hc : s.Changes known s') :
    s'.AllSends p :=
  iff_allCode.mpr ((iff_allCode.mp h).changes rfl hc)

end Store.AllSends

/-! Works -/

namespace Work

/-- All sends that a task has still to do have a property; it is in a loop only if a loop has it. -/
def AllSends (p : String → Nat → Bool) : Work → Prop
  | .items _ todo | .statements todo => Node.allSendsEach p todo = true
  | .receiver selector args _ => p selector args.length = true ∧ Node.allSendsEach p args = true
  | .argument _ selector done todo _ =>
    p selector (done.length + 1 + todo.length) = true ∧ Node.allSendsEach p todo = true
  | .testing _ _ body | .looping _ _ body =>
    body.isSome = true ∧ ∃ selector count, p selector count = true ∧ Selector.isLoop selector = true
  | _ => True

/-- What a task is at: the parts of a node come before the calls of blocks, and after these comes
nothing. -/
def phase : Work → Nat
  | .items .. | .statements _ | .receiver .. | .argument .. => 2
  | .repeating .. | .counting .. | .visiting .. | .collecting .. | .catching _ | .testing ..
  | .looping .. => 1
  | _ => 0

/-- How much of it is left. -/
def left : Work → Nat
  | .items _ todo | .statements todo | .argument _ _ _ todo _ => todo.length
  | .receiver _ args _ => args.length + 1
  | .repeating _ _ left | .counting _ _ _ left => left
  | .visiting _ _ todo | .collecting _ _ todo => todo.length
  | _ => 0

/-- What is lower comes later in a task. -/
def rank (work : Work) : Nat ×ₗ Nat := toLex (work.phase, work.left)

theorem rank_lt_of_phase {work : Work} {phase : Nat} (h : work.phase < phase) (left : Nat) :
    work.rank < toLex (phase, left) :=
  Prod.Lex.toLex_lt_toLex.mpr (.inl h)

theorem rank_lt_of_left {work : Work} {phase left : Nat} (hphase : work.phase = phase)
    (hleft : work.left < left) : work.rank < toLex (phase, left) :=
  Prod.Lex.toLex_lt_toLex.mpr (.inr ⟨hphase, hleft⟩)

theorem phase_lt_of_isCall {work : Work} (h : work.isCall = true) : work.phase < 2 := by
  cases work <;> cases h <;> simp [phase]

theorem phase_lt_of_isLoop {work : Work} (h : work.IsLoop False) : work.phase < 2 := by
  cases work with
  | testing expected condition body => exact Nat.one_lt_two
  | looping expected condition body => exact Nat.one_lt_two
  | _ => cases h

/-- The works for which blocks are called hold no code. -/
theorem allSends_of_isCall {p : String → Nat → Bool} {work : Work} (h : work.isCall = true) :
    work.AllSends p := by
  cases work <;> cases h <;> trivial

theorem allSends_of_isLoop {p : String → Nat → Bool} {work : Work} (h : work.IsLoop False)
    {selector : String} {count : Nat} (hp : p selector count = true)
    (hloop : Selector.isLoop selector = true) : work.AllSends p := by
  cases work with
  | testing expected condition body => exact ⟨h.resolve_left id, selector, count, hp, hloop⟩
  | looping expected condition body => exact ⟨h.resolve_left id, selector, count, hp, hloop⟩
  | _ => cases h

end Work

namespace Machine

/-- An action in a store whose sends have a property: what it requests and has still to do has it too,
and the work is one of those allowed. -/
def ActSends (p : String → Nat → Bool) (allowed : Work → Prop) : Action × Store → Prop
  | (.finish _, s) => s.AllSends p
  | (.fail _, s) => s.AllSends p
  | (.crash c, s) => s.AllSends p ∧ c = .bottomless ∧ s.Endless
  | (.request n _ work, s) => s.AllSends p ∧ n.allSends p = true ∧ work.AllSends p ∧ allowed work

section Acts

variable {p : String → Nat → Bool} {allowed : Work → Prop} {s : Store} {scope : Scope}

/-- Methods and works have the property, and no argument is lacking. -/
def codeTerms (p : String → Nat → Bool) (allowed : Work → Prop) : Terms where
  known _ := True
  allowed work := work.AllSends p ∧ allowed work
  invoked m _ := m.body.allSends p = true
  lacking := False

theorem knows_codeTerms : (codeTerms p allowed).Knows s := Terms.knows_of_forall fun _ => trivial

/-- However a message is served, the code that runs next is code of the store. -/
theorem actSends_of_serves (hs : s.AllSends p) (hmethod : ∀ r, allowed (.method r))
    {act : Action × Store} (hact : Serves (codeTerms p allowed) s act) : ActSends p allowed act := by
  cases hact with
  | finish hc => exact hs.changes hc
  | refuse ha hc =>
      obtain ⟨e, rfl⟩ | ⟨rfl, hendless⟩ | ⟨-, hlacking⟩ := ha.cases
      · exact hs.changes hc
      · exact ⟨hs.changes hc, rfl, hendless⟩
      · exact hlacking.elim
  | @call s' r args work hc _ _ hwork =>
      have hs' := hs.changes hc
      exact ⟨hs'.congr rfl rfl, hs'.block r, hwork.1⟩
  | @invoke s' m receiver args hc hm _ _ =>
      have hs' := hs.changes hc
      exact ⟨hs'.congr rfl rfl, hm, trivial, hmethod _⟩

/-- A message of a send that has the property. -/
theorem actSends_sendFrom (hs : s.AllSends p) {selector : String} {args : List Value}
    (hp : p selector args.length = true) (harity : Selector.arity selector = args.length)
    (hrank : ∀ work : Work, work.rank < toLex (2, 0) → allowed work) (receiver : Value)
    (isSuper : Bool) : ActSends p allowed (sendFrom s scope receiver selector args isSuper) := by
  have hadmits : Admits (codeTerms p allowed) selector args := by
    refine ⟨fun work hwork => ?_, fun hloop work hwork => ?_, fun _ _ => trivial,
      .inr (Nat.le_of_eq harity)⟩
    · exact ⟨Work.allSends_of_isCall hwork,
        hrank work (Work.rank_lt_of_phase (Work.phase_lt_of_isCall hwork) 0)⟩
    · exact ⟨Work.allSends_of_isLoop hwork hp hloop,
        hrank work (Work.rank_lt_of_phase (Work.phase_lt_of_isLoop hwork) 0)⟩
  have hmethod : ∀ r, allowed (.method r) := fun r => hrank _ (Work.rank_lt_of_phase Nat.two_pos 0)
  rw [sendFrom.eq_def]
  split
  · exact actSends_of_serves hs hmethod (serves_sendSuper hadmits knows_codeTerms trivial
      fun m hm => hs.methods m (ClassTable.has_of_lookupSuper hm))
  · exact actSends_of_serves hs hmethod (serves_send hadmits knows_codeTerms trivial
      fun _ m _ hm => hs.methods m (ClassTable.has_of_lookup hm))

/-! Parts of nodes -/

/-- The first of some parts is requested, and the rest of them is left. -/
theorem actSends_request (hs : s.AllSends p) {n : Node} {todo : List Node}
    (htodo : Node.allSendsEach p (n :: todo) = true) {work : Work}
    (hwork : Node.allSendsEach p todo = true → work.AllSends p) (hphase : work.phase = 2)
    (hleft : work.left = todo.length)
    (hrank : ∀ work : Work, work.rank < toLex (2, (n :: todo).length) → allowed work) :
    ActSends p allowed (.request n scope work, s) := by
  rw [Node.allSendsEach, Bool.and_eq_true] at htodo
  have hlt : work.left < (n :: todo).length := by
    rw [hleft, List.length_cons]
    omega
  exact ⟨hs, htodo.1, hwork htodo.2, hrank work (Work.rank_lt_of_left hphase hlt)⟩

theorem actSends_nextItem (hs : s.AllSends p) {todo : List Node}
    (htodo : Node.allSendsEach p todo = true)
    (hrank : ∀ work : Work, work.rank < toLex (2, todo.length) → allowed work) (done : List Value) :
    ActSends p allowed (nextItem s scope done todo) := by
  cases todo with
  | nil => exact hs.congr rfl rfl
  | cons n todo => exact actSends_request hs htodo (fun h => h) rfl rfl hrank

theorem actSends_nextStatement (hs : s.AllSends p) {todo : List Node}
    (htodo : Node.allSendsEach p todo = true)
    (hrank : ∀ work : Work, work.rank < toLex (2, todo.length) → allowed work) (latest : Value) :
    ActSends p allowed (nextStatement s scope latest todo) := by
  cases todo with
  | nil => exact hs
  | cons n todo => exact actSends_request hs htodo (fun h => h) rfl rfl hrank

theorem actSends_putValue (hs : s.AllSends p) (target : Target) (v : Value) :
    ActSends p allowed (putValue s scope target v) := by
  cases target with
  | define name operator => exact hs.congr rfl rfl
  | assign name =>
      rw [putValue]
      split
      · exact hs.congr rfl rfl
      · exact hs
  | slot name =>
      rw [putValue]
      split
      · split_ifs
        · exact hs.congr rfl rfl
        · exact hs
      · exact hs

theorem actSends_returnValue (hs : s.AllSends p) (v : Value) :
    ActSends p allowed (returnValue s scope v, s) := by
  rw [returnValue]
  split
  · exact hs
  · split_ifs <;> exact hs

theorem actSends_beginNode (hs : s.AllSends p) {n : Node} (hn : n.allSends p = true)
    (hrank : ∀ work : Work, work.rank < toLex (3, 0) → allowed work) :
    ActSends p allowed (beginNode s scope n) := by
  have hparts : ∀ k, ∀ work : Work, work.rank < toLex (2, k) → allowed work := by
    intro k work hwork
    refine hrank work (lt_trans hwork ?_)
    exact Prod.Lex.toLex_lt_toLex.mpr (.inl (Nat.lt_succ_self 2))
  cases n with
  | atom origin a =>
      rw [beginNode]
      split <;> exact hs
  | list origin items => exact actSends_nextItem hs hn (hparts _) []
  | store origin target value =>
      exact ⟨hs, hn, trivial, hrank _ (Work.rank_lt_of_phase (Nat.succ_pos 2) 0)⟩
  | answer origin value =>
      exact ⟨hs, hn, trivial, hrank _ (Work.rank_lt_of_phase (Nat.succ_pos 2) 0)⟩
  | send origin receiver selector args =>
      rw [Node.allSends, Bool.and_eq_true, Bool.and_eq_true] at hn
      obtain ⟨⟨hp, hreceiver⟩, hargs⟩ := hn
      exact ⟨hs, hreceiver, ⟨hp, hargs⟩, hrank _ (Work.rank_lt_of_phase (Nat.lt_succ_self 2) 0)⟩
  | block origin params bodyOrigin body => exact hs.newBlock hn
  | suite origin kind statements => exact actSends_nextStatement hs hn (hparts _) .nil

/-! Sends that carry as many arguments as their selectors take -/

section Arity

variable (harity : ∀ selector count, p selector count = true → Selector.arity selector = count)

include harity

theorem actSends_nextArgument (hs : s.AllSends p) {selector : String} {done : List Value}
    {todo : List Node} (hp : p selector (done.length + todo.length) = true)
    (htodo : Node.allSendsEach p todo = true)
    (hrank : ∀ work : Work, work.rank < toLex (2, todo.length) → allowed work) (receiver : Value)
    (isSuper : Bool) :
    ActSends p allowed (nextArgument s scope receiver selector done isSuper todo) := by
  cases todo with
  | nil =>
      have hlength : done.reverse.length = done.length + 0 := List.length_reverse
      rw [List.length_nil, ← hlength] at hp
      exact actSends_sendFrom hs hp (harity _ _ hp) hrank receiver isSuper
  | cons n todo =>
      rw [List.length_cons, Nat.add_comm todo.length, ← Nat.add_assoc] at hp
      exact actSends_request hs htodo (fun h => ⟨hp, h⟩) rfl rfl hrank

/-- The next action after a value comes later in the task, loops apart. -/
theorem actSends_resume (hs : s.AllSends p) {work : Work} (hwork : work.AllSends p)
    (hrank : ∀ later : Work, later.rank < work.rank → allowed later)
    (hloop : work.IsLoop False → ∀ later : Work, later.IsLoop False → allowed later) (v : Value) :
    ActSends p allowed (resume s scope v work) := by
  have hcall : ∀ act, work.phase = 1 →
      Serves (codeTerms p allowed) s act → ActSends p allowed act := by
    intro act hphase hact
    refine actSends_of_serves hs (fun r => hrank _ (Work.rank_lt_of_phase ?_ _)) hact
    rw [hphase]
    exact Nat.one_pos
  cases work with
  | items done todo => exact actSends_nextItem hs hwork hrank (v :: done)
  | store target => exact actSends_putValue hs target v
  | answer => exact actSends_returnValue hs v
  | receiver selector args isSuper =>
      have hp : p selector (([] : List Value).length + args.length) = true := by
        rw [List.length_nil, Nat.zero_add]
        exact hwork.1
      refine actSends_nextArgument harity hs hp hwork.2 (fun later hlater => hrank later ?_) v isSuper
      exact lt_trans hlater (Prod.Lex.toLex_lt_toLex.mpr (.inr ⟨rfl, Nat.lt_succ_self _⟩))
  | argument receiver selector done todo isSuper =>
      exact actSends_nextArgument harity hs hwork.1 hwork.2 hrank receiver isSuper
  | statements todo => exact actSends_nextStatement hs hwork hrank v
  | method home => exact hs.congr rfl rfl
  | result => exact hs
  | catching handler => exact hs
  | repeating answer block left =>
      refine hcall _ rfl (serves_repeatBlock (fun _ _ => trivial) ?_)
      rintro k rfl
      exact ⟨trivial, hrank _ (Work.rank_lt_of_left rfl (Nat.lt_succ_self k))⟩
  | counting answer block next left =>
      refine hcall _ rfl (serves_countBlock knows_codeTerms (fun _ _ => trivial) next ?_)
      rintro k rfl
      exact ⟨trivial, hrank _ (Work.rank_lt_of_left rfl (Nat.lt_succ_self k))⟩
  | visiting answer block todo =>
      refine hcall _ rfl (serves_visitItems (fun _ _ => trivial) ?_)
      rintro w ws rfl
      exact ⟨trivial, hrank _ (Work.rank_lt_of_left rfl (Nat.lt_succ_self _))⟩
  | collecting block done todo =>
      refine hcall _ rfl (serves_collectItems (fun _ _ => trivial) ?_)
      rintro w ws rfl
      exact ⟨trivial, hrank _ (Work.rank_lt_of_left rfl (Nat.lt_succ_self _))⟩
  | testing expected condition body =>
      have hbody : False ∨ body.isSome = true := .inr hwork.1
      exact hcall _ rfl (serves_afterTest knows_codeTerms v (fun _ _ => trivial) hbody
        ⟨hwork, hloop hbody _ hbody⟩ ⟨hwork, hloop hbody _ hbody⟩)
  | looping expected condition body =>
      have hbody : False ∨ body.isSome = true := .inr hwork.1
      exact hcall _ rfl (serves_testLoop (fun _ _ => trivial) ⟨hwork, hloop hbody _ hbody⟩)

end Arity

/-- The next action after a failure comes later in the task. -/
theorem actSends_recover (hs : s.AllSends p) {work : Work}
    (hrank : ∀ later : Work, later.rank < work.rank → allowed later)
    (hguarded : work.isGuarded = true) (failure : Failure) :
    ActSends p allowed (recover s failure work) := by
  cases work with
  | method home =>
      have hretired : (s.retire home).AllSends p := hs.congr rfl rfl
      match failure with
      | .error e site => exact hretired
      | .signal v none => exact hretired
      | .signal v (some target) =>
          rw [recover]
          split_ifs <;> exact hretired
  | catching handler =>
      cases failure with
      | signal v target => exact hs
      | error e site =>
          have hlater : ∀ later : Work, later.phase = 0 → allowed later := by
            intro later hphase
            refine hrank later (Work.rank_lt_of_phase ?_ 0)
            rw [hphase]
            exact Nat.one_pos
          exact actSends_of_serves hs (fun r => hlater _ rfl)
            (serves_handle knows_codeTerms e trivial ⟨trivial, hlater _ rfl⟩)
  | _ => cases hguarded

end Acts

end Machine

end Parley
