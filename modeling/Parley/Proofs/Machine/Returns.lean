import Parley.Proofs.Machine.Activations
import Parley.Proofs.Session

/-! Returns. An activation is alive exactly while its method is suspended on the stack, so a return to a
method passes all tasks above that method and is taken by it, and never leaves the program. A crash is the
one thing that breaks this for the rest of a session: the activations of the methods on the stack stay
alive, and a later return to one of them finds no method and ends the program. -/

namespace Parley.Machine

theorem mem_suspended {stack : List Suspended} {r : ActivationRef} :
    r ∈ suspended stack ↔ ∃ f ∈ stack, f.work = .method r := by
  rw [suspended, List.mem_filterMap]
  refine exists_congr fun f => and_congr_right ?_
  intro _
  rw [Suspended.activation?]
  split
  · next r' hr' => rw [hr', Option.some_inj, Work.method.injEq]
  · next hne => exact iff_of_false (Option.some_ne_none r).symm (hne r)

/-! The end of a run -/

/-- A crash leaves homes behind that exist, and the suspended and stale activations alive. -/
theorem ActTracks.ending {stale : ActivationRef → Prop} {limit : Limit} {task : Task} {scope : Scope}
    {stack : List Suspended} {depth : Nat} {act : Action × Store} {r : Outcome × Store}
    (hact : ActTracks stale task scope stack act)
    (h : carryOut limit task scope stack depth act = .inr r) :
    (∃ c, r.1 = .crash c) ∧ r.2.HomesExist ∧
      ∀ home, home ∈ suspended stack ∨ stale home → r.2.Alive home := by
  obtain ⟨c, s, rfl, rfl⟩ | ⟨n, inner, work, s, rfl, rfl, rfl⟩ := carryOut_ending_cases h
  · exact ⟨⟨c, rfl⟩, hact.blocks, fun home hhome => (hact.alive home).mpr hhome⟩
  · have hsubset : suspended stack ⊆ suspended (⟨task, scope, work⟩ :: stack) :=
      ((List.sublist_cons_self _ stack).filterMap _).subset
    refine ⟨⟨.missingLimit, rfl⟩, hact.1.blocks, fun home hhome => (hact.1.alive home).mpr ?_⟩
    exact hhome.imp_left fun hmem => hsubset hmem

/-- A task that waits for a method does not end the run when it is told what came of the method. -/
theorem carryOut_recover_method_ne {limit : Limit} {task : Task} {scope : Scope}
    {stack : List Suspended} {depth : Nat} {s : Store} {e : Failure} {home : ActivationRef}
    {r : Outcome × Store} :
    carryOut limit task scope stack depth (recover s e (.method home)) ≠ .inr r := by
  cases e with
  | error e site => exact Sum.inl_ne_inr
  | signal v target =>
      cases target with
      | none => exact Sum.inl_ne_inr
      | some target =>
          rw [recover]
          split_ifs
          · exact Sum.inl_ne_inr
          · exact Sum.inl_ne_inr

/-- How a run ends from a state: by a crash, which ends no method, or with the stale activations alone
alive; and a return that leaves it is to one of these. -/
structure EndsSafely (stale : ActivationRef → Prop) (c : Config) (r : Outcome × Store) : Prop where
  homes : r.2.HomesExist
  alive : (∀ k, r.1 ≠ .crash k) → ∀ home, r.2.Alive home ↔ stale home
  signal : ∀ v home, r.1 = .failure (.signal v (some home)) → stale home
  crashed : ∀ k, r.1 = .crash k → ∀ home, c.store.Alive home → r.2.Alive home

theorem Tracks.alive_nil {stale : ActivationRef → Prop} {s : Store} (h : Tracks stale [] s)
    (r : ActivationRef) : s.Alive r ↔ stale r :=
  (h.alive r).trans (or_iff_right List.not_mem_nil)

theorem Config.Tracked.ending {stale : ActivationRef → Prop} {limit : Limit} {c : Config}
    {r : Outcome × Store} (hc : c.Tracked stale) (h : advance limit c = .inr r) :
    EndsSafely stale c r := by
  obtain ⟨htracks, hstart, hsignal⟩ := hc
  have hcrash : ∀ {stack : List Suspended},
      (∀ home, home ∈ suspended c.stack → home ∈ suspended stack) →
      ((∃ k, r.1 = .crash k) ∧ r.2.HomesExist ∧
        ∀ home, home ∈ suspended stack ∨ stale home → r.2.Alive home) → EndsSafely stale c r := by
    rintro stack hstack ⟨⟨k, hk⟩, hhomes, halive⟩
    refine ⟨hhomes, fun hne => absurd hk (hne k), ?_, fun _ _ home hhome => halive home ?_⟩
    · intro v home hv
      cases hk.symm.trans hv
    · exact ((htracks.alive home).mp hhome).imp_left (hstack home)
  have hpop : ∀ {task : Task} {scope : Scope} {work : Work} {stack : List Suspended},
      (∀ home, work ≠ .method home) →
      ∀ home, home ∈ suspended (⟨task, scope, work⟩ :: stack) → home ∈ suspended stack := by
    intro task scope work stack hwork home hmem
    rwa [suspended_cons_of_ne hwork] at hmem
  obtain ⟨v, depth, s, rfl, rfl⟩ | ⟨e, depth, s, rfl, rfl⟩ | ⟨task, scope, stack, depth, s, rfl, h⟩ |
    ⟨v, task, scope, work, stack, depth, s, rfl, h⟩ |
    ⟨e, task, scope, work, stack, depth, s, rfl, hguarded, h⟩ := advance_ending_cases h
  · exact ⟨htracks.blocks, fun _ => htracks.alive_nil, fun _ _ => nofun, fun _ => nofun⟩
  · refine ⟨htracks.blocks, fun _ => htracks.alive_nil, ?_, fun _ => nofun⟩
    rintro v home ⟨⟩
    exact (hsignal v home rfl).resolve_left List.not_mem_nil
  · exact hcrash (fun _ => id) ((actTracks_begin htracks (hstart task scope rfl)).ending h)
  · refine hcrash (hpop ?_) ((actTracks_resume htracks v).ending h)
    rintro home rfl
    cases h
  · refine hcrash (hpop ?_) ((actTracks_recover htracks (fun v home hv => hsignal v home ?_)
      hguarded).ending h)
    · rintro home rfl
      exact carryOut_recover_method_ne h
    · rw [hv]

/-! Returns on their way out -/

section Unwinding

variable {limit : Limit} {v : Value} {r : ActivationRef}

/-- A failure passes tasks one after another. -/
def Passes (limit : Limit) (e : Failure) : Config → Config → Prop :=
  Relation.ReflTransGen fun c c' =>
    Steps limit c c' ∧ c.control = .failure e ∧ c'.control = .failure e

/-- A task that does not run the method of a return is passed by it. -/
theorem exists_passed {f : Suspended} (hf : f.work ≠ .method r) (stack : List Suspended)
    (depth : Nat) (s : Store) :
    ∃ s', Steps limit ⟨.failure (.signal v (some r)), f :: stack, depth, s⟩
      ⟨.failure (.signal v (some r)), stack, depth - 1, s'⟩ := by
  obtain ⟨task, scope, work⟩ := f
  cases work with
  | method r' =>
      have hne : ¬r = r' := fun heq => hf (by rw [heq])
      refine ⟨s.retire r', ?_⟩
      have hrecover : recover s (.signal v (some r)) (.method r') =
          (.fail (.signal v (some r)), s.retire r') := if_neg hne
      rw [Steps, advance, if_pos (show Work.isGuarded (.method r') = true from rfl), hrecover]
      rfl
  | _ => exact ⟨s, rfl⟩

/-- A return passes all tasks that do not run its method. -/
theorem exists_passes {above : List Suspended} (habove : ∀ g ∈ above, g.work ≠ .method r)
    (below : List Suspended) (depth : Nat) (s : Store) :
    ∃ depth' s', Passes limit (.signal v (some r))
      ⟨.failure (.signal v (some r)), above ++ below, depth, s⟩
      ⟨.failure (.signal v (some r)), below, depth', s'⟩ := by
  induction above generalizing depth s with
  | nil => exact ⟨depth, s, .refl⟩
  | cons g above ih =>
      obtain ⟨hg, habove⟩ := List.forall_mem_cons.mp habove
      obtain ⟨s₁, hstep⟩ := exists_passed hg (above ++ below) depth s
      obtain ⟨depth', s', hpasses⟩ := ih habove (depth - 1) s₁
      exact ⟨depth', s', .head ⟨hstep, rfl, rfl⟩ hpasses⟩

/-- The method of a return takes it for its value. -/
theorem steps_absorbed {f : Suspended} (hf : f.work = .method r) (below : List Suspended) (depth : Nat)
    (s : Store) :
    Steps limit ⟨.failure (.signal v (some r)), f :: below, depth, s⟩
      ⟨.value v, below, depth - 1, s.retire r⟩ := by
  have hrecover : recover s (.signal v (some r)) (.method r) = (.finish v, s.retire r) := if_pos rfl
  rw [Steps, advance, hf, if_pos (show Work.isGuarded (.method r) = true from rfl), hrecover]
  rfl

end Unwinding

/-- A suspended activation has one task on the stack. -/
theorem exists_split_of_mem_suspended {stack : List Suspended} {r : ActivationRef}
    (hr : r ∈ suspended stack) (hnodup : (suspended stack).Nodup) :
    ∃ above f below, stack = above ++ f :: below ∧ f.work = .method r ∧
      ∀ g ∈ above ++ below, g.work ≠ .method r := by
  obtain ⟨f, hf, hwork⟩ := mem_suspended.mp hr
  obtain ⟨above, below, rfl⟩ := List.append_of_mem hf
  refine ⟨above, f, below, rfl, hwork, ?_⟩
  intro g hg hgwork
  have hfirst : f.activation? = some r := by rw [Suspended.activation?, hwork]
  rw [suspended, List.filterMap_append, List.filterMap_cons_some hfirst] at hnodup
  have hmem : r ∈ suspended above ++ suspended below := by
    rw [suspended, suspended, ← List.filterMap_append]
    exact mem_suspended.mpr ⟨g, hg, hgwork⟩
  exact (List.nodup_cons.mp (List.nodup_middle.mp hnodup)).1 hmem

/-- A method that was invoked is not suspended any more, and no crash has left it alive. -/
def Config.HasEnded (stale : ActivationRef → Prop) (c : Config) (r : ActivationRef) : Prop :=
  c.store.Created r ∧ (∀ f ∈ c.stack, f.work ≠ .method r) ∧ ¬stale r

/-- What is so at every point of a run with activations and returns. Stale are the activations that a
crash has left alive before the run. -/
structure Config.ReturnsSafely (limit : Limit) (stale : ActivationRef → Prop) (c : Config) : Prop where
  /-- An activation is alive exactly while its method is suspended on the stack, or if it is stale. -/
  alive : ∀ r, c.store.Alive r ↔ (∃ f ∈ c.stack, f.work = .method r) ∨ stale r
  /-- The method of a stale activation is not suspended. -/
  apart : ∀ r, stale r → ∀ f ∈ c.stack, f.work ≠ .method r
  /-- A return to a method passes the tasks above that one method and is the method's value. -/
  absorbed : ∀ v r, c.control = .failure (.signal v (some r)) → ¬stale r →
    ∃ above f below depth s, c.stack = above ++ f :: below ∧ f.work = .method r ∧
      (∀ g ∈ above ++ below, g.work ≠ .method r) ∧
      Passes limit (.signal v (some r)) c
        ⟨.failure (.signal v (some r)), f :: below, depth, s⟩ ∧
      Steps limit ⟨.failure (.signal v (some r)), f :: below, depth, s⟩
        ⟨.value v, below, depth - 1, s.retire r⟩
  /-- A return to a stale activation passes all tasks and ends the run. -/
  escapes : ∀ v r, c.control = .failure (.signal v (some r)) → stale r →
    ∃ depth s, Passes limit (.signal v (some r)) c ⟨.failure (.signal v (some r)), [], depth, s⟩ ∧
      advance limit ⟨.failure (.signal v (some r)), [], depth, s⟩ =
        .inr (.failure (.signal v (some r)), s)
  /-- A return with a value is refused exactly if the method it belongs to has ended. -/
  refused : ∀ v task scope stack, c.control = .value v → c.stack = ⟨task, scope, .answer⟩ :: stack →
    (Steps limit c ⟨.failure (.error .invalidReturn (some task)), stack, c.depth - 1, c.store⟩ ↔
      ∃ r, scope.home = some r ∧ c.HasEnded stale r)
  /-- Otherwise it sets out for that method, or out of the program. -/
  signalled : ∀ v task scope stack, c.control = .value v → c.stack = ⟨task, scope, .answer⟩ :: stack →
    (∀ r, scope.home = some r → ¬c.HasEnded stale r) →
    Steps limit c ⟨.failure (.signal v scope.home), stack, c.depth - 1, c.store⟩
  /-- A crash ends no method: what is alive stays alive, and is stale from then on. -/
  crashed : ∀ k s', advance limit c = .inr (.crash k, s') → ∀ r, c.store.Alive r → s'.Alive r

section Returning

variable {stale : ActivationRef → Prop} {limit : Limit} {v : Value} {task : Task} {scope : Scope}
  {stack : List Suspended} {depth : Nat} {s : Store}

theorem steps_signal (hopen : ∀ r, scope.home = some r → s.Alive r) :
    Steps limit ⟨.value v, ⟨task, scope, .answer⟩ :: stack, depth, s⟩
      ⟨.failure (.signal v scope.home), stack, depth - 1, s⟩ := by
  have hreturn : returnValue s scope v = .fail (.signal v scope.home) := by
    rw [returnValue]
    split
    · next hhome => rw [hhome]
    · next r hhome =>
        have halive : (s.activation r).alive = true := hopen r hhome
        rw [if_pos halive, hhome]
  rw [Steps, advance, resume, hreturn]
  rfl

theorem steps_invalidReturn {r : ActivationRef} (hhome : scope.home = some r)
    (hdead : ¬s.Alive r) :
    Steps limit ⟨.value v, ⟨task, scope, .answer⟩ :: stack, depth, s⟩
      ⟨.failure (.error .invalidReturn (some task)), stack, depth - 1, s⟩ := by
  have hreturn : returnValue s scope v = .error .invalidReturn := by
    rw [returnValue, hhome]
    exact if_neg hdead
  rw [Steps, advance, resume, hreturn]
  rfl

/-- The home of a scope on the stack has ended exactly if it is dead. -/
theorem Tracks.hasEnded_iff {control : Control}
    (h : Tracks stale (⟨task, scope, .answer⟩ :: stack) s) {r : ActivationRef}
    (hr : scope.home = some r) :
    Config.HasEnded stale ⟨control, ⟨task, scope, .answer⟩ :: stack, depth, s⟩ r ↔ ¬s.Alive r := by
  rw [h.alive, mem_suspended, not_or]
  constructor
  · rintro ⟨-, hne, hstale⟩
    exact ⟨fun ⟨f, hf, hwork⟩ => hne f hf hwork, hstale⟩
  · rintro ⟨hne, hstale⟩
    exact ⟨h.scopes _ List.mem_cons_self r hr, fun f hf hwork => hne ⟨f, hf, hwork⟩, hstale⟩

end Returning

theorem Config.Tracked.returnsSafely {stale : ActivationRef → Prop} {limit : Limit} {c : Config}
    (hc : c.Tracked stale) : c.ReturnsSafely limit stale := by
  have hcrashed : ∀ k s', advance limit c = .inr (.crash k, s') → ∀ r, c.store.Alive r → s'.Alive r :=
    fun k s' h => (hc.ending h).crashed k rfl
  obtain ⟨control, stack, depth, s⟩ := c
  obtain ⟨htracks, -, hsignal⟩ := hc
  have hapart : ∀ r, stale r → ∀ f ∈ stack, f.work ≠ .method r := fun r hstale f hf hwork =>
    htracks.apart r (mem_suspended.mpr ⟨f, hf, hwork⟩) hstale
  refine ⟨fun r => (htracks.alive r).trans (or_congr_left mem_suspended), hapart, ?_, ?_, ?_, ?_, hcrashed⟩
  · rintro v r ⟨⟩ hstale
    obtain ⟨above, f, below, rfl, hwork, hothers⟩ :=
      exists_split_of_mem_suspended ((hsignal v r rfl).resolve_right hstale) htracks.nodup
    obtain ⟨depth', s', hpasses⟩ := exists_passes
      (fun g hg => hothers g (List.mem_append_left below hg)) (f :: below) depth s
    exact ⟨above, f, below, depth', s', rfl, hwork, hothers, hpasses, steps_absorbed hwork below _ _⟩
  · rintro v r ⟨⟩ hstale
    obtain ⟨depth', s', hpasses⟩ := exists_passes (hapart r hstale) [] depth s
    rw [List.append_nil] at hpasses
    exact ⟨depth', s', hpasses, rfl⟩
  · rintro v task scope rest ⟨⟩ ⟨⟩
    constructor
    · intro hstep
      by_contra hopen
      have halive : ∀ r, scope.home = some r → s.Alive r := by
        intro r hr
        by_contra hdead
        exact hopen ⟨r, hr, (htracks.hasEnded_iff hr).mpr hdead⟩
      cases hstep.symm.trans (steps_signal halive)
    · rintro ⟨r, hr, hended⟩
      exact steps_invalidReturn hr ((htracks.hasEnded_iff hr).mp hended)
  · rintro v task scope rest ⟨⟩ ⟨⟩ hopen
    refine steps_signal ?_
    intro r hr
    by_contra hdead
    exact hopen r hr ((htracks.hasEnded_iff hr).mpr hdead)

end Parley.Machine

namespace Parley.Interpreter

open Parley.Machine

theorem tracked_initial {s : Store} (h : s.HomesExist) (n : Node) :
    (Config.initial (.node n) .global s).Tracked s.Alive := by
  refine ⟨tracks_of_homesExist h, ?_, fun _ _ => nofun⟩
  rintro task scope ⟨⟩ r ⟨⟩

theorem endsSafely_of_execute {limit : Limit} {fuel : Nat} {n : Node} {s : Store} {r : Outcome × Store}
    (hs : s.HomesExist) (h : execute limit fuel (.node n) s = some r) :
    ∃ c, EndsSafely s.Alive c r := by
  obtain ⟨c, hreaches, hend⟩ := exists_reaches_of_run h
  exact ⟨c, (hreaches.tracked (tracked_initial hs n)).ending hend⟩

theorem homesExist_initial (traced : Bool) : (Store.initial traced).HomesExist :=
  fun b hb => absurd hb (Array.not_mem_empty b)

theorem not_alive_initial (traced : Bool) (r : ActivationRef) : ¬(Store.initial traced).Alive r :=
  fun halive => Nat.not_lt_zero _ (Store.created_of_alive halive)

/-- Between statements every home exists. -/
theorem kept_homesExist (P : Node → Prop) : Kept P Store.HomesExist where
  fresh := homesExist_initial
  newList _ _ h := h
  newObject _ _ h := h
  newDetachedClass _ _ h := h
  newBlock s _ _ _ h := by
    have hs : Tracks s.Alive [] (s.newFrame none []).2 := (tracks_of_homesExist h).congr rfl rfl
    refine (hs.newBlock ?_).blocks
    exact nofun
  define _ _ _ h := h
  log _ _ h := h
  execute _ _ _ _ _ _ _ hs h := by
    obtain ⟨c, hsafely⟩ := endsSafely_of_execute hs h
    exact hsafely.homes

/-- No activation is alive, and every home exists. -/
def IsIdle (s : Store) : Prop := s.HomesExist ∧ ∀ r, ¬s.Alive r

theorem keptByBinding_isIdle (P : Node → Prop) : KeptByBinding P IsIdle where
  newList s items h := ⟨(kept_homesExist P).newList s items h.1, h.2⟩
  newObject s o h := ⟨(kept_homesExist P).newObject s o h.1, h.2⟩
  newDetachedClass s name h := ⟨(kept_homesExist P).newDetachedClass s name h.1, h.2⟩
  newBlock s params body hbody h := ⟨(kept_homesExist P).newBlock s params body hbody h.1, h.2⟩
  define s name v h := ⟨(kept_homesExist P).define s name v h.1, h.2⟩

/-- A statement that does not crash leaves no activation alive that it did not find alive. -/
theorem isIdle_of_unbroken {P : Node → Prop} {s : Store} (h : Unbroken P s) : IsIdle s := by
  refine h.invariant (keptByBinding_isIdle P)
    (fun traced => ⟨homesExist_initial traced, not_alive_initial traced⟩)
    (fun s line hs => ⟨(kept_homesExist P).log s line hs.1, hs.2⟩) ?_
  intro limit fuel n s outcome s' _ hs hrun hends
  obtain ⟨c, hsafely⟩ := endsSafely_of_execute hs.1 hrun
  exact ⟨hsafely.homes, fun r halive => hs.2 r ((hsafely.alive hends r).mp halive)⟩

/-- At every point of the run of a statement, and with the activations that it finds alive for stale ones,
activations are alive exactly while suspended and returns to them are safe. When the statement has ended
without a crash, the stale ones alone are alive, and a return that has escaped is to one of them. As long
as no statement of the session has crashed, there are none. -/
theorem returns_safe (limit : Limit) (n : Node) (s : Store)
    (hbegins : Begins (fun _ => True) limit n s) :
    (∀ c, Reaches limit (.initial (.node n) .global s) c → c.ReturnsSafely limit s.Alive) ∧
    (∀ fuel outcome s', execute limit fuel (.node n) s = some (outcome, s') →
      ((∀ c, outcome ≠ .crash c) → ∀ r, s'.Alive r ↔ s.Alive r) ∧
      ∀ v r, outcome = .failure (.signal v (some r)) → s.Alive r) ∧
    (Unbroken (fun _ => True) s → ∀ r, ¬s.Alive r) := by
  have hs : s.HomesExist := ((kept_homesExist _).begins hbegins).2
  refine ⟨fun c hc => (hc.tracked (tracked_initial hs n)).returnsSafely, ?_, ?_⟩
  · intro fuel outcome s' hrun
    obtain ⟨c, hsafely⟩ := endsSafely_of_execute hs hrun
    exact ⟨hsafely.alive, hsafely.signal⟩
  · exact fun hunbroken => (isIdle_of_unbroken hunbroken).2

/-- Statements that give a class a method `m` in which a block returns, and make an instance of it. -/
def returningProgram : List Node :=
  [.send none (.atom none (.variable "Object")) "subclass name:" [.atom none (.symbol "A")],
    .send none (.atom none (.variable "A")) "def: do:"
      [.atom none (.symbol "m"), .block none [] none
        [.send none (.list none [.atom none (.integer 1)]) "do:"
            [.block none ["x"] none [.answer none (.atom none (.variable "x"))]],
          .atom none (.integer 3)]],
    .store none (.define "a" "=") (.send none (.atom none (.variable "A")) "new" [])]

def returningCall : Node :=
  .send none (.atom none (.variable "a")) "m" []

/-- The block returns from the method, and the activation of the method is dead afterwards. -/
theorem returns_safe_from_block : ∃ s s', Begins (fun _ => True) (.frames 20) returningCall s ∧
    execute (.frames 20) 60 (.node returningCall) s = some (.value (.integer 1), s') ∧
    s'.activations.size = 1 ∧ ∀ r, ¬s'.Alive r := by
  have hrun : runsTo (.frames 20) 60 false returningProgram returningCall (fun outcome s' =>
      valueOf? outcome == some (.integer 1) && s'.activations.size == 1) = true := by decide +kernel
  obtain ⟨v, s, outcome, s', hbefore, hexecute, hcheck⟩ := exists_of_runsTo hrun
  simp only [Bool.and_eq_true, beq_iff_eq] at hcheck
  obtain rfl := eq_value_of_valueOf? hcheck.1
  have hbegins : Begins (fun _ => True) (.frames 20) returningCall s :=
    .of_fresh (fun _ _ => trivial) hbefore
  obtain ⟨-, hends, hunbroken⟩ := returns_safe _ _ s hbegins
  have hdead := hunbroken (.of_fresh (fun _ _ => trivial) hbefore)
  refine ⟨s, s', hbegins, hexecute, hcheck.2, fun r halive => hdead r ?_⟩
  exact ((hends 60 _ s' hexecute).1 (fun _ => nofun) r).mp halive

/-- Statements that keep a block of a method, in which that method returns, and end the method by the text of
a list that contains itself. -/
def leavingProgram : List Node :=
  [.store none (.define "b" "=") (.atom none .nil),
    .send none (.atom none (.variable "Object")) "subclass name:" [.atom none (.symbol "A")],
    .send none (.atom none (.variable "A")) "def: do:"
      [.atom none (.symbol "go"), .block none [] none
        [.store none (.assign "b") (.block none [] none [.answer none (.atom none (.integer 1))]),
          .store none (.define "l" "=") (.list none []),
          .send none (.atom none (.variable "l")) "add:" [.atom none (.variable "l")],
          .send none (.atom none (.variable "l")) "printString" []]],
    .send none (.send none (.atom none (.variable "A")) "new" []) "go" []]

/-- The block is called in a later program. -/
def leftCall : Node := .send none (.atom none (.variable "b")) "call" []

/-- After a crash the activation is alive with nothing on the stack, and the return of the block, which
should be refused, escapes. -/
theorem return_escapes_after_crash : ∃ s s' r,
    runProgram (.frames 20) 60 (.suite none .program leavingProgram) (.initial false) =
      some (.crashed .bottomless, s) ∧
    Begins (fun _ => True) (.frames 20) leftCall s ∧ s.Alive r ∧
    execute (.frames 20) 60 (.node leftCall) s =
      some (.failure (.signal (.integer 1) (some r)), s') := by
  have hrun : (runProgram (.frames 20) 60 (.suite none .program leavingProgram) (.initial false)).any
      (fun left => crashOfEnding? left.1 = some .bottomless &&
        (execute (.frames 20) 60 (.node leftCall) left.2).any fun r =>
          signalOf? r.1 = some (.integer 1, some ⟨0⟩)) = true := by decide +kernel
  obtain ⟨⟨ending, s⟩, hleft, hcheck⟩ := (Option.any_eq_true _ _).mp hrun
  rw [Bool.and_eq_true, Option.any_eq_true] at hcheck
  obtain ⟨hcrash, ⟨outcome, s'⟩, hexecute, hsignal⟩ := hcheck
  obtain rfl := eq_crashed_of_crashOfEnding? (of_decide_eq_true hcrash)
  obtain rfl := eq_signal_of_signalOf? (of_decide_eq_true hsignal)
  have hsession : Session (fun _ => True) s := .program (.fresh false) (fun _ _ => trivial) hleft
  have hstatements : (Node.suite none .program [leftCall]).statements = [] ++ leftCall :: [] := rfl
  have hbefore : runStatements (.frames 20) 60 .nil [] s = some (.completed .nil, s) := rfl
  have hbegins : Begins (fun _ => True) (.frames 20) leftCall s :=
    .intro hsession (fun _ _ => trivial) hstatements hbefore
  have hhomes : s.HomesExist := (kept_homesExist _).session hsession
  obtain ⟨c, hsafely⟩ := endsSafely_of_execute hhomes hexecute
  exact ⟨s, s', ⟨0⟩, hleft, hbegins, hsafely.signal _ _ rfl, hexecute⟩

end Parley.Interpreter
