import Parley.Proofs.Machine.Code
import Parley.Proofs.Session

/-! Code along runs. Where every send carries as many arguments as its selector takes, a run comes only to
sends that the programs before it or its own program hold, none of them lacks an argument, and what ends
the run at once is a text or a comparison without end. -/

namespace Parley

namespace Machine

/-- A state in which all sends that are still to come have a property. -/
structure Config.AllSends (p : String → Nat → Bool) (c : Config) : Prop where
  code : c.store.AllSends p
  stack : ∀ f ∈ c.stack, f.work.AllSends p
  start : ∀ task scope, c.control = .start task scope → ∃ n, task = .node n ∧ n.allSends p = true

/-- A run that ends at once does so for want of a limit, or in a text or a comparison without end. -/
def IsCrash (limit : Limit) (s : Store) (c : Crash) : Prop :=
  c = .bottomless ∧ s.Endless ∨ c = .missingLimit ∧ limit = .unset

section Runs

variable {p : String → Nat → Bool} {limit : Limit}

theorem Config.AllSends.carryOut {task : Task} {scope : Scope} {stack : List Suspended} {depth : Nat}
    {act : Action × Store} {c : Config} (hact : ActSends p (fun _ => True) act)
    (hstack : ∀ f ∈ stack, f.work.AllSends p)
    (h : carryOut limit task scope stack depth act = .inl c) : c.AllSends p := by
  obtain ⟨v, s, rfl, rfl⟩ | ⟨f, s, rfl, rfl⟩ |
    ⟨n, inner, work, s, count, rfl, rfl, ⟨-, rfl⟩ | ⟨-, rfl⟩⟩ := carryOut_cases h
  · exact ⟨hact, hstack, fun _ _ => nofun⟩
  · exact ⟨hact, hstack, fun _ _ => nofun⟩
  · exact ⟨hact.1.congr rfl rfl, List.forall_mem_cons.mpr ⟨hact.2.2.1, hstack⟩, fun _ _ => nofun⟩
  · refine ⟨hact.1, List.forall_mem_cons.mpr ⟨hact.2.2.1, hstack⟩, ?_⟩
    rintro task' scope' ⟨⟩
    exact ⟨n, rfl, hact.2.1⟩

theorem ActSends.ending {task : Task} {scope : Scope} {stack : List Suspended} {depth : Nat}
    {act : Action × Store} {r : Outcome × Store} (hact : ActSends p (fun _ => True) act)
    (h : carryOut limit task scope stack depth act = .inr r) :
    r.2.AllSends p ∧ ∀ c, r.1 = .crash c → IsCrash limit r.2 c := by
  obtain ⟨c, s, rfl, rfl⟩ | ⟨n, inner, work, s, rfl, rfl, rfl⟩ := carryOut_ending_cases h
  · refine ⟨hact.1, ?_⟩
    rintro c' ⟨⟩
    exact .inl hact.2
  · refine ⟨hact.1, ?_⟩
    rintro c' ⟨⟩
    exact .inr ⟨rfl, rfl⟩

/-! One step and a whole run -/

section Arity

variable (harity : ∀ selector count, p selector count = true → Selector.arity selector = count)

include harity

theorem Config.AllSends.resume {v : Value} {task : Task} {scope : Scope} {work : Work}
    {stack : List Suspended} {depth : Nat} {s : Store}
    (hc : Config.AllSends p ⟨.value v, ⟨task, scope, work⟩ :: stack, depth, s⟩) :
    ActSends p (fun _ => True) (resume s scope v work) :=
  actSends_resume harity hc.code (hc.stack _ List.mem_cons_self) (fun _ _ => trivial)
    (fun _ _ _ => trivial) v

theorem Config.AllSends.step {c c' : Config} (hc : c.AllSends p) (h : Steps limit c c') :
    c'.AllSends p := by
  obtain ⟨task, scope, stack, depth, s, rfl, h⟩ | ⟨v, task, scope, work, stack, depth, s, rfl, h⟩ |
    ⟨e, task, scope, work, stack, depth, s, rfl, hguarded, h⟩ |
    ⟨e, task, scope, work, stack, depth, s, rfl, -, rfl⟩ := advance_cases h
  · obtain ⟨n, rfl, hn⟩ := hc.start task scope rfl
    exact .carryOut (actSends_beginNode hc.code hn fun _ _ => trivial) hc.stack h
  · exact .carryOut (hc.resume harity) (List.forall_mem_cons.mp hc.stack).2 h
  · exact .carryOut (actSends_recover hc.code (fun _ _ => trivial) hguarded e)
      (List.forall_mem_cons.mp hc.stack).2 h
  · exact ⟨hc.code, (List.forall_mem_cons.mp hc.stack).2, fun _ _ => nofun⟩

theorem Reaches.allSends {c c' : Config} (h : Reaches limit c c') (hc : c.AllSends p) :
    c'.AllSends p := h.invariant (fun _ _ hc hstep => hc.step harity hstep) hc

theorem Config.AllSends.ending {c : Config} {r : Outcome × Store} (hc : c.AllSends p)
    (h : advance limit c = .inr r) :
    r.2.AllSends p ∧ ∀ crash, r.1 = .crash crash → IsCrash limit r.2 crash := by
  obtain ⟨v, depth, s, rfl, rfl⟩ | ⟨e, depth, s, rfl, rfl⟩ | ⟨task, scope, stack, depth, s, rfl, h⟩ |
    ⟨v, task, scope, work, stack, depth, s, rfl, h⟩ |
    ⟨e, task, scope, work, stack, depth, s, rfl, hguarded, h⟩ := advance_ending_cases h
  · exact ⟨hc.code, fun _ => nofun⟩
  · exact ⟨hc.code, fun _ => nofun⟩
  · obtain ⟨n, rfl, hn⟩ := hc.start task scope rfl
    exact (actSends_beginNode hc.code hn fun _ _ => trivial).ending h
  · exact (hc.resume harity).ending h
  · exact (actSends_recover hc.code (fun _ _ => trivial) hguarded e).ending h

end Arity

theorem allSends_initial {n : Node} {s : Store} (hs : s.AllSends p) (hn : n.allSends p = true)
    (scope : Scope) : (Config.initial (.node n) scope s).AllSends p := by
  refine ⟨hs, List.forall_mem_nil _, ?_⟩
  rintro task scope' ⟨⟩
  exact ⟨n, rfl, hn⟩

end Runs

end Machine

namespace Interpreter

open Parley.Machine

section Sessions

variable {p : String → Nat → Bool}
  (harity : ∀ selector count, p selector count = true → Selector.arity selector = count)

include harity

theorem allSends_of_execute {limit : Limit} {fuel : Nat} {n : Node} {s s' : Store}
    {outcome : Outcome} (hs : s.AllSends p) (hn : n.allSends p = true)
    (h : execute limit fuel (.node n) s = some (outcome, s')) :
    s'.AllSends p ∧ ∀ crash, outcome = .crash crash → IsCrash limit s' crash := by
  obtain ⟨c, hreaches, hend⟩ := exists_reaches_of_run h
  exact (hreaches.allSends harity (allSends_initial hs hn .global)).ending harity hend

/-- Between statements all sends of the store have the property. -/
theorem kept_code : Kept (fun n => n.allSends p = true) (Store.AllSends p) where
  fresh traced := Store.AllSends.iff_allCode.mpr (.initial traced)
  newList _ _ h := h.congr rfl rfl
  newObject _ _ h := h.congr rfl rfl
  newDetachedClass _ _ h := h.congr rfl rfl
  newBlock s _ _ hbody h :=
    Store.AllSends.newBlock (h.congr rfl rfl : (s.newFrame none []).2.AllSends _) hbody
  define _ _ _ h := h.congr rfl rfl
  log _ _ h := h.congr rfl rfl
  execute _ _ _ _ _ _ hn hs h := (allSends_of_execute harity hs hn h).1

end Sessions

end Interpreter

end Parley
