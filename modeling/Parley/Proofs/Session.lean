import Parley.Interpreter
import Parley.Proofs.Except
import Parley.Proofs.Machine.Steps
import Parley.Store.Data

/-! Sessions: what one interpreter goes through when programs run on it one after another. An invariant of
the store is proved once for each way in which the store comes about and then holds in every session. -/

namespace Parley

mutual

/-- All code in some data has a property. -/
def Data.All (P : Node → Prop) : Data → Prop
  | .list items => Data.AllEach P items
  | .block _ body => P body
  | _ => True

/-- All code in several pieces of data has a property. -/
def Data.AllEach (P : Node → Prop) : List Data → Prop
  | [] => True
  | d :: ds => d.All P ∧ Data.AllEach P ds

end

namespace Interpreter

open Parley.Machine

/-- The stores of an interpreter between programs: it starts afresh, values are bound from outside, and
programs run to their ends. All code that comes in has a property. -/
inductive Session (P : Node → Prop) : Store → Prop
  | fresh (traced : Bool) : Session P (.initial traced)
  | bound {s s' : Store} {d : Data} {v : Value} (hs : Session P s) (hd : d.All P)
      (h : s.intern d = .ok (v, s')) (name : String) : Session P (s'.define Store.globals name v)
  | program {s s' : Store} {limit : Limit} {fuel : Nat} {program : Node} {ending : Ending}
      (hs : Session P s) (hp : ∀ n ∈ program.statements, P n)
      (h : runProgram limit fuel program s = some (ending, s')) : Session P s'

/-- A statement of a program begins in a store of a session, after the statements before it. -/
inductive Begins (P : Node → Prop) (limit : Limit) : Node → Store → Prop
  | intro {s s' : Store} {program n : Node} {before after : List Node} {fuel : Nat} {v : Value}
      (hs : Session P s) (hp : ∀ m ∈ program.statements, P m)
      (hstatements : program.statements = before ++ n :: after)
      (hbefore : runStatements limit fuel .nil before s = some (.completed v, s')) :
      Begins P limit n s'

/-- A statement begins after others that complete in a fresh store. -/
theorem Begins.of_fresh {P : Node → Prop} {limit : Limit} {fuel : Nat} {traced : Bool}
    {before : List Node} {n : Node} {v : Value} {s : Store} (hP : ∀ m ∈ before ++ [n], P m)
    (h : runStatements limit fuel .nil before (.initial traced) = some (.completed v, s)) :
    Begins P limit n s := by
  have hstatements : (Node.suite none .program (before ++ [n])).statements = before ++ n :: [] := rfl
  have hprogram : ∀ m ∈ (Node.suite none .program (before ++ [n])).statements, P m := hP
  exact .intro (.fresh traced) hprogram hstatements h

/-- The stores of an interpreter between programs none of which has crashed. -/
inductive Unbroken (P : Node → Prop) : Store → Prop
  | fresh (traced : Bool) : Unbroken P (.initial traced)
  | bound {s s' : Store} {d : Data} {v : Value} (hs : Unbroken P s) (hd : d.All P)
      (h : s.intern d = .ok (v, s')) (name : String) : Unbroken P (s'.define Store.globals name v)
  | program {s s' : Store} {limit : Limit} {fuel : Nat} {program : Node} {ending : Ending}
      (hs : Unbroken P s) (hp : ∀ n ∈ program.statements, P n)
      (h : runProgram limit fuel program s = some (ending, s')) (hending : ∀ c, ending ≠ .crashed c) :
      Unbroken P s'

/-- Statements that complete in a fresh store have not crashed. -/
theorem Unbroken.of_fresh {P : Node → Prop} {limit : Limit} {fuel : Nat} {traced : Bool}
    {before : List Node} {v : Value} {s : Store} (hP : ∀ m ∈ before, P m)
    (h : runStatements limit fuel .nil before (.initial traced) = some (.completed v, s)) :
    Unbroken P s := by
  have hprogram : runProgram limit fuel (.suite none .program before) (.initial traced) =
      some (.completed v, s) := h
  have hstatements : ∀ m ∈ (Node.suite none .program before).statements, P m := hP
  exact .program (.fresh traced) hstatements hprogram fun _ => nofun

/-- Statements keep what each of them keeps, whatever they end with, crashes perhaps apart. -/
theorem runStatements_keeps_unless {P : Node → Prop} {I : Store → Prop} {crashes : Prop}
    (hlog : ∀ s line, I s → I (s.log line))
    (hexecute : ∀ limit fuel n s outcome s', P n → I s →
      execute limit fuel (.node n) s = some (outcome, s') →
      (∀ c, outcome = .crash c → crashes) → I s')
    {limit : Limit} {fuel : Nat} {latest : Value} {ns : List Node} {s s' : Store} {ending : Ending}
    (hns : ∀ n ∈ ns, P n) (hs : I s)
    (hrun : runStatements limit fuel latest ns s = some (ending, s'))
    (hending : ∀ c, ending = .crashed c → crashes) : I s' := by
  induction ns generalizing latest s with
  | nil => cases hrun; exact hs
  | cons n ns ih =>
      obtain ⟨hn, hns⟩ := List.forall_mem_cons.mp hns
      rw [runStatements] at hrun
      cases hrun₁ : execute limit fuel (.node n) s with
      | none =>
          rw [hrun₁] at hrun
          cases hrun
      | some r =>
          obtain ⟨outcome, s₁⟩ := r
          have hs₁ := hexecute limit fuel n s outcome s₁ hn hs hrun₁
          rw [hrun₁] at hrun
          match outcome with
          | .value v => exact ih hns (hs₁ fun _ => nofun) hrun
          | .failure (.signal v home) => cases hrun; exact hlog s₁ _ (hs₁ fun _ => nofun)
          | .failure (.error e site) => cases hrun; exact hlog s₁ _ (hs₁ fun _ => nofun)
          | .crash c => cases hrun; exact hs₁ fun _ _ => hending c rfl

/-- Statements keep what each of them keeps, whatever they end with. -/
theorem runStatements_keeps {P : Node → Prop} {I : Store → Prop}
    (hlog : ∀ s line, I s → I (s.log line))
    (hexecute : ∀ limit fuel n s outcome s', P n → I s →
      execute limit fuel (.node n) s = some (outcome, s') → I s')
    {limit : Limit} {fuel : Nat} {latest : Value} {ns : List Node} {s s' : Store} {ending : Ending}
    (hns : ∀ n ∈ ns, P n) (hs : I s)
    (hrun : runStatements limit fuel latest ns s = some (ending, s')) : I s' := by
  have hany : ∀ c, ending = .crashed c → True := fun _ _ => trivial
  refine runStatements_keeps_unless hlog ?_ hns hs hrun hany
  exact fun limit fuel n s outcome s' hn hs hrun _ => hexecute limit fuel n s outcome s' hn hs hrun

/-- The value of a statement, if it has come to one. -/
def valueOf? : Outcome → Option Value
  | .value v => some v
  | _ => none

theorem eq_value_of_valueOf? {outcome : Outcome} {v : Value} (h : valueOf? outcome = some v) :
    outcome = .value v := by
  cases outcome with
  | value w => rw [Option.some.inj h]
  | _ => cases h

/-- The error that a statement ended with, if it failed. -/
def errorOf? : Outcome → Option Error
  | .failure (.error e _) => some e
  | _ => none

theorem exists_of_errorOf? {outcome : Outcome} {e : Error} (h : errorOf? outcome = some e) :
    ∃ site, outcome = .failure (.error e site) := by
  cases outcome with
  | failure f =>
      cases f with
      | error e' site => exact ⟨site, by rw [Option.some.inj h]⟩
      | signal v home => cases h
  | _ => cases h

/-- The crash that a statement ended with, if it did. -/
def crashOf? : Outcome → Option Crash
  | .crash c => some c
  | _ => none

theorem eq_crash_of_crashOf? {outcome : Outcome} {c : Crash} (h : crashOf? outcome = some c) :
    outcome = .crash c := by
  cases outcome with
  | crash c' => rw [Option.some.inj h]
  | _ => cases h

/-- The return that a statement ended with, if it did. -/
def signalOf? : Outcome → Option (Value × Option ActivationRef)
  | .failure (.signal v home) => some (v, home)
  | _ => none

theorem eq_signal_of_signalOf? {outcome : Outcome} {v : Value} {home : Option ActivationRef}
    (h : signalOf? outcome = some (v, home)) : outcome = .failure (.signal v home) := by
  cases outcome with
  | failure f =>
      cases f with
      | signal v' home' =>
          obtain ⟨rfl, rfl⟩ := Prod.mk.inj (Option.some.inj h)
          rfl
      | error e site => cases h
  | _ => cases h

/-- The crash that a program ended with, if it did. -/
def crashOfEnding? : Ending → Option Crash
  | .crashed c => some c
  | _ => none

theorem eq_crashed_of_crashOfEnding? {ending : Ending} {c : Crash}
    (h : crashOfEnding? ending = some c) : ending = .crashed c := by
  cases ending with
  | crashed c' => rw [Option.some.inj h]
  | _ => cases h

/-- The store that statements leave behind when they complete in a fresh one. -/
def storeAfter? (limit : Limit) (fuel : Nat) (traced : Bool) (ns : List Node) : Option Store :=
  match runStatements limit fuel .nil ns (.initial traced) with
  | some (.completed _, s) => some s
  | _ => none

theorem exists_of_storeAfter? {limit : Limit} {fuel : Nat} {traced : Bool} {ns : List Node} {s : Store}
    (h : storeAfter? limit fuel traced ns = some s) :
    ∃ v, runStatements limit fuel .nil ns (.initial traced) = some (.completed v, s) := by
  rw [storeAfter?] at h
  split at h
  · next v s' hrun =>
      cases h
      exact ⟨v, hrun⟩
  · cases h

/-- Whether a statement comes to an end that passes a check, run after others in a fresh store. -/
def runsTo (limit : Limit) (fuel : Nat) (traced : Bool) (before : List Node) (n : Node)
    (check : Outcome → Store → Bool) : Bool :=
  (storeAfter? limit fuel traced before).any fun s =>
    (execute limit fuel (.node n) s).any fun r => check r.1 r.2

theorem exists_of_runsTo {limit : Limit} {fuel : Nat} {traced : Bool} {before : List Node} {n : Node}
    {check : Outcome → Store → Bool} (h : runsTo limit fuel traced before n check = true) :
    ∃ v s outcome s',
      runStatements limit fuel .nil before (.initial traced) = some (.completed v, s) ∧
      execute limit fuel (.node n) s = some (outcome, s') ∧ check outcome s' = true := by
  obtain ⟨s, hs, hrun⟩ := (Option.any_eq_true _ _).mp h
  obtain ⟨⟨outcome, s'⟩, hexecute, hcheck⟩ := (Option.any_eq_true _ _).mp hrun
  obtain ⟨v, hbefore⟩ := exists_of_storeAfter? hs
  exact ⟨v, s, outcome, s', hbefore, hexecute, hcheck⟩

/-! Sessions in which nothing is bound from outside -/

/-- The stores of an interpreter that starts afresh and runs programs. -/
inductive History : Store → Prop
  | fresh (traced : Bool) : History (.initial traced)
  | program {s s' : Store} {limit : Limit} {fuel : Nat} {program : Node} {ending : Ending}
      (hs : History s) (h : runProgram limit fuel program s = some (ending, s')) : History s'

/-- A statement of a program begins in such a store, after the statements before it. -/
inductive Starts (limit : Limit) : Node → Store → Prop
  | intro {s s' : Store} {program n : Node} {before after : List Node} {fuel : Nat} {v : Value}
      (hs : History s) (hstatements : program.statements = before ++ n :: after)
      (hbefore : runStatements limit fuel .nil before s = some (.completed v, s')) :
      Starts limit n s'

/-- A statement starts after others that complete in a fresh store. -/
theorem Starts.of_fresh {limit : Limit} {fuel : Nat} {traced : Bool} {before : List Node} {n : Node}
    {v : Value} {s : Store}
    (h : runStatements limit fuel .nil before (.initial traced) = some (.completed v, s)) :
    Starts limit n s := by
  have hstatements : (Node.suite none .program (before ++ [n])).statements = before ++ n :: [] := rfl
  exact .intro (.fresh traced) hstatements h

/-- What holds at first and is kept by every statement holds wherever a statement begins. -/
theorem Starts.invariant {I : Store → Prop} (hfresh : ∀ traced, I (.initial traced))
    (hlog : ∀ s line, I s → I (s.log line))
    (hexecute : ∀ limit fuel n s outcome s', I s →
      execute limit fuel (.node n) s = some (outcome, s') → I s')
    {limit : Limit} {n : Node} {s : Store} (h : Starts limit n s) : I s := by
  have hkeeps : ∀ {limit fuel latest ns s ending s'}, I s →
      runStatements limit fuel latest ns s = some (ending, s') → I s' := fun hs hrun =>
    runStatements_keeps hlog (fun limit fuel n s outcome s' _ => hexecute limit fuel n s outcome s')
      (fun _ _ => trivial) hs hrun
  obtain ⟨hs, -, hbefore⟩ := h
  refine hkeeps ?_ hbefore
  clear hbefore
  induction hs with
  | fresh traced => exact hfresh traced
  | program _ hrun ih => exact hkeeps ih hrun

/-! Sessions with values from outside -/

/-- A property of stores that the binding of values from outside keeps. -/
structure KeptByBinding (P : Node → Prop) (I : Store → Prop) : Prop where
  newList : ∀ s items, I s → I (s.newList items).2
  newObject : ∀ s o, I s → I (s.newObject o).2
  newDetachedClass : ∀ s name, I s → I (s.newDetachedClass name).2
  newBlock : ∀ s params body, P body → I s →
    I ((s.newFrame none []).2.newBlock ⟨params, body, (s.newFrame none []).1, .nil, none⟩).2
  define : ∀ s name v, I s → I (s.define Store.globals name v)

/-- A property of stores that everything in a session keeps. -/
structure Kept (P : Node → Prop) (I : Store → Prop) : Prop extends KeptByBinding P I where
  fresh : ∀ traced, I (.initial traced)
  log : ∀ s line, I s → I (s.log line)
  execute : ∀ limit fuel n s outcome s', P n → I s →
    execute limit fuel (.node n) s = some (outcome, s') → I s'

variable {P : Node → Prop} {I : Store → Prop}

namespace KeptByBinding

mutual

theorem intern (h : KeptByBinding P I) {s s' : Store} {d : Data} {v : Value} (hd : d.All P) (hs : I s)
    (hintern : s.intern d = .ok (v, s')) : I s' := by
  match d with
  | .nil => cases hintern; exact hs
  | .boolean b => cases hintern; exact hs
  | .integer n => cases hintern; exact hs
  | .string t => cases hintern; exact hs
  | .list items =>
      rw [Store.intern] at hintern
      obtain ⟨⟨values, s₁⟩, hvalues, hlist⟩ := exists_of_bind_eq_ok hintern
      cases hlist
      exact h.newList s₁ _ (h.internAll hd hs hvalues)
  | .cls name => cases hintern; exact h.newDetachedClass s name hs
  | .object className fields =>
      cases hintern
      exact h.newObject _ _ (h.newDetachedClass s className hs)
  | .block params body =>
      cases hintern
      exact h.newBlock s params body hd hs
  | .foreign sort => cases hintern

theorem internAll (h : KeptByBinding P I) {s s' : Store} {ds : List Data} {vs : List Value}
    (hds : Data.AllEach P ds) (hs : I s) (hintern : s.internAll ds = .ok (vs, s')) : I s' := by
  match ds with
  | [] => cases hintern; exact hs
  | d :: ds =>
      rw [Store.internAll] at hintern
      obtain ⟨⟨v, s₁⟩, hv, hintern⟩ := exists_of_bind_eq_ok hintern
      obtain ⟨⟨vs, s₂⟩, hvs, hend⟩ := exists_of_bind_eq_ok hintern
      cases hend
      exact h.internAll hds.2 (h.intern hds.1 hs hv) hvs

end

end KeptByBinding

/-- What holds at first and is kept by every statement that does not crash holds while none has crashed. -/
theorem Unbroken.invariant (hbinding : KeptByBinding P I) (hfresh : ∀ traced, I (.initial traced))
    (hlog : ∀ s line, I s → I (s.log line))
    (hexecute : ∀ limit fuel n s outcome s', P n → I s →
      execute limit fuel (.node n) s = some (outcome, s') → (∀ c, outcome ≠ .crash c) → I s')
    {s : Store} (h : Unbroken P s) : I s := by
  induction h with
  | fresh traced => exact hfresh traced
  | bound _ hd hintern name ih => exact hbinding.define _ name _ (hbinding.intern hd ih hintern)
  | program _ hp hrun hending ih => exact runStatements_keeps_unless hlog hexecute hp ih hrun hending

namespace Kept

theorem runStatements (h : Kept P I) {limit : Limit} {fuel : Nat} {latest : Value} {ns : List Node}
    {s s' : Store} {ending : Ending} (hns : ∀ n ∈ ns, P n) (hs : I s)
    (hrun : Interpreter.runStatements limit fuel latest ns s = some (ending, s')) : I s' :=
  runStatements_keeps h.log h.execute hns hs hrun

theorem session (h : Kept P I) {s : Store} (hs : Session P s) : I s := by
  induction hs with
  | fresh traced => exact h.fresh traced
  | bound _ hd hintern name ih => exact h.define _ name _ (h.intern hd ih hintern)
  | program _ hp hrun ih => exact h.runStatements hp ih hrun

/-- A property that everything keeps holds wherever a statement begins. -/
theorem begins (h : Kept P I) {limit : Limit} {n : Node} {s : Store} (hs : Begins P limit n s) :
    P n ∧ I s := by
  obtain ⟨hsession, hp, hstatements, hbefore⟩ := hs
  rw [hstatements] at hp
  refine ⟨hp n (by simp), h.runStatements (fun m hm => hp m ?_) (h.session hsession) hbefore⟩
  exact List.mem_append_left _ hm

end Kept

end Interpreter

end Parley
