import Parley.Proofs.Machine.Arguments
import Parley.Proofs.Machine.Logging

/-! Recovery from errors. `catch:` does what `call` does and then looks at the outcome: an error goes to the
handler, in the store that the block left, and anything else passes. -/

namespace Parley

namespace Machine

open Parley.Store

/-- What a task makes of an outcome whose errors are handed on. -/
def Limit.catching (limit : Limit) (depth : Nat) (task : Task) (scope : Scope)
    (next : Store → Error → Action × Store) : Outcome × Store → Option (Outcome × Store)
  | (.failure (.error e _), s) => limit.settle depth task scope (next s e)
  | r => some r

section Catching

variable {limit : Limit} {depth : Nat} {task : Task} {scope : Scope}

/-- A guarded block settles as a block that is called, but for its errors. -/
theorem settle_guardBlock (s : Store) (r : BlockRef) (handler : Value) :
    limit.settle depth task scope (s.guardBlock r handler) =
      limit.settle depth task scope (s.callBlock r [] .result) >>=
        limit.catching depth task scope fun s e => s.handle e handler := by
  unfold guardBlock callBlock
  dsimp only
  by_cases hlength : ([] : List Value).length = (s.block r).params.length
  · rw [if_pos hlength, if_pos hlength]
    dsimp only
    rw [settle_request, settle_request, bind_assoc]
    refine congrArg (Option.bind _) (funext fun result => ?_)
    obtain ⟨outcome, s'⟩ := result
    cases outcome with
    | value v =>
        simp only [takeUp, resume, settle_finish]
        rfl
    | failure f =>
        cases f with
        | error e site => rfl
        | signal v home =>
            simp only [takeUp, Work.isGuarded, if_true, recover, settle_fail]
            rfl
    | crash c => rfl
  · rw [if_neg hlength, if_neg hlength]
    simp only [Action.error, settle_fail]
    rfl

theorem catching_under (text : String) (handler : Value) (r : Outcome × Store) :
    limit.catching depth task scope (fun s e => s.recoverWith e handler) (underEnd text r) =
      (limit.catching depth task scope (fun s e => s.recoverWith e handler) r).map
        (underEnd text) := by
  obtain ⟨outcome, s⟩ := r
  cases outcome with
  | failure f =>
      cases f with
      | error e site =>
          simp only [underEnd, Limit.catching, recoverWith_under]
          exact settle_under text (s.recoverWith e handler)
      | signal v home => rfl
  | _ => rfl

/-- The line in the log apart, an error is handled as the handler says. -/
theorem catching_handle (handler : Value) (r : Outcome × Store) :
    (limit.catching depth task scope (fun s e => s.handle e handler) r).map unloggedEnd =
      (limit.catching depth task scope (fun s e => s.recoverWith e handler) r).map unloggedEnd := by
  obtain ⟨outcome, s⟩ := r
  cases outcome with
  | failure f =>
      cases f with
      | error e site =>
          simp only [Limit.catching, handle_eq_recoverWith]
          exact settle_sameExceptLog (·.recoverWith e handler)
            (fun s text => recoverWith_under s text e handler) (.log _)
      | signal v home => rfl
  | _ => rfl

/-- In stores that differ in their logs, a guarded block settles as a called block whose errors go to the
handler. -/
theorem settle_guardBlock_sameExceptLog {s s' : Store} (h : s.SameExceptLog s') (r : BlockRef)
    (handler : Value) :
    (limit.settle depth task scope (s'.guardBlock r handler)).map unloggedEnd =
      (limit.settle depth task scope (s.callBlock r [] .result) >>=
        limit.catching depth task scope fun s e => s.recoverWith e handler).map unloggedEnd := by
  obtain ⟨base, text, text', rfl, rfl⟩ := h.exists_base
  rw [settle_guardBlock, callBlock_under, callBlock_under, settle_under, settle_under]
  cases limit.settle depth task scope (base.callBlock r [] .result) with
  | none => rfl
  | some result =>
      show (limit.catching depth task scope _ (underEnd text' result)).map unloggedEnd =
        (limit.catching depth task scope _ (underEnd text result)).map unloggedEnd
      rw [catching_handle, catching_under, catching_under, map_unloggedEnd_underEnd,
        map_unloggedEnd_underEnd]

end Catching

/-! Messages to blocks -/

theorem send_call (s : Store) (r : BlockRef) :
    ∃ s', s.send (.block r) "call" [] = s'.callBlock r [] .result ∧ s.SameExceptLog s' := by
  have hlog : s.CanLog [] := .inr nofun
  obtain ⟨s', hsame, hsend⟩ := send_of_canLog hlog (.block r) "call"
  exact ⟨s', hsend, hsame⟩

theorem send_catch {s : Store} {handler : Value} (hlog : s.CanLog [handler]) (r : BlockRef) :
    ∃ s', s.send (.block r) "catch:" [handler] = s'.guardBlock r handler ∧ s.SameExceptLog s' := by
  obtain ⟨s', hsame, hsend⟩ := send_of_canLog hlog (.block r) "catch:"
  exact ⟨s', hsend, hsame⟩

/-- To catch errors of a block is to call it and to hand its errors on. Where the log can show the handler,
`catch:` comes to what `call` comes to, the log apart, unless that is an error. Then it comes to what the
handler comes to in the store that the block left: a block with one parameter gets the error in words, any
other block gets nothing, and any other value is the answer. -/
theorem catch_is_call_with_handler (limit : Limit) (depth : Nat) (task : Task) (scope : Scope) (s : Store)
    (r : BlockRef) (handler : Value) (hlog : s.CanLog [handler]) :
    (limit.settle depth task scope (s.send (.block r) "catch:" [handler])).map unloggedEnd =
      (limit.settle depth task scope (s.send (.block r) "call" []) >>=
        limit.catching depth task scope fun s e => s.recoverWith e handler).map unloggedEnd := by
  obtain ⟨s₁, hcall, hsame₁⟩ := send_call s r
  obtain ⟨s₂, hcatch, hsame₂⟩ := send_catch hlog r
  rw [hcall, hcatch]
  exact settle_guardBlock_sameExceptLog (hsame₁.symm.trans hsame₂) r handler

/-- A store with a block that sends a message nobody understands, and one that answers its argument. -/
def withHandler : Store :=
  { initial false with
    blocks := #[⟨[], .suite none .sequence [.send none (.atom none .nil) "foo" []], globals, .nil, none⟩,
      ⟨["e"], .suite none .sequence [.atom none (.variable "e")], globals, .nil, none⟩] }

/-- The handler gets the error in words. -/
theorem catch_is_call_with_handler_described : ∃ s',
    ((Limit.frames 20).settle 0 (.node default) .global
      (withHandler.send (.block ⟨0⟩) "catch:" [.block ⟨1⟩])).map unloggedEnd =
        some (.value (.string "DoesNotUnderstand: Nil does not understand #foo"), s') := by
  have hcheck : ((runOn (.frames 20) 20 (carryOut (.frames 20) (.node default) .global [] 0
      (withHandler.send (.block ⟨0⟩) "call" []))).any fun called =>
        (Interpreter.errorOf? called.1).any fun e => (runOn (.frames 20) 20 (carryOut (.frames 20)
          (.node default) .global [] 0 (called.2.recoverWith e (.block ⟨1⟩)))).any fun handled =>
            Interpreter.valueOf? handled.1 =
              some (.string "DoesNotUnderstand: Nil does not understand #foo")) = true := by
    decide +kernel
  obtain ⟨⟨outcome, s₁⟩, hcall, herror⟩ := (Option.any_eq_true _ _).mp hcheck
  obtain ⟨e, he, hhandled⟩ := (Option.any_eq_true _ _).mp herror
  obtain ⟨site, rfl⟩ := Interpreter.exists_of_errorOf? he
  obtain ⟨⟨outcome, s₂⟩, hhandle, hvalue⟩ := (Option.any_eq_true _ _).mp hhandled
  obtain rfl := Interpreter.eq_value_of_valueOf? (of_decide_eq_true hvalue)
  refine ⟨s₂.unlogged, ?_⟩
  rw [catch_is_call_with_handler (.frames 20) 0 (.node default) .global withHandler ⟨0⟩ (.block ⟨1⟩)
    (.inl rfl), settle_eq_some_iff.mpr ⟨20, hcall⟩]
  show ((Limit.frames 20).settle 0 (.node default) .global _).map unloggedEnd = _
  rw [settle_eq_some_iff.mpr ⟨20, hhandle⟩]
  rfl

end Machine

namespace Interpreter

open Parley.Machine

/-- A block that answers a number. -/
def fiveBlock : Node := .block none [] none [.atom none (.integer 5)]

/-- Once the instance holds itself, a block that answers a number when it is called ends the run when its
errors are to be caught for that instance. -/
theorem catch_without_log_text : ∃ s s' r, Begins IsChecked (.frames 20) fiveBlock s ∧
    execute (.frames 20) 60 (.node fiveBlock) s = some (.value (.block r), s') ∧
    (∃ s₁, evaluate (.frames 20) 0 (.message (.block r) "call" []) .global s' =
      some (.value (.integer 5), s₁)) ∧
    ∃ s₂, evaluate (.frames 20) 0 (.message (.block r) "catch:" [.object ⟨0⟩]) .global s' =
      some (.crash .bottomless, s₂) := by
  have hrun : runsTo (.frames 20) 60 true (ringProgram ++ [ringCall]) fiveBlock (fun outcome s' =>
      (valueOf? outcome = some (.block ⟨1⟩) : Bool) &&
        ((execute (.frames 20) 60 (.message (.block ⟨1⟩) "call" []) s').any fun called =>
          valueOf? called.1 = some (.integer 5)) &&
        ((execute (.frames 20) 60 (.message (.block ⟨1⟩) "catch:" [.object ⟨0⟩]) s').any fun caught =>
          crashOf? caught.1 = some .bottomless)) = true := by decide +kernel
  obtain ⟨_, s, outcome, s', hbefore, hexecute, hcheck⟩ := exists_of_runsTo hrun
  rw [Bool.and_eq_true, Bool.and_eq_true, Option.any_eq_true, Option.any_eq_true] at hcheck
  obtain ⟨⟨hblock, ⟨called, s₁⟩, hcall, hvalue⟩, ⟨caught, s₂⟩, hcatch, hcrash⟩ := hcheck
  obtain rfl := eq_value_of_valueOf? (of_decide_eq_true hblock)
  obtain rfl := eq_value_of_valueOf? (of_decide_eq_true hvalue)
  obtain rfl := eq_crash_of_crashOf? (of_decide_eq_true hcrash)
  have hbegins : Begins IsChecked (.frames 20) fiveBlock s := by
    have hfive : IsChecked fiveBlock := rfl
    refine .of_fresh (List.forall_mem_append.mpr ⟨isChecked_ringProgram, ?_⟩) hbefore
    exact List.forall_mem_singleton.mpr hfive
  exact ⟨s, s', ⟨1⟩, hbegins, hexecute, ⟨s₁, evaluate_of_run hcall⟩, s₂, evaluate_of_run hcatch⟩

end Interpreter

end Parley
