import Mathlib
import Parley.Proofs.Machine.Evolution
import Parley.Proofs.Machine.Termination
import Parley.Proofs.Node.Parsed

/-! Arguments. A send is made with as many arguments as its selector takes, and a method is defined under a
selector that takes as many as the method has parameters. So whatever a message finds has the arguments
that it reads, and every statement ends in order. -/

namespace Parley

/-- Whether a send carries as many arguments as its selector takes, which is checked when it is made. -/
def Selector.isMatched (selector : String) (count : Nat) : Bool := Selector.arity selector == count

/-- Whatever answers a message has the arguments that it reads. -/
structure ClassTable.Suffices (t : ClassTable) (receiver : Value) (selector : String)
    (args : List Value) : Prop where
  primitive : ∀ (s : Store) p, Primitive.find? receiver.kind selector = some p →
    (p.perform s selector receiver args).1 ≠ .crash .missingArgument
  classMessage : ∀ (s : Store) m c, ClassMessage.find? selector = some m →
    (s.sendClass m c selector args).1 ≠ .crash .missingArgument
  method : ∀ (s : Store) m name, t.lookup name selector = .ok (some m) →
    m.params.length = args.length ∧ ∀ e, (s.invoke m receiver args).1 ≠ .error e
  superMethod : ∀ (s : Store) m owner, t.lookupSuper owner selector = .ok (some m) →
    m.params.length = args.length ∧ ∀ e, (s.invoke m receiver args).1 ≠ .error e

/-- Nothing is asked but that no argument is lacking. -/
def fullTerms : Terms where
  known _ := True
  allowed _ := True
  invoked _ _ := True
  lacking := False

theorem Serves.ne_missingArgument {s : Store} {act : Action × Store} (h : Serves fullTerms s act) :
    act.1 ≠ .crash .missingArgument := by
  cases h with
  | refuse ha =>
      obtain ⟨e, rfl⟩ | ⟨rfl, -⟩ | ⟨-, hlacking⟩ := ha.cases
      · exact nofun
      · exact nofun
      · exact hlacking.elim
  | _ => exact nofun

theorem supplied_fullTerms {s : Store} {args : List Value} {needs : Nat} (h : needs ≤ args.length) :
    Supplied fullTerms s args needs :=
  ⟨Terms.knows_of_forall fun _ => trivial, fun _ _ => trivial, .inr h⟩

/-- A method with as many parameters as there are arguments is not refused. -/
theorem Store.invoke_ne_error (s : Store) {m : Method} {args : List Value}
    (h : m.params.length = args.length) (receiver : Value) (e : Error) :
    (s.invoke m receiver args).1 ≠ .error e := by
  rw [Store.invoke, if_pos h.symm]
  rintro ⟨⟩

theorem ClassTable.WellFormed.suffices {t : ClassTable} (ht : t.WellFormed) {selector : String}
    {args : List Value} (harity : Selector.arity selector = args.length) (receiver : Value) :
    t.Suffices receiver selector args where
  primitive s p hp := by
    have hneeds : p.needs ≤ args.length := harity ▸ Primitive.needs_le_arity hp
    exact (serves_perform (supplied_fullTerms hneeds) trivial (fun _ _ => trivial)
      fun _ _ _ _ => trivial).ne_missingArgument
  classMessage s m c hm := by
    have hneeds : m.needs ≤ args.length := harity ▸ ClassMessage.needs_le_arity hm
    exact (serves_sendClass c (supplied_fullTerms hneeds)).ne_missingArgument
  method s m name hm := by
    have hparams := (ht.length_params_of_lookup hm).trans harity
    exact ⟨hparams, s.invoke_ne_error hparams receiver⟩
  superMethod s m owner hm := by
    have hparams := (ht.length_params_of_lookupSuper hm).trans harity
    exact ⟨hparams, s.invoke_ne_error hparams receiver⟩

/-! Code that was made -/

/-- Code in which every send carries as many arguments as its selector takes. -/
def IsChecked (n : Node) : Prop := n.allSends Selector.isMatched = true

namespace Interpreter

open Parley.Machine

theorem isChecked_ringProgram : ∀ n ∈ ringProgram ++ [ringCall], IsChecked n := by
  have hall : (ringProgram ++ [ringCall]).all (Node.allSends Selector.isMatched) = true := by decide
  exact fun n hn => List.all_eq_true.mp hall n hn

end Interpreter

end Parley
