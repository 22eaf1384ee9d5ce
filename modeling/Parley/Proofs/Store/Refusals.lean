import Parley.Machine.Dispatch
import Parley.Proofs.Except

/-! What a store refuses. Classes, instances and methods come with errors of their own; none of these is an
overflow of the stack or says that a message was not understood. -/

namespace Parley

def Error.isOverflow : Error → Bool
  | .stackOverflow _ => true
  | _ => false

def Error.isUnknownMessage : Error → Bool
  | .doesNotUnderstand _ _ => true
  | _ => false

/-- The errors of the values at hand, rather than of the stack or of the message. -/
def Error.isMild (e : Error) : Bool := !e.isOverflow && !e.isUnknownMessage

/-- A result whose error, if it is one, is mild. -/
def Mild {α : Type} (x : Except Error α) : Prop := ∀ e, x = .error e → e.isMild = true

namespace Mild

variable {α β : Type}

theorem ok {a : α} : Mild (.ok a) := fun _ => nofun

theorem error {e : Error} (h : e.isMild = true) : Mild (.error e : Except Error α) := by
  rintro _ ⟨⟩
  exact h

theorem not_overflow {x : Except Error α} {e : Error} (h : Mild x) (he : x = .error e) :
    e.isOverflow = false := by
  have hmild := h e he
  rw [Error.isMild, Bool.and_eq_true, Bool.not_eq_true'] at hmild
  exact hmild.1

theorem not_unknownMessage {x : Except Error α} {e : Error} (h : Mild x) (he : x = .error e) :
    e.isUnknownMessage = false := by
  have hmild := h e he
  rw [Error.isMild, Bool.and_eq_true, Bool.not_eq_true', Bool.not_eq_true'] at hmild
  exact hmild.2

theorem bind {x : Except Error α} {f : α → Except Error β} (hx : Mild x) (hf : ∀ a, Mild (f a)) :
    Mild (x >>= f) := by
  cases x with
  | error e => exact .error (hx e rfl)
  | ok a => exact hf a

end Mild

namespace ClassTable

theorem mild_get (t : ClassTable) (name : String) : Mild (t.get name) := by
  rw [get]
  split
  · exact .ok
  · exact .error rfl

theorem mild_ancestors (t : ClassTable) (name : String) : Mild (t.ancestors name) :=
  (t.mild_get name).bind fun _ => .ok

theorem mild_superclass (t : ClassTable) (name : String) : Mild (t.superclass name) := by
  refine (t.mild_get name).bind fun c => ?_
  split
  · exact .ok
  · exact (t.mild_get _).bind fun _ => .ok

theorem mild_slots (t : ClassTable) (name : String) : Mild (t.slots name) :=
  (t.mild_ancestors name).bind fun _ => .ok

theorem mild_selectors (t : ClassTable) (name : String) : Mild (t.selectors name) :=
  (t.mild_ancestors name).bind fun _ => .ok

theorem mild_lookup (t : ClassTable) (className selector : String) :
    Mild (t.lookup className selector) :=
  (t.mild_ancestors className).bind fun _ => .ok

theorem mild_lookupSuper (t : ClassTable) (owner selector : String) :
    Mild (t.lookupSuper owner selector) := by
  refine (t.mild_superclass owner).bind fun parent => ?_
  split
  · exact .ok
  · exact t.mild_lookup _ selector

theorem mild_subclass (t : ClassTable) (parent name : String) (fields : List String) :
    Mild (t.subclass parent name fields) := by
  refine (t.mild_get parent).bind fun p => ?_
  dsimp only
  split_ifs
  · exact .error rfl
  · refine (t.mild_slots p.name).bind fun slots => ?_
    split
    · exact .error rfl
    · exact .ok

theorem mild_define (t : ClassTable) (className selector : String) (params : List String)
    (body : Node) : Mild (t.define className selector params body) := by
  refine (t.mild_get className).bind fun c => ?_
  dsimp only
  split_ifs
  · exact .error rfl
  · exact .ok

end ClassTable

namespace Store

theorem mild_setSlots (slots : OrderedMap String Value) (values : List (String × Value)) :
    Mild (setSlots slots values) := by
  induction values generalizing slots with
  | nil => exact .ok
  | cons e values ih =>
      rw [setSlots]
      split_ifs
      · exact ih _
      · exact .error rfl

theorem mild_instantiate (s : Store) (name : String) (values : List (String × Value)) :
    Mild (s.instantiate name values) := by
  refine (s.classes.mild_get name).bind fun c => ?_
  refine (s.classes.mild_slots c.name).bind fun names => ?_
  exact (mild_setSlots _ _).bind fun _ => .ok

theorem mild_installMethod (s : Store) (c : ClassRef) (name : String) (b : Block) :
    Mild (s.installMethod c name b) := by
  refine (s.classes.mild_define _ _ _ _).bind fun r => ?_
  dsimp only
  split_ifs
  · exact .ok
  · exact .ok

theorem mild_respondsTo (s : Store) (receiver : Value) (selector : String) :
    Mild (s.respondsTo receiver selector) := by
  cases receiver with
  | object r =>
      rw [respondsTo]
      split
      · exact .ok
      · next hlookup => exact .error (s.classes.mild_lookup _ _ _ hlookup)
  | _ => exact .ok

theorem mild_truth (s : Store) (selector : String) (v : Value) : Mild (s.truth selector v) := by
  cases v with
  | boolean b => exact .ok
  | _ => exact .error rfl

end Store

end Parley
