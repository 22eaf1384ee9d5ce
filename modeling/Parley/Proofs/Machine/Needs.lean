import Mathlib.Tactic.Common
import Parley.Machine.Message

/-! How many arguments the primitives and the messages of classes read: never more than their selectors
carry. -/

namespace Parley

def IntegerPrimitive.needs : IntegerPrimitive → Nat
  | .negated | .abs => 0
  | .toDo => 2
  | _ => 1

def StringPrimitive.needs : StringPrimitive → Nat
  | .concat | .compare _ => 1
  | _ => 0

def BooleanPrimitive.needs : BooleanPrimitive → Nat
  | .not => 0
  | .ifTrueElse | .ifFalseElse => 2
  | _ => 1

def ListPrimitive.needs : ListPrimitive → Nat
  | .at | .add | .includes | .visit | .collect => 1
  | .atPut => 2
  | _ => 0

def BlockPrimitive.needs : BlockPrimitive → Nat
  | .arity => 0
  | _ => 1

def AnyPrimitive.needs : AnyPrimitive → Nat
  | .equal | .notEqual | .respondsTo => 1
  | .ifNilElse => 2
  | _ => 0

/-- How many arguments a primitive may read. -/
def Primitive.needs : Primitive → Nat
  | .integer p => p.needs
  | .string p => p.needs
  | .boolean p => p.needs
  | .list p => p.needs
  | .block p => p.needs
  | .nilBranch => 1
  | .any p => p.needs

def ClassMessage.needs : ClassMessage → Nat
  | .subclass => 1
  | .subclassWith | .define => 2
  | _ => 0

/-- The selectors of loops. -/
def Selector.isLoop (selector : String) : Bool := selector == "whileTrue:" || selector == "whileFalse:"

theorem IntegerPrimitive.needs_le_arity {selector : String} {p : IntegerPrimitive}
    (h : find? selector = some p) : p.needs ≤ Selector.arity selector := by
  unfold find? at h
  split at h <;> cases h <;> decide

theorem StringPrimitive.needs_le_arity {selector : String} {p : StringPrimitive}
    (h : find? selector = some p) : p.needs ≤ Selector.arity selector := by
  unfold find? at h
  split at h <;> cases h <;> decide

theorem BooleanPrimitive.needs_le_arity {selector : String} {p : BooleanPrimitive}
    (h : find? selector = some p) : p.needs ≤ Selector.arity selector := by
  unfold find? at h
  split at h <;> cases h <;> decide

theorem ListPrimitive.needs_le_arity {selector : String} {p : ListPrimitive}
    (h : find? selector = some p) : p.needs ≤ Selector.arity selector := by
  unfold find? at h
  split at h <;> cases h <;> decide

theorem BlockPrimitive.needs_le_arity {selector : String} {p : BlockPrimitive}
    (h : find? selector = some p) : p.needs ≤ Selector.arity selector := by
  unfold find? at h
  split at h <;> cases h <;> decide

theorem AnyPrimitive.needs_le_arity {selector : String} {p : AnyPrimitive}
    (h : find? selector = some p) : p.needs ≤ Selector.arity selector := by
  unfold find? at h
  split at h <;> cases h <;> decide

theorem ClassMessage.needs_le_arity {selector : String} {m : ClassMessage}
    (h : find? selector = some m) : m.needs ≤ Selector.arity selector := by
  unfold find? at h
  split at h
  case h_10 =>
      split_ifs at h
      cases h
      exact Nat.zero_le _
  all_goals cases h; decide

/-- A primitive reads no more arguments than its selector carries. -/
theorem Primitive.needs_le_arity {kind : Kind} {selector : String} {p : Primitive}
    (h : Primitive.find? kind selector = some p) : p.needs ≤ Selector.arity selector := by
  rw [Primitive.find?, Option.or_eq_some_iff] at h
  rcases h with h | ⟨-, h⟩
  · cases kind with
    | integer =>
        obtain ⟨p, hp, rfl⟩ := Option.map_eq_some_iff.mp h
        exact p.needs_le_arity hp
    | string =>
        obtain ⟨p, hp, rfl⟩ := Option.map_eq_some_iff.mp h
        exact p.needs_le_arity hp
    | boolean =>
        obtain ⟨p, hp, rfl⟩ := Option.map_eq_some_iff.mp h
        exact p.needs_le_arity hp
    | list =>
        obtain ⟨p, hp, rfl⟩ := Option.map_eq_some_iff.mp h
        exact p.needs_le_arity hp
    | block =>
        obtain ⟨p, hp, rfl⟩ := Option.map_eq_some_iff.mp h
        exact p.needs_le_arity hp
    | nil =>
        rw [Primitive.ofKind?] at h
        split_ifs at h with hselector
        cases h
        rw [Bool.or_eq_true, decide_eq_true_eq, decide_eq_true_eq] at hselector
        rcases hselector with rfl | rfl <;> decide
    | object => cases h
    | cls => cases h
  · obtain ⟨p, hp, rfl⟩ := Option.map_eq_some_iff.mp h
    exact AnyPrimitive.needs_le_arity hp

theorem BlockPrimitive.isLoop_of_find? {selector : String} {expected : Bool}
    (h : find? selector = some (.loop expected)) : Selector.isLoop selector = true := by
  unfold find? at h
  split at h <;> cases h <;> decide

/-- Only the selectors of loops find a loop. -/
theorem Primitive.isLoop_of_find? {kind : Kind} {selector : String} {expected : Bool}
    (h : Primitive.find? kind selector = some (.block (.loop expected))) :
    Selector.isLoop selector = true := by
  rw [Primitive.find?, Option.or_eq_some_iff] at h
  rcases h with h | ⟨-, h⟩
  · cases kind with
    | block =>
        obtain ⟨p, hp, hloop⟩ := Option.map_eq_some_iff.mp h
        cases hloop
        exact BlockPrimitive.isLoop_of_find? hp
    | nil =>
        rw [Primitive.ofKind?] at h
        split_ifs at h
        cases h
    | object => cases h
    | cls => cases h
    | _ =>
        obtain ⟨p, -, hother⟩ := Option.map_eq_some_iff.mp h
        cases hother
  · obtain ⟨p, -, hother⟩ := Option.map_eq_some_iff.mp h
    cases hother

end Parley
