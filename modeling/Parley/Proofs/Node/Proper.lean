import Mathlib.Algebra.Group.Nat.Defs
import Parley.Parse
import Parley.Proofs.Selector.Encoding

/-! Nodes that can be written in the grammar. `Proper place n` says that `n` may stand at a place of a
program: its names are names, its selectors belong to sends, and statements stand only where
statements may. -/

namespace Parley

open Parley.Grammar

/-- Where a node may stand. -/
inductive Place where
  | expression
  | statement
  deriving DecidableEq, Repr

theorem tooLong_eq : Text.tooLong = 10 ^ Text.digitLimit := by
  -- with the limit in sight the power would be computed
  unfold Text.tooLong
  generalize Text.digitLimit = k
  rfl

theorem lt_tooLong_iff (n : Nat) :
    n < Text.tooLong ↔ (Nat.toDigits 10 n).length ≤ Text.digitLimit := by
  rw [tooLong_eq]
  exact (Nat.length_toDigits_le_iff (by decide) (by decide)).symm

/-- An atom that has a text of its own. Integers are never negative in a text. -/
def Atom.Proper : Atom → Prop
  | .integer n => 0 ≤ n ∧ n.natAbs < Text.tooLong
  | .symbol name => isSymbolName name.toList = true
  | .variable name => isName name.toList = true ∧ name ∉ literalWords
  | .slot name => isName name.toList = true
  | _ => True

/-- A target that a statement can begin with. -/
def Target.Proper : Target → Prop
  | .define name operator => isName name.toList = true ∧ (operator = "=" ∨ operator = ":=")
  | .assign name =>
    isName name.toList = true ∧ name ∉ literalWords ∧ name ≠ "let" ∧ name ≠ "return"
  | .slot name => isName name.toList = true

/-- A word that does not stand for itself is a variable. -/
theorem Atom.ofWord_eq_variable {name : String} (hname : name ∉ literalWords) :
    Atom.ofWord name = .variable name := by
  unfold Atom.ofWord
  split <;> simp [literalWords] at hname ⊢

/-- A node that may stand at a place of a program. -/
inductive Node.Proper : Place → Node → Prop
  | atom {place origin a} (ha : a.Proper) : Proper place (.atom origin a)
  | list {place origin items} (hitems : ∀ n ∈ items, Proper .expression n) :
      Proper place (.list origin items)
  | unary {place origin receiver name} (hreceiver : Proper .expression receiver)
      (hname : isName name.toList = true) : Proper place (.send origin receiver name [])
  | binary {place origin receiver operator argument} (hreceiver : Proper .expression receiver)
      (hoperator : Selector.isBinary operator = true) (hargument : Proper .expression argument) :
      Proper place (.send origin receiver operator [argument])
  | keyword {place origin receiver name keywords args} (hreceiver : Proper .expression receiver)
      (hname : ∀ w ∈ name, isName w.toList = true)
      (hkeywords : ∀ w ∈ keywords, isName w.toList = true) (hne : keywords ≠ [])
      (hlength : keywords.length = args.length) (hargs : ∀ n ∈ args, Proper .expression n) :
      Proper place (.send origin receiver (Selector.make name keywords) args)
  | block {place origin params bodyOrigin body} (hparams : ∀ p ∈ params, isName p.toList = true)
      (hnodup : params.Nodup) (hbody : ∀ n ∈ body, Proper .statement n) :
      Proper place (.block origin params bodyOrigin body)
  | store {origin target value} (htarget : target.Proper) (hvalue : Proper .expression value) :
      Proper .statement (.store origin target value)
  | answer {origin value} (hvalue : Proper .expression value) :
      Proper .statement (.answer origin value)

theorem Node.Proper.statement {n : Node} (h : n.Proper .expression) : n.Proper .statement := by
  cases h with
  | atom ha => exact .atom ha
  | list hitems => exact .list hitems
  | unary hreceiver hname => exact .unary hreceiver hname
  | binary hreceiver hoperator hargument => exact .binary hreceiver hoperator hargument
  | keyword hreceiver hname hkeywords hne hlength hargs =>
      exact .keyword hreceiver hname hkeywords hne hlength hargs
  | block hparams hnodup hbody => exact .block hparams hnodup hbody

section Sends

variable {place : Place} {origin : Option Origin} {receiver : Node} {selector : String} {args : List Node}

/-- A send carries as many arguments as its selector takes. -/
theorem Node.Proper.arity_eq (h : (Node.send origin receiver selector args).Proper place) :
    Selector.arity selector = args.length := by
  cases h with
  | unary _ hname => exact Selector.arity_of_isName hname
  | binary _ hoperator _ =>
      rw [Selector.arity, if_pos hoperator]
      rfl
  | keyword _ hname hkeywords hne hlength _ =>
      rw [Selector.arity_make_of_isName hname hkeywords hne, hlength]

/-- Its selector is in canonical spacing. -/
theorem Node.Proper.normalize_eq (h : (Node.send origin receiver selector args).Proper place) :
    Selector.normalize selector = selector := by
  cases h with
  | unary _ hname => exact Selector.normalize_of_isName hname
  | binary _ hoperator _ => exact Selector.normalize_of_isBinary hoperator
  | keyword _ hname hkeywords _ _ _ =>
      exact (Selector.isNormal_make (Selector.isKey_of_names hname)
        (Selector.isKey_of_names hkeywords)).normalize_eq

end Sends

end Parley
