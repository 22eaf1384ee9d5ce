import Mathlib.Data.List.Forall2
import Parley.Proofs.Node.Words

/-! Nodes without their places. `Tree.Denotes` says that a concrete tree is converted to a node, places
apart; it is stated once for each kind of node, from the parts to the whole. -/

namespace Parley

open Parley.Grammar

mutual

/-- A node without its places. -/
def Node.bare : Node → Node
  | .atom _ a => .atom none a
  | .list _ items => .list none (Node.bareEach items)
  | .store _ target value => .store none target value.bare
  | .answer _ value => .answer none value.bare
  | .send _ receiver selector args => .send none receiver.bare selector (Node.bareEach args)
  | .block _ params _ body => .block none params none (Node.bareEach body)
  | .suite _ kind statements => .suite none kind (Node.bareEach statements)

def Node.bareEach : List Node → List Node
  | [] => []
  | n :: ns => n.bare :: Node.bareEach ns

end

mutual

@[simp] theorem Node.bare_bare (n : Node) : n.bare.bare = n.bare := by
  match n with
  | .atom _ _ => rfl
  | .list _ items => simp only [Node.bare, Node.bareEach_bareEach items]
  | .store _ _ value => simp only [Node.bare, Node.bare_bare value]
  | .answer _ value => simp only [Node.bare, Node.bare_bare value]
  | .send _ receiver _ args =>
      simp only [Node.bare, Node.bare_bare receiver, Node.bareEach_bareEach args]
  | .block _ _ _ body => simp only [Node.bare, Node.bareEach_bareEach body]
  | .suite _ _ statements => simp only [Node.bare, Node.bareEach_bareEach statements]

@[simp] theorem Node.bareEach_bareEach (ns : List Node) :
    Node.bareEach (Node.bareEach ns) = Node.bareEach ns := by
  match ns with
  | [] => rfl
  | n :: ns => simp only [Node.bareEach, Node.bare_bare n, Node.bareEach_bareEach ns]

end

mutual

/-- Places are not written. -/
@[simp] theorem Node.source_bare (n : Node) : n.bare.source = n.source := by
  match n with
  | .atom _ _ => rfl
  | .list _ items => simp only [Node.bare, Node.source, Node.sources_bareEach items]
  | .store _ _ value => simp only [Node.bare, Node.source, Node.source_bare value]
  | .answer _ value => simp only [Node.bare, Node.source, Node.source_bare value]
  | .send _ receiver _ args =>
      simp only [Node.bare, Node.source, Node.source_bare receiver, Node.sources_bareEach args]
  | .block _ _ _ body => simp only [Node.bare, Node.source, Node.sources_bareEach body]
  | .suite _ _ statements => simp only [Node.bare, Node.source, Node.sources_bareEach statements]

theorem Node.sources_bareEach (ns : List Node) :
    Node.sources (Node.bareEach ns) = Node.sources ns := by
  match ns with
  | [] => rfl
  | n :: ns =>
      simp only [Node.bareEach, Node.sources, Node.source_bare n, Node.sources_bareEach ns]

end

theorem Node.isSuper_bare (n : Node) : n.bare.isSuper = n.isSuper := by
  cases n with
  | atom _ a => cases a <;> rfl
  | _ => rfl

namespace Grammar

/-- The tree stands for the node, places apart. -/
def Tree.Denotes (file : Option String) (t : Tree) (n : Node) : Prop :=
  ∃ m, Node.ofTree file t = .ok m ∧ m.bare = n.bare

/-- Trees that stand for nodes one by one are converted together. -/
theorem ofTrees_of_denotes {file : Option String} {ts : List Tree} {ns : List Node}
    (h : List.Forall₂ (Tree.Denotes file) ts ns) :
    ∃ ms, Node.ofTrees file ts = .ok ms ∧ Node.bareEach ms = Node.bareEach ns := by
  induction h with
  | nil => exact ⟨[], rfl, rfl⟩
  | cons ht _ ih =>
      obtain ⟨m, hm, hbare⟩ := ht
      obtain ⟨ms, hms, hbares⟩ := ih
      refine ⟨m :: ms, ?_, by rw [Node.bareEach, Node.bareEach, hbare, hbares]⟩
      rw [Node.ofTrees, hm, hms]
      rfl

namespace Tree.Denotes

variable {file : Option String}

/-! One lemma for each kind of node: the tree of the node stands for it if the trees of its parts stand
for its parts. -/

theorem atom {t : Token} {a : Atom} {origin : Option Origin} (h : Atom.ofToken t = .ok a) :
    (Tree.atom t).Denotes file (.atom origin a) := by
  refine ⟨.atom (some ⟨file, t.span⟩) a, ?_, rfl⟩
  rw [Node.ofTree, h]
  rfl

theorem list {span : Span} {items : List Tree} {ns : List Node} {origin : Option Origin}
    (h : List.Forall₂ (Tree.Denotes file) items ns) :
    (Tree.list span items).Denotes file (.list origin ns) := by
  obtain ⟨ms, hms, hbares⟩ := ofTrees_of_denotes h
  refine ⟨.list (some ⟨file, span⟩) ms, ?_, by rw [Node.bare, Node.bare, hbares]⟩
  rw [Node.ofTree, hms]
  rfl

theorem unary {span : Span} {receiver : Tree} {name : Token} {r : Node} {origin : Option Origin}
    (h : receiver.Denotes file r) :
    (Tree.unary span receiver name).Denotes file (.send origin r name.text []) := by
  obtain ⟨m, hm, hbare⟩ := h
  refine ⟨.send (some ⟨file, span⟩) m name.text [], ?_, by rw [Node.bare, Node.bare, hbare]⟩
  rw [Node.ofTree, hm]
  rfl

theorem binary {span : Span} {receiver argument : Tree} {operator : Token} {r a : Node}
    {origin : Option Origin} (hr : receiver.Denotes file r) (ha : argument.Denotes file a) :
    (Tree.binary span receiver operator argument).Denotes file
      (.send origin r operator.text [a]) := by
  obtain ⟨m, hm, hbare⟩ := hr
  obtain ⟨k, hk, hbare'⟩ := ha
  refine ⟨.send (some ⟨file, span⟩) m operator.text [k], ?_, ?_⟩
  · rw [Node.ofTree, hm, hk]
    rfl
  · simp only [Node.bare, Node.bareEach, hbare, hbare']

theorem keyword {span : Span} {receiver : Tree} {name : Option Token} {keywords : List Token}
    {arguments : List Tree} {r : Node} {args : List Node} {origin : Option Origin}
    (hr : receiver.Denotes file r) (hargs : List.Forall₂ (Tree.Denotes file) arguments args) :
    (Tree.keyword span receiver name keywords arguments).Denotes file
      (.send origin r (Selector.make (name.map (·.text)) (keywords.map (·.text))) args) := by
  obtain ⟨m, hm, hbare⟩ := hr
  obtain ⟨ms, hms, hbares⟩ := ofTrees_of_denotes hargs
  refine ⟨.send (some ⟨file, span⟩) m
    (Selector.make (name.map (·.text)) (keywords.map (·.text))) ms, ?_, ?_⟩
  · rw [Node.ofTree, hm, hms]
    rfl
  · rw [Node.bare, Node.bare, hbare, hbares]

theorem block {span : Span} {params : List Token} {bodySpan : Option Span} {body : List Tree}
    {ns : List Node} {origin bodyOrigin : Option Origin}
    (hparams : (params.map (·.text)).Nodup) (h : List.Forall₂ (Tree.Denotes file) body ns) :
    (Tree.block span params bodySpan body).Denotes file
      (.block origin (params.map (·.text)) bodyOrigin ns) := by
  obtain ⟨ms, hms, hbares⟩ := ofTrees_of_denotes h
  refine ⟨.block (some ⟨file, span⟩) (params.map (·.text)) (bodySpan.map (⟨file, ·⟩)) ms, ?_,
    by rw [Node.bare, Node.bare, hbares]⟩
  rw [Node.ofTree, hms]
  exact if_pos hparams

theorem define {span : Span} {name operator : Token} {value : Tree} {n : Node}
    {origin : Option Origin} (h : value.Denotes file n) :
    (Tree.define span name operator value).Denotes file
      (.store origin (.define name.text operator.text) n) := by
  obtain ⟨m, hm, hbare⟩ := h
  refine ⟨.store (some ⟨file, span⟩) _ m, ?_, by rw [Node.bare, Node.bare, hbare]⟩
  rw [Node.ofTree, hm]
  rfl

theorem assign {span : Span} {target operator : Token} {value : Tree} {n : Node}
    {origin : Option Origin} (h : value.Denotes file n) :
    (Tree.assign span target operator value).Denotes file
      (.store origin (.ofToken target) n) := by
  obtain ⟨m, hm, hbare⟩ := h
  refine ⟨.store (some ⟨file, span⟩) _ m, ?_, by rw [Node.bare, Node.bare, hbare]⟩
  rw [Node.ofTree, hm]
  rfl

theorem answer {span : Span} {value : Tree} {n : Node} {origin : Option Origin}
    (h : value.Denotes file n) : (Tree.answer span value).Denotes file (.answer origin n) := by
  obtain ⟨m, hm, hbare⟩ := h
  refine ⟨.answer (some ⟨file, span⟩) m, ?_, by rw [Node.bare, Node.bare, hbare]⟩
  rw [Node.ofTree, hm]
  rfl

end Tree.Denotes

/-! Atoms -/

theorem unescape_flatMap_escaped (cs : List Char) : unescape (cs.flatMap escaped) = cs := by
  induction cs with
  | nil => rfl
  | cons c cs ih =>
      rw [List.flatMap_cons, escaped]
      split_ifs with hc
      · simp only [Bool.or_eq_true, decide_eq_true_eq] at hc
        rcases hc with rfl | rfl <;> simp [unescape, ih]
      · simp only [Bool.or_eq_true, decide_eq_true_eq, not_or] at hc
        rw [List.singleton_append, unescape, ih]
        exact fun _ _ h => absurd h hc.2

theorem digitsValue_toDigits (n : Nat) : Text.digitsValue (Nat.toDigits 10 n) = n := by
  rw [Text.digitsValue, ← Nat.ofDigitChars_eq_foldl, Nat.ofDigitChars_ten_toDigits]

theorem readDigits_toDigits {n : Nat} (hn : n < Text.tooLong) :
    Text.readDigits (Nat.toDigits 10 n) = .ok n := by
  have hlength := (lt_tooLong_iff n).mp hn
  rw [Text.readDigits, if_neg (Nat.not_lt.mpr hlength), digitsValue_toDigits]

/-- The token of an atom stands for the atom. -/
theorem ofToken_word {t : Token} {a : Atom} (ha : a.Proper) (ht : t.word = a.word) :
    Atom.ofToken t = .ok a := by
  obtain ⟨hkind, htext⟩ := Prod.mk.inj ht
  rw [Atom.ofToken, hkind, htext]
  match a with
  | .integer n =>
      obtain ⟨n, rfl⟩ := Int.eq_ofNat_of_zero_le ha.1
      simp only [Atom.tokenKind, Atom.source, toList_toString_natCast,
        readDigits_toDigits (n := n) ha.2]
  | .string s =>
      simp only [Atom.tokenKind, Atom.source, toList_stringLiteral, List.drop_succ_cons,
        List.drop_zero, List.dropLast_concat, unescape_flatMap_escaped, String.ofList_toList]
  | .symbol name => simp [Atom.tokenKind, Atom.source, dropMark]
  | .variable name => simp only [Atom.tokenKind, Atom.source, Atom.ofWord_eq_variable ha.2]
  | .slot name => simp [Atom.tokenKind, Atom.source, dropMark]
  | .boolean true => rfl
  | .boolean false => rfl
  | .nil => rfl
  | .self => rfl
  | .super => rfl

end Grammar

end Parley
