import Parley.Proofs.Node.RoundTrip

/-! The selectors that sends are parsed with. A message is what a send says besides its receiver and its
arguments: an optional name and keywords, or an operator. `SentAs` says which selector the parser gives
to every send of a message. -/

namespace Parley

open Parley.Grammar

/-- What a send says besides its receiver and its arguments. -/
inductive Message where
  | named (name : Option String) (keywords : List String)
  | operator (operator : String)
  deriving DecidableEq, Repr

/-- The message of a tree that is a send. -/
def Grammar.Tree.message? : Tree → Option Message
  | .unary _ _ name => some (.named (some name.text) [])
  | .keyword _ _ name keywords _ => some (.named (name.map (·.text)) (keywords.map (·.text)))
  | .binary _ _ operator _ => some (.operator operator.text)
  | _ => none

/-- An expression that can be written down and read again. -/
def Node.Writable (n : Node) : Prop := n.Proper .expression ∧ n.hidesKeyword = false

theorem ofTree_of_parseExpression {text : String} {file : Option String} {tree : Tree} {n : Node}
    (hread : readExpression text = .ok tree) (h : parseExpression text file = .ok n) :
    Node.ofTree file tree = .ok n := by
  rw [parseExpression, parseWith, hread] at h
  exact h

theorem Node.anyHidesKeyword_eq_false {ns : List Node} (h : ∀ n ∈ ns, n.hidesKeyword = false) :
    Node.anyHidesKeyword ns = false := by
  induction ns with
  | nil => rfl
  | cons n ns ih =>
      obtain ⟨hn, hns⟩ := List.forall_mem_cons.mp h
      rw [Node.anyHidesKeyword, hn, ih hns]
      rfl

namespace Message

/-- How many arguments a message carries. -/
def arity : Message → Nat
  | named _ keywords => keywords.length
  | operator _ => 1

/-- The text of a send, from the texts of its receiver and its arguments. -/
def text (receiver : String) (args : List String) : Message → String
  | named name keywords =>
    "[" ++ " ".intercalate (receiver :: (name.toList ++
      (keywords.zip args).flatMap fun p => [p.1 ++ ":", p.2])) ++ "]"
  | operator op => "[" ++ receiver ++ " " ++ op ++ " " ++ args.headD "" ++ "]"

/-- The selector that the parser gives to the sends of a message. -/
structure SentAs (m : Message) (selector : String) : Prop where
  /-- A text that is read as a send of the message is parsed as a send with the selector. -/
  parsed : ∀ text file tree node, readExpression text = .ok tree → tree.message? = some m →
    parseExpression text file = .ok node →
      ∃ origin receiver args, node = .send origin receiver selector args
  /-- The message can be sent to any expression and with any arguments. -/
  written : ∀ receiver args file, receiver.Writable → (∀ a ∈ args, a.Writable) →
    args.length = m.arity → ∃ node,
      parseExpression (m.text receiver.source (args.map Node.source)) file = .ok node ∧
        node.bare = (Node.send none receiver selector args).bare

section Named

variable {name : Option String} {keywords : List String}
  (hname : ∀ w ∈ name, isName w.toList = true) (hkeywords : ∀ w ∈ keywords, isName w.toList = true)
  (hsome : name ≠ none ∨ keywords ≠ [])

include hname hkeywords hsome in
theorem isBinary_make : Selector.isBinary (Selector.make name keywords) = false := by
  by_cases hne : keywords = []
  · obtain ⟨w, rfl⟩ := Option.ne_none_iff_exists'.mp (hsome.resolve_right (not_not_intro hne))
    rw [hne, Selector.make_some_nil (Selector.isKey_of_isName (hname w rfl))]
    exact Selector.isBinary_eq_false_of_isName (hname w rfl)
  · exact Selector.isBinary_make (Selector.isKey_of_names hname) (Selector.isKey_of_names hkeywords) hne

include hname hkeywords hsome in
theorem proper_named {receiver : Node} {args : List Node} (hreceiver : receiver.Proper .expression)
    (hargs : ∀ n ∈ args, n.Proper .expression) (hlength : keywords.length = args.length) :
    (Node.send none receiver (Selector.make name keywords) args).Proper .expression := by
  by_cases hne : keywords = []
  · obtain ⟨w, rfl⟩ := Option.ne_none_iff_exists'.mp (hsome.resolve_right (not_not_intro hne))
    obtain rfl : args = [] := by simpa [hne] using hlength.symm
    rw [hne, Selector.make_some_nil (Selector.isKey_of_isName (hname w rfl))]
    exact .unary hreceiver (hname w rfl)
  · exact .keyword hreceiver hname hkeywords hne hlength hargs

include hname hkeywords hsome in
theorem source_named (receiver : Node) {args : List Node} (hlength : keywords.length = args.length) :
    (Node.send none receiver (Selector.make name keywords) args).source =
      (named name keywords).text receiver.source (args.map Node.source) := by
  rw [Node.source, sendSource, isBinary_make hname hkeywords hsome, if_neg (by simp),
    Selector.wordsOf_make (Selector.isKey_of_names hname) (Selector.isKey_of_names hkeywords),
    Node.sources_eq_map,
    interleave_make hname (by simpa using hlength), text]

/-- What is written and read again is a send of the same selector. -/
theorem exists_of_source {receiver : Node} {selector : String} {args : List Node}
    (hproper : (Node.send none receiver selector args).Proper .expression)
    (hreceiver : receiver.hidesKeyword = false) (hargs : ∀ a ∈ args, a.hidesKeyword = false)
    (file : Option String) :
    ∃ node, parseExpression (Node.send none receiver selector args).source file = .ok node ∧
      node.bare = (Node.send none receiver selector args).bare := by
  have hreparses : StartRule.expression.Reparses file _ := reparses_expression hproper
  have hhides : (Node.send none receiver selector args).hidesKeyword = false := by
    rw [Node.hidesKeyword, hreceiver, Node.anyHidesKeyword_eq_false hargs]
    rfl
  rw [StartRule.Reparses, hhides, if_neg (by simp)] at hreparses
  exact hreparses

include hname hkeywords hsome in
/-- Sends of names and keywords have the selector that is made of these. -/
theorem sentAs_named : (named name keywords).SentAs (Selector.make name keywords) where
  parsed := by
    intro text file tree node hread hmessage hparse
    replace hparse := ofTree_of_parseExpression hread hparse
    cases tree with
    | unary span receiver token =>
        obtain ⟨rfl, rfl⟩ := named.inj (Option.some.inj hmessage)
        rw [Node.ofTree] at hparse
        obtain ⟨r, -, hparse⟩ := exists_of_bind_eq_ok hparse
        cases hparse
        exact ⟨_, r, [], by rw [Selector.make_some_nil (Selector.isKey_of_isName (hname _ rfl))]⟩
    | keyword span receiver token tokens trees =>
        obtain ⟨rfl, rfl⟩ := named.inj (Option.some.inj hmessage)
        rw [Node.ofTree] at hparse
        obtain ⟨r, -, hparse⟩ := exists_of_bind_eq_ok hparse
        obtain ⟨args, -, hparse⟩ := exists_of_bind_eq_ok hparse
        cases hparse
        exact ⟨_, r, args, rfl⟩
    | _ => cases hmessage
  written := by
    intro receiver args file hreceiver hargs hlength
    have hproper := proper_named hname hkeywords hsome hreceiver.1 (fun a ha => (hargs a ha).1)
      hlength.symm
    rw [← source_named hname hkeywords hsome receiver hlength.symm]
    exact exists_of_source hproper hreceiver.2 (fun a ha => (hargs a ha).2) file

end Named

/-- Sends of an operator have the operator as their selector. -/
theorem sentAs_operator {op : String} (hop : Selector.isBinary op = true) :
    (operator op).SentAs op where
  parsed := by
    intro text file tree node hread hmessage hparse
    replace hparse := ofTree_of_parseExpression hread hparse
    cases tree with
    | binary span receiver token argument =>
        obtain rfl := operator.inj (Option.some.inj hmessage)
        rw [Node.ofTree] at hparse
        obtain ⟨r, -, hparse⟩ := exists_of_bind_eq_ok hparse
        obtain ⟨a, -, hparse⟩ := exists_of_bind_eq_ok hparse
        cases hparse
        exact ⟨_, r, [a], rfl⟩
    | _ => cases hmessage
  written := by
    intro receiver args file hreceiver hargs hlength
    obtain ⟨a, rfl⟩ := List.length_eq_one_iff.mp hlength
    have hproper : (Node.send none receiver op [a]).Proper .expression :=
      .binary hreceiver.1 hop (hargs a List.mem_cons_self).1
    have hsource : (Node.send none receiver op [a]).source =
        (operator op).text receiver.source ([a].map Node.source) := by
      rw [Node.source, sendSource, if_pos hop, Node.sources_eq_map, text]
    rw [← hsource]
    exact exists_of_source hproper hreceiver.2 (fun b hb => (hargs b hb).2) file

end Message

end Parley
