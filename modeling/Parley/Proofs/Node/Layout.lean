import Mathlib
import Parley.Proofs.Grammar.Layout
import Parley.Proofs.Node.Joining
import Parley.Proofs.Node.Places

/-! Where nodes lie in their text. The place of a node delimits the characters that it was parsed from: alone
they are parsed as the node again. Places lie in one another as nodes do. -/

namespace Parley

open Parley.Grammar

/-- The nodes that a node is made of: its operands, or the body of a block. -/
def Node.children : Node → List Node
  | .block _ _ bodyOrigin body => [.suite bodyOrigin .sequence body]
  | n => n.operands

/-- A text is parsed as a node, places apart: as an expression, or as a program that has a statement alone
or the statements of a suite. -/
def Node.IsParsedFrom (text : String) (file : Option String) (n : Node) : Prop :=
  match n with
  | .suite _ _ statements => ∃ p, parseProgram text file = .ok p ∧
      p.bare = .suite none .program (Node.bareEach statements)
  | .store .. | .answer .. => ∃ p, parseProgram text file = .ok p ∧ p.bare = .suite none .program [n.bare]
  | _ => ∃ m, parseExpression text file = .ok m ∧ m.bare = n.bare

section Conversion

variable {file : Option String} {t : Tree} {ts : List Tree} {n : Node} {ns : List Node} {b : Body}

/-- The parts of a tree that is no block are converted to the operands of its node. -/
theorem forall₂_operands (h : Node.ofTree file t = .ok n) (ht : t.body? = none) :
    List.Forall₂ (fun u m => Node.ofTree file u = .ok m) t.parts n.operands ∧ n.children = n.operands := by
  cases t with
  | block => cases ht
  | atom =>
      rw [Node.ofTree] at h
      obtain ⟨a, -, h⟩ := exists_of_bind_eq_ok h
      cases h
      exact ⟨.nil, rfl⟩
  | list =>
      rw [Node.ofTree] at h
      obtain ⟨ns, hns, h⟩ := exists_of_bind_eq_ok h
      cases h
      exact ⟨forall₂_of_ofTrees hns, rfl⟩
  | binary =>
      rw [Node.ofTree] at h
      obtain ⟨r, hr, h⟩ := exists_of_bind_eq_ok h
      obtain ⟨a, ha, h⟩ := exists_of_bind_eq_ok h
      cases h
      exact ⟨.cons hr (.cons ha .nil), rfl⟩
  | keyword =>
      rw [Node.ofTree] at h
      obtain ⟨r, hr, h⟩ := exists_of_bind_eq_ok h
      obtain ⟨ns, hns, h⟩ := exists_of_bind_eq_ok h
      cases h
      exact ⟨.cons hr (forall₂_of_ofTrees hns), rfl⟩
  | unary | define | assign | answer =>
      rw [Node.ofTree] at h
      obtain ⟨v, hv, h⟩ := exists_of_bind_eq_ok h
      cases h
      exact ⟨.cons hv .nil, rfl⟩

/-- The body of a tree that is a block is converted to the body of its node. -/
theorem exists_body (h : Node.ofTree file t = .ok n) (hb : t.body? = some b) :
    ∃ params ns, n = .block (some ⟨file, t.span⟩) params (b.span.map (⟨file, ·⟩)) ns ∧
      Node.ofTrees file b.statements = .ok ns ∧ t.parts = b.statements := by
  cases t with
  | block =>
      cases hb
      rw [Node.ofTree] at h
      obtain ⟨ns, hns, h⟩ := exists_of_bind_eq_ok h
      split_ifs at h
      cases h
      exact ⟨_, ns, rfl, hns, rfl⟩
  | _ => cases hb

/-- The places of converted trees are those of the trees. -/
theorem filterMap_origin (h : List.Forall₂ (fun t n => Node.ofTree file t = .ok n) ts ns) :
    ns.filterMap Node.origin = ts.map fun t => ⟨file, t.span⟩ := by
  induction h with
  | nil => rfl
  | cons ht _ ih => rw [List.filterMap_cons, origin_of_ofTree ht, ih, List.map_cons]

/-- What is read like some trees is parsed like their nodes. -/
theorem exists_parseProgram_of_unplaced {text : String} (hread : readProgram text = .ok b)
    (hb : Tree.unplacedEach b.statements = Tree.unplacedEach ts) (hts : Node.ofTrees file ts = .ok ns)
    (file' : Option String) :
    ∃ p, parseProgram text file' = .ok p ∧ p.bare = .suite none .program (Node.bareEach ns) := by
  obtain ⟨ms, hms, hbare⟩ := ofTrees_of_denotes (Tree.denotes_of_unplacedEach hb.symm hts)
  refine ⟨.suite (b.span.map (⟨file', ·⟩)) .program ms, ?_, congrArg (Node.suite none .program) hbare⟩
  rw [parseProgram, parseWith, hread]
  dsimp only
  rw [Node.ofBody, hms]
  rfl

end Conversion

/-! Nodes of a program -/

/-- What a place says of the node that has it. -/
structure Node.Delimited (text : String) (n : Node) (span : Span) : Prop where
  parsed : ∀ file, n.IsParsedFrom (span.slice text) file
  within : ∀ o ∈ n.children.filterMap Node.origin, o.span.Within span
  ordered : (n.children.filterMap Node.origin).Pairwise fun o o' => o.span.Before o'.span

/-- A node that was converted from a tree or a body that is placed in its text. -/
inductive Node.ComesFrom (text : String) (file : Option String) : Node → Prop
  | tree {t : Tree} {n : Node} : t.Placed text → Node.ofTree file t = .ok n → ComesFrom text file n
  | body {b : Body} {kind : SuiteKind} {ns : List Node} :
      (∀ span, b.span = some span → b.Placed text span) → (∀ t ∈ b.statements, t.Placed text) →
      Node.ofTrees file b.statements = .ok ns →
      ComesFrom text file (.suite (b.span.map (⟨file, ·⟩)) kind ns)

section Delimited

variable {text : String} {file : Option String} {n m : Node}

theorem comesFrom_of_mem {ts : List Tree} {ns : List Node}
    (h : List.Forall₂ (fun t n => Node.ofTree file t = .ok n) ts ns) (hts : ∀ t ∈ ts, t.Placed text)
    (hm : m ∈ ns) : m.ComesFrom text file := by
  obtain ⟨t, ht, hm⟩ := exists_tree_of_mem h hm
  exact .tree (hts t ht) hm

theorem Node.ComesFrom.operand (h : n.ComesFrom text file) (hm : m ∈ n.operands) :
    m.ComesFrom text file := by
  cases h with
  | @tree t _ ht hn =>
      obtain ⟨-, -, -, hparts⟩ := ht
      cases hb : t.body? with
      | none => exact comesFrom_of_mem (forall₂_operands hn hb).1 hparts hm
      | some b =>
          obtain ⟨params, ns, rfl, -, -⟩ := exists_body hn hb
          cases hm
  | body _ hstatements hns => exact comesFrom_of_mem (forall₂_of_ofTrees hns) hstatements hm

theorem Node.ComesFrom.body_of_block {origin bodyOrigin : Option Origin} {params : List String}
    {statements : List Node} (h : (Node.block origin params bodyOrigin statements).ComesFrom text file) :
    (Node.suite bodyOrigin .sequence statements).ComesFrom text file := by
  cases h with
  | @tree t _ ht hn =>
      obtain ⟨-, -, hbody, hparts⟩ := ht
      cases hb : t.body? with
      | none =>
          have hchildren := (forall₂_operands hn hb).2
          cases hchildren
      | some b =>
          obtain ⟨params, ns, heq, hns, hb'⟩ := exists_body hn hb
          cases heq
          rw [hb'] at hparts
          exact .body (fun span hspan => (hbody b span hb hspan).1) hparts hns

theorem Node.ComesFrom.part (h : n.ComesFrom text file) (hm : n.Holds m) : m.ComesFrom text file := by
  induction hm with
  | self => exact h
  | operand _ hm ih => exact ih.operand hm
  | body _ ih => exact ih.body_of_block

/-- Converted trees lie as the trees do. -/
theorem origins_of_spread {outer : Span} {ts : List Tree} {ns : List Node}
    (h : List.Forall₂ (fun t n => Node.ofTree file t = .ok n) ts ns) (hts : Spread outer ts) :
    (∀ o ∈ ns.filterMap Node.origin, o.span.Within outer) ∧
      (ns.filterMap Node.origin).Pairwise fun o o' => o.span.Before o'.span := by
  rw [filterMap_origin h]
  refine ⟨?_, List.pairwise_map.mpr hts.ordered⟩
  intro o ho
  obtain ⟨t, ht, rfl⟩ := List.mem_map.mp ho
  exact hts.within t ht

theorem Grammar.Tree.Rereads.isParsedFrom {t : Tree} (h : t.Rereads text)
    (hn : Node.ofTree file t = .ok n) (file' : Option String) :
    n.IsParsedFrom (t.span.slice text) file' := by
  have hts : Node.ofTrees file [t] = .ok [n] := by
    rw [Node.ofTrees, hn]
    rfl
  unfold Tree.Rereads at h
  split_ifs at h with hstatement
  · obtain ⟨b, hread, hb⟩ := h
    have hparsed := exists_parseProgram_of_unplaced hread hb hts file'
    cases t with
    | define | assign | answer =>
        rw [Node.ofTree] at hn
        obtain ⟨v, -, hn⟩ := exists_of_bind_eq_ok hn
        cases hn
        exact hparsed
    | _ => cases hstatement
  · obtain ⟨u, hread, hu⟩ := h
    obtain ⟨m, hm, hbare⟩ := Tree.denotes_of_unplaced hu.symm hn
    have hparsed : ∃ m, parseExpression (t.span.slice text) file' = .ok m ∧ m.bare = n.bare :=
      ⟨m, by rw [parseExpression, parseWith, hread]; exact hm, hbare⟩
    cases t with
    | define | assign | answer => exact absurd rfl hstatement
    | block =>
        obtain ⟨params, ns, rfl, -, -⟩ := exists_body hn rfl
        exact hparsed
    | binary | keyword =>
        rw [Node.ofTree] at hn
        obtain ⟨r, -, hn⟩ := exists_of_bind_eq_ok hn
        obtain ⟨a, -, hn⟩ := exists_of_bind_eq_ok hn
        cases hn
        exact hparsed
    | _ =>
        rw [Node.ofTree] at hn
        obtain ⟨a, -, hn⟩ := exists_of_bind_eq_ok hn
        cases hn
        exact hparsed

/-- The place of a node that comes from a placed tree or body delimits it. -/
theorem Node.ComesFrom.delimited (h : n.ComesFrom text file) {o : Origin} (ho : n.origin = some o) :
    n.Delimited text o.span := by
  cases h with
  | @tree t _ ht hn =>
      obtain ⟨hrereads, hspread, hbody, -⟩ := ht
      rw [origin_of_ofTree hn] at ho
      cases ho
      have hparsed := hrereads.isParsedFrom hn
      cases hb : t.body? with
      | none =>
          obtain ⟨hoperands, hchildren⟩ := forall₂_operands hn hb
          obtain ⟨hwithin, hordered⟩ := origins_of_spread hoperands hspread
          exact ⟨hparsed, by rwa [hchildren], by rwa [hchildren]⟩
      | some b =>
          obtain ⟨params, ns, rfl, -, -⟩ := exists_body hn hb
          cases hspan : b.span with
          | none =>
              rw [hspan] at hparsed
              exact ⟨hparsed, List.forall_mem_nil _, .nil⟩
          | some inner =>
              rw [hspan] at hparsed
              exact ⟨hparsed, List.forall_mem_singleton.mpr (hbody b inner hb hspan).2,
                List.pairwise_singleton _ _⟩
  | @body b kind ns hb _ hns =>
      obtain ⟨span, hspan, rfl⟩ := Option.map_eq_some_iff.mp ho
      obtain ⟨⟨b', hread, heq⟩, hspread⟩ := hb span hspan
      obtain ⟨hwithin, hordered⟩ := origins_of_spread (forall₂_of_ofTrees hns) hspread
      exact ⟨exists_parseProgram_of_unplaced hread heq hns, hwithin, hordered⟩

end Delimited

/-- The place of every node of a program delimits it: the characters from its start up to its end are parsed
as the node, places apart, the places of its children lie in it, and they come one after another. -/
theorem parseProgram_delimits (text : String) (file : Option String) (program : Node)
    (h : parseProgram text file = .ok program) (n : Node) (hn : program.Holds n) (o : Origin)
    (ho : n.origin = some o) : n.Delimited text o.span := by
  obtain ⟨body, ns, hread, hns, rfl⟩ := exists_of_parseProgram h
  obtain ⟨hbody, hstatements⟩ := placed_of_readProgram hread
  have hprogram : (Node.suite (body.span.map (⟨file, ·⟩)) .program ns).ComesFrom text file :=
    .body hbody hstatements hns
  exact (hprogram.part hn).delimited ho

/-- A send over two lines, with a parenthesis that belongs to it and not to its receiver. -/
theorem parseProgram_delimits_send :
    (Node.send (some ⟨none, ⟨1, 4⟩, ⟨2, 3⟩⟩) (.atom (some ⟨none, ⟨1, 6⟩, ⟨1, 7⟩⟩) (.variable "a")) "+"
      [.atom (some ⟨none, ⟨1, 11⟩, ⟨2, 2⟩⟩) (.string "é\n")]).Delimited "x; [(a) + \"é\n\"]" ⟨⟨1, 4⟩, ⟨2, 3⟩⟩ :=
  parseProgram_delimits "x; [(a) + \"é\n\"]" none
    (.suite (some ⟨none, ⟨1, 1⟩, ⟨2, 3⟩⟩) .program
      [.atom (some ⟨none, ⟨1, 1⟩, ⟨1, 2⟩⟩) (.variable "x"),
        .send (some ⟨none, ⟨1, 4⟩, ⟨2, 3⟩⟩) (.atom (some ⟨none, ⟨1, 6⟩, ⟨1, 7⟩⟩) (.variable "a")) "+"
          [.atom (some ⟨none, ⟨1, 11⟩, ⟨2, 2⟩⟩) (.string "é\n")]])
    (by cbv) _ (.operand .self (List.mem_cons_of_mem _ List.mem_cons_self)) ⟨none, ⟨1, 4⟩, ⟨2, 3⟩⟩ rfl

end Parley
