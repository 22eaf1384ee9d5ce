import Parley.Proofs.Grammar.Spans
import Parley.Proofs.Node.Parsed

/-! Where nodes were written. Every node of a parsed program remembers the file and a stretch of the text,
except a body without statements, which is no operand of any node: it can only be called. -/

namespace Parley

open Parley.Grammar

/-- The nodes that a node has evaluated itself, in their order. -/
def Node.operands : Node → List Node
  | .atom _ _ | .block _ _ _ _ => []
  | .list _ items => items
  | .store _ _ value | .answer _ value => [value]
  | .send _ receiver _ args => receiver :: args
  | .suite _ _ statements => statements

/-- What a proper node is made of are proper expressions. -/
theorem Node.Proper.operand {place : Place} {n m : Node} (h : n.Proper place) (hm : m ∈ n.operands) :
    m.Proper .expression := by
  cases h with
  | atom | block => cases hm
  | list hitems => exact hitems m hm
  | unary hreceiver _ => exact List.mem_singleton.mp hm ▸ hreceiver
  | binary hreceiver _ hargument =>
      exact List.forall_mem_cons.mpr ⟨hreceiver, List.forall_mem_singleton.mpr hargument⟩ m hm
  | keyword hreceiver _ _ _ _ hargs => exact List.forall_mem_cons.mpr ⟨hreceiver, hargs⟩ m hm
  | store _ hvalue | answer hvalue => exact List.mem_singleton.mp hm ▸ hvalue

/-- A body or a program without statements. -/
def Node.isEmptySuite : Node → Bool
  | .suite _ _ [] => true
  | _ => false

/-- The parts of a program: itself, the operands of its parts and the bodies of its blocks. -/
inductive Node.Holds (program : Node) : Node → Prop
  | self : Holds program program
  | operand {n m : Node} (h : Holds program n) (hm : m ∈ n.operands) : Holds program m
  | body {origin bodyOrigin : Option Origin} {params : List String} {statements : List Node}
      (h : Holds program (.block origin params bodyOrigin statements)) :
      Holds program (.suite bodyOrigin .sequence statements)

/-- All parts of a node have an origin of some kind, except suites without statements, and these are no
operands. -/
inductive Node.Located (Q : Origin → Prop) : Node → Prop
  | intro {n : Node} (horigin : n.isEmptySuite = false → ∃ o, n.origin = some o ∧ Q o)
      (hoperands : ∀ m ∈ n.operands, Located Q m) (hfull : ∀ m ∈ n.operands, m.isEmptySuite = false)
      (hbody : ∀ origin params bodyOrigin statements,
        n = .block origin params bodyOrigin statements →
        Located Q (.suite bodyOrigin .sequence statements)) : Located Q n

namespace Node.Located

variable {Q : Origin → Prop} {n m : Node}

theorem origin (h : n.Located Q) (hn : n.isEmptySuite = false) : ∃ o, n.origin = some o ∧ Q o := by
  obtain ⟨horigin, -, -, -⟩ := h
  exact horigin hn

theorem operand (h : n.Located Q) (hm : m ∈ n.operands) : m.Located Q := by
  obtain ⟨-, hoperands, -, -⟩ := h
  exact hoperands m hm

theorem full (h : n.Located Q) (hm : m ∈ n.operands) : m.isEmptySuite = false := by
  obtain ⟨-, -, hfull, -⟩ := h
  exact hfull m hm

theorem part (h : n.Located Q) (hm : n.Holds m) : m.Located Q := by
  induction hm with
  | self => exact h
  | operand _ hm ih => exact ih.operand hm
  | body _ ih =>
      obtain ⟨-, -, -, hbody⟩ := ih
      exact hbody _ _ _ _ rfl

/-- Nodes that are not blocks. -/
theorem plain {o : Origin} (horigin : n.origin = some o) (ho : Q o)
    (hblock : ∀ origin params bodyOrigin statements, n ≠ .block origin params bodyOrigin statements)
    (hoperands : ∀ m ∈ n.operands, m.Located Q ∧ m.isEmptySuite = false) : n.Located Q :=
  .intro (fun _ => ⟨o, horigin, ho⟩) (fun m hm => (hoperands m hm).1) (fun m hm => (hoperands m hm).2)
    (fun _ _ _ _ h => absurd h (hblock _ _ _ _))

theorem suite {origin : Option Origin} {kind : SuiteKind} {statements : List Node}
    (horigin : statements ≠ [] → ∃ o, origin = some o ∧ Q o)
    (hstatements : ∀ m ∈ statements, m.Located Q ∧ m.isEmptySuite = false) :
    (Node.suite origin kind statements).Located Q := by
  refine .intro (fun hfull => horigin ?_) (fun m hm => (hstatements m hm).1)
    (fun m hm => (hstatements m hm).2) (fun _ _ _ _ => nofun)
  rintro rfl
  cases hfull

theorem block {o : Origin} {bodyOrigin : Option Origin} {params : List String} {body : List Node}
    (ho : Q o) (hbodyOrigin : body ≠ [] → ∃ o, bodyOrigin = some o ∧ Q o)
    (hbody : ∀ m ∈ body, m.Located Q ∧ m.isEmptySuite = false) :
    (Node.block (some o) params bodyOrigin body).Located Q := by
  refine .intro (fun _ => ⟨o, rfl, ho⟩) (List.forall_mem_nil _) (List.forall_mem_nil _) ?_
  rintro _ _ _ _ ⟨⟩
  exact .suite hbodyOrigin hbody

end Node.Located

/-! Parsed nodes -/

section Parsed

variable {P : Span → Prop} {file : Option String}

/-- An origin in a file with a span of some kind. -/
def Origin.IsIn (file : Option String) (P : Span → Prop) (o : Origin) : Prop := o.file = file ∧ P o.span

mutual

theorem located_of_ofTree {t : Tree} {n : Node} (ht : t.Spanned P) (h : Node.ofTree file t = .ok n) :
    n.Located (Origin.IsIn file P) ∧ n.isEmptySuite = false := by
  match t with
  | .atom token =>
      rw [Node.ofTree] at h
      obtain ⟨a, -, h⟩ := exists_of_bind_eq_ok h
      cases h
      exact ⟨.plain rfl ⟨rfl, ht⟩ (fun _ _ _ _ => nofun) (List.forall_mem_nil _), rfl⟩
  | .list span items =>
      rw [Node.ofTree] at h
      obtain ⟨ns, hns, h⟩ := exists_of_bind_eq_ok h
      cases h
      exact ⟨.plain rfl ⟨rfl, ht.1⟩ (fun _ _ _ _ => nofun) (located_of_ofTrees ht.2 hns), rfl⟩
  | .unary span receiver name =>
      rw [Node.ofTree] at h
      obtain ⟨r, hr, h⟩ := exists_of_bind_eq_ok h
      cases h
      exact ⟨.plain rfl ⟨rfl, ht.1⟩ (fun _ _ _ _ => nofun)
        (List.forall_mem_singleton.mpr (located_of_ofTree ht.2 hr)), rfl⟩
  | .binary span receiver operator argument =>
      rw [Node.ofTree] at h
      obtain ⟨r, hr, h⟩ := exists_of_bind_eq_ok h
      obtain ⟨a, ha, h⟩ := exists_of_bind_eq_ok h
      cases h
      refine ⟨.plain rfl ⟨rfl, ht.1⟩ (fun _ _ _ _ => nofun) (List.forall_mem_cons.mpr ⟨?_, ?_⟩), rfl⟩
      · exact located_of_ofTree ht.2.1 hr
      · exact List.forall_mem_singleton.mpr (located_of_ofTree ht.2.2 ha)
  | .keyword span receiver name keywords arguments =>
      rw [Node.ofTree] at h
      obtain ⟨r, hr, h⟩ := exists_of_bind_eq_ok h
      obtain ⟨ns, hns, h⟩ := exists_of_bind_eq_ok h
      cases h
      refine ⟨.plain rfl ⟨rfl, ht.1⟩ (fun _ _ _ _ => nofun) (List.forall_mem_cons.mpr ⟨?_, ?_⟩), rfl⟩
      · exact located_of_ofTree ht.2.1 hr
      · exact located_of_ofTrees ht.2.2 hns
  | .block span params bodySpan body =>
      rw [Node.ofTree] at h
      obtain ⟨ns, hns, h⟩ := exists_of_bind_eq_ok h
      split_ifs at h
      cases h
      refine ⟨.block ⟨rfl, ht.1⟩ (fun hne => ?_) (located_of_ofTrees ht.2.2 hns), rfl⟩
      have hbody : body ≠ [] := by
        rintro rfl
        cases hns
        exact hne rfl
      obtain ⟨inner, rfl, hinner⟩ := ht.2.1 hbody
      exact ⟨⟨file, inner⟩, rfl, rfl, hinner⟩
  | .define span name operator value =>
      rw [Node.ofTree] at h
      obtain ⟨v, hv, h⟩ := exists_of_bind_eq_ok h
      cases h
      exact ⟨.plain rfl ⟨rfl, ht.1⟩ (fun _ _ _ _ => nofun)
        (List.forall_mem_singleton.mpr (located_of_ofTree ht.2 hv)), rfl⟩
  | .assign span target operator value =>
      rw [Node.ofTree] at h
      obtain ⟨v, hv, h⟩ := exists_of_bind_eq_ok h
      cases h
      exact ⟨.plain rfl ⟨rfl, ht.1⟩ (fun _ _ _ _ => nofun)
        (List.forall_mem_singleton.mpr (located_of_ofTree ht.2 hv)), rfl⟩
  | .answer span value =>
      rw [Node.ofTree] at h
      obtain ⟨v, hv, h⟩ := exists_of_bind_eq_ok h
      cases h
      exact ⟨.plain rfl ⟨rfl, ht.1⟩ (fun _ _ _ _ => nofun)
        (List.forall_mem_singleton.mpr (located_of_ofTree ht.2 hv)), rfl⟩

theorem located_of_ofTrees {ts : List Tree} {ns : List Node} (hts : Tree.SpannedEach P ts)
    (h : Node.ofTrees file ts = .ok ns) :
    ∀ n ∈ ns, n.Located (Origin.IsIn file P) ∧ n.isEmptySuite = false := by
  match ts with
  | [] =>
      cases h
      exact List.forall_mem_nil _
  | t :: ts =>
      rw [Node.ofTrees] at h
      obtain ⟨m, hm, h⟩ := exists_of_bind_eq_ok h
      obtain ⟨ms, hms, h⟩ := exists_of_bind_eq_ok h
      cases h
      exact List.forall_mem_cons.mpr ⟨located_of_ofTree hts.1 hm, located_of_ofTrees hts.2 hms⟩

end

/-- The nodes of a parsed program were written in its text. -/
theorem located_of_parseProgram {text : String} {n : Node} (h : parseProgram text file = .ok n) :
    n.Located (Origin.IsIn file (·.LiesIn text)) := by
  obtain ⟨body, ns, hread, hns, rfl⟩ := exists_of_parseProgram h
  have hbody := spanned_of_readProgram hread
  refine .suite (fun hne => ?_) (located_of_ofTrees hbody.statements hns)
  have hstatements : body.statements ≠ [] := by
    intro hnil
    rw [hnil] at hns
    cases hns
    exact hne rfl
  obtain ⟨span, hspan, hlies⟩ := hbody.span hstatements
  rw [hspan]
  exact ⟨⟨file, span⟩, rfl, rfl, hlies⟩

end Parsed

end Parley
