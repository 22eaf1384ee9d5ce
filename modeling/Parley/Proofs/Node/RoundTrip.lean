import Mathlib
import Parley.Proofs.Node.Parsed
import Parley.Proofs.Node.RereadingStatement

/-! The round trip from text to node to text: what a node's source is parsed as. -/

namespace Parley

open Parley.Grammar

/-- Parses a text by a start rule. -/
def StartRule.parse : StartRule → String → Option String → Except ParseFailure Node
  | .program => parseProgram
  | .expression => parseExpression

/-- The source of a node is parsed as the node again, places apart, or refused if it hides a keyword. -/
def StartRule.Reparses (rule : StartRule) (file : Option String) (n : Node) : Prop :=
  if n.hidesKeyword then ∃ e, rule.parse n.source file = .error (.refused e)
  else ∃ m, rule.parse n.source file = .ok m ∧ m.bare = n.bare

/-- A text that cannot be read is refused by the parser. -/
theorem parseWith_of_read_eq_error {α : Type} {read : String → Except Refusal α}
    {convert : Option String → α → Except ParseFailure Node} {text : String} (file : Option String)
    (h : ∃ refusal, read text = .error refusal) :
    ∃ e, parseWith read convert text file = .error (.refused e) := by
  obtain ⟨refusal, hread⟩ := h
  exact ⟨_, by rw [parseWith, hread]⟩

theorem reparses_expression {file : Option String} {n : Node} (hn : n.Proper .expression) :
    StartRule.expression.Reparses file n := by
  obtain ⟨htokens, hstray⟩ := hn.lexes.scan
  have hexpression : ReadsExpression file n := hn.reads.1 rfl
  have hreads := hexpression (scan n.source).tokens [] htokens
  unfold StartRule.Reparses
  split_ifs with hbad
  · rw [hbad] at hreads
    exact parseWith_of_read_eq_error file (readText_of_feed_eq_none State.expression? hreads)
  · rw [Bool.not_eq_true] at hbad
    rw [hbad] at hreads
    obtain ⟨s, hfeed, p, rfl, m, hm, hbare⟩ := hreads
    have hread : readExpression n.source = .ok p.tree := readText_of_feed hstray hfeed rfl
    refine ⟨m, ?_, hbare⟩
    rw [StartRule.parse, parseExpression, parseWith, hread]
    exact hm

theorem reparses_program {file : Option String} {origin : Option Origin} {ns : List Node}
    (hns : ∀ n ∈ ns, n.Proper .statement) :
    StartRule.program.Reparses file (.suite origin .program ns) := by
  obtain ⟨htokens, hstray⟩ := (Node.program_lexes hns).scan
  rw [Node.words, Node.wordsEach_eq_map] at htokens
  have hstatements : ∀ n ∈ ns, ReadsStatement file n := fun n hn => (hns n hn).reads.2
  have hreads := @reads_statements file (.start none) [] ns hstatements [] .nil _ htokens
  unfold StartRule.Reparses
  rw [Node.hidesKeyword]
  split_ifs with hbad
  · rw [hbad] at hreads
    exact parseWith_of_read_eq_error file (readText_of_feed_eq_none State.program? hreads)
  · rw [Bool.not_eq_true] at hbad
    rw [hbad] at hreads
    obtain ⟨s, hfeed, body, rfl, hhead, hdone⟩ := hreads
    have hfinish : State.program? ⟨.statement body, []⟩ = some body.close :=
      if_pos (by rw [hhead]; rfl)
    have hread : readProgram (Node.suite origin .program ns).source = .ok body.close :=
      readText_of_feed hstray hfeed hfinish
    rw [List.append_nil, ← List.forall₂_reverse_iff, List.reverse_reverse] at hdone
    obtain ⟨ms, hms, hbares⟩ := ofTrees_of_denotes hdone
    refine ⟨.suite (body.close.span.map (⟨file, ·⟩)) .program ms, ?_, ?_⟩
    · rw [StartRule.parse, parseProgram, parseWith, hread]
      simp only [Node.ofBody, OpenBody.close, bodyOf, hms]
      rfl
    · rw [Node.bare, Node.bare, hbares]

/-- A node that comes from a text can be written and parsed again by the same rule exactly if it hides
no keyword, and otherwise its source is refused. -/
theorem parse_source_iff (rule : StartRule) (text : String) (file file' : Option String) (n : Node)
    (h : rule.parse text file = .ok n) :
    ((∃ m, rule.parse n.source file' = .ok m ∧ m.bare = n.bare) ↔ n.hidesKeyword = false) ∧
      (n.hidesKeyword = true → ∃ e, rule.parse n.source file' = .error (.refused e)) := by
  have hreparses : rule.Reparses file' n := by
    cases rule with
    | program =>
        obtain ⟨origin, ns, rfl, hns⟩ := proper_of_parseProgram h
        exact reparses_program hns
    | expression => exact reparses_expression (proper_of_parseExpression h)
  unfold StartRule.Reparses at hreparses
  cases hbad : n.hidesKeyword with
  | true =>
      rw [hbad, if_pos rfl] at hreparses
      obtain ⟨e, he⟩ := hreparses
      refine ⟨⟨?_, by simp⟩, fun _ => ⟨e, he⟩⟩
      rintro ⟨m, hm, -⟩
      rw [he] at hm
      cases hm
  | false =>
      rw [hbad, if_neg (by simp)] at hreparses
      exact ⟨⟨fun _ => rfl, fun _ => hreparses⟩, by simp⟩

/-- A parenthesis can hide a keyword, and a string with quotes comes back. -/
theorem parse_source_iff_hidden_and_string :
    (∃ n, StartRule.program.parse "(let)" none = .ok n ∧ n.hidesKeyword = true ∧
      ∃ e, StartRule.program.parse n.source none = .error (.refused e)) ∧
    ∃ n, StartRule.expression.parse "[x at: '\"']" none = .ok n ∧ n.hidesKeyword = false ∧
      ∃ m, StartRule.expression.parse n.source none = .ok m ∧ m.bare = n.bare := by
  refine ⟨⟨.suite (some ⟨none, ⟨⟨1, 1⟩, ⟨1, 6⟩⟩⟩) .program
      [.atom (some ⟨none, ⟨⟨1, 2⟩, ⟨1, 5⟩⟩⟩) (.variable "let")], by cbv, by cbv,
      (parse_source_iff .program "(let)" none none _ (by cbv)).2 (by cbv)⟩,
    ⟨.send (some ⟨none, ⟨⟨1, 1⟩, ⟨1, 12⟩⟩⟩) (.atom (some ⟨none, ⟨⟨1, 2⟩, ⟨1, 3⟩⟩⟩) (.variable "x"))
      "at:" [.atom (some ⟨none, ⟨⟨1, 8⟩, ⟨1, 11⟩⟩⟩) (.string "\"")], by cbv, by cbv,
      (parse_source_iff .expression "[x at: '\"']" none none _ (by cbv)).1.mpr (by cbv)⟩⟩

end Parley
