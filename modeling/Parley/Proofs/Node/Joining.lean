import Parley.Proofs.Grammar.Joining
import Parley.Proofs.Node.Bare
import Parley.Proofs.Node.Parsed

/-! Programs one after another. Trees that differ in their places only are converted to nodes that differ
in their places only, so a program that ends with a semicolon and another after it are converted to the
statements of both. -/

namespace Parley

open Parley.Grammar

section Tokens

variable {t u : Token}

/-! What a token is converted to does not depend on its place. -/

theorem text_of_unplaced (h : t.unplaced = u.unplaced) : t.text = u.text := by
  have htext : t.unplaced.text = u.unplaced.text := congrArg Token.text h
  exact htext

theorem ofToken_of_unplaced (h : t.unplaced = u.unplaced) :
    Atom.ofToken t = Atom.ofToken u ∧ Target.ofToken t = Target.ofToken u := by
  have hatom : Atom.ofToken t.unplaced = Atom.ofToken u.unplaced := congrArg Atom.ofToken h
  have htarget : Target.ofToken t.unplaced = Target.ofToken u.unplaced := congrArg Target.ofToken h
  exact ⟨hatom, htarget⟩

theorem map_text_of_unplaced {ts us : List Token} (h : ts.map Token.unplaced = us.map Token.unplaced) :
    ts.map (·.text) = us.map (·.text) := by
  have htext : (fun t : Token => t.text) = (·.text) ∘ Token.unplaced := rfl
  rw [htext, ← List.map_map, h, List.map_map]

theorem optionMap_text_of_unplaced {t u : Option Token} (h : t.map Token.unplaced = u.map Token.unplaced) :
    t.map (·.text) = u.map (·.text) := by
  have htext : (fun t : Token => t.text) = (·.text) ∘ Token.unplaced := rfl
  rw [htext, ← Option.map_map, h, Option.map_map]

end Tokens

mutual

/-- Trees that are the same without their places stand for the same nodes. -/
theorem Grammar.Tree.denotes_of_unplaced {file file' : Option String} {t u : Tree} {n : Node}
    (htu : t.unplaced = u.unplaced) (h : Node.ofTree file t = .ok n) : u.Denotes file' n := by
  match t with
  | .atom token =>
      cases u with
      | atom token' =>
          rw [Node.ofTree] at h
          obtain ⟨a, ha, h⟩ := exists_of_bind_eq_ok h
          cases h
          rw [(ofToken_of_unplaced (Tree.atom.inj htu)).1] at ha
          exact .atom ha
      | _ => cases htu
  | .list span items =>
      cases u with
      | list span' items' =>
          rw [Node.ofTree] at h
          obtain ⟨ns, hns, h⟩ := exists_of_bind_eq_ok h
          cases h
          exact .list (denotes_of_unplacedEach (Tree.list.inj htu).2 hns)
      | _ => cases htu
  | .unary span receiver name =>
      cases u with
      | unary span' receiver' name' =>
          rw [Node.ofTree] at h
          obtain ⟨r, hr, h⟩ := exists_of_bind_eq_ok h
          cases h
          obtain ⟨-, hreceiver, hname⟩ := Tree.unary.inj htu
          rw [text_of_unplaced hname]
          exact .unary (denotes_of_unplaced hreceiver hr)
      | _ => cases htu
  | .binary span receiver operator argument =>
      cases u with
      | binary span' receiver' operator' argument' =>
          rw [Node.ofTree] at h
          obtain ⟨r, hr, h⟩ := exists_of_bind_eq_ok h
          obtain ⟨a, ha, h⟩ := exists_of_bind_eq_ok h
          cases h
          obtain ⟨-, hreceiver, hoperator, hargument⟩ := Tree.binary.inj htu
          rw [text_of_unplaced hoperator]
          exact .binary (denotes_of_unplaced hreceiver hr) (denotes_of_unplaced hargument ha)
      | _ => cases htu
  | .keyword span receiver name keywords arguments =>
      cases u with
      | keyword span' receiver' name' keywords' arguments' =>
          rw [Node.ofTree] at h
          obtain ⟨r, hr, h⟩ := exists_of_bind_eq_ok h
          obtain ⟨ns, hns, h⟩ := exists_of_bind_eq_ok h
          cases h
          obtain ⟨-, hreceiver, hname, hkeywords, harguments⟩ := Tree.keyword.inj htu
          rw [optionMap_text_of_unplaced hname, map_text_of_unplaced hkeywords]
          exact .keyword (denotes_of_unplaced hreceiver hr) (denotes_of_unplacedEach harguments hns)
      | _ => cases htu
  | .block span params bodySpan body =>
      cases u with
      | block span' params' bodySpan' body' =>
          rw [Node.ofTree] at h
          obtain ⟨ns, hns, h⟩ := exists_of_bind_eq_ok h
          obtain ⟨-, hparams, -, hbody⟩ := Tree.block.inj htu
          split at h
          · next hnodup =>
              cases h
              rw [map_text_of_unplaced hparams] at hnodup ⊢
              exact .block hnodup (denotes_of_unplacedEach hbody hns)
          · cases h
      | _ => cases htu
  | .define span name operator value =>
      cases u with
      | define span' name' operator' value' =>
          rw [Node.ofTree] at h
          obtain ⟨v, hv, h⟩ := exists_of_bind_eq_ok h
          cases h
          obtain ⟨-, hname, hoperator, hvalue⟩ := Tree.define.inj htu
          rw [text_of_unplaced hname, text_of_unplaced hoperator]
          exact .define (denotes_of_unplaced hvalue hv)
      | _ => cases htu
  | .assign span target operator value =>
      cases u with
      | assign span' target' operator' value' =>
          rw [Node.ofTree] at h
          obtain ⟨v, hv, h⟩ := exists_of_bind_eq_ok h
          cases h
          obtain ⟨-, htarget, -, hvalue⟩ := Tree.assign.inj htu
          rw [(ofToken_of_unplaced htarget).2]
          exact .assign (denotes_of_unplaced hvalue hv)
      | _ => cases htu
  | .answer span value =>
      cases u with
      | answer span' value' =>
          rw [Node.ofTree] at h
          obtain ⟨v, hv, h⟩ := exists_of_bind_eq_ok h
          cases h
          exact .answer (denotes_of_unplaced (Tree.answer.inj htu).2 hv)
      | _ => cases htu

theorem Grammar.Tree.denotes_of_unplacedEach {file file' : Option String} {ts us : List Tree} {ns : List Node}
    (htu : Tree.unplacedEach ts = Tree.unplacedEach us) (h : Node.ofTrees file ts = .ok ns) :
    List.Forall₂ (Tree.Denotes file') us ns := by
  match ts with
  | [] =>
      cases us with
      | nil =>
          cases h
          exact .nil
      | cons u us => cases htu
  | t :: ts =>
      cases us with
      | nil => cases htu
      | cons u us =>
          rw [Node.ofTrees] at h
          obtain ⟨n, hn, h⟩ := exists_of_bind_eq_ok h
          obtain ⟨ns, hns, h⟩ := exists_of_bind_eq_ok h
          cases h
          obtain ⟨ht, hts⟩ := List.cons.inj htu
          exact .cons (denotes_of_unplaced ht hn) (denotes_of_unplacedEach hts hns)

end

/-! Texts -/

theorem exists_append_of_unplacedEach {ts us vs : List Tree}
    (h : Tree.unplacedEach vs = Tree.unplacedEach ts ++ Tree.unplacedEach us) :
    ∃ ts' us', vs = ts' ++ us' ∧ Tree.unplacedEach ts = Tree.unplacedEach ts' ∧
      Tree.unplacedEach us = Tree.unplacedEach us' := by
  simp only [Tree.unplacedEach_eq_map] at h ⊢
  obtain ⟨ts', us', rfl, hts, hus⟩ := List.map_eq_append_iff.mp h
  exact ⟨ts', us', rfl, hts.symm, hus.symm⟩

/-- A program that ends with a semicolon, or has no token, and another after it on a new line are parsed
to the statements of both, places apart. -/
theorem exists_of_parseProgram_append {a b : String} {fileA fileB : Option String} {p q : Node}
    (ha : parseProgram a fileA = .ok p) (hb : parseProgram b fileB = .ok q)
    (hlast : ∀ t ∈ (scan a).tokens.getLast?, t.kind = .semicolon) (file : Option String) :
    ∃ r, parseProgram (a ++ "\n" ++ b) file = .ok r ∧
      r.bare = .suite none .program (Node.bareEach (p.statements ++ q.statements)) := by
  obtain ⟨bodyA, ns, hreadA, hns, rfl⟩ := exists_of_parseProgram ha
  obtain ⟨bodyB, ms, hreadB, hms, rfl⟩ := exists_of_parseProgram hb
  obtain ⟨body, hread, hstatements⟩ := exists_of_readProgram_append hreadA hreadB hlast
  obtain ⟨ts, us, hboth, hts, hus⟩ := exists_append_of_unplacedEach hstatements
  have hdenotes : List.Forall₂ (Tree.Denotes file) (ts ++ us) (ns ++ ms) :=
    List.rel_append (Tree.denotes_of_unplacedEach hts hns) (Tree.denotes_of_unplacedEach hus hms)
  obtain ⟨ks, hks, hbare⟩ := ofTrees_of_denotes hdenotes
  refine ⟨.suite (body.span.map (⟨file, ·⟩)) .program ks, ?_,
    congrArg (Node.suite none .program) hbare⟩
  rw [parseProgram, parseWith, hread]
  dsimp only
  rw [Node.ofBody, hboth, hks]
  rfl

end Parley
