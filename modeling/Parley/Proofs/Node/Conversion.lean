import Parley.Proofs.Grammar.Forms
import Parley.Proofs.Node.Layout

/-! What the conversion of a tree comes to. It fails exactly if the tree has a fault: an integer that is too
long, or a block that names a parameter twice. The error that it ends with is about one of the faults. -/

namespace Parley

open Parley.Grammar

/-- What keeps a tree of a file from being converted, and the error that is about it. -/
inductive Grammar.Tree.Fault (file : Option String) : Tree → ParseFailure → Prop
  | integer {t : Token} (hkind : t.kind = .integer) (hlong : Text.digitLimit < t.text.length) :
      Fault file (.atom t) (.integerTooLong (.tooManyDigits t.text.length))
  | params {span : Span} {params : List Token} {bodySpan : Option Span} {body : List Tree}
      (hnodup : ¬(params.map (·.text)).Nodup) :
      Fault file (.block span params bodySpan body)
        (.refused ⟨.duplicateParameter (params.map (·.text)), Origin.position ⟨file, span⟩⟩)
  | part {t u : Tree} {f : ParseFailure} (hu : u ∈ t.parts) (h : Fault file u f) : Fault file t f

section Conversion

variable {file : Option String} {t : Tree} {ts : List Tree} {f : ParseFailure}

theorem fault_of_ofToken {token : Token} (h : Atom.ofToken token = .error f) :
    (Tree.atom token).Fault file f := by
  unfold Atom.ofToken at h
  split at h
  · next hkind =>
      rw [Text.readDigits, String.length_toList] at h
      split_ifs at h with hlong
      cases h
      exact .integer hkind hlong
  all_goals cases h

mutual

/-- A conversion fails with the error about a fault. -/
theorem fault_of_ofTree {t : Tree} (h : Node.ofTree file t = .error f) : t.Fault file f := by
  match t with
  | .atom token =>
      rw [Node.ofTree] at h
      obtain h | ⟨a, -, h⟩ := eq_error_of_bind_eq_error h
      · exact fault_of_ofToken h
      · cases h
  | .list span items =>
      rw [Node.ofTree] at h
      obtain h | ⟨ns, -, h⟩ := eq_error_of_bind_eq_error h
      · obtain ⟨u, hu, hf⟩ := exists_fault_of_ofTrees h
        exact .part hu hf
      · cases h
  | .unary span receiver name =>
      rw [Node.ofTree] at h
      obtain h | ⟨r, -, h⟩ := eq_error_of_bind_eq_error h
      · exact .part List.mem_cons_self (fault_of_ofTree h)
      · cases h
  | .binary span receiver operator argument =>
      rw [Node.ofTree] at h
      obtain h | ⟨r, -, h⟩ := eq_error_of_bind_eq_error h
      · exact .part List.mem_cons_self (fault_of_ofTree h)
      obtain h | ⟨a, -, h⟩ := eq_error_of_bind_eq_error h
      · exact .part (List.mem_cons_of_mem _ List.mem_cons_self) (fault_of_ofTree h)
      · cases h
  | .keyword span receiver name keywords arguments =>
      rw [Node.ofTree] at h
      obtain h | ⟨r, -, h⟩ := eq_error_of_bind_eq_error h
      · exact .part List.mem_cons_self (fault_of_ofTree h)
      obtain h | ⟨ns, -, h⟩ := eq_error_of_bind_eq_error h
      · obtain ⟨u, hu, hf⟩ := exists_fault_of_ofTrees h
        exact .part (List.mem_cons_of_mem _ hu) hf
      · cases h
  | .block span params bodySpan body =>
      rw [Node.ofTree] at h
      obtain h | ⟨ns, -, h⟩ := eq_error_of_bind_eq_error h
      · obtain ⟨u, hu, hf⟩ := exists_fault_of_ofTrees h
        exact .part hu hf
      split_ifs at h with hnodup
      · cases h
      · cases h
        exact .params hnodup
  | .define span name operator value =>
      rw [Node.ofTree] at h
      obtain h | ⟨v, -, h⟩ := eq_error_of_bind_eq_error h
      · exact .part List.mem_cons_self (fault_of_ofTree h)
      · cases h
  | .assign span target operator value =>
      rw [Node.ofTree] at h
      obtain h | ⟨v, -, h⟩ := eq_error_of_bind_eq_error h
      · exact .part List.mem_cons_self (fault_of_ofTree h)
      · cases h
  | .answer span value =>
      rw [Node.ofTree] at h
      obtain h | ⟨v, -, h⟩ := eq_error_of_bind_eq_error h
      · exact .part List.mem_cons_self (fault_of_ofTree h)
      · cases h

theorem exists_fault_of_ofTrees {ts : List Tree} (h : Node.ofTrees file ts = .error f) :
    ∃ t ∈ ts, t.Fault file f := by
  match ts with
  | [] => cases h
  | t :: ts =>
      rw [Node.ofTrees] at h
      obtain h | ⟨n, -, h⟩ := eq_error_of_bind_eq_error h
      · exact ⟨t, List.mem_cons_self, fault_of_ofTree h⟩
      obtain h | ⟨ns, -, h⟩ := eq_error_of_bind_eq_error h
      · obtain ⟨u, hu, hf⟩ := exists_fault_of_ofTrees h
        exact ⟨u, List.mem_cons_of_mem t hu, hf⟩
      · cases h

end

/-- Where a tree is converted, so are its parts. -/
theorem exists_ofTree_of_mem_parts {n : Node} (h : Node.ofTree file t = .ok n) {u : Tree} (hu : u ∈ t.parts) :
    ∃ m, Node.ofTree file u = .ok m := by
  cases hb : t.body? with
  | none => exact exists_ofTree_of_mem (forall₂_operands h hb).1 hu
  | some b =>
      obtain ⟨params, ns, -, hns, hparts⟩ := exists_body h hb
      exact exists_ofTree_of_mem (forall₂_of_ofTrees hns) (hparts ▸ hu)

theorem Grammar.Tree.Fault.ofTree_ne_ok (h : t.Fault file f) (n : Node) : Node.ofTree file t ≠ .ok n := by
  intro hn
  induction h generalizing n with
  | @integer token hkind hlong =>
      obtain ⟨a, ha, -⟩ := exists_of_bind_eq_ok hn
      rw [Atom.ofToken, hkind] at ha
      simp only [Text.readDigits, String.length_toList, if_pos hlong] at ha
      cases ha
  | params hnodup =>
      rw [Node.ofTree] at hn
      obtain ⟨ns, -, hn⟩ := exists_of_bind_eq_ok hn
      rw [if_neg hnodup] at hn
      cases hn
  | part hu _ ih =>
      obtain ⟨m, hm⟩ := exists_ofTree_of_mem_parts hn hu
      exact ih m hm

/-- A tree is converted exactly if it has no fault. -/
theorem exists_ofTree_iff : (∃ n, Node.ofTree file t = .ok n) ↔ ∀ f, ¬t.Fault file f := by
  constructor
  · rintro ⟨n, hn⟩ f hf
    exact hf.ofTree_ne_ok n hn
  · intro h
    cases hn : Node.ofTree file t with
    | ok n => exact ⟨n, rfl⟩
    | error f => exact absurd (fault_of_ofTree hn) (h f)

theorem exists_ofTrees_iff :
    (∃ ns, Node.ofTrees file ts = .ok ns) ↔ ∀ t ∈ ts, ∀ f, ¬t.Fault file f := by
  constructor
  · rintro ⟨ns, hns⟩ t ht
    exact exists_ofTree_iff.mp (exists_ofTree_of_mem (forall₂_of_ofTrees hns) ht)
  · intro h
    cases hns : Node.ofTrees file ts with
    | ok ns => exact ⟨ns, rfl⟩
    | error f =>
        obtain ⟨t, ht, hf⟩ := exists_fault_of_ofTrees hns
        exact absurd hf (h t ht f)

theorem exists_fault_of_ofBody {body : Body} (h : Node.ofBody file body = .error f) :
    ∃ t ∈ body.statements, t.Fault file f := by
  rw [Node.ofBody] at h
  obtain h | ⟨ns, -, h⟩ := eq_error_of_bind_eq_error h
  · exact exists_fault_of_ofTrees h
  · cases h

theorem exists_ofBody_iff {body : Body} :
    (∃ n, Node.ofBody file body = .ok n) ↔ ∀ t ∈ body.statements, ∀ f, ¬t.Fault file f := by
  rw [← exists_ofTrees_iff, Node.ofBody]
  constructor
  · rintro ⟨n, h⟩
    obtain ⟨ns, hns, -⟩ := exists_of_bind_eq_ok h
    exact ⟨ns, hns⟩
  · rintro ⟨ns, hns⟩
    exact ⟨.suite (body.span.map (⟨file, ·⟩)) .program ns, by rw [hns]; rfl⟩

/-- An integer that is too long is one of the tokens that a tree is made of. -/
theorem Grammar.Tree.Formed.exists_integer {P : Token → Prop} {e : Text.DecimalError} (ht : t.Formed P)
    (h : t.Fault file (.integerTooLong e)) :
    ∃ token, P token ∧ token.kind = .integer ∧ Text.digitLimit < token.text.length ∧
      e = .tooManyDigits token.text.length := by
  generalize hf : ParseFailure.integerTooLong e = f at h
  induction h with
  | @integer token hkind hlong =>
      cases hf
      cases ht with
      | atom htoken _ => exact ⟨token, htoken, hkind, hlong, rfl⟩
  | params => cases hf
  | part hu _ ih => exact ih (ht.part hu) hf

end Conversion

end Parley
