import Mathlib.Data.List.Forall2
import Parley.Parse
import Parley.Proofs.Except

/-! What a conversion says of trees and nodes. A node has the place of its tree, and trees that are
converted together are converted one by one. -/

namespace Parley

open Parley.Grammar

variable {file : Option String} {t : Tree} {ts : List Tree} {n : Node} {ns : List Node}

theorem origin_of_ofTree (h : Node.ofTree file t = .ok n) : n.origin = some ⟨file, t.span⟩ := by
  cases t with
  | block =>
      rw [Node.ofTree] at h
      obtain ⟨ns, -, h⟩ := exists_of_bind_eq_ok h
      split_ifs at h
      cases h
      rfl
  | binary | keyword =>
      rw [Node.ofTree] at h
      obtain ⟨r, -, h⟩ := exists_of_bind_eq_ok h
      obtain ⟨a, -, h⟩ := exists_of_bind_eq_ok h
      cases h
      rfl
  | _ =>
      rw [Node.ofTree] at h
      obtain ⟨a, -, h⟩ := exists_of_bind_eq_ok h
      cases h
      rfl

theorem forall₂_of_ofTrees (h : Node.ofTrees file ts = .ok ns) :
    List.Forall₂ (fun t n => Node.ofTree file t = .ok n) ts ns := by
  induction ts generalizing ns with
  | nil =>
      cases h
      exact .nil
  | cons t ts ih =>
      rw [Node.ofTrees] at h
      obtain ⟨m, hm, h⟩ := exists_of_bind_eq_ok h
      obtain ⟨ms, hms, h⟩ := exists_of_bind_eq_ok h
      cases h
      exact .cons hm (ih hms)

theorem exists_ofTree_of_mem (h : List.Forall₂ (fun t n => Node.ofTree file t = .ok n) ts ns)
    (ht : t ∈ ts) : ∃ n, Node.ofTree file t = .ok n := by
  induction h with
  | nil => cases ht
  | cons hn _ ih =>
      rcases List.mem_cons.mp ht with rfl | ht
      · exact ⟨_, hn⟩
      · exact ih ht

theorem exists_tree_of_mem (h : List.Forall₂ (fun t n => Node.ofTree file t = .ok n) ts ns)
    (hn : n ∈ ns) : ∃ t ∈ ts, Node.ofTree file t = .ok n := by
  induction h with
  | nil => cases hn
  | @cons t _ ts _ ht _ ih =>
      rcases List.mem_cons.mp hn with rfl | hn
      · exact ⟨t, List.mem_cons_self, ht⟩
      · obtain ⟨u, hu, hm⟩ := ih hn
        exact ⟨u, List.mem_cons_of_mem t hu, hm⟩

end Parley
