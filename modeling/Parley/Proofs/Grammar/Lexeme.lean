import Mathlib.Tactic.Common
import Parley.Grammar.Token
import Parley.Selector

/-! The texts of tokens. `Spells` says for each class of tokens which texts belong to it, and scanning
gives only such tokens. The other direction is local: a text of a class is cut off whole when the
character after it cannot go on with it. -/

namespace Parley.Grammar

def isName : List Char → Bool
  | [] => false
  | c :: cs => isNameStart c && cs.all isNameRest

/-- The text of a symbol after its mark: a name with colons, or an operator. -/
def isSymbolName : List Char → Bool
  | [] => false
  | c :: cs => (isNameStart c && cs.all isSymbolRest) ||
      Selector.operators.contains (String.ofList (c :: cs))

/-- Whether a text belongs to a class of tokens. Strings are not looked into, and the other marks have
one text each. -/
def spells : Kind → List Char → Bool
  | .integer, cs => cs.all Char.isDigit
  | .symbol, cs => cs.head? == some '#' && isSymbolName cs.tail
  | .slot, cs => cs.head? == some '@' && isName cs.tail
  | .name, cs => isName cs
  | .operator, cs => Selector.operators.contains (String.ofList cs)
  | .equals, cs => cs == ['=']
  | .walrus, cs => cs == [':', '=']
  | _, _ => true

/-- A token whose text belongs to its class. -/
def Token.Proper (t : Token) : Prop := spells t.kind t.text.toList = true

theorem take_length_takeWhile (p : Char → Bool) (cs : List Char) :
    cs.take (cs.takeWhile p).length = cs.takeWhile p :=
  (List.prefix_iff_eq_take.mp (List.takeWhile_prefix p)).symm

theorem isName_takeWhile {c : Char} (hc : isNameStart c = true) (cs : List Char) :
    isName (c :: cs.takeWhile isNameRest) = true := by
  rw [isName, hc, Bool.true_and]
  exact List.all_takeWhile

theorem isNameRest_of_isNameStart {c : Char} (hc : isNameStart c = true) : isNameRest c = true := by
  unfold isNameStart at hc
  unfold isNameRest Char.isAlphanum
  grind

theorem not_isDigit_of_isNameStart {c : Char} (hc : isNameStart c = true) : ¬c.isDigit = true := by
  rw [isNameStart, Bool.or_eq_true, decide_eq_true_eq] at hc
  rcases hc with hc | rfl
  · unfold Char.isAlpha Char.isUpper Char.isLower at hc
    unfold Char.isDigit
    grind
  · decide

theorem lexeme_of_isDigit {c : Char} (hc : c.isDigit = true) (rest : List Char) :
    lexeme c rest = some (.integer, (rest.takeWhile Char.isDigit).length) := by
  unfold lexeme
  rw [if_pos hc]

theorem lexeme_of_isNameStart {c : Char} (hc : isNameStart c = true) (rest : List Char) :
    lexeme c rest = some (.name, (rest.takeWhile isNameRest).length) := by
  unfold lexeme
  rw [if_neg (not_isDigit_of_isNameStart hc), if_pos hc]

/-- What is cut off after the mark of a symbol is the name of a symbol. -/
theorem isSymbolName_of_symbolRest {cs : List Char} {n : Nat} (h : symbolRest cs = some n) :
    isSymbolName (cs.take n) = true := by
  cases cs with
  | nil => simp [symbolRest] at h
  | cons c cs =>
      rw [symbolRest] at h
      split_ifs at h with hname htwo hone
      · obtain rfl := Option.some.inj h
        rw [Nat.add_comm, List.take_succ_cons, take_length_takeWhile, isSymbolName, hname]
        simp
      · obtain rfl := Option.some.inj h
        cases cs with
        | nil => simp at htwo
        | cons d cs =>
            simp only [List.head?_cons, Bool.and_eq_true, Bool.or_eq_true, decide_eq_true_eq,
              Option.some.injEq] at htwo
            rw [List.take_succ_cons, List.take_succ_cons, List.take_zero]
            obtain ⟨((rfl | rfl) | rfl) | rfl, rfl⟩ := htwo <;> decide
      · obtain rfl := Option.some.inj h
        simp only [List.contains_cons, List.contains_nil, Bool.or_false, Bool.or_eq_true,
          beq_iff_eq] at hone
        rw [List.take_succ_cons, List.take_zero]
        obtain rfl | rfl | rfl | rfl | rfl | rfl | rfl := hone <;> decide

theorem take_one_of_head? {cs : List Char} {c : Char} (h : cs.head? = some c) : cs.take 1 = [c] := by
  cases cs with
  | nil => simp at h
  | cons d cs => simpa using h

/-- What is cut off as a token of a class belongs to the class. -/
theorem spells_of_lexeme {c : Char} {rest : List Char} {kind : Kind} {n : Nat}
    (h : lexeme c rest = some (kind, n)) : spells kind (c :: rest.take n) = true := by
  by_cases hdigit : c.isDigit = true
  · rw [lexeme_of_isDigit hdigit] at h
    cases h
    rw [take_length_takeWhile, spells, List.all_cons, hdigit, Bool.true_and]
    exact List.all_takeWhile
  by_cases hname : isNameStart c = true
  · rw [lexeme_of_isNameStart hname] at h
    cases h
    rw [take_length_takeWhile]
    exact isName_takeWhile hname rest
  simp only [lexeme, if_neg hdigit, if_neg hname] at h
  -- what is left begins with a mark of its own
  split at h
  case h_1 =>
    split_ifs at h with hstart
    cases h
    rw [take_length_takeWhile]
    cases rest with
    | nil => simp at hstart
    | cons d rest =>
        have hd : isNameStart d = true := by simpa using hstart
        rw [List.takeWhile_cons_of_pos (isNameRest_of_isNameStart hd)]
        exact isName_takeWhile hd rest
  case h_2 =>
    obtain ⟨m, hm, heq⟩ := Option.map_eq_some_iff.mp h
    cases heq
    exact isSymbolName_of_symbolRest hm
  case h_3 | h_4 =>
    obtain ⟨m, _, heq⟩ := Option.map_eq_some_iff.mp h
    cases heq
    rfl
  case h_5 | h_6 | h_8 | h_9 =>
    split_ifs at h with hequals
    · cases h
      rw [take_one_of_head? hequals]
      decide
    · cases h
      rw [List.take_zero]
      decide
  case h_7 =>
    split_ifs at h with hequals
    cases h
    rw [take_one_of_head? hequals]
    decide
  case h_24 => cases h
  all_goals
    cases h
    rw [List.take_zero]
    decide

/-- Every token of a text belongs to its class. -/
theorem proper_of_mem_scanFrom {p : Point} {cs : List Char} {t : Token}
    (ht : t ∈ (scanFrom p cs).tokens) : t.Proper := by
  fun_induction scanFrom p cs with
  | case1 => simp at ht
  | case2 p c rest hspace ih => exact ih ht
  | case3 p c rest hspace n hcomment ih => exact ih ht
  | case4 p c rest hspace hcomment hlexeme => simp at ht
  | case5 p c rest hspace hcomment kind n hlexeme text stop more ih =>
      rcases List.mem_cons.mp ht with rfl | ht
      · rw [Token.Proper, String.toList_ofList]
        exact spells_of_lexeme hlexeme
      · exact ih ht

end Parley.Grammar
