import Mathlib
import Parley.Proofs.Machine.Recursion
import Parley.Proofs.Node.RoundTrip
import Parley.Proofs.Store.Literals

/-! The text of plain data is source for it. Parsed and evaluated, the text of a value gives a value that is
equal to it, and takes no more frames than lists are nested. Only a negative integer cannot be written: its
sign is an operator, and where an item begins no operator can come. -/

namespace Parley

open Parley.Grammar

/-! Signs -/

namespace Grammar.State

/-- A comma is followed by an expression or a keyword. -/
theorem expect_of_comma {s s' : State} {t : Token} (ht : t.kind = .comma) (h : s.step t = some s') :
    s'.expect = .expression ∨ ∃ send, s'.expect = .keyword send := by
  have hbegin (stack : List Open) : begin stack t = none := by simp [begin, Token.isAtom, ht]
  have hafter (body : OpenBody) (p : Part) (stack : List Open) : afterStatement body p stack t = none := by
    rw [afterStatement, ht]
  obtain ⟨expect, stack⟩ := s
  cases expect with
  | completed p =>
      simp only [step, follow, ht, hafter] at h
      split at h
      case h_3 | h_4 => exact .inl (congrArg State.expect (Option.some.inj h).symm)
      case h_6 => exact .inr ⟨_, congrArg State.expect (Option.some.inj h).symm⟩
      all_goals cases h
  | expression =>
      simp only [step, ht, hbegin] at h
      cases h
  | statement body =>
      simp only [step, beginStatement, ht, hbegin] at h
      cases h
  | lead body token =>
      simp only [step, ht, hafter] at h
      cases h
  | _ =>
      simp only [step, ht] at h
      cases h

/-- An opening bracket is followed by an expression. -/
theorem expect_of_openBracket {s s' : State} {t : Token} (ht : t.kind = .openBracket)
    (h : s.step t = some s') : s'.expect = .expression := by
  have hbegin (stack : List Open) : begin stack t = some ⟨.expression, .bracket t :: stack⟩ := by
    simp [begin, Token.isAtom, ht]
  have hafter (body : OpenBody) (p : Part) (stack : List Open) : afterStatement body p stack t = none := by
    rw [afterStatement, ht]
  obtain ⟨expect, stack⟩ := s
  cases expect with
  | completed p =>
      simp only [step, follow, ht, hafter] at h
      split at h
      all_goals cases h
  | expression =>
      simp only [step, ht, hbegin] at h
      exact congrArg State.expect (Option.some.inj h).symm
  | statement body =>
      simp only [step, beginStatement, ht, hbegin] at h
      exact congrArg State.expect (Option.some.inj h).symm
  | lead body token =>
      simp only [step, ht, hafter] at h
      cases h
  | _ =>
      simp only [step, ht] at h
      cases h

/-- An operator comes neither where an expression is expected nor where a keyword is. -/
theorem step_operator_eq_none {s : State} {t : Token} (ht : t.kind = .operator)
    (hs : s.expect = .expression ∨ ∃ send, s.expect = .keyword send) : s.step t = none := by
  obtain ⟨expect, stack⟩ := s
  rcases hs with rfl | ⟨send, rfl⟩
  · rw [step_expression (by simp [ht]), begin]
    simp [Token.isAtom, ht]
  · simp [step, ht]

end Grammar.State

/-- A sign stands at the beginning, or after a comma or an opening bracket. -/
def SignBegins (words : List Word) : Prop :=
  ∃ before after, words = before ++ (.operator, "-") :: after ∧
    ∀ w ∈ before.getLast?, w.1 = .comma ∨ w.1 = .openBracket

/-- Where a sign begins, no expression is read. -/
theorem feed_eq_none_of_signBegins {ts : List Token} (h : SignBegins (ts.map Token.word)) :
    State.expressionStart.feed ts = none := by
  obtain ⟨before, after, hwords, hbefore⟩ := h
  obtain ⟨us, vs, rfl, rfl, hvs⟩ := List.map_eq_append_iff.mp hwords
  obtain ⟨t, vs, rfl, hkind, -, -⟩ := exists_token hvs
  rw [State.feed_append, Option.bind_eq_none_iff]
  intro s hs
  rw [State.feed_cons]
  suffices hstep : s.step t = none by rw [hstep]; rfl
  rcases us.eq_nil_or_concat with rfl | ⟨init, u, rfl⟩
  · cases hs
    exact State.step_operator_eq_none hkind (.inl rfl)
  · rw [List.concat_eq_append] at hs hbefore
    rw [State.feed_append] at hs
    obtain ⟨s₀, -, hlast⟩ := Option.bind_eq_some_iff.mp hs
    rw [State.feed_cons] at hlast
    obtain ⟨s₁, hstep, hnil⟩ := Option.bind_eq_some_iff.mp hlast
    cases hnil
    refine State.step_operator_eq_none hkind ?_
    rcases hbefore u.word (by simp) with hcomma | hbracket
    · exact State.expect_of_comma hcomma hstep
    · exact .inl (State.expect_of_openBracket hbracket hstep)

namespace SignBegins

variable {words : List Word}

/-- Inside a list, words that begin with a sign come after its bracket or a comma. -/
theorem item {w : Word} (hw : w.1 = .comma ∨ w.1 = .openBracket) (h : SignBegins words)
    (before after : List Word) : SignBegins (before ++ w :: (words ++ after)) := by
  obtain ⟨inner, rest, rfl, hinner⟩ := h
  refine ⟨before ++ w :: inner, rest ++ after, by simp, ?_⟩
  rw [List.getLast?_append, List.getLast?_cons]
  cases hlast : inner.getLast? with
  | none => simpa using hw
  | some u => simpa using hinner u hlast

end SignBegins

namespace Store

variable {s : Store} {n : Nat} {v : Value}

/-- The tokens of the text of plain data. -/
def literalWords (s : Store) : Nat → Value → List Word
  | _, .nil => [Atom.nil.word]
  | _, .boolean b => [(Atom.boolean b).word]
  | _, .string t => [(Atom.string t).word]
  | _, .integer i =>
    if i < 0 then [(.operator, "-"), (Atom.integer i.natAbs).word] else [(Atom.integer i).word]
  | n + 1, .list r => (.openBracket, "[") ::
      ([(.comma, ",")].intercalate ((s.list r).toList.map (s.literalWords n)) ++ [(.closeBracket, "]")])
  | _, _ => []

theorem toList_toString_of_neg {i : Int} (hi : i < 0) :
    (toString i).toList = '-' :: (toString (i.natAbs : Int)).toList := by
  obtain ⟨m, rfl⟩ := Int.eq_negSucc_of_lt_zero hi
  rw [toList_toString_natCast, Int.natAbs_negSucc]
  simp [Int.toString_eq_repr, Int.repr_eq_if]

/-- The text of plain data is cut into its tokens. -/
theorem Plain.lexes (h : s.Plain n v) :
    Lexes isBreak (s.literalNode n v).source.toList (s.literalWords n v) := by
  induction h with
  | nil =>
      rw [literalNode, literalWords, Node.source]
      exact Atom.Proper.lexes trivial
  | boolean =>
      rw [literalNode, literalWords, Node.source]
      exact Atom.Proper.lexes trivial
  | string =>
      rw [literalNode, literalWords, Node.source]
      exact Atom.Proper.lexes trivial
  | @integer n i hi =>
      rw [literalNode, literalWords, Node.source]
      split_ifs with hneg
      · have hdigits : Lexes isBreak (Atom.integer i.natAbs).source.toList [(Atom.integer i.natAbs).word] :=
          Atom.Proper.lexes ⟨Int.natCast_nonneg _, hi⟩
        have hsign : Lexes anything ['-'] [(.operator, "-")] := .mark rfl (by decide) fun _ => rfl
        rw [Atom.source, toList_toString_of_neg hneg]
        exact hsign.append_of_anything hdigits
      · exact Atom.Proper.lexes ⟨Int.not_lt.mp hneg, hi⟩
  | @list n r _ _ ih =>
      have hitems := (Lexes.comma.append_of_anything Lexes.space).intercalate rfl ih
      rw [literalNode, literalWords, Node.source, Node.sources_eq_map]
      simpa [Function.comp_def] using hitems.bracketed

/-- One of several stretches of words with a separator between them comes first or after a separator. -/
theorem mem_intercalate (w : Word) {l : List (List Word)} {words : List Word} (h : words ∈ l) :
    (∃ after, [w].intercalate l = words ++ after) ∨
      ∃ before after, [w].intercalate l = before ++ w :: (words ++ after) := by
  cases l with
  | nil => cases h
  | cons first l =>
      rw [intercalate_cons]
      rcases List.mem_cons.mp h with rfl | h
      · exact .inl ⟨_, rfl⟩
      · obtain ⟨l₁, l₂, rfl⟩ := List.append_of_mem h
        exact .inr ⟨first ++ l₁.flatMap (w :: ·), l₂.flatMap (w :: ·), by simp⟩

theorem HoldsNegative.signBegins (h : s.HoldsNegative v) (hv : s.Plain n v) :
    SignBegins (s.literalWords n v) := by
  induction h generalizing n with
  | @integer i hi =>
      rw [literalWords, if_pos hi]
      exact ⟨[], _, rfl, nofun⟩
  | @item r v hmem _ ih =>
      cases hv with
      | @list n _ _ hitems =>
          have hsign := ih (hitems v hmem)
          rw [literalWords]
          have hwords := List.mem_map_of_mem (f := s.literalWords n) hmem
          rcases mem_intercalate (.comma, ",") hwords with ⟨after, heq⟩ | ⟨before, after, heq⟩
          · rw [heq]
            simpa using hsign.item (w := (.openBracket, "[")) (.inr rfl) [] (after ++ [(.closeBracket, "]")])
          · rw [heq]
            simpa using hsign.item (w := (.comma, ",")) (.inl rfl) ((.openBracket, "[") :: before)
              (after ++ [(.closeBracket, "]")])

theorem anyHidesKeyword_eq_false {ns : List Node} (h : ∀ n ∈ ns, n.hidesKeyword = false) :
    Node.anyHidesKeyword ns = false := by
  induction ns with
  | nil => rfl
  | cons n ns ih =>
      obtain ⟨hn, hns⟩ := List.forall_mem_cons.mp h
      rw [Node.anyHidesKeyword, hn, ih hns]
      rfl

/-- Without a negative integer the node of plain data can be written. -/
theorem Plain.proper (h : s.Plain n v) (hneg : ¬s.HoldsNegative v) :
    (s.literalNode n v).Proper .expression ∧ (s.literalNode n v).hidesKeyword = false := by
  induction h with
  | nil | boolean | string =>
      rw [literalNode]
      exact ⟨.atom trivial, rfl⟩
  | @integer n i hi =>
      have hnonneg : 0 ≤ i := Int.not_lt.mp fun hi' => hneg (.integer hi')
      rw [literalNode]
      exact ⟨.atom ⟨hnonneg, hi⟩, rfl⟩
  | @list n r hr _ ih =>
      have hitems : ∀ m ∈ (s.list r).toList.map (s.literalNode n),
          m.Proper .expression ∧ m.hidesKeyword = false := by
        refine List.forall_mem_map.mpr fun v hv => ih v hv fun hv' => hneg (.item hv hv')
      rw [literalNode, Node.hidesKeyword]
      exact ⟨.list fun m hm => (hitems m hm).1, anyHidesKeyword_eq_false fun m hm => (hitems m hm).2⟩

end Store

/-! Evaluation -/

theorem Node.exists_atom_of_bare {m : Node} {a : Atom} (h : m.bare = .atom none a) :
    ∃ origin, m = .atom origin a := by
  cases m with
  | atom origin a' =>
      cases h
      exact ⟨origin, rfl⟩
  | _ => cases h

theorem Node.exists_list_of_bare {m : Node} {items : List Node} (h : m.bare = .list none items) :
    ∃ origin ms, m = .list origin ms ∧ Node.bareEach ms = items := by
  cases m with
  | list origin ms =>
      cases h
      exact ⟨origin, ms, rfl, rfl⟩
  | _ => cases h

theorem Node.forall₂_of_bareEach {ms ns : List Node} (h : Node.bareEach ms = Node.bareEach ns) :
    List.Forall₂ (fun m n => m.bare = n.bare) ms ns := by
  induction ms generalizing ns with
  | nil =>
      cases ns with
      | nil => exact .nil
      | cons => cases h
  | cons m ms ih =>
      cases ns with
      | nil => cases h
      | cons n ns =>
          obtain ⟨hm, hms⟩ := List.cons.inj h
          exact .cons hm (ih hms)

namespace Machine

variable {s s₀ : Store} {n depth : Nat} {count : Int} {v : Value}

/-- In every store with more lists, at every depth that leaves some frames, a node is evaluated to a value
that is the same as another one. -/
def Restores (count : Int) (s : Store) (n : Nat) (m : Node) (v : Value) : Prop :=
  ∀ (depth : Nat) (scope : Scope) (s₀ : Store), s.Extends s₀ → (depth + n : Int) ≤ count →
    ∃ w s₁, evaluate (.frames count) depth (.node m) scope s₀ = some (.value w, s₁) ∧
      s₀.Extends s₁ ∧ s₁.Alike n w v

theorem restores_atom {origin : Option Origin} {a : Atom} (hkind : v.kind ≠ .list)
    (ha : ∀ s scope, atomValue s scope a = .ok v) : Restores count s n (.atom origin a) v := by
  intro depth scope s₀ _ _
  refine ⟨v, s₀, ?_, .refl s₀, .same hkind⟩
  rw [evaluate, begin, beginNode, ha, Limit.settle]

/-- The items of a list are evaluated one after another. -/
theorem settle_nextItem (task : Task) (scope : Scope) (done : List Value) {ms : List Node}
    {vs : List Value} (h : List.Forall₂ (Restores count s n) ms vs) (hs : s.Extends s₀)
    (hdepth : (depth + (n + 1 : Nat) : Int) ≤ count) :
    ∃ ws s₁, Limit.settle (.frames count) depth task scope (nextItem s₀ scope done ms) =
        some (.value (s₁.newList (done.reverse ++ ws).toArray).1,
          (s₁.newList (done.reverse ++ ws).toArray).2) ∧
      s₀.Extends s₁ ∧ List.Forall₂ (s₁.Alike n) ws vs := by
  induction h generalizing s₀ done with
  | nil =>
      refine ⟨[], s₀, ?_, .refl s₀, .nil⟩
      rw [nextItem, Store.finishList, Limit.settle, List.append_nil]
  | @cons m v ms vs hm _ ih =>
      have hreached : ¬(Limit.frames count).isReached depth = true := by
        simp only [Limit.isReached, decide_eq_true_eq]
        push_cast at hdepth
        omega
      obtain ⟨w, s₁, hw, hs₁, halike⟩ := hm (depth + 1) scope s₀ hs (by push_cast at hdepth ⊢; omega)
      obtain ⟨ws, s₂, hsettle, hs₂, hws⟩ := @ih s₁ (w :: done) (hs.trans hs₁)
      refine ⟨w :: ws, s₂, ?_, hs₁.trans hs₂, .cons (halike.of_extends hs₂) hws⟩
      rw [nextItem, settle_request, if_neg hreached, hw]
      rw [List.reverse_cons, List.append_assoc, List.singleton_append] at hsettle
      exact hsettle

/-- The node of plain data is evaluated to a value that is the same. By induction on the nesting. -/
theorem restores_literalNode (h : s.Plain n v) {m : Node} (hm : m.bare = (s.literalNode n v).bare) :
    Restores count s n m v := by
  induction h generalizing m with
  | nil =>
      rw [Store.literalNode] at hm
      obtain ⟨origin, rfl⟩ := Node.exists_atom_of_bare hm
      exact restores_atom (by simp [Value.kind]) fun _ _ => rfl
  | boolean =>
      rw [Store.literalNode] at hm
      obtain ⟨origin, rfl⟩ := Node.exists_atom_of_bare hm
      exact restores_atom (by simp [Value.kind]) fun _ _ => rfl
  | integer =>
      rw [Store.literalNode] at hm
      obtain ⟨origin, rfl⟩ := Node.exists_atom_of_bare hm
      exact restores_atom (by simp [Value.kind]) fun _ _ => rfl
  | string =>
      rw [Store.literalNode] at hm
      obtain ⟨origin, rfl⟩ := Node.exists_atom_of_bare hm
      exact restores_atom (by simp [Value.kind]) fun _ _ => rfl
  | @list n r hr _ ih =>
      rw [Store.literalNode] at hm
      obtain ⟨origin, ms, rfl, hms⟩ := Node.exists_list_of_bare hm
      have hitems : List.Forall₂ (Restores count s n) ms (s.list r).toList := by
        have hbare := (List.forall₂_map_right_iff.mp (Node.forall₂_of_bareEach hms)).flip
        exact ((List.forall₂_and_left _ _).mpr ⟨fun v hv => hv, hbare⟩).flip.imp
          fun m v hmv => ih v hmv.1 hmv.2
      intro depth scope s₀ hs hdepth
      obtain ⟨ws, s₁, hsettle, hs₁, hws⟩ :=
        settle_nextItem (.node (.list origin ms)) scope [] hitems hs hdepth
      have hs₁' := hs.trans hs₁
      refine ⟨_, _, hsettle, hs₁.trans (Store.extends_newList _ _), ?_⟩
      rw [List.reverse_nil, List.nil_append]
      exact Store.alike_newList (hs₁'.lt_size hr) (by rwa [hs₁'.list_eq hr])

end Machine

open Machine

/-- Plain data has a text. Without a negative integer in it the text is parsed, and evaluating the node in
any scope with as many frames as lists are nested gives a value that is equal to the data; with one the text
is refused. -/
theorem literal_reads_back (s : Store) (n : Nat) (v : Value) (h : s.Plain n v) (file : Option String) :
    ∃ text, s.literal v = .ok text ∧
      (¬s.HoldsNegative v → ∃ node, parseExpression text file = .ok node ∧
        ∀ (count : Int) (scope : Scope), n ≤ count → ∃ fuel w s',
          run (.frames count) fuel (.initial (.node node) scope s) = some (.value w, s') ∧
          s'.equal? w v = some true) ∧
      (s.HoldsNegative v → ∃ e, parseExpression text file = .error (.refused e)) := by
  refine ⟨_, h.literal_eq, fun hnegative => ?_, fun hnegative => ?_⟩
  · obtain ⟨hproper, hhides⟩ := h.proper hnegative
    have hreparses := @reparses_expression file _ hproper
    rw [StartRule.Reparses, hhides, if_neg (by simp)] at hreparses
    obtain ⟨node, hnode, hbare⟩ := hreparses
    refine ⟨node, hnode, fun count scope hcount => ?_⟩
    have hrestores : Restores count s n node v := restores_literalNode h hbare
    obtain ⟨w, s', heval, hs, halike⟩ := hrestores 0 scope s (.refl s) (by push_cast; omega)
    obtain ⟨fuel, hrun⟩ := exists_run_of_evaluate heval
    exact ⟨fuel, w, s', hrun, halike.equal?_eq (h.of_extends hs)⟩
  · obtain ⟨hwords, -⟩ := h.lexes.scan
    have hfeed := feed_eq_none_of_signBegins (hwords ▸ hnegative.signBegins h)
    exact parseWith_of_read_eq_error file (readText_of_feed_eq_none State.expression? hfeed)

/-- A list of a string, an integer and nil, and a list of that one. -/
def nestedLists (i : Int) : Store :=
  { Store.initial false with lists := #[#[.string "a\\", .integer i, .nil], #[.list ⟨0⟩]] }

theorem plain_nestedLists {i : Int} (hi : i.natAbs < 10) : (nestedLists i).Plain 2 (.list ⟨1⟩) := by
  have hlong : i.natAbs < Text.tooLong := by
    rw [tooLong_eq]
    exact hi.trans_le (Nat.le_self_pow (by decide) 10)
  have hinner : (nestedLists i).Plain 1 (.list ⟨0⟩) := by
    refine .list (by simp [nestedLists]) ?_
    simp only [nestedLists, Store.list, Array.getD_eq_getD_getElem?]
    simp [Store.Plain.string, Store.Plain.integer hlong, Store.Plain.nil]
  refine .list (by simp [nestedLists]) ?_
  simp only [nestedLists, Store.list, Array.getD_eq_getD_getElem?]
  simpa [nestedLists] using hinner

/-- A string that ends in a backslash comes back from inside two lists; a negative integer does not. -/
theorem literal_reads_back_nested :
    (∃ text node fuel w s', (nestedLists 7).literal (.list ⟨1⟩) = .ok text ∧
      parseExpression text none = .ok node ∧
      run (.frames 2) fuel (.initial (.node node) .global (nestedLists 7)) = some (.value w, s') ∧
      s'.equal? w (.list ⟨1⟩) = some true) ∧
    ∃ text e, (nestedLists (-7)).literal (.list ⟨1⟩) = .ok text ∧
      parseExpression text none = .error (.refused e) := by
  constructor
  · obtain ⟨text, htext, hpositive, -⟩ :=
      literal_reads_back (nestedLists 7) 2 (.list ⟨1⟩) (plain_nestedLists (by decide)) none
    have hnegative : ¬(nestedLists 7).HoldsNegative (.list ⟨1⟩) := by
      rintro (_ | @⟨_, v, hv, h⟩)
      obtain rfl : v = .list ⟨0⟩ := by simpa [nestedLists, Store.list] using hv
      obtain _ | @⟨_, w, hw, h⟩ := h
      have hcases : w = .string "a\\" ∨ w = .integer 7 ∨ w = .nil := by
        simpa [nestedLists, Store.list] using hw
      rcases hcases with rfl | rfl | rfl
      · cases h
      · cases h with
        | integer hi => exact absurd hi (by decide)
      · cases h
    obtain ⟨node, hnode, hrun⟩ := hpositive hnegative
    obtain ⟨fuel, w, s', hrun, hequal⟩ := hrun 2 .global (by decide)
    exact ⟨text, node, fuel, w, s', htext, hnode, hrun, hequal⟩
  · obtain ⟨text, htext, -, hnegative⟩ :=
      literal_reads_back (nestedLists (-7)) 2 (.list ⟨1⟩) (plain_nestedLists (by decide)) none
    have hholds : (nestedLists (-7)).HoldsNegative (.list ⟨1⟩) :=
      .item (v := .list ⟨0⟩) (by decide) (.item (v := .integer (-7)) (by decide) (.integer (by decide)))
    obtain ⟨e, he⟩ := hnegative hholds
    exact ⟨text, e, htext, he⟩

end Parley
