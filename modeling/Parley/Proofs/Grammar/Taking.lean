import Parley.Proofs.Grammar.Feeding
import Parley.Proofs.Grammar.Sentence

/-! Reading terminals. The reader finds out from a word and its own state whether the word is a keyword
there; `State.take` is told. Where the telling agrees with the state, both do the same. Every phrase of
the grammar is taken whole, wherever it may stand, and leads to the tree that it derives. -/

namespace Parley.Grammar

namespace State

/-- Whether a token is read as a keyword at this point. -/
def reserves (s : State) (t : Token) : Bool :=
  t.kind = .name && match s.expect with
    | .expression => literalWords.contains t.text
    | .statement _ => t.text = "let" || t.text = "return" || literalWords.contains t.text
    | _ => false

/-- Takes one terminal, if the sentence can go on with it. -/
def take (s : State) (x : Terminal) : Option State :=
  if x.keyword then if s.reserves x.token then s.step x.token else none
  else match s.expect, x.token.kind with
    | .statement body, .name => some ⟨.lead body x.token, s.stack⟩
    | _, _ => s.step x.token

/-- Takes terminals one after another. -/
def takes (s : State) (xs : List Terminal) : Option State := xs.foldlM take s

@[simp] theorem takes_nil (s : State) : s.takes [] = some s := rfl

theorem takes_cons (s : State) (x : Terminal) (xs : List Terminal) :
    s.takes (x :: xs) = (s.take x).bind fun s' => s'.takes xs := rfl

theorem takes_append (s : State) (xs ys : List Terminal) :
    s.takes (xs ++ ys) = (s.takes xs).bind fun s' => s'.takes ys :=
  List.foldlM_append

variable {s s' s'' : State} {x : Terminal} {xs ys : List Terminal}

theorem takes_cons_of (h : s.take x = some s') : s.takes (x :: xs) = s'.takes xs := by
  rw [takes_cons, h, Option.bind_some]

theorem takes_append_of (h : s.takes xs = some s') : s.takes (xs ++ ys) = s'.takes ys := by
  rw [takes_append, h, Option.bind_some]

/-- The reader takes a token as what its state makes of it. -/
theorem step_eq_take (s : State) (t : Token) : s.step t = s.take ⟨t, s.reserves t⟩ := by
  unfold take
  cases hreserves : s.reserves t with
  | true => rfl
  | false =>
      simp only [Bool.false_eq_true, if_false]
      split
      · next body hexpect hkind =>
          simp only [reserves, hkind, hexpect, decide_true, Bool.true_and, Bool.or_eq_false_iff,
            decide_eq_false_iff_not] at hreserves
          obtain ⟨⟨hlet, hreturn⟩, hliteral⟩ := hreserves
          simp only [step, hexpect, beginStatement, hkind, if_neg hlet, if_neg hreturn, hliteral,
            Bool.false_eq_true, if_false]
      · rfl

theorem take_of_keyword {t : Token} (h : s.reserves t = true) : s.take ⟨t, true⟩ = s.step t := by
  simp [take, h]

theorem reserves_of_take {t : Token} (h : s.take ⟨t, true⟩ = some s') : s.reserves t = true := by
  by_contra hreserves
  simp [take, hreserves] at h

/-- A terminal that stands for its class is read as the token, but where a name begins a statement. -/
theorem take_of_is {kind : Kind} (hx : x.Is kind)
    (h : kind = .name → ∀ body, s.expect ≠ .statement body) : s.take x = s.step x.token := by
  obtain ⟨hkeyword, hkind⟩ := hx
  rw [take, hkeyword]
  simp only [Bool.false_eq_true, if_false]
  split
  · next body hexpect hname => exact absurd hexpect (h (hkind ▸ hname) body)
  · rfl

/-- What a reserved word leads to. -/
theorem exists_step_of_reserves {t : Token} (h : s.reserves t = true) : ∃ s', s.step t = some s' := by
  unfold reserves at h
  rw [Bool.and_eq_true, decide_eq_true_eq] at h
  obtain ⟨hkind, h⟩ := h
  unfold step
  split at h
  · next hexpect =>
      simp [hexpect, begin, Token.isAtom, hkind]
  · next body hexpect =>
      simp only [hexpect, beginStatement, hkind]
      split_ifs <;> exact ⟨_, rfl⟩
  · cases h

end State

/-! The stretch of a body that is being read -/

section Bodies

variable {xs ys : List Terminal} {trees : List Tree} {p : Part}

theorem bodyOf_cons {done : List Part} {stop stop' : Point}
    (hdone : bodyOf done stop = ⟨stretch xs, trees⟩)
    (hp : stretch ys = some ⟨p.outer.start, stop'⟩) :
    bodyOf (p :: done) stop' = ⟨stretch (xs ++ ys), trees ++ [p.tree]⟩ := by
  simp only [bodyOf, Body.mk.injEq] at hdone ⊢
  obtain ⟨hspan, rfl⟩ := hdone
  refine ⟨?_, by simp⟩
  rw [List.getLast?_cons]
  cases hlast : done.getLast? with
  | none =>
      rw [hlast] at hspan
      rw [stretch_eq_none_iff.mp hspan.symm, List.nil_append, hp]
      rfl
  | some q =>
      rw [hlast] at hspan
      rw [stretch_append hspan.symm hp]
      rfl

theorem close_add {body : OpenBody} (hbody : body.close = ⟨stretch xs, trees⟩)
    (hp : stretch ys = some p.outer) (x : Terminal) :
    (body.add p x.token).close = ⟨stretch (xs ++ (ys ++ [x])), trees ++ [p.tree]⟩ :=
  bodyOf_cons hbody (stretch_append hp rfl)

theorem closeWith_eq {body : OpenBody} (hbody : body.close = ⟨stretch xs, trees⟩)
    (hp : stretch ys = some p.outer) :
    body.closeWith p = ⟨stretch (xs ++ ys), trees ++ [p.tree]⟩ :=
  bodyOf_cons hbody hp

end Bodies

end Parley.Grammar
