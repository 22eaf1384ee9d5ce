import Parley.Machine.Dispatch
import Parley.Proofs.ClassTable.Effects
import Parley.Proofs.Node.Messages
import Parley.Proofs.Selector.Normal

/-! Definitions and sends agree on selectors. A method is defined under a text that was written by hand
and under the names of its parameters, and it is sent to by texts that the parser reads; both come to
the same selector. -/

namespace Parley

open Parley.Grammar

/-! The selectors of methods -/

/-- A name in canonical spacing under which a method with so many parameters can be defined: an
operator, the full selector with its keywords, or a text that gets its keywords from the parameters. -/
def Selector.Fits (name : String) (count : Nat) : Prop :=
  (isBinary name = true ∧ count = 1) ∨
    (isPart name.toList = true ∧ (keywords name).length = count) ∨
    (isBinary name = false ∧ ':' ∉ name.toList)

namespace Store

section MethodSelector

open Selector

variable {name : String} {params : List String}

theorem methodSelector_of_isBinary (h : isBinary name = true) : methodSelector name params = name :=
  if_pos (by rw [h, Bool.true_or])

theorem methodSelector_of_isPart (h : isPart name.toList = true) : methodSelector name params = name :=
  if_pos (by rw [h, Bool.or_true])

theorem methodSelector_of_not (hbinary : isBinary name = false) (hpart : isPart name.toList = false) :
    methodSelector name params = make (some name) params :=
  if_neg (by rw [hbinary, hpart]; decide)

variable (hname : IsNormal name) (hparams : ∀ p ∈ params, isName p.toList = true)

include hname hparams in
theorem isNormal_methodSelector : IsNormal (methodSelector name params) := by
  unfold methodSelector
  split_ifs with h
  · exact hname
  · obtain ⟨ps, hps, -, hmake⟩ :=
      hname.exists_parts_make fun p hp => isPlain_of_isName (hparams p hp)
    exact ⟨_, hps, hmake⟩

include hname hparams in
/-- A text that gets keywords from the parameters carries these besides its own. -/
theorem arity_make_iff (hbinary : isBinary name = false) :
    arity (make (some name) params) = params.length ↔ ':' ∉ name.toList := by
  obtain ⟨ps, hps, hlist, hmake⟩ :=
    hname.exists_parts_make fun p hp => isPlain_of_isName (hparams p hp)
  have hnot : isBinary (make (some name) params) = false := by
    by_cases hnil : params = []
    · have hsame : make (some name) params = name := by
        refine String.toList_inj.mp ?_
        rw [hmake, hlist, hnil, List.map_nil, List.append_nil]
      rw [hsame, hbinary]
    · obtain ⟨p, hp⟩ := List.exists_mem_of_ne_nil params hnil
      refine isBinary_eq_false_of_colon ?_
      rw [hmake, mem_intercalate_iff (by decide)]
      exact ⟨p.toList ++ [':'], List.mem_append_right ps (List.mem_map_of_mem hp), by simp⟩
  have hkeywords : (params.map (·.toList ++ [':'])).filter isPart =
      params.map (·.toList ++ [':']) := by
    refine List.filter_eq_self.mpr fun w hw => ?_
    obtain ⟨p, -, rfl⟩ := List.mem_map.mp hw
    exact isPart_keyword p.toList
  have hown := filter_isPart_eq_nil_iff (fun p hp => hps p (List.mem_append_left _ hp)) hlist
  rw [arity, hnot, if_neg (by simp), length_keywords hps hmake, List.filter_append, hkeywords,
    List.length_append, List.length_map, ← hown, Nat.add_eq_right, List.length_eq_zero_iff]

include hname hparams in
/-- The selector of a method carries as many arguments as the method has parameters exactly if the
name that it is defined under fits. -/
theorem arity_methodSelector_iff :
    arity (methodSelector name params) = params.length ↔ Fits name params.length := by
  cases hbinary : isBinary name with
  | true =>
      have hcolon : ':' ∉ name.toList := by
        intro hmem
        rw [isBinary_eq_false_of_colon hmem] at hbinary
        cases hbinary
      have hpart : isPart name.toList = false := by
        rw [← Bool.not_eq_true]
        exact fun h => hcolon (colon_mem_of_isPart h)
      rw [methodSelector_of_isBinary hbinary, arity, if_pos hbinary]
      simp [Fits, hbinary, hpart, eq_comm]
  | false =>
      cases hpart : isPart name.toList with
      | true =>
          rw [methodSelector_of_isPart hpart, arity, hbinary, if_neg (by simp)]
          simp [Fits, hbinary, hpart, colon_mem_of_isPart hpart]
      | false =>
          rw [methodSelector_of_not hbinary hpart, arity_make_iff hname hparams hbinary]
          simp [Fits, hbinary, hpart]

end MethodSelector

/-! Definitions -/

/-- A store in which a class has a method that it may not have had before, and nothing else than that
and the log is different. -/
structure Gains (s s' : Store) (owner selector : String) (m : Method) : Prop where
  /-- The class has the method under its selector, what it has under the others is as it was, -/
  own : ∀ name c, s.classes.find? name = some c → c.name = owner → ∃ methods,
    s'.classes.find? name = some { c with methods := methods } ∧
      methods.get? selector = some m ∧ ∀ other ≠ selector, methods.get? other = c.methods.get? other
  /-- every other class is as it was, -/
  others : ∀ name c, s.classes.find? name = some c → c.name ≠ owner → s'.classes.find? name = some c
  /-- and there are no more classes. -/
  none : ∀ name, s.classes.find? name = none → s'.classes.find? name = none
  rest : s' = { s with classes := s'.classes, trace := s'.trace }

theorem gains_withMethod (s : Store) (owner selector : String) (m : Method) (trace : Option String) :
    s.Gains { s with classes := ⟨s.classes.classes.map (ClassTable.withMethod owner selector m)⟩,
                     trace := trace } owner selector m where
  own := by
    intro name c hc howner
    refine ⟨c.methods.put selector m, ?_, ?_, ?_⟩
    · rw [ClassTable.find?_map_withMethod owner selector m hc, ClassTable.withMethod, if_pos howner]
    · exact OrderedMap.get?_put_self c.methods selector m
    · exact fun other hother => OrderedMap.get?_put_of_ne c.methods hother m
  others := by
    intro name c hc howner
    rw [ClassTable.find?_map_withMethod owner selector m hc, ClassTable.withMethod_of_ne howner]
  none := by
    intro name hnone
    rw [ClassTable.find?, List.find?_eq_none] at hnone ⊢
    intro d hd
    obtain ⟨c, hc, rfl⟩ := List.mem_map.mp hd
    rw [(ClassTable.withMethod_keeps owner selector m c).1]
    exact hnone c hc
  rest := rfl

/-- A definition on a registered class adds a method whose selector carries as many arguments as the
method has parameters, and refuses any other. -/
theorem sendClass_define {s : Store} {c : ClassRef} {w : String} {r : BlockRef} {d : Class}
    (hc : s.classes.find? c.name = some d) {selector : String}
    (hselector : methodSelector (Selector.normalize w) (s.block r).params = selector) :
    (Selector.arity selector = (s.block r).params.length →
      ∃ s', s.sendClass .define c "def: do:" [.string w, .block r] = (.finish (.cls c), s') ∧
        s.Gains s' d.name selector ⟨selector, (s.block r).params, (s.block r).body, d.name⟩) ∧
    (Selector.arity selector ≠ (s.block r).params.length →
      s.sendClass .define c "def: do:" [.string w, .block r] =
        (.error (.arityMismatch (Selector.arity selector) (s.block r).params.length), s)) := by
  have hdefinition : s.definition [.string w, .block r] = .ok (w, r) := rfl
  simp only [sendClass, hdefinition, installMethod, hselector]
  obtain ⟨hnone, -⟩ | ⟨d', hd', hcase⟩ :=
    ClassTable.define_cases s.classes c.name selector (s.block r).params (s.block r).body
  · rw [hc] at hnone
    cases hnone
  obtain rfl : d = d' := Option.some.inj (hc.symm.trans hd')
  obtain ⟨harity, hdefine⟩ | ⟨harity, hdefine⟩ := hcase
  · refine ⟨fun h => absurd h harity, fun _ => ?_⟩
    rw [hdefine]
    rfl
  · refine ⟨fun _ => ?_, fun h => absurd harity h⟩
    rw [hdefine]
    dsimp only [bind, Except.bind]
    cases d.methods.contains selector with
    | true => exact ⟨_, rfl, gains_withMethod s d.name selector _ _⟩
    | false => exact ⟨_, rfl, gains_withMethod s d.name selector _ s.trace⟩

/-- A message that agrees with a definition is sent under the selector of the method. -/
structure Reached (w : String) (params : List String) (selector : String) : Prop where
  /-- A plain name takes the parameters as keywords. -/
  plain : isName w.toList = true → (Message.named (some w) params).SentAs selector
  /-- Keywords, after a name or by themselves, are all of the message. -/
  keyed : ∀ name ks, Selector.Handwritten w name ks → (∀ n ∈ name, isName n.toList = true) →
    (∀ k ∈ ks, isName k.toList = true) → ks ≠ [] → (Message.named name ks).SentAs selector
  /-- An operator is the message itself. -/
  operator : Selector.isBinary (Selector.normalize w) = true →
    (Message.operator (Selector.normalize w)).SentAs selector

theorem reached_methodSelector (w : String) {params : List String}
    (hparams : ∀ p ∈ params, isName p.toList = true) :
    Reached w params (methodSelector (Selector.normalize w) params) where
  plain := by
    intro hw
    rw [Selector.normalize_of_isName hw, methodSelector_of_not
      (Selector.isBinary_eq_false_of_isName hw) (Selector.isPart_eq_false_of_isName hw)]
    exact Message.sentAs_named (by simpa using hw) hparams (.inl (Option.some_ne_none w))
  keyed := by
    intro name ks hw hname hks hne
    have hpart : Selector.isPart (Selector.make name ks).toList = true :=
      Selector.isPart_make (fun n hn => (Selector.isKey_of_isName (hname n hn)).ne_empty) hne
    rw [hw.normalize_eq, methodSelector_of_isPart hpart]
    exact Message.sentAs_named hname hks (.inr hne)
  operator := by
    intro hbinary
    rw [methodSelector_of_isBinary hbinary]
    exact Message.sentAs_operator hbinary

/-- A definition on a registered class succeeds exactly if the name fits the parameters. It then adds
one method, under a selector in canonical spacing that the parser gives to the sends of the message;
otherwise it changes nothing. -/
theorem define_agrees_with_sends (s : Store) (c : ClassRef) (w : String) (r : BlockRef)
    (hc : s.classes.contains c.name = true)
    (hparams : ∀ p ∈ (s.block r).params, isName p.toList = true) :
    (Selector.Fits (Selector.normalize w) (s.block r).params.length →
      ∃ d selector s', s.classes.find? c.name = some d ∧
        s.sendClass .define c "def: do:" [.string w, .block r] = (.finish (.cls c), s') ∧
        s.Gains s' d.name selector ⟨selector, (s.block r).params, (s.block r).body, d.name⟩ ∧
        Selector.normalize selector = selector ∧ Reached w (s.block r).params selector) ∧
    (¬Selector.Fits (Selector.normalize w) (s.block r).params.length →
      ∃ expected, s.sendClass .define c "def: do:" [.string w, .block r] =
        (.error (.arityMismatch expected (s.block r).params.length), s)) := by
  rw [ClassTable.contains, Option.isSome_iff_exists] at hc
  obtain ⟨d, hd⟩ := hc
  have hnormal := Selector.isNormal_normalize w
  have harity := arity_methodSelector_iff hnormal hparams
  have hselector := isNormal_methodSelector hnormal hparams
  have hreached := reached_methodSelector w hparams
  obtain ⟨hdefined, hrefused⟩ :=
    sendClass_define hd (Eq.refl (methodSelector (Selector.normalize w) (s.block r).params))
  generalize methodSelector (Selector.normalize w) (s.block r).params = selector at *
  constructor
  · intro hfits
    obtain ⟨s', hsend, hgains⟩ := hdefined (harity.mpr hfits)
    exact ⟨d, selector, s', hd, hsend, hgains, hselector.normalize_eq, hreached⟩
  · intro hfits
    exact ⟨Selector.arity selector, hrefused (mt harity.mp hfits)⟩

/-- A store with one block, which has two parameters. -/
def withPair : Store :=
  { initial false with blocks := #[⟨["x", "y"], .suite none .sequence [], globals, .nil, none⟩] }

/-- A block with two parameters becomes a method for two keywords, and none for an operator. -/
theorem define_agrees_with_sends_pair :
    (∃ selector s', withPair.sendClass .define (.registered "Object") "def: do:"
        [.string "at:put:", .block ⟨0⟩] = (.finish (.cls (.registered "Object")), s') ∧
      (Message.named none ["at", "put"]).SentAs selector) ∧
    ∃ expected, withPair.sendClass .define (.registered "Object") "def: do:"
      [.string " + ", .block ⟨0⟩] = (.error (.arityMismatch expected 2), withPair) := by
  have hc : withPair.classes.contains (ClassRef.registered "Object").name = true := by decide
  have hparams : ∀ p ∈ (withPair.block ⟨0⟩).params, isName p.toList = true := by decide
  constructor
  · have hfits : Selector.Fits (Selector.normalize "at:put:") (withPair.block ⟨0⟩).params.length :=
      .inr (.inl ⟨by decide, by decide⟩)
    have hkeyed : Selector.Keyed ("at".toList ++ ':' :: ([] ++ ("put".toList ++ ':' :: ([] ++ []))))
        ["at", "put"] :=
      .cons (Selector.isPlain_of_isName (by decide)) (by simp)
        (.cons (Selector.isPlain_of_isName (by decide)) (by simp) .nil)
    obtain ⟨d, selector, s', -, hsend, -, -, hreached⟩ :=
      (define_agrees_with_sends withPair (.registered "Object") "at:put:" ⟨0⟩ hc hparams).1 hfits
    exact ⟨selector, s', hsend, hreached.keyed none ["at", "put"] (.keyed hkeyed) (by simp) (by decide)
      (by simp)⟩
  · have hfits : ¬Selector.Fits (Selector.normalize " + ") (withPair.block ⟨0⟩).params.length := by
      rintro (⟨-, hcount⟩ | ⟨hpart, -⟩ | ⟨hbinary, -⟩)
      · exact absurd hcount (by decide)
      · exact absurd hpart (by decide)
      · exact absurd hbinary (by decide)
    exact (define_agrees_with_sends withPair (.registered "Object") " + " ⟨0⟩ hc hparams).2 hfits

end Store

end Parley
