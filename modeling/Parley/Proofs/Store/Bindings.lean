import Mathlib.Data.List.Basic
import Parley.Machine.Evaluate

/-! Bindings in a tree of frames. Frames are made inside others that are there already, so a walk outward
ends. A name is looked up along this walk, and what a binding changes is told by it: a definition is seen
from the frames whose walk comes to its frame before any other binding of the name, an assignment from
those that see the same binding as the frame where it is made. -/

namespace Parley.Store

variable {s s' : Store}

/-! Frames that come about -/

/-- Stores whose frames come about one by one: a frame alone, a frame inside another, a name that is bound
in a frame, a name that is assigned from a frame, and anything that leaves the frames as they are. -/
inductive Framed : Store → Prop
  | fresh (traced : Bool) : Framed (.initial traced)
  | alone {s : Store} (h : Framed s) (bindings : List (String × Value)) :
      Framed (s.newFrame none bindings).2
  | child {s : Store} (h : Framed s) {parent : FrameRef} (hparent : parent.index < s.frames.size)
      (bindings : List (String × Value)) : Framed (s.newFrame (some parent) bindings).2
  | define {s : Store} (h : Framed s) {env : FrameRef} (henv : env.index < s.frames.size)
      (name : String) (v : Value) : Framed (s.define env name v)
  | assign {s s' : Store} (h : Framed s) {env : FrameRef} {name : String} {v : Value}
      (hassign : s.assign? env name v = some s') : Framed s'
  | elsewhere {s s' : Store} (h : Framed s) (hframes : s'.frames = s.frames) : Framed s'

/-- Each frame lies inside an older one, if it lies inside any. -/
def Nested (s : Store) : Prop :=
  ∀ (i : Nat) (f : Frame), s.frames[i]? = some f → ∀ p, f.parent = some p → p.index < i

theorem Nested.push (h : s.Nested) {parent : Option FrameRef} {bindings : List (String × Value)}
    (hparent : ∀ p, parent = some p → p.index < s.frames.size) :
    (s.newFrame parent bindings).2.Nested := by
  intro i f hf p hp
  rw [newFrame, Array.getElem?_push] at hf
  split_ifs at hf with hi
  · obtain rfl := Option.some.inj hf
    rw [hi]
    exact hparent p hp
  · exact h i f hf p hp

theorem Nested.define (h : s.Nested) (env : FrameRef) (name : String) (v : Value) :
    (s.define env name v).Nested := by
  intro i f hf p hp
  rw [Store.define, Array.getElem?_modify] at hf
  split_ifs at hf
  · obtain ⟨old, hold, rfl⟩ := Option.map_eq_some_iff.mp hf
    exact h i old hold p hp
  · exact h i f hf p hp

theorem Framed.nested (h : s.Framed) : s.Nested := by
  induction h with
  | fresh traced =>
      intro i f hf p hp
      cases i with
      | zero =>
          cases hf
          cases hp
      | succ i => cases hf
  | alone _ bindings ih => exact ih.push nofun
  | child _ hparent bindings ih =>
      refine ih.push fun p hp => ?_
      obtain rfl := Option.some.inj hp
      exact hparent
  | define _ _ name v ih => exact ih.define _ name v
  | assign _ hassign ih =>
      obtain ⟨r, -, rfl⟩ := Option.map_eq_some_iff.mp hassign
      exact ih.define r _ _
  | elsewhere _ hframes ih =>
      intro i f hf
      rw [hframes] at hf
      exact ih i f hf

/-! Walks outward -/

/-- The walk outward from a frame ends and passes these frames. -/
inductive Outward (s : Store) : FrameRef → List FrameRef → Prop
  | last {r : FrameRef} {f : Frame} (hf : s.frames[r.index]? = some f) (h : f.parent = none) :
      Outward s r [r]
  | inside {r p : FrameRef} {f : Frame} {refs : List FrameRef} (hf : s.frames[r.index]? = some f)
      (hparent : f.parent = some p) (h : Outward s p refs) : Outward s r (r :: refs)

/-- By induction on the place of the frame: the frame around it is older. -/
theorem Nested.exists_outward (h : s.Nested) {r : FrameRef} (hr : r.index < s.frames.size) :
    ∃ refs, s.Outward r refs := by
  obtain ⟨i⟩ := r
  induction i using Nat.strongRecOn with
  | ind i ih =>
      have hf : s.frames[i]? = some s.frames[i] := Array.getElem?_eq_getElem hr
      cases hparent : s.frames[i].parent with
      | none => exact ⟨_, .last hf hparent⟩
      | some p =>
          have hlt := h i _ hf p hparent
          obtain ⟨refs, hrefs⟩ := ih p.index hlt (Nat.lt_trans hlt hr)
          exact ⟨_, .inside hf hparent hrefs⟩

theorem Outward.unique {r : FrameRef} {refs refs' : List FrameRef} (h : s.Outward r refs)
    (h' : s.Outward r refs') : refs' = refs := by
  induction h generalizing refs' with
  | last hf hnone =>
      cases h' with
      | last => rfl
      | inside hf' hparent =>
          obtain rfl := Option.some.inj (hf.symm.trans hf')
          exact nomatch hnone.symm.trans hparent
  | inside hf hparent _ ih =>
      cases h' with
      | last hf' hnone =>
          obtain rfl := Option.some.inj (hf.symm.trans hf')
          exact nomatch hnone.symm.trans hparent
      | inside hf' hparent' h' =>
          obtain rfl := Option.some.inj (hf.symm.trans hf')
          obtain rfl := Option.some.inj (hparent.symm.trans hparent')
          rw [ih h']

/-- A frame binds a name itself. -/
def Binds (s : Store) (name : String) (r : FrameRef) : Prop :=
  (s.frame r).bindings.contains name = true

instance (s : Store) (name : String) (r : FrameRef) : Decidable (s.Binds name r) :=
  inferInstanceAs (Decidable (_ = true))

theorem frame_of_getElem? {r : FrameRef} {f : Frame} (hf : s.frames[r.index]? = some f) :
    s.frame r = f := by
  rw [frame, Array.getD_eq_getD_getElem?, hf, Option.getD_some]

/-- A name is held by the first frame of the walk that binds it. -/
theorem Outward.holder?_eq (hs : s.Nested) {r : FrameRef} {refs : List FrameRef}
    (h : s.Outward r refs) (name : String) :
    s.holder? r name = refs.find? fun q => (s.frame q).bindings.contains name := by
  induction h with
  | @last r f hf hnone =>
      rw [List.find?_cons, List.find?_nil, frame_of_getElem? hf, holder?, holderFrom, hf]
      dsimp only
      rw [hnone]
      cases f.bindings.contains name <;> rfl
  | @inside r p f refs hf hparent _ ih =>
      rw [List.find?_cons, frame_of_getElem? hf, holder?, holderFrom, hf, ← ih]
      dsimp only
      rw [hparent]
      dsimp only
      rw [if_pos (hs r.index f hf p hparent)]
      cases f.bindings.contains name <;> rfl

/-- Looking up a name is looking for the first frame of the walk that has a value for it. -/
theorem Outward.lookup?_eq (hs : s.Nested) {r : FrameRef} {refs : List FrameRef}
    (h : s.Outward r refs) (name : String) :
    s.lookup? r name = refs.findSome? fun q => (s.frame q).bindings.get? name := by
  rw [lookup?, h.holder?_eq hs]
  clear h
  induction refs with
  | nil => rfl
  | cons q refs ih =>
      rw [List.find?_cons, List.findSome?_cons, OrderedMap.contains]
      cases hq : (s.frame q).bindings.get? name with
      | none => exact ih
      | some v => exact hq

/-! What a binding changes -/

section Define

variable {env : FrameRef} {name : String} {v : Value}

theorem frame_define_self (henv : env.index < s.frames.size) :
    (s.define env name v).frame env =
      { s.frame env with bindings := (s.frame env).bindings.put name v } := by
  have hf : s.frames[env.index]? = some s.frames[env.index] := Array.getElem?_eq_getElem henv
  refine frame_of_getElem? ?_
  rw [define, Array.getElem?_modify, if_pos rfl, hf, frame_of_getElem? hf, Option.map_some]

theorem frame_define_of_ne {r : FrameRef} (hr : r ≠ env) : (s.define env name v).frame r = s.frame r := by
  have hindex : env.index ≠ r.index := fun heq => hr (congrArg FrameRef.mk heq.symm)
  rw [frame, frame, Array.getD_eq_getD_getElem?, Array.getD_eq_getD_getElem?, define,
    Array.getElem?_modify, if_neg hindex]

theorem get?_define (henv : env.index < s.frames.size) (r : FrameRef) (other : String) :
    ((s.define env name v).frame r).bindings.get? other =
      if r = env ∧ other = name then some v else (s.frame r).bindings.get? other := by
  by_cases hr : r = env
  · subst hr
    rw [frame_define_self henv]
    by_cases hother : other = name
    · subst hother
      rw [if_pos ⟨rfl, rfl⟩]
      exact OrderedMap.get?_put_self _ _ _
    · rw [if_neg fun h => hother h.2]
      exact OrderedMap.get?_put_of_ne _ hother v
  · rw [frame_define_of_ne hr, if_neg fun h => hr h.1]

/-- Walks pass the frames that they passed. -/
theorem Outward.define {r : FrameRef} {refs : List FrameRef} (h : s.Outward r refs) (env : FrameRef)
    (name : String) (v : Value) : (s.define env name v).Outward r refs := by
  have hkept : ∀ (i : Nat) (f : Frame), s.frames[i]? = some f →
      ∃ f', (s.define env name v).frames[i]? = some f' ∧ f'.parent = f.parent := by
    intro i f hf
    rw [Store.define, Array.getElem?_modify, hf]
    split_ifs
    · exact ⟨_, rfl, rfl⟩
    · exact ⟨f, rfl, rfl⟩
  induction h with
  | last hf hnone =>
      obtain ⟨f', hf', hparent'⟩ := hkept _ _ hf
      exact .last hf' (hparent'.trans hnone)
  | inside hf hparent _ ih =>
      obtain ⟨f', hf', hparent'⟩ := hkept _ _ hf
      exact .inside hf' (hparent'.trans hparent) ih

/-- A frame comes in a list of frames before any other that binds a name. -/
def ComesFirst (s : Store) (name : String) (env : FrameRef) (refs : List FrameRef) : Prop :=
  ∃ before after, refs = before ++ env :: after ∧ ∀ q ∈ before, ¬s.Binds name q

theorem comesFirst_cons_self (refs : List FrameRef) : s.ComesFirst name env (env :: refs) :=
  ⟨[], refs, rfl, List.forall_mem_nil _⟩

theorem ComesFirst.cons {refs : List FrameRef} (h : s.ComesFirst name env refs) {q : FrameRef}
    (hq : ¬s.Binds name q) : s.ComesFirst name env (q :: refs) := by
  obtain ⟨before, after, rfl, hbefore⟩ := h
  exact ⟨q :: before, after, rfl, List.forall_mem_cons.mpr ⟨hq, hbefore⟩⟩

theorem not_binds_iff {q : FrameRef} : ¬s.Binds name q ↔ (s.frame q).bindings.get? name = none := by
  rw [Binds, OrderedMap.contains, Option.not_isSome_iff_eq_none]

/-- Where the walk comes to the frame first, the new value is found. -/
theorem ComesFirst.findSome?_define {refs : List FrameRef} (h : s.ComesFirst name env refs)
    (henv : env.index < s.frames.size) :
    (refs.findSome? fun q => ((s.define env name v).frame q).bindings.get? name) = some v := by
  obtain ⟨before, after, rfl, hbefore⟩ := h
  induction before with
  | nil => rw [List.nil_append, List.findSome?_cons, get?_define henv, if_pos ⟨rfl, rfl⟩]
  | cons q before ih =>
      obtain ⟨hq, hbefore⟩ := List.forall_mem_cons.mp hbefore
      rw [List.cons_append, List.findSome?_cons, get?_define henv, not_binds_iff.mp hq]
      split_ifs
      · rfl
      · exact ih hbefore

/-- Anywhere else, what was found is found again. -/
theorem findSome?_define_of_not {refs : List FrameRef} {other : String}
    (h : ¬(other = name ∧ s.ComesFirst name env refs)) (henv : env.index < s.frames.size) :
    (refs.findSome? fun q => ((s.define env name v).frame q).bindings.get? other) =
      refs.findSome? fun q => (s.frame q).bindings.get? other := by
  induction refs with
  | nil => rfl
  | cons q refs ih =>
      have hsame : ¬(q = env ∧ other = name) := by
        rintro ⟨rfl, hother⟩
        exact h ⟨hother, comesFirst_cons_self refs⟩
      rw [List.findSome?_cons, List.findSome?_cons, get?_define henv, if_neg hsame]
      cases hq : (s.frame q).bindings.get? other with
      | some w => rfl
      | none =>
          refine ih ?_
          rintro ⟨rfl, hfirst⟩
          exact h ⟨rfl, hfirst.cons (not_binds_iff.mpr hq)⟩

end Define

/-! Definitions and assignments -/

/-- The walk outward from a frame comes to another one before any other that binds a name. -/
def ComesTo (s : Store) (name : String) (r env : FrameRef) : Prop :=
  ∃ refs, s.Outward r refs ∧ s.ComesFirst name env refs

/-- The nearest frame from another one outward that binds a name. -/
def Nearest (s : Store) (name : String) (r env : FrameRef) : Prop :=
  s.ComesTo name r env ∧ s.Binds name env

/-- What changes when a name is bound in a frame. -/
structure Defines (s : Store) (env : FrameRef) (name : String) (v : Value) : Prop where
  reached : ∀ r, s.ComesTo name r env → (s.define env name v).lookup? r name = some v
  spared : ∀ r other, r.index < s.frames.size → ¬(other = name ∧ s.ComesTo name r env) →
    (s.define env name v).lookup? r other = s.lookup? r other

/-- What changes when a name is assigned from a frame. -/
structure Assigns (s : Store) (env : FrameRef) (name : String) (v : Value) : Prop where
  /-- An assignment is refused where no frame outward binds the name. Nothing changes then. -/
  refused : s.assign? env name v = none ↔ ∃ refs, s.Outward env refs ∧ ∀ q ∈ refs, ¬s.Binds name q
  error : s.assign? env name v = none → ∀ scope : Scope, scope.env = env →
    Machine.putValue s scope (.assign name) v = (.error (.unboundVariable name), s)
  /-- No frame gets or loses a name, nor are its names put in another order. -/
  kept : ∀ s', s.assign? env name v = some s' → s'.frames.size = s.frames.size ∧
    ∀ r, (s'.frame r).parent = (s.frame r).parent ∧
      (s'.frame r).bindings.keys = (s.frame r).bindings.keys
  reached : ∀ s', s.assign? env name v = some s' → ∀ r,
    (∃ q, s.Nearest name r q ∧ s.Nearest name env q) → s'.lookup? r name = some v
  spared : ∀ s', s.assign? env name v = some s' → ∀ r other, r.index < s.frames.size →
    ¬(other = name ∧ ∃ q, s.Nearest name r q ∧ s.Nearest name env q) →
    s'.lookup? r other = s.lookup? r other

variable {env : FrameRef} {name : String}

theorem Nested.defines (hs : s.Nested) (henv : env.index < s.frames.size) (v : Value) :
    s.Defines env name v := by
  have hs' := hs.define env name v
  refine ⟨?_, ?_⟩
  · rintro r ⟨refs, hrefs, hfirst⟩
    rw [(hrefs.define env name v).lookup?_eq hs']
    exact hfirst.findSome?_define henv
  · intro r other hr hnot
    obtain ⟨refs, hrefs⟩ := hs.exists_outward hr
    rw [(hrefs.define env name v).lookup?_eq hs', hrefs.lookup?_eq hs]
    exact findSome?_define_of_not (fun h => hnot ⟨h.1, refs, hrefs, h.2⟩) henv

theorem Outward.lt_size {r : FrameRef} {refs : List FrameRef} (h : s.Outward r refs) :
    ∀ q ∈ refs, q.index < s.frames.size := by
  induction h with
  | last hf =>
      intro q hq
      obtain rfl := List.mem_singleton.mp hq
      exact (Array.getElem?_eq_some_iff.mp hf).1
  | inside hf _ _ ih => exact List.forall_mem_cons.mpr ⟨(Array.getElem?_eq_some_iff.mp hf).1, ih⟩

/-- A name is held by the nearest frame that binds it. -/
theorem Nested.holder?_eq_some_iff (hs : s.Nested) (henv : env.index < s.frames.size) {q : FrameRef} :
    s.holder? env name = some q ↔ s.Nearest name env q := by
  obtain ⟨refs, hrefs⟩ := hs.exists_outward henv
  rw [hrefs.holder?_eq hs, List.find?_eq_some_iff_append]
  constructor
  · rintro ⟨hbinds, before, after, hsplit, hbefore⟩
    refine ⟨⟨refs, hrefs, before, after, hsplit, fun p hp => ?_⟩, hbinds⟩
    simpa [Binds] using hbefore p hp
  · rintro ⟨⟨refs', hrefs', before, after, hsplit, hbefore⟩, hbinds⟩
    obtain rfl := hrefs.unique hrefs'
    refine ⟨hbinds, before, after, hsplit, fun p hp => ?_⟩
    simpa [Binds] using hbefore p hp

theorem Nested.nearest_unique (hs : s.Nested) (henv : env.index < s.frames.size) {q q' : FrameRef}
    (h : s.Nearest name env q) (h' : s.Nearest name env q') : q' = q :=
  Option.some.inj <|
    ((hs.holder?_eq_some_iff henv).mpr h').symm.trans ((hs.holder?_eq_some_iff henv).mpr h)

/-- What an assignment says: the nearest frame that binds the name binds it anew. -/
theorem Nested.exists_of_assign? (hs : s.Nested) (henv : env.index < s.frames.size) {v : Value}
    (h : s.assign? env name v = some s') :
    ∃ q, s.Nearest name env q ∧ q.index < s.frames.size ∧ s' = s.define q name v := by
  obtain ⟨q, hq, rfl⟩ := Option.map_eq_some_iff.mp h
  have hnearest := (hs.holder?_eq_some_iff henv).mp hq
  obtain ⟨⟨refs, hrefs, before, after, rfl, -⟩, -⟩ := id hnearest
  exact ⟨q, hnearest, hrefs.lt_size q (by simp), rfl⟩

theorem Nested.assign?_eq_none_iff (hs : s.Nested) (henv : env.index < s.frames.size) (v : Value) :
    s.assign? env name v = none ↔ ∃ refs, s.Outward env refs ∧ ∀ q ∈ refs, ¬s.Binds name q := by
  obtain ⟨refs, hrefs⟩ := hs.exists_outward henv
  rw [assign?, Option.map_eq_none_iff, hrefs.holder?_eq hs, List.find?_eq_none]
  constructor
  · exact fun h => ⟨refs, hrefs, h⟩
  · rintro ⟨refs', hrefs', h⟩
    obtain rfl := hrefs.unique hrefs'
    exact h

theorem putValue_of_assign?_eq_none {v : Value} (h : s.assign? env name v = none) {scope : Scope}
    (hscope : scope.env = env) :
    Machine.putValue s scope (.assign name) v = (.error (.unboundVariable name), s) := by
  subst hscope
  rw [Machine.putValue, Option.map_eq_none_iff.mp h]

/-- A name that a frame binds is bound anew in its place. -/
theorem keys_define_of_binds {q : FrameRef} (hq : q.index < s.frames.size) (hbinds : s.Binds name q)
    (v : Value) (r : FrameRef) : ((s.define q name v).frame r).parent = (s.frame r).parent ∧
      ((s.define q name v).frame r).bindings.keys = (s.frame r).bindings.keys := by
  by_cases hr : r = q
  · subst hr
    rw [frame_define_self hq]
    exact ⟨rfl, (OrderedMap.keys_put _ name v).trans (if_pos hbinds)⟩
  · rw [frame_define_of_ne hr]
    exact ⟨rfl, rfl⟩

theorem Nested.assigns (hs : s.Nested) (henv : env.index < s.frames.size) (v : Value) :
    s.Assigns env name v := by
  refine ⟨hs.assign?_eq_none_iff henv v, fun h scope => putValue_of_assign?_eq_none h, ?_, ?_, ?_⟩
  · intro s' h
    obtain ⟨q, hnearest, hq, rfl⟩ := hs.exists_of_assign? henv h
    exact ⟨Array.size_modify, keys_define_of_binds hq hnearest.2 v⟩
  · rintro s' h r ⟨q', hr, henv'⟩
    obtain ⟨q, hnearest, hq, rfl⟩ := hs.exists_of_assign? henv h
    obtain rfl := hs.nearest_unique henv hnearest henv'
    exact (hs.defines hq v).reached r hr.1
  · intro s' h r other hr hnot
    obtain ⟨q, hnearest, hq, rfl⟩ := hs.exists_of_assign? henv h
    refine (hs.defines hq v).spared r other hr ?_
    rintro ⟨hother, hcomes⟩
    exact hnot ⟨hother, q, ⟨hcomes, hnearest.2⟩, hnearest⟩

/-- However a tree of frames came about, walks outward end, and what is looked up after a definition or an
assignment is told by the walks. -/
theorem bindings_in_tree {s : Store} (hs : s.Framed) :
    (∀ r : FrameRef, r.index < s.frames.size → ∃ refs, s.Outward r refs) ∧
    ∀ env : FrameRef, env.index < s.frames.size → ∀ name v,
      s.Assigns env name v ∧ s.Defines env name v := by
  have hnested := hs.nested
  exact ⟨fun r hr => hnested.exists_outward hr,
    fun env henv name v => ⟨hnested.assigns henv v, hnested.defines henv v⟩⟩

/-- Two frames inside the global one, the first of which binds `x` itself, and a frame inside each. -/
def branchingStore : Store :=
  let s := (initial false).define globals "x" (.integer 1)
  let (left, s) := s.newFrame (some globals) [("x", .integer 2)]
  let (right, s) := s.newFrame (some globals) [("y", .integer 3)]
  let (_, s) := s.newFrame (some left) []
  (s.newFrame (some right) []).2

/-- An assignment from the innermost frame on the right is seen from the frame around it and not from the
innermost frame on the left, and a definition there is not seen from the frame around it. -/
theorem bindings_in_tree_shadowed : branchingStore.Framed ∧
    (∃ s', branchingStore.assign? ⟨4⟩ "x" (.integer 5) = some s' ∧
      s'.lookup? ⟨2⟩ "x" = some (.integer 5) ∧
      s'.lookup? ⟨3⟩ "x" = branchingStore.lookup? ⟨3⟩ "x") ∧
    (branchingStore.define ⟨4⟩ "x" (.integer 5)).lookup? ⟨2⟩ "x" = branchingStore.lookup? ⟨2⟩ "x" := by
  have hframed : branchingStore.Framed :=
    .child (.child (.child (.child (.define (.fresh false) (by decide) _ _) (by decide) _) (by decide) _)
      (by decide) _) (by decide) _
  have hnested := hframed.nested
  have hright : branchingStore.Outward ⟨2⟩ [⟨2⟩, ⟨0⟩] := .inside rfl rfl (.last rfl rfl)
  have hleft : branchingStore.Outward ⟨3⟩ [⟨3⟩, ⟨1⟩, ⟨0⟩] :=
    .inside rfl rfl (.inside rfl rfl (.last rfl rfl))
  have hinner : branchingStore.Nearest "x" ⟨4⟩ ⟨0⟩ :=
    ⟨⟨_, .inside rfl rfl hright, [⟨4⟩, ⟨2⟩], [], rfl, by decide⟩, by decide⟩
  have houter : branchingStore.Nearest "x" ⟨2⟩ ⟨0⟩ := ⟨⟨_, hright, [⟨2⟩], [], rfl, by decide⟩, by decide⟩
  have hshadowed : branchingStore.Nearest "x" ⟨3⟩ ⟨1⟩ :=
    ⟨⟨_, hleft, [⟨3⟩], [⟨0⟩], rfl, by decide⟩, by decide⟩
  obtain ⟨-, hlaws⟩ := bindings_in_tree hframed
  obtain ⟨hassigns, hdefines⟩ := hlaws ⟨4⟩ (by decide) "x" (.integer 5)
  have hassign : branchingStore.assign? ⟨4⟩ "x" (.integer 5) =
      some (branchingStore.define ⟨0⟩ "x" (.integer 5)) :=
    congrArg (Option.map _) ((hnested.holder?_eq_some_iff (by decide)).mpr hinner)
  refine ⟨hframed, ⟨_, hassign, hassigns.reached _ hassign ⟨2⟩ ⟨⟨0⟩, houter, hinner⟩,
    hassigns.spared _ hassign ⟨3⟩ "x" (by decide) ?_⟩, hdefines.spared ⟨2⟩ "x" (by decide) ?_⟩
  · rintro ⟨-, q, hq, hq'⟩
    obtain rfl := hnested.nearest_unique (by decide) hshadowed hq
    exact absurd (hnested.nearest_unique (by decide) hinner hq') (by decide)
  · rintro ⟨-, refs, hrefs, hfirst⟩
    obtain rfl := hright.unique hrefs
    obtain ⟨before, after, hsplit, -⟩ := hfirst
    have hmem : (⟨4⟩ : FrameRef) ∈ [⟨2⟩, ⟨0⟩] := hsplit ▸ List.mem_append_right before List.mem_cons_self
    exact absurd hmem (by decide)

end Parley.Store
