import Parley.Proofs.Store.Reachability
import Parley.Store.Equality

/-! Blended stores. The contents of a store's frames, lists and instances are taken from the store itself
inside a region and from another store outside of it. Whatever is read inside a confined region is the
same in the blended store, and what is written inside it can be written before or after the blending.
Where no bindings are read, it is enough that lists and instances do not lead out of the region. -/

namespace Parley

/-! Traversals -/

section Traversals

variable {α β : Type} {m : Type → Type} [Monad m] {l : List α}

theorem mapM_congr [LawfulMonad m] {f g : α → m β} (h : ∀ x ∈ l, f x = g x) : l.mapM f = l.mapM g := by
  induction l with
  | nil => rfl
  | cons x l ih =>
      obtain ⟨hx, hl⟩ := List.forall_mem_cons.mp h
      rw [List.mapM_cons, List.mapM_cons, hx, ih hl]

theorem allM_congr {f g : α → m Bool} (h : ∀ x ∈ l, f x = g x) : l.allM f = l.allM g := by
  induction l with
  | nil => rfl
  | cons x l ih =>
      obtain ⟨hx, hl⟩ := List.forall_mem_cons.mp h
      rw [List.allM, List.allM, hx, ih hl]

theorem anyM_congr {f g : α → m Bool} (h : ∀ x ∈ l, f x = g x) : l.anyM f = l.anyM g := by
  induction l with
  | nil => rfl
  | cons x l ih =>
      obtain ⟨hx, hl⟩ := List.forall_mem_cons.mp h
      rw [List.anyM, List.anyM, hx, ih hl]

end Traversals

/-! Arrays -/

open Classical in
/-- The entries of an array, those at some places as they are and the others mixed with the entries of
another array. -/
noncomputable def blendArray {α : Type} (P : Nat → Prop) (mix : α → α → α) (a b : Array α) :
    Array α :=
  a.mapIdx fun i x => if P i then x else (b[i]?.map (mix x)).getD x

section Arrays

variable {α : Type} {P : Nat → Prop} {mix : α → α → α} {a b : Array α} {i : Nat}

@[simp] theorem size_blendArray : (blendArray P mix a b).size = a.size := Array.size_mapIdx

theorem getElem?_blendArray (hi : P i) : (blendArray P mix a b)[i]? = a[i]? := by
  rw [blendArray, Array.getElem?_mapIdx]
  simp only [if_pos hi]
  exact Option.map_id'

theorem getElem?_blendArray_of_not (hi : ¬P i) :
    (blendArray P mix a b)[i]? = a[i]?.map fun x => (b[i]?.map (mix x)).getD x := by
  rw [blendArray, Array.getElem?_mapIdx]
  simp only [if_neg hi]

theorem getD_blendArray (hi : P i) (d : α) :
    (blendArray P mix a b).getD i d = a.getD i d := by
  rw [Array.getD_eq_getD_getElem?, getElem?_blendArray hi, Array.getD_eq_getD_getElem?]

theorem getD_blendArray_of_not (hi : ¬P i) (ha : i < a.size) (hb : i < b.size) (d : α) :
    (blendArray P mix a b).getD i d = mix (a.getD i d) (b.getD i d) := by
  simp only [Array.getD_eq_getD_getElem?, getElem?_blendArray_of_not hi,
    Array.getElem?_eq_getElem ha, Array.getElem?_eq_getElem hb, Option.map_some, Option.getD_some]

/-- An array that differs from another at some places only, as far as mixing changes entries, is that
array blended with itself. -/
theorem blendArray_eq (hsize : b.size = a.size)
    (hin : ∀ i (ha : i < a.size) (hb : i < b.size), P i → a[i] = b[i])
    (hmix : ∀ i (ha : i < a.size) (hb : i < b.size), mix a[i] b[i] = b[i]) :
    blendArray P mix a b = b := by
  refine Array.ext (size_blendArray.trans hsize.symm) fun i hi hb => ?_
  have ha : i < a.size := hsize ▸ hb
  refine Option.some.inj ?_
  rw [← Array.getElem?_eq_getElem hi]
  by_cases hP : P i
  · rw [getElem?_blendArray hP, Array.getElem?_eq_getElem ha, hin i ha hb hP]
  · rw [getElem?_blendArray_of_not hP, Array.getElem?_eq_getElem ha, Array.getElem?_eq_getElem hb,
      Option.map_some, Option.map_some, Option.getD_some, hmix i ha hb]

/-- What mixing leaves as it is, blending leaves as it is. -/
theorem proj_blendArray {β : Type} {g : α → β} (hg : ∀ x y, g (mix x y) = g x) (i : Nat) (d : α) :
    g ((blendArray P mix a b).getD i d) = g (a.getD i d) := by
  by_cases hi : P i
  · rw [getD_blendArray hi]
  · rw [Array.getD_eq_getD_getElem?, getElem?_blendArray_of_not hi, Array.getD_eq_getD_getElem?]
    cases a[i]? with
    | none => rfl
    | some x =>
        cases b[i]? with
        | none => rfl
        | some y => exact hg x y

theorem blendArray_push (h : P a.size) (x : α) :
    blendArray P mix (a.push x) b = (blendArray P mix a b).push x := by
  rw [blendArray, Array.mapIdx_push, if_pos h]
  rfl

theorem blendArray_modify (h : P i) (f : α → α) :
    blendArray P mix (a.modify i f) b = (blendArray P mix a b).modify i f := by
  refine Array.ext_getElem? fun j => ?_
  rw [Array.getElem?_modify]
  by_cases hj : P j
  · rw [getElem?_blendArray hj, getElem?_blendArray hj, Array.getElem?_modify]
  · have hij : i ≠ j := fun heq => hj (heq ▸ h)
    rw [if_neg hij, getElem?_blendArray_of_not hj, getElem?_blendArray_of_not hj,
      Array.getElem?_modify, if_neg hij]

end Arrays

namespace Store

/-- A store with the contents of another one outside of a region. -/
noncomputable def blend (s : Store) (inside : Cell → Prop) (outside : Store) : Store :=
  { s with
    frames := blendArray (fun i => inside (.frame ⟨i⟩)) (fun f g => { f with bindings := g.bindings })
      s.frames outside.frames
    lists := blendArray (fun i => inside (.value (.list ⟨i⟩))) (fun _ items => items)
      s.lists outside.lists
    objects := blendArray (fun i => inside (.value (.object ⟨i⟩))) (fun o p => { o with slots := p.slots })
      s.objects outside.objects }

section Reading

variable {inside : Cell → Prop} {outside s : Store}

@[simp] theorem block_blend (r : BlockRef) : (s.blend inside outside).block r = s.block r := rfl

@[simp] theorem classes_blend : (s.blend inside outside).classes = s.classes := rfl

@[simp] theorem cls_blend (r : ObjectRef) :
    ((s.blend inside outside).object r).cls = (s.object r).cls := by
  refine proj_blendArray (g := Object.cls) ?_ r.index default
  exact fun _ _ => rfl

@[simp] theorem className_blend (v : Value) :
    (s.blend inside outside).className v = s.className v := by
  cases v with
  | object r => exact congrArg ClassRef.name (cls_blend r)
  | _ => rfl

theorem frame_blend {r : FrameRef} (h : inside (.frame r)) :
    (s.blend inside outside).frame r = s.frame r :=
  getD_blendArray (P := fun i => inside (.frame ⟨i⟩)) h _

theorem list_blend {r : ListRef} (h : inside (.value (.list r))) :
    (s.blend inside outside).list r = s.list r :=
  getD_blendArray (P := fun i => inside (.value (.list ⟨i⟩))) h _

theorem object_blend {r : ObjectRef} (h : inside (.value (.object r))) :
    (s.blend inside outside).object r = s.object r :=
  getD_blendArray (P := fun i => inside (.value (.object ⟨i⟩))) h _

/-! Bindings -/

/-- The frames that are searched for a name lie in the region. -/
theorem holderFrom_blend (hs : s.Confines inside) (name : String) {i : Nat}
    (hi : inside (.frame ⟨i⟩)) :
    holderFrom (s.blend inside outside).frames name i = holderFrom s.frames name i ∧
      ∀ j, holderFrom s.frames name i = some j → inside (.frame ⟨j⟩) := by
  -- the search goes on in a parent only if that is older, so the induction is on the place
  induction i using Nat.strongRecOn with
  | ind i ih =>
      have hget : (s.blend inside outside).frames[i]? = s.frames[i]? :=
        getElem?_blendArray (P := fun i => inside (.frame ⟨i⟩)) hi
      have hwithin := hs.frames ⟨i⟩ hi
      rw [frame, Array.getD_eq_getD_getElem?] at hwithin
      rw [holderFrom, holderFrom, hget]
      cases hf : s.frames[i]? with
      | none => exact ⟨rfl, fun j hj => by cases hj⟩
      | some f =>
          rw [hf] at hwithin
          dsimp only
          split_ifs
          · refine ⟨rfl, fun j hj => ?_⟩
            cases hj
            exact hi
          · cases hp : f.parent with
            | none => exact ⟨rfl, fun j hj => by cases hj⟩
            | some p =>
                dsimp only
                split_ifs with hlt
                · exact ih p.index hlt (hwithin.parent p hp)
                · exact ⟨rfl, fun j hj => by cases hj⟩

theorem holder?_blend (hs : s.Confines inside) {env : FrameRef} (henv : inside (.frame env))
    (name : String) : (s.blend inside outside).holder? env name = s.holder? env name :=
  congrArg (Option.map _) (holderFrom_blend hs name henv).1

theorem Confines.holder? (hs : s.Confines inside) {env r : FrameRef} (henv : inside (.frame env))
    {name : String} (h : s.holder? env name = some r) : inside (.frame r) := by
  obtain ⟨j, hj, rfl⟩ := Option.map_eq_some_iff.mp h
  exact (@holderFrom_blend inside s s hs name _ henv).2 j hj

theorem lookup?_blend (hs : s.Confines inside) {env : FrameRef} (henv : inside (.frame env))
    (name : String) : (s.blend inside outside).lookup? env name = s.lookup? env name := by
  rw [lookup?, lookup?, holder?_blend hs henv]
  cases hr : s.holder? env name with
  | none => rfl
  | some r => exact congrArg (fun f : Frame => f.bindings.get? name) (frame_blend (hs.holder? henv hr))

theorem Confines.lookup? (hs : s.Confines inside) {env : FrameRef} (henv : inside (.frame env))
    {name : String} {v : Value} (h : s.lookup? env name = some v) : inside (.value v) := by
  rw [Store.lookup?] at h
  split at h
  · cases h
  · next r hr => exact (hs.frames r (hs.holder? henv hr)).bindings.get? h

/-! Texts and comparisons -/

theorem literalWithin_blend (hs : s.Closes inside) (fuel : Nat) (path : List ListRef) {v : Value}
    (hv : inside (.value v)) :
    (s.blend inside outside).literalWithin fuel path v = s.literalWithin fuel path v := by
  induction fuel generalizing path v with
  | zero =>
      unfold literalWithin
      cases v with
      | object r =>
          dsimp only
          rw [cls_blend]
      | _ => rfl
  | succ fuel ih =>
      unfold literalWithin
      cases v with
      | object r =>
          dsimp only
          rw [cls_blend]
      | list r =>
          have hitems : ∀ w ∈ (s.list r).toList, inside (.value w) :=
            fun w hw => hs.lists r hv w (Array.mem_toList_iff.mp hw)
          dsimp only
          rw [list_blend hv, mapM_congr fun w hw => ih (r :: path) (hitems w hw)]
      | _ => rfl

theorem literal_blend (hs : s.Closes inside) {v : Value} (hv : inside (.value v)) :
    (s.blend inside outside).literal v = s.literal v := by
  rw [literal, literal, literalWithin_blend hs _ _ hv, blend, size_blendArray]

theorem display_blend (hs : s.Closes inside) {v : Value} (hv : inside (.value v)) :
    (s.blend inside outside).display v = s.display v := by
  cases v with
  | string text => rfl
  | _ => exact literal_blend hs hv

theorem inspectWithin_blend (hs : s.Closes inside) (fuel : Nat) (path : List ListRef)
    (since : List ObjectRef) {v : Value} (hv : inside (.value v)) :
    (s.blend inside outside).inspectWithin fuel path since v = s.inspectWithin fuel path since v := by
  induction fuel generalizing path since v with
  | zero =>
      unfold inspectWithin
      cases v <;> rfl
  | succ fuel ih =>
      unfold inspectWithin
      cases v with
      | list r =>
          have hitems : ∀ w ∈ (s.list r).toList, inside (.value w) :=
            fun w hw => hs.lists r hv w (Array.mem_toList_iff.mp hw)
          dsimp only
          rw [list_blend hv, mapM_congr fun w hw => ih (r :: path) [] (hitems w hw)]
      | object r =>
          dsimp only
          rw [object_blend hv, mapM_congr fun e he => by rw [ih path (r :: since) (hs.objects r hv e he)]]
      | _ => rfl

theorem inspectAll_blend (hs : s.Closes inside) {vs : List Value}
    (hvs : ∀ v ∈ vs, inside (.value v)) :
    (s.blend inside outside).inspectAll vs = s.inspectAll vs := by
  have hinspect : ∀ v ∈ vs, (s.blend inside outside).inspect v = s.inspect v := by
    intro v hv
    rw [inspect, inspect, inspectWithin_blend hs _ _ _ (hvs v hv), blend, size_blendArray,
      size_blendArray]
  rw [inspectAll, inspectAll, mapM_congr hinspect]

theorem equalWithin_blend (hs : s.Closes inside) (fuel : Nat) (path : List (ListRef × ListRef))
    {v w : Value} (hv : inside (.value v)) (hw : inside (.value w)) :
    (s.blend inside outside).equalWithin fuel path v w = s.equalWithin fuel path v w := by
  induction fuel generalizing path v w with
  | zero => cases v <;> cases w <;> rfl
  | succ fuel ih =>
      -- contents are looked at only where two lists are compared
      by_cases hlists : ∃ a b, v = .list a ∧ w = .list b
      · obtain ⟨a, b, rfl, rfl⟩ := hlists
        have hitems : ∀ p ∈ (s.list a).toList.zip (s.list b).toList,
            inside (.value p.1) ∧ inside (.value p.2) := by
          rintro ⟨x, y⟩ hp
          obtain ⟨hx, hy⟩ := List.of_mem_zip hp
          exact ⟨hs.lists a hv x (Array.mem_toList_iff.mp hx),
            hs.lists b hw y (Array.mem_toList_iff.mp hy)⟩
        rw [equalWithin, equalWithin, list_blend hv, list_blend hw,
          allM_congr fun p hp => ih ((a, b) :: path) (hitems p hp).1 (hitems p hp).2]
      · cases v <;> cases w <;> first | rfl | exact absurd ⟨_, _, rfl, rfl⟩ hlists

theorem equal?_blend (hs : s.Closes inside) {v w : Value} (hv : inside (.value v))
    (hw : inside (.value w)) : (s.blend inside outside).equal? v w = s.equal? v w := by
  rw [equal?, equal?, equalWithin_blend hs _ _ hv hw, blend, size_blendArray]

theorem includes?_blend (hs : s.Closes inside) {items : List Value} {v : Value}
    (hitems : ∀ w ∈ items, inside (.value w)) (hv : inside (.value v)) :
    (s.blend inside outside).includes? items v = s.includes? items v :=
  anyM_congr fun w hw => equal?_blend hs (hitems w hw) hv

end Reading

section Writing

variable {inside : Cell → Prop} {outside s : Store}

theorem Closes.nextFrame (hs : s.Closes inside) : inside (.frame ⟨s.frames.size⟩) :=
  hs.fresh _ (Nat.lt_irrefl _)

theorem Closes.nextList (hs : s.Closes inside) : inside (.value (.list ⟨s.lists.size⟩)) :=
  hs.fresh _ fun hin => Nat.lt_irrefl _ hin.2

theorem Closes.nextObject (hs : s.Closes inside) : inside (.value (.object ⟨s.objects.size⟩)) :=
  hs.fresh _ fun hin => Nat.lt_irrefl _ hin.2

theorem newFrame_blend (hs : s.Closes inside) (parent : Option FrameRef)
    (bindings : List (String × Value)) :
    (s.blend inside outside).newFrame parent bindings =
      (⟨s.frames.size⟩, (s.newFrame parent bindings).2.blend inside outside) := by
  simp only [newFrame, blend, size_blendArray]
  rw [blendArray_push hs.nextFrame]

theorem newList_blend (hs : s.Closes inside) (items : Array Value) :
    (s.blend inside outside).newList items =
      (.list ⟨s.lists.size⟩, (s.newList items).2.blend inside outside) := by
  simp only [newList, blend, size_blendArray]
  rw [blendArray_push hs.nextList]

theorem newObject_blend (hs : s.Closes inside) (o : Object) :
    (s.blend inside outside).newObject o =
      (.object ⟨s.objects.size⟩, (s.newObject o).2.blend inside outside) := by
  simp only [newObject, blend, size_blendArray]
  rw [blendArray_push hs.nextObject]

theorem setList_blend {r : ListRef} (h : inside (.value (.list r))) (i : Nat) (v : Value) :
    (s.blend inside outside).setList r i v = (s.setList r i v).blend inside outside := by
  simp only [setList, blend]
  rw [blendArray_modify h]

theorem pushList_blend {r : ListRef} (h : inside (.value (.list r))) (v : Value) :
    (s.blend inside outside).pushList r v = (s.pushList r v).blend inside outside := by
  simp only [pushList, blend]
  rw [blendArray_modify h]

theorem setSlot_blend {r : ObjectRef} (h : inside (.value (.object r))) (name : String) (v : Value) :
    (s.blend inside outside).setSlot r name v = (s.setSlot r name v).blend inside outside := by
  simp only [setSlot, blend]
  rw [blendArray_modify h]

theorem define_blend {env : FrameRef} (h : inside (.frame env)) (name : String) (v : Value) :
    (s.blend inside outside).define env name v = (s.define env name v).blend inside outside := by
  simp only [define, blend]
  rw [blendArray_modify h]

end Writing

/-! Agreement -/

/-- Two stores have the same things in existence, with the same contents where a property holds. -/
structure Agrees (P : Cell → Prop) (s s' : Store) : Prop where
  frames : s'.frames.size = s.frames.size
  parents : ∀ r, (s'.frame r).parent = (s.frame r).parent
  bindings : ∀ r, P (.frame r) → (s'.frame r).bindings = (s.frame r).bindings
  lists : s'.lists.size = s.lists.size
  items : ∀ r, P (.value (.list r)) → s'.list r = s.list r
  objects : s'.objects.size = s.objects.size
  kinds : ∀ r, (s'.object r).cls = (s.object r).cls
  slots : ∀ r, P (.value (.object r)) → (s'.object r).slots = (s.object r).slots
  blocks : s'.blocks = s.blocks
  activations : s'.activations = s.activations
  classes : s'.classes = s.classes
  detached : s'.detached = s.detached
  output : s'.output = s.output
  trace : s'.trace = s.trace

section Agreement

variable {P inside : Cell → Prop} {s s' outside : Store}

theorem Agrees.mono {Q : Cell → Prop} (h : Agrees P s s') (himp : ∀ p, Q p → P p) : Agrees Q s s' :=
  { h with
    bindings := fun r hr => h.bindings r (himp _ hr)
    items := fun r hr => h.items r (himp _ hr)
    slots := fun r hr => h.slots r (himp _ hr) }

theorem Agrees.refl (s : Store) : Agrees P s s :=
  ⟨rfl, fun _ => rfl, fun _ _ => rfl, rfl, fun _ _ => rfl, rfl, fun _ => rfl, fun _ _ => rfl, rfl, rfl,
    rfl, rfl, rfl, rfl⟩

/-- A blended store agrees with the store inside the region. -/
theorem agrees_blend : Agrees inside s (s.blend inside outside) where
  frames := size_blendArray
  parents r := by
    refine proj_blendArray (g := Frame.parent) ?_ r.index default
    exact fun _ _ => rfl
  bindings r hr := by rw [frame_blend hr]
  lists := size_blendArray
  items r hr := list_blend hr
  objects := size_blendArray
  kinds r := cls_blend r
  slots r hr := by rw [object_blend hr]
  blocks := rfl
  activations := rfl
  classes := rfl
  detached := rfl
  output := rfl
  trace := rfl

theorem frame_of_lt {i : Nat} (hi : i < s.frames.size) : s.frame ⟨i⟩ = s.frames[i] := by
  simp [frame, hi]

theorem list_of_lt {i : Nat} (hi : i < s.lists.size) : s.list ⟨i⟩ = s.lists[i] := by
  simp [list, hi]

theorem object_of_lt {i : Nat} (hi : i < s.objects.size) : s.object ⟨i⟩ = s.objects[i] := by
  simp [object, hi]

/-- A store that agrees with another inside a region is the other one with its own contents outside. -/
theorem Agrees.blend_eq (h : Agrees P s s') (hinside : ∀ p : Cell, p.IsIn s → inside p → P p) :
    s.blend inside s' = s' := by
  have hframes : (s.blend inside s').frames = s'.frames := by
    have hparent : ∀ i (ha : i < s.frames.size) (hb : i < s'.frames.size),
        s.frames[i].parent = s'.frames[i].parent := by
      intro i ha hb
      rw [← frame_of_lt ha, ← frame_of_lt hb, h.parents]
    refine blendArray_eq h.frames ?_ fun i ha hb => congrArg₂ Frame.mk (hparent i ha hb) rfl
    intro i ha hb hi
    have hbindings : s.frames[i].bindings = s'.frames[i].bindings := by
      rw [← frame_of_lt ha, ← frame_of_lt hb, h.bindings _ (hinside _ ha hi)]
    exact congrArg₂ Frame.mk (hparent i ha hb) hbindings
  have hlists : (s.blend inside s').lists = s'.lists := by
    refine blendArray_eq h.lists ?_ fun i ha hb => rfl
    intro i ha hb hi
    rw [← list_of_lt ha, ← list_of_lt hb, h.items _ (hinside _ ⟨rfl, ha⟩ hi)]
  have hobjects : (s.blend inside s').objects = s'.objects := by
    have hkind : ∀ i (ha : i < s.objects.size) (hb : i < s'.objects.size),
        s.objects[i].cls = s'.objects[i].cls := by
      intro i ha hb
      rw [← object_of_lt ha, ← object_of_lt hb, h.kinds]
    refine blendArray_eq h.objects ?_ fun i ha hb => congrArg₂ Object.mk (hkind i ha hb) rfl
    intro i ha hb hi
    have hslots : s.objects[i].slots = s'.objects[i].slots := by
      rw [← object_of_lt ha, ← object_of_lt hb, h.slots _ (hinside _ ⟨rfl, ha⟩ hi)]
    exact congrArg₂ Object.mk (hkind i ha hb) hslots
  calc s.blend inside s'
    _ = { s with
          frames := (s.blend inside s').frames
          lists := (s.blend inside s').lists
          objects := (s.blend inside s').objects } := rfl
    _ = s' := by
        rw [hframes, hlists, hobjects, ← h.blocks, ← h.activations, ← h.classes, ← h.detached,
          ← h.output, ← h.trace]

theorem blend_self (s : Store) (inside : Cell → Prop) : s.blend inside s = s :=
  (Agrees.refl s).blend_eq fun _ _ hp => hp

/-! What lies outside -/

theorem bindings_blend_of_not {r : FrameRef} (h : ¬inside (.frame r)) (hs : r.index < s.frames.size)
    (hout : r.index < outside.frames.size) :
    ((s.blend inside outside).frame r).bindings = (outside.frame r).bindings := by
  rw [frame, blend, getD_blendArray_of_not h hs hout]
  rfl

theorem list_blend_of_not {r : ListRef} (h : ¬inside (.value (.list r))) (hs : r.index < s.lists.size)
    (hout : r.index < outside.lists.size) : (s.blend inside outside).list r = outside.list r :=
  getD_blendArray_of_not (P := fun i => inside (.value (.list ⟨i⟩))) h hs hout _

theorem slots_blend_of_not {r : ObjectRef} (h : ¬inside (.value (.object r)))
    (hs : r.index < s.objects.size) (hout : r.index < outside.objects.size) :
    ((s.blend inside outside).object r).slots = (outside.object r).slots := by
  rw [object, blend, getD_blendArray_of_not h hs hout]
  rfl

end Agreement

end Store

end Parley
