import Parley.Proofs.Store.Blending

/-! Stores without a global binding. Other names are found, bound and assigned as they are with it. All that
reads no bindings treats the store as one blended outside of the region that leaves out the global frame,
so what is known of blending carries over to the binding that is gone. -/

namespace Parley

/-! Maps -/

namespace OrderedMap

variable {α β : Type} [DecidableEq α]

/-- The map without a key. -/
def erase (m : OrderedMap α β) (k : α) : OrderedMap α β := ⟨m.entries.filter fun e => e.1 ≠ k⟩

theorem get?_erase_of_ne (m : OrderedMap α β) {k k' : α} (hk : k' ≠ k) :
    (m.erase k).get? k' = m.get? k' := by
  obtain ⟨entries⟩ := m
  simp only [get?, erase]
  induction entries with
  | nil => rfl
  | cons e rest ih =>
      obtain ⟨a, b⟩ := e
      by_cases ha : a = k
      · have hne : a ≠ k' := fun heq => hk (heq ▸ ha)
        rw [List.filter_cons_of_neg (by simpa using ha), ih, find, if_neg hne]
      · rw [List.filter_cons_of_pos (by simpa using ha), find, find, ih]

theorem contains_erase_of_ne (m : OrderedMap α β) {k k' : α} (hk : k' ≠ k) :
    (m.erase k).contains k' = m.contains k' := by
  rw [contains, contains, get?_erase_of_ne m hk]

theorem put_erase_of_ne (m : OrderedMap α β) {k k' : α} (hk : k' ≠ k) (v : β) :
    (m.erase k).put k' v = (m.put k' v).erase k := by
  obtain ⟨entries⟩ := m
  simp only [put, erase, OrderedMap.mk.injEq]
  induction entries with
  | nil => simp [set, hk]
  | cons e rest ih =>
      obtain ⟨a, b⟩ := e
      by_cases ha : a = k
      · have hne : a ≠ k' := fun heq => hk (heq ▸ ha)
        rw [set, if_neg hne, List.filter_cons_of_neg (by simpa using ha),
          List.filter_cons_of_neg (by simpa using ha), ih]
      · rw [List.filter_cons_of_pos (by simpa using ha), set, set, ih]
        split_ifs <;> rw [List.filter_cons_of_pos (by simpa using ha)]

theorem erase_put_self (m : OrderedMap α β) (k : α) (v : β) : (m.put k v).erase k = m.erase k := by
  obtain ⟨entries⟩ := m
  simp only [put, erase, OrderedMap.mk.injEq]
  induction entries with
  | nil => simp [set]
  | cons e rest ih =>
      obtain ⟨a, b⟩ := e
      rw [set]
      split_ifs with ha
      · subst ha
        simp
      · rw [List.filter_cons_of_pos (by simpa using ha), List.filter_cons_of_pos (by simpa using ha), ih]

end OrderedMap

namespace Store

/-- A store without the global binding of a name. -/
def without (s : Store) (name : String) : Store :=
  { s with frames := s.frames.modify globals.index fun f => { f with bindings := f.bindings.erase name } }

/-- The global binding of a name, if there is one. -/
def global? (s : Store) (name : String) : Option Value := (s.frame globals).bindings.get? name

@[simp] theorem without_initial (traced : Bool) (name : String) :
    (initial traced).without name = initial traced := rfl

variable (s : Store) {name other : String}

@[simp] theorem size_frames_without : (s.without name).frames.size = s.frames.size := Array.size_modify

theorem getElem?_frames_without (i : Nat) :
    (s.without name).frames[i]? = s.frames[i]?.map fun f =>
      if globals.index = i then { f with bindings := f.bindings.erase name } else f := by
  rw [without, Array.getElem?_modify]
  split_ifs
  · rfl
  · exact Option.map_id'.symm

theorem parent_without (r : FrameRef) : ((s.without name).frame r).parent = (s.frame r).parent := by
  rw [frame, frame, Array.getD_eq_getD_getElem?, Array.getD_eq_getD_getElem?, getElem?_frames_without]
  cases s.frames[r.index]? with
  | none => rfl
  | some f =>
      dsimp only [Option.map_some, Option.getD_some]
      split_ifs <;> rfl

theorem frame_without_of_ne {r : FrameRef} (hr : r ≠ globals) :
    (s.without name).frame r = s.frame r := by
  have hindex : globals.index ≠ r.index := fun heq => hr (congrArg FrameRef.mk heq.symm)
  rw [frame, frame, Array.getD_eq_getD_getElem?, Array.getD_eq_getD_getElem?, getElem?_frames_without]
  simp only [if_neg hindex, Option.map_id']

theorem bindings_globals_without :
    ((s.without name).frame globals).bindings = (s.frame globals).bindings.erase name := by
  rw [frame, frame, Array.getD_eq_getD_getElem?, Array.getD_eq_getD_getElem?, getElem?_frames_without]
  cases s.frames[globals.index]? <;> rfl

/-! Bindings of other names -/

theorem get?_bindings_without (r : FrameRef) (hname : other ≠ name) :
    ((s.without name).frame r).bindings.get? other = (s.frame r).bindings.get? other := by
  by_cases hr : r = globals
  · rw [hr, bindings_globals_without, OrderedMap.get?_erase_of_ne _ hname]
  · rw [frame_without_of_ne s hr]

theorem holderFrom_without (hname : other ≠ name) (i : Nat) :
    holderFrom (s.without name).frames other i = holderFrom s.frames other i := by
  induction i using Nat.strongRecOn with
  | ind i ih =>
      rw [holderFrom, holderFrom, getElem?_frames_without]
      cases s.frames[i]? with
      | none => rfl
      | some f =>
          have hcontains : (if globals.index = i then
              { f with bindings := f.bindings.erase name } else f).bindings.contains other =
              f.bindings.contains other := by
            split_ifs
            · exact f.bindings.contains_erase_of_ne hname
            · rfl
          have hparent : (if globals.index = i then
              { f with bindings := f.bindings.erase name } else f).parent = f.parent := by
            split_ifs <;> rfl
          dsimp only [Option.map_some]
          rw [hcontains, hparent]
          split_ifs
          · rfl
          · cases f.parent with
            | none => rfl
            | some p =>
                dsimp only
                split_ifs with hlt
                · exact ih p.index hlt
                · rfl

theorem holder?_without (hname : other ≠ name) (env : FrameRef) :
    (s.without name).holder? env other = s.holder? env other :=
  congrArg (Option.map _) (s.holderFrom_without hname env.index)

theorem lookup?_without (hname : other ≠ name) (env : FrameRef) :
    (s.without name).lookup? env other = s.lookup? env other := by
  rw [lookup?, lookup?, holder?_without s hname]
  cases s.holder? env other with
  | none => rfl
  | some r => exact s.get?_bindings_without r hname

theorem define_without (hname : other ≠ name) (env : FrameRef) (v : Value) :
    (s.without name).define env other v = (s.define env other v).without name := by
  simp only [define, without, Store.mk.injEq, and_true]
  refine Array.ext_getElem? fun i => ?_
  simp only [Array.getElem?_modify]
  split_ifs
  · cases s.frames[i]? with
    | none => rfl
    | some f => exact congrArg (fun b => some (Frame.mk f.parent b)) (f.bindings.put_erase_of_ne hname v)
  · rfl
  · rfl
  · rfl

/-- A name that is bound anew is gone as before. -/
theorem without_define_globals (name : String) (v : Value) :
    (s.define globals name v).without name = s.without name := by
  simp only [define, without, Store.mk.injEq, and_true]
  refine Array.ext_getElem? fun i => ?_
  simp only [Array.getElem?_modify]
  split_ifs
  · cases s.frames[i]? with
    | none => rfl
    | some f => exact congrArg (fun b => some (Frame.mk f.parent b)) (f.bindings.erase_put_self name v)
  · rfl

theorem global?_define_globals (h : 0 < s.frames.size) (name : String) (v : Value) :
    (s.define globals name v).global? name = some v := by
  have hget : s.frames[globals.index]? = some s.frames[0] := Array.getElem?_eq_getElem h
  rw [global?, frame, define, Array.getD_eq_getD_getElem?, Array.getElem?_modify, if_pos rfl, hget]
  exact OrderedMap.get?_put_self _ _ _

theorem global?_define_of_ne (hname : other ≠ name) (env : FrameRef) (v : Value) :
    (s.define env other v).global? name = s.global? name := by
  rw [global?, global?, frame, frame, define, Array.getD_eq_getD_getElem?, Array.getD_eq_getD_getElem?,
    Array.getElem?_modify]
  split_ifs
  · cases s.frames[globals.index]? with
    | none => rfl
    | some f => exact f.bindings.get?_put_of_ne hname.symm v
  · rfl

/-! The region of all but the global frame -/

/-- Everything but the global frame. -/
def offGlobals (p : Cell) : Prop := p ≠ .frame globals

theorem offGlobals_value (v : Value) : offGlobals (.value v) := nofun

variable {s} {t : Store}

theorem closes_offGlobals (h : 0 < s.frames.size) : s.Closes offGlobals where
  fresh := by
    rintro p hp rfl
    exact hp h
  lists _ _ v _ := offGlobals_value v
  objects _ _ e _ := offGlobals_value e.2

theorem agrees_without (s : Store) (name : String) : Agrees offGlobals s (s.without name) :=
  { Agrees.refl s with
    frames := s.size_frames_without
    parents := s.parent_without
    bindings := fun r hr => by
      rw [frame_without_of_ne s fun heq => hr (congrArg Cell.frame heq)] }

theorem blend_without (s : Store) (name : String) :
    s.blend offGlobals (s.without name) = s.without name :=
  (agrees_without s name).blend_eq fun _ _ hp => hp

/-- Of the other store only the global bindings count. -/
theorem blend_offGlobals_congr {a b : Store} (ha : 0 < a.frames.size) (hb : 0 < b.frames.size)
    (h : (a.frame globals).bindings = (b.frame globals).bindings) :
    s.blend offGlobals a = s.blend offGlobals b := by
  have hframes : (s.blend offGlobals a).frames = (s.blend offGlobals b).frames := by
    refine Array.ext_getElem? fun i => ?_
    by_cases hi : offGlobals (.frame ⟨i⟩)
    · rw [blend, blend, getElem?_blendArray (P := fun i => offGlobals (.frame ⟨i⟩)) hi,
        getElem?_blendArray (P := fun i => offGlobals (.frame ⟨i⟩)) hi]
    · obtain rfl : i = 0 := congrArg FrameRef.index (Cell.frame.inj (not_not.mp hi))
      rw [blend, blend, getElem?_blendArray_of_not (P := fun i => offGlobals (.frame ⟨i⟩)) hi,
        getElem?_blendArray_of_not (P := fun i => offGlobals (.frame ⟨i⟩)) hi]
      rw [globals, frame_of_lt ha, frame_of_lt hb] at h
      rw [Array.getElem?_eq_getElem ha, Array.getElem?_eq_getElem hb]
      simp only [Option.map_some, Option.getD_some, h]
  have hlists : (s.blend offGlobals a).lists = (s.blend offGlobals b).lists := by
    refine Array.ext_getElem? fun i => ?_
    have hi := offGlobals_value (.list ⟨i⟩)
    rw [blend, blend, getElem?_blendArray (P := fun i => offGlobals (.value (.list ⟨i⟩))) hi,
      getElem?_blendArray (P := fun i => offGlobals (.value (.list ⟨i⟩))) hi]
  have hobjects : (s.blend offGlobals a).objects = (s.blend offGlobals b).objects := by
    refine Array.ext_getElem? fun i => ?_
    have hi := offGlobals_value (.object ⟨i⟩)
    rw [blend, blend, getElem?_blendArray (P := fun i => offGlobals (.value (.object ⟨i⟩))) hi,
      getElem?_blendArray (P := fun i => offGlobals (.value (.object ⟨i⟩))) hi]
  rw [blend, blend, Store.mk.injEq]
  exact ⟨hframes, hlists, hobjects, rfl, rfl, rfl, rfl, rfl, rfl⟩

/-- A store that came from another one without touching the global bindings. -/
theorem bindings_globals_of_blend (hs : 0 < s.frames.size) (ht : 0 < t.frames.size)
    (h : t = t.blend offGlobals s) : (t.frame globals).bindings = (s.frame globals).bindings :=
  calc (t.frame globals).bindings
    _ = ((t.blend offGlobals s).frame globals).bindings := by rw [← h]
    _ = (s.frame globals).bindings := bindings_blend_of_not (not_not.mpr rfl) ht hs

theorem without_eq_blend (hs : 0 < s.frames.size) (ht : 0 < t.frames.size)
    (h : t = t.blend offGlobals s) (name : String) :
    t.without name = t.blend offGlobals (s.without name) := by
  refine (blend_without t name).symm.trans (blend_offGlobals_congr ?_ ?_ ?_)
  · rwa [size_frames_without]
  · rwa [size_frames_without]
  · rw [bindings_globals_without, bindings_globals_without, bindings_globals_of_blend hs ht h]

end Store

end Parley
