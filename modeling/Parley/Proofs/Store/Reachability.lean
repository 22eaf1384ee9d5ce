import Parley.Proofs.Store.Retention
import Parley.Proofs.Store.References

/-! Reachability. What code can get at is found from its frame, its receiver and its arguments by following
frames outward, bindings, items, slots, and what blocks have captured. A region is confined in a store if
nothing leads out of it and it holds the global frame and all that does not exist yet. What is reachable,
together with what will be made, is such a region, and it stays one as long as only values of the region
are put anywhere. -/

namespace Parley

/-- Something that can be reached. -/
inductive Cell where
  | frame (ref : FrameRef)
  | value (value : Value)
  | activation (ref : ActivationRef)

/-- A cell that refers to something that exists in a store. -/
def Cell.IsIn (s : Store) : Cell → Prop
  | .frame r => r.index < s.frames.size
  | .value v => v.isFree = false ∧ v.Stored s
  | .activation r => s.Created r

/-! Arrays -/

section Arrays

variable {α : Type} {P : α → Prop} {a : Array α} {d : α}

/-- What holds of an entry and of a new one holds after the new one is added. -/
theorem getD_push_of {x : α} {i : Nat} (hold : P (a.getD i d)) (hnew : P x) :
    P ((a.push x).getD i d) := by
  rw [Array.getD_eq_getD_getElem?] at hold ⊢
  rw [Array.getElem?_push]
  split_ifs
  · exact hnew
  · exact hold

/-- What holds of an entry before and after a change holds in the changed array. -/
theorem getD_modify_of {i j : Nat} {f : α → α} (hold : P (a.getD j d)) (hnew : P (f (a.getD j d))) :
    P ((a.modify i f).getD j d) := by
  rw [Array.getD_eq_getD_getElem?] at hold hnew ⊢
  rw [Array.getElem?_modify]
  split_ifs
  · cases hj : a[j]? with
    | none => exact (hj ▸ hold : P (none.getD d))
    | some x => exact (hj ▸ hnew : P (f ((some x).getD d)))
  · exact hold

theorem KeptIn.lt_size {R : α → α → Prop} {a b : Array α} (h : KeptIn R a b) {i : Nat}
    (hi : i < a.size) : i < b.size := by
  obtain ⟨y, hy, -⟩ := h i _ (Array.getElem?_eq_getElem hi)
  exact (Array.getElem?_eq_some_iff.mp hy).1

end Arrays

theorem Cell.IsIn.mono {s s' : Store} {p : Cell} (h : p.IsIn s) (hretains : s.Retains s') :
    p.IsIn s' := by
  cases p with
  | frame r => exact hretains.frames.lt_size h
  | activation r => exact hretains.activations.lt_size h
  | value v =>
      refine ⟨h.1, ?_⟩
      cases v with
      | list r => exact hretains.lists.lt_size h.2
      | block r => exact hretains.blocks.lt_size h.2
      | object r => exact hretains.objects.lt_size h.2
      | _ => trivial

namespace Store

/-- One cell leads to another. -/
inductive Link (s : Store) : Cell → Cell → Prop
  | parent {r p : FrameRef} (h : (s.frame r).parent = some p) : Link s (.frame r) (.frame p)
  | binding {r : FrameRef} {e : String × Value} (h : e ∈ (s.frame r).bindings.entries) :
      Link s (.frame r) (.value e.2)
  | item {r : ListRef} {v : Value} (h : v ∈ s.list r) : Link s (.value (.list r)) (.value v)
  | slot {r : ObjectRef} {e : String × Value} (h : e ∈ (s.object r).slots.entries) :
      Link s (.value (.object r)) (.value e.2)
  | env (r : BlockRef) : Link s (.value (.block r)) (.frame (s.block r).env)
  | receiver (r : BlockRef) : Link s (.value (.block r)) (.value (s.block r).receiver)
  | home {r : BlockRef} {a : ActivationRef} (h : (s.block r).home = some a) :
      Link s (.value (.block r)) (.activation a)
  | activated (a : ActivationRef) : Link s (.activation a) (.value (s.activation a).receiver)

/-- A cell that some of the given ones lead to. -/
def Reachable (s : Store) (roots : List Cell) (p : Cell) : Prop :=
  ∃ q ∈ roots, Relation.ReflTransGen s.Link q p

/-- A frame is another one or lies around it. -/
def Encloses (s : Store) (outer inner : FrameRef) : Prop :=
  Relation.ReflTransGen (fun r p => (s.frame r).parent = some p) inner outer

section Reachable

variable {s : Store} {roots : List Cell} {p q : Cell}

theorem reachable_of_mem (h : p ∈ roots) : s.Reachable roots p := ⟨p, h, .refl⟩

theorem Reachable.link (h : s.Reachable roots p) (hlink : s.Link p q) : s.Reachable roots q := by
  obtain ⟨root, hroot, hpath⟩ := h
  exact ⟨root, hroot, hpath.tail hlink⟩

/-- A frame is reached outward from a frame that is given, or from one that a reachable block has
captured. -/
theorem Reachable.exists_encloses {r : FrameRef} (h : s.Reachable roots (.frame r)) :
    (∃ env, .frame env ∈ roots ∧ s.Encloses r env) ∨
      ∃ b, s.Reachable roots (.value (.block b)) ∧ s.Encloses r (s.block b).env := by
  obtain ⟨root, hroot, hpath⟩ := h
  generalize hp : Cell.frame r = p at hpath
  induction hpath generalizing r with
  | refl =>
      subst hp
      exact .inl ⟨r, hroot, .refl⟩
  | tail hpath hlink ih =>
      cases hlink with
      | parent hparent =>
          cases hp
          rcases ih rfl with ⟨env, henv, hencloses⟩ | ⟨b, hb, hencloses⟩
          · exact .inl ⟨env, henv, hencloses.tail hparent⟩
          · exact .inr ⟨b, hb, hencloses.tail hparent⟩
      | env b =>
          cases hp
          exact .inr ⟨b, ⟨root, hroot, hpath⟩, .refl⟩
      | _ => cases hp

end Reachable

end Store

/-! Regions -/

section Regions

variable (inside : Cell → Prop)

/-- A frame leads to cells of a region only. -/
structure Frame.Within (f : Frame) : Prop where
  parent : ∀ p ∈ f.parent, inside (.frame p)
  bindings : f.bindings.All fun v => inside (.value v)

/-- The items of a list are in a region. -/
def ItemsWithin (items : Array Value) : Prop := ∀ v ∈ items, inside (.value v)

/-- An instance holds values of a region only. -/
def Object.Within (o : Object) : Prop := o.slots.All fun v => inside (.value v)

/-- A block has captured cells of a region only. -/
structure Block.Within (b : Block) : Prop where
  env : inside (.frame b.env)
  receiver : inside (.value b.receiver)
  home : ∀ a ∈ b.home, inside (.activation a)

/-- The receiver of an activation is in a region. -/
def Activation.Within (a : Activation) : Prop := inside (.value a.receiver)

/-- Nothing leads out of a region, and it holds the global frame and all that does not exist. -/
structure Store.Confines (s : Store) : Prop where
  fresh : ∀ p : Cell, ¬p.IsIn s → inside p
  globals : inside (.frame Store.globals)
  frames : ∀ r, inside (.frame r) → (s.frame r).Within inside
  lists : ∀ r, inside (.value (.list r)) → ItemsWithin inside (s.list r)
  objects : ∀ r, inside (.value (.object r)) → (s.object r).Within inside
  blocks : ∀ r, inside (.value (.block r)) → (s.block r).Within inside
  activations : ∀ r, inside (.activation r) → (s.activation r).Within inside

/-- Lists and instances do not lead out of a region, and it holds all that does not exist. -/
structure Store.Closes (s : Store) : Prop where
  fresh : ∀ p : Cell, ¬p.IsIn s → inside p
  lists : ∀ r, inside (.value (.list r)) → ItemsWithin inside (s.list r)
  objects : ∀ r, inside (.value (.object r)) → (s.object r).Within inside

end Regions

namespace Store

/-- What is reachable, and what does not exist yet. -/
def region (s : Store) (roots : List Cell) (p : Cell) : Prop := s.Reachable roots p ∨ ¬p.IsIn s

section Confines

variable {inside : Cell → Prop} {s s' : Store}

theorem Confines.link (h : s.Confines inside) {p q : Cell} (hp : inside p) (hlink : s.Link p q) :
    inside q := by
  cases hlink with
  | parent hparent => exact (h.frames _ hp).parent _ hparent
  | binding he => exact (h.frames _ hp).bindings _ he
  | item hv => exact h.lists _ hp _ hv
  | slot he => exact h.objects _ hp _ he
  | env r => exact (h.blocks r hp).env
  | receiver r => exact (h.blocks r hp).receiver
  | home ha => exact (h.blocks _ hp).home _ ha
  | activated a => exact h.activations a hp

/-- What is reachable from a region lies in the region. -/
theorem Confines.reachable (h : s.Confines inside) {roots : List Cell}
    (hroots : ∀ q ∈ roots, inside q) {p : Cell} (hp : s.Reachable roots p) : inside p := by
  obtain ⟨root, hroot, hpath⟩ := hp
  induction hpath with
  | refl => exact hroots root hroot
  | tail _ hlink ih => exact h.link ih hlink

theorem Confines.closes (h : s.Confines inside) : s.Closes inside := ⟨h.fresh, h.lists, h.objects⟩

theorem Confines.free (h : s.Confines inside) {v : Value} (hv : v.isFree = true) :
    inside (.value v) := by
  refine h.fresh _ fun hin => ?_
  cases hv.symm.trans hin.1

theorem Confines.made (h : s.Confines inside) {v : Value} (hv : s.Makes s' v) : inside (.value v) := by
  refine h.fresh _ fun hin => ?_
  cases v with
  | list r => exact Nat.not_lt_of_le hv.1 hin.2
  | object r => exact Nat.not_lt_of_le hv.1 hin.2
  | _ => cases hv

/-- With what will be made, the reachable cells are a region that nothing leads out of: what does not
exist is empty, and a block that does not exist has captured the global frame. -/
theorem confines_region {roots : List Cell} (h : .frame globals ∈ roots) :
    s.Confines (s.region roots) := by
  have hglobals : s.region roots (.frame Store.globals) := .inl (reachable_of_mem h)
  have hnil : s.region roots (.value .nil) := .inr fun hin => Bool.noConfusion hin.1
  have hreached : ∀ {p}, s.region roots p → p.IsIn s → s.Reachable roots p :=
    fun hp hin => hp.resolve_right fun hout => hout hin
  -- in each table, what is there is reachable, and what is not there reads as the default
  refine ⟨fun p hp => .inr hp, hglobals, fun r hr => ?_, fun r hr => ?_, fun r hr => ?_, fun r hr => ?_,
    fun r hr => ?_⟩
  · by_cases hin : r.index < s.frames.size
    · have hr := hreached hr hin
      exact ⟨fun p hp => .inl (hr.link (.parent hp)), fun e he => .inl (hr.link (.binding he))⟩
    · rw [frame, Array.getD_eq_getD_getElem?, Array.getElem?_eq_none (Nat.le_of_not_lt hin)]
      exact ⟨(fun p hp => by cases hp), List.forall_mem_nil _⟩
  · by_cases hin : r.index < s.lists.size
    · have hr := hreached hr ⟨rfl, hin⟩
      exact fun v hv => .inl (hr.link (.item hv))
    · rw [list, Array.getD_eq_getD_getElem?, Array.getElem?_eq_none (Nat.le_of_not_lt hin)]
      exact fun v hv => absurd hv (Array.not_mem_empty v)
  · by_cases hin : r.index < s.objects.size
    · have hr := hreached hr ⟨rfl, hin⟩
      exact fun e he => .inl (hr.link (.slot he))
    · rw [object, Array.getD_eq_getD_getElem?, Array.getElem?_eq_none (Nat.le_of_not_lt hin)]
      exact List.forall_mem_nil _
  · by_cases hin : r.index < s.blocks.size
    · have hr := hreached hr ⟨rfl, hin⟩
      exact ⟨.inl (hr.link (.env r)), .inl (hr.link (.receiver r)), fun a ha => .inl (hr.link (.home ha))⟩
    · rw [block, Array.getD_eq_getD_getElem?, Array.getElem?_eq_none (Nat.le_of_not_lt hin)]
      exact ⟨hglobals, hnil, fun a ha => by cases ha⟩
  · by_cases hin : r.index < s.activations.size
    · exact .inl ((hreached hr hin).link (.activated r))
    · rw [activation, Array.getD_eq_getD_getElem?, Array.getElem?_eq_none (Nat.le_of_not_lt hin)]
      exact hnil

/-! Events -/

namespace Confines

variable (h : s.Confines inside)
include h

theorem fresh_of_retains (hretains : s.Retains s') : ∀ p : Cell, ¬p.IsIn s' → inside p :=
  fun p hp => h.fresh p fun hin => hp (hin.mono hretains)

/-- Values of the region are put somewhere. -/
theorem change (hc : s.Change (fun v => inside (.value v)) s') : s'.Confines inside := by
  have hfresh := h.fresh_of_retains hc.retains
  cases hc with
  | newList hitems =>
      exact { h with
        fresh := hfresh
        lists := fun r hr => getD_push_of (P := ItemsWithin inside) (h.lists r hr) hitems }
  | newObject hmade hvalues =>
      exact { h with
        fresh := hfresh
        objects := fun r hr => getD_push_of (P := Object.Within inside) (h.objects r hr)
          (all_of_instantiate hmade (h.free rfl) hvalues) }
  | @setList _ i v _ hv =>
      have hnew : ∀ items, ItemsWithin inside items → ItemsWithin inside (items.setIfInBounds i v) := by
        intro items hitems w hw
        rcases Array.mem_or_eq_of_mem_setIfInBounds hw with hw | rfl
        · exact hitems w hw
        · exact hv
      exact { h with
        fresh := hfresh
        lists := fun r hr =>
          getD_modify_of (P := ItemsWithin inside) (h.lists r hr) (hnew _ (h.lists r hr)) }
  | @pushList _ v _ hv =>
      have hnew : ∀ items, ItemsWithin inside items → ItemsWithin inside (items.push v) := by
        intro items hitems w hw
        rcases Array.mem_push.mp hw with hw | rfl
        · exact hitems w hw
        · exact hv
      exact { h with
        fresh := hfresh
        lists := fun r hr =>
          getD_modify_of (P := ItemsWithin inside) (h.lists r hr) (hnew _ (h.lists r hr)) }
  | setSlot _ _ hv =>
      exact { h with
        fresh := hfresh
        objects := fun r hr => getD_modify_of (P := Object.Within inside) (h.objects r hr)
          (OrderedMap.All.put (h.objects r hr) _ hv) }
  | define env name hv =>
      exact { h with
        fresh := hfresh
        frames := fun r hr => getD_modify_of (P := Frame.Within inside) (h.frames r hr)
          ⟨(h.frames r hr).parent, (h.frames r hr).bindings.put name hv⟩ }
  | _ => exact { h with fresh := hfresh }

theorem changes (hc : s.Changes (fun v => inside (.value v)) s') : s'.Confines inside := by
  induction hc with
  | refl => exact h
  | tail _ hchange ih => exact ih.change hchange

theorem newFrame {parent : FrameRef} (hparent : inside (.frame parent)) (params : List String)
    {args : List Value} (hargs : ∀ v ∈ args, inside (.value v)) :
    (s.newFrame (some parent) (params.zip args)).2.Confines inside := by
  have hbindings : (OrderedMap.ofList (params.zip args)).All fun v => inside (.value v) := by
    refine .ofList ?_
    rintro ⟨name, v⟩ he
    exact hargs v (List.of_mem_zip he).2
  have hnew : (Frame.mk (some parent) (.ofList (params.zip args))).Within inside :=
    ⟨by rintro p ⟨⟩; exact hparent, hbindings⟩
  exact { h with
    fresh := h.fresh_of_retains (Event.newFrame s parent (params.zip args)).retains
    frames := fun r hr => getD_push_of (P := Frame.Within inside) (h.frames r hr) hnew }

theorem newBlock {b : Block} (hb : b.Within inside) : (s.newBlock b).2.Confines inside :=
  { h with
    fresh := h.fresh_of_retains (Event.newBlock s b).retains
    blocks := fun r hr => getD_push_of (P := Block.Within inside) (h.blocks r hr) hb }

theorem newActivation (m : Method) {receiver : Value} (hreceiver : inside (.value receiver)) :
    (s.newActivation m receiver).2.Confines inside :=
  { h with
    fresh := h.fresh_of_retains (Event.newActivation s m receiver).retains
    activations := fun r hr =>
      getD_push_of (P := Activation.Within inside) (h.activations r hr) hreceiver }

theorem retire (r : ActivationRef) : (s.retire r).Confines inside := by
  refine { h with fresh := h.fresh_of_retains (Event.retire s r).retains, activations := ?_ }
  intro a ha
  rw [Activation.Within, (activation_retire s r a).2]
  exact h.activations a ha

end Confines

end Confines

end Store

end Parley
