import Parley.Proofs.Machine.Evolution
import Parley.Proofs.Session

/-! Nothing is lost. Whatever a run does and however it ends, classes keep their place, fields and
selectors, instances their class and slots, frames their parent and names, lists their length, dead
activations stay dead, and what was printed stays printed. `Retains` says this of two stores; it is shown
of each single event and so holds between any two points of a run. No assumption is made on the store that
a run begins in. -/

namespace Parley

/-! Arrays -/

/-- Every entry of an array is an entry of another at the same place, changed as a relation allows. -/
def KeptIn {α : Type} (R : α → α → Prop) (a b : Array α) : Prop :=
  ∀ (i : Nat) (x : α), a[i]? = some x → ∃ y, b[i]? = some y ∧ R x y

namespace KeptIn

variable {α : Type} {R : α → α → Prop} {a b c : Array α}

theorem refl (hR : ∀ x, R x x) (a : Array α) : KeptIn R a a := fun _ x hx => ⟨x, hx, hR x⟩

theorem trans (hR : ∀ x y z, R x y → R y z → R x z) (h : KeptIn R a b) (h' : KeptIn R b c) :
    KeptIn R a c := by
  intro i x hx
  obtain ⟨y, hy, hxy⟩ := h i x hx
  obtain ⟨z, hz, hyz⟩ := h' i y hy
  exact ⟨z, hz, hR x y z hxy hyz⟩

theorem push (hR : ∀ x, R x x) (a : Array α) (x : α) : KeptIn R a (a.push x) := by
  intro i y hy
  obtain ⟨hi, -⟩ := Array.getElem?_eq_some_iff.mp hy
  refine ⟨y, ?_, hR y⟩
  rw [Array.getElem?_push, if_neg (Nat.ne_of_lt hi), hy]

theorem modify (hR : ∀ x, R x x) {i : Nat} {f : α → α} (h : ∀ x, a[i]? = some x → R x (f x)) :
    KeptIn R a (a.modify i f) := by
  intro j x hx
  rw [Array.getElem?_modify]
  by_cases hij : i = j
  · subst hij
    exact ⟨f x, by rw [if_pos rfl, hx, Option.map_some], h x hx⟩
  · exact ⟨x, by rw [if_neg hij, hx], hR x⟩

end KeptIn

/-! Maps -/

namespace OrderedMap

variable {α β : Type} [DecidableEq α]

theorem keys_prefix_put (m : OrderedMap α β) (k : α) (v : β) : m.keys <+: (m.put k v).keys := by
  rw [keys_put]
  split_ifs
  · exact List.prefix_refl _
  · exact List.prefix_append _ _

theorem keys_put_of_contains {m : OrderedMap α β} {k : α} (h : m.contains k = true) (v : β) :
    (m.put k v).keys = m.keys := by
  rw [keys_put, if_pos h]

end OrderedMap

/-! Classes -/

/-- A class with the same place and fields, and with at least the same selectors. -/
structure Class.Retains (c c' : Class) : Prop where
  name : c'.name = c.name
  parent : c'.parent = c.parent
  fields : c'.fields = c.fields
  selectors : c.methods.keys <+: c'.methods.keys

namespace ClassTable

/-- Every registered class is still registered. -/
def Retains (t t' : ClassTable) : Prop :=
  ∀ name c, t.find? name = some c → ∃ c', t'.find? name = some c' ∧ c.Retains c'

variable {t t' t'' : ClassTable}

theorem Retains.refl (t : ClassTable) : t.Retains t :=
  fun _ c hc => ⟨c, hc, rfl, rfl, rfl, List.prefix_refl _⟩

theorem Retains.trans (h : t.Retains t') (h' : t'.Retains t'') : t.Retains t'' := by
  intro name c hc
  obtain ⟨c₁, hc₁, h₁⟩ := h name c hc
  obtain ⟨c₂, hc₂, h₂⟩ := h' name c₁ hc₁
  exact ⟨c₂, hc₂, h₂.name.trans h₁.name, h₂.parent.trans h₁.parent, h₂.fields.trans h₁.fields,
    h₁.selectors.trans h₂.selectors⟩

/-- A new class has a name that was not found, and comes before all others. -/
theorem cons_of_subclass {parent name : String} {fields : List String} {c : Class}
    (h : t.subclass parent name fields = .ok (c, t')) :
    t.find? name = none ∧ c.name = name ∧ t' = ⟨c :: t.classes⟩ := by
  rw [subclass] at h
  obtain ⟨p, -, h⟩ := exists_of_bind_eq_ok h
  cases hcontains : t.contains name with
  | true =>
      rw [hcontains] at h
      cases h
  | false =>
      rw [hcontains] at h
      obtain ⟨names, -, h⟩ := exists_of_bind_eq_ok h
      split at h
      · cases h
      · cases h
        exact ⟨by simpa [contains] using hcontains, rfl, rfl⟩

theorem retains_subclass {parent name : String} {fields : List String} {c : Class}
    (h : t.subclass parent name fields = .ok (c, t')) : t.Retains t' := by
  obtain ⟨hunknown, hname, rfl⟩ := cons_of_subclass h
  intro name' d hd
  refine ⟨d, ?_, rfl, rfl, rfl, List.prefix_refl _⟩
  have hne : c.name ≠ resolve name' := by
    intro heq
    -- the name of the new class is no alias, since an alias is never what a name stands for
    have hresolved : resolve name = resolve name' := by
      rw [← heq, ← hname]
      refine resolve_of_ne ?_
      intro halias
      rw [halias, resolve] at heq
      split_ifs at heq with halias'
      · exact absurd heq (by decide)
      · exact halias' heq.symm
    have hfound : t.find? name = some d := by
      rw [find?, hresolved]
      exact hd
    rw [hunknown] at hfound
    cases hfound
  rw [find?, List.find?_cons_of_neg (by simpa using hne)]
  exact hd

theorem retains_define {className selector : String} {params : List String} {body : Node} {m : Method}
    {replaced : Bool} (h : t.define className selector params body = .ok (m, replaced, t')) :
    t.Retains t' := by
  obtain ⟨c, -, -, -, -, rfl⟩ := exists_of_define h
  intro name d hd
  obtain ⟨hname, hparent, hfields⟩ := withMethod_keeps c.name selector m d
  refine ⟨_, find?_map_withMethod c.name selector m hd, hname, hparent, hfields, ?_⟩
  rw [withMethod]
  split_ifs
  · exact d.methods.keys_prefix_put selector m
  · exact List.prefix_refl _

end ClassTable

/-! Stores -/

/-- An instance of the same class with the same slots. -/
def Object.Retains (o o' : Object) : Prop := o'.cls = o.cls ∧ o'.slots.keys = o.slots.keys

/-- A frame with the same parent that binds at least the same names. -/
def Frame.Retains (f f' : Frame) : Prop :=
  f'.parent = f.parent ∧ f.bindings.keys <+: f'.bindings.keys

/-- The items of a list that is no shorter. -/
def NoShorter (items items' : Array Value) : Prop := items.size ≤ items'.size

/-- An activation that is dead if it was dead before. -/
def Activation.Retains (a a' : Activation) : Prop := a.alive = false → a'.alive = false

theorem Object.Retains.refl (o : Object) : o.Retains o := ⟨rfl, rfl⟩

theorem Frame.Retains.refl (f : Frame) : f.Retains f := ⟨rfl, List.prefix_refl _⟩

theorem NoShorter.refl (items : Array Value) : NoShorter items items := Nat.le_refl _

theorem Activation.Retains.refl (a : Activation) : a.Retains a := id

namespace Store

/-- What is in one store has not been lost in another. -/
structure Retains (s s' : Store) : Prop where
  classes : s.classes.Retains s'.classes
  objects : KeptIn Object.Retains s.objects s'.objects
  frames : KeptIn Frame.Retains s.frames s'.frames
  lists : KeptIn NoShorter s.lists s'.lists
  blocks : KeptIn Eq s.blocks s'.blocks
  activations : KeptIn Activation.Retains s.activations s'.activations
  output : ∃ text, s'.output = s.output ++ text

variable {s s' s'' : Store}

theorem Retains.refl (s : Store) : s.Retains s where
  classes := .refl s.classes
  objects := .refl .refl s.objects
  frames := .refl .refl s.frames
  lists := .refl .refl s.lists
  blocks := .refl .refl s.blocks
  activations := .refl .refl s.activations
  output := ⟨"", by simp⟩

theorem Retains.trans (h : s.Retains s') (h' : s'.Retains s'') : s.Retains s'' where
  classes := h.classes.trans h'.classes
  objects := h.objects.trans (fun _ _ _ h h' => ⟨h'.1.trans h.1, h'.2.trans h.2⟩) h'.objects
  frames := h.frames.trans (fun _ _ _ h h' => ⟨h'.1.trans h.1, h.2.trans h'.2⟩) h'.frames
  lists := h.lists.trans (fun _ _ _ h h' => Nat.le_trans h h') h'.lists
  blocks := h.blocks.trans (fun _ _ _ => Eq.trans) h'.blocks
  activations := h.activations.trans (fun _ _ _ h h' hdead => h' (h hdead)) h'.activations
  output := by
    obtain ⟨text, htext⟩ := h.output
    obtain ⟨text', htext'⟩ := h'.output
    exact ⟨text ++ text', by rw [htext', htext, String.append_assoc]⟩

/-- A change puts something in one place and leaves the rest as it was. -/
theorem Change.retains {known : Value → Prop} (h : s.Change known s') : s.Retains s' := by
  have hsame := Retains.refl s
  cases h with
  | newList => exact { hsame with lists := .push .refl _ _ }
  | newObject => exact { hsame with objects := .push .refl _ _ }
  | setList i _ _ =>
      refine { hsame with lists := .modify .refl fun items _ => ?_ }
      rw [NoShorter, Array.size_setIfInBounds]
  | pushList =>
      refine { hsame with lists := .modify .refl fun items _ => ?_ }
      rw [NoShorter, Array.size_push]
      exact Nat.le_succ _
  | @setSlot r name v _ hname _ =>
      refine { hsame with objects := .modify .refl fun o ho => ⟨rfl, ?_⟩ }
      rw [object, Array.getD_eq_getD_getElem?, ho] at hname
      exact OrderedMap.keys_put_of_contains hname v
  | define env name _ =>
      refine { hsame with frames := .modify .refl fun f _ => ⟨rfl, ?_⟩ }
      exact f.bindings.keys_prefix_put name _
  | print text => exact { hsame with output := ⟨text ++ "\n", String.append_assoc⟩ }
  | log => exact { hsame with }
  | subclass hsubclass => exact { hsame with classes := ClassTable.retains_subclass hsubclass }
  | install _ hdefine => exact { hsame with classes := ClassTable.retains_define hdefine }

theorem Event.retains (h : s.Event s') : s.Retains s' := by
  have hsame := Retains.refl s
  cases h with
  | change hchange => exact hchange.retains
  | newBlock b => exact { hsame with blocks := .push .refl _ _ }
  | newFrame parent bindings => exact { hsame with frames := .push .refl _ _ }
  | newActivation m receiver => exact { hsame with activations := .push .refl _ _ }
  | retire r => exact { hsame with activations := .modify .refl fun _ _ _ => rfl }

theorem Evolves.retains (h : s.Evolves s') : s.Retains s' := by
  induction h with
  | refl => exact .refl s
  | tail _ hevent ih => exact ih.trans hevent.retains

end Store

namespace Interpreter

open Parley.Machine

theorem retains_of_runStatements {limit : Limit} {fuel : Nat} {latest : Value} {statements : List Node}
    {s s' : Store} {ending : Ending}
    (h : runStatements limit fuel latest statements s = some (ending, s')) : s.Retains s' := by
  refine runStatements_keeps (P := fun _ => True) (I := s.Retains) ?_ ?_ (fun _ _ => trivial) (.refl s) h
  · exact fun s₁ line hs => hs.trans (@Store.Change.log (fun _ => True) s₁ line).retains
  · exact fun _ _ _ _ _ _ _ hs hrun => hs.trans (evolves_of_run hrun).retains

/-- Nothing is lost from one point of a run to a later one, nor when the run ends, whatever it ends with.
The same holds for the statements of a program that run one after another, up to every point of the
statement that comes next. -/
theorem nothing_lost (limit : Limit) :
    (∀ c c', Reaches limit c c' → c.store.Retains c'.store) ∧
    (∀ fuel c outcome s', run limit fuel c = some (outcome, s') → c.store.Retains s') ∧
    ∀ fuel latest statements s ending s',
      runStatements limit fuel latest statements s = some (ending, s') →
        s.Retains s' ∧
        ∀ n c, Reaches limit (.initial (.node n) .global s') c → s.Retains c.store := by
  refine ⟨fun c c' h => h.evolves.retains, fun fuel c outcome s' h => (evolves_of_run h).retains, ?_⟩
  intro fuel latest statements s ending s' h
  have hretains := retains_of_runStatements h
  exact ⟨hretains, fun n c hreaches => hretains.trans hreaches.evolves.retains⟩

/-- Statements that make a list and print. -/
def printingProgram : List Node :=
  [.store none (.define "l" "=") (.list none [.atom none (.integer 1)]),
    .send none (.atom none (.string "a")) "print" []]

/-- A block adds to the list, prints and divides by zero. -/
def failingStatement : Node :=
  .send none
    (.block none [] none
      [.send none (.atom none (.variable "l")) "add:" [.atom none (.integer 2)],
        .send none (.atom none (.string "b")) "print" [],
        .send none (.atom none (.integer 1)) "/" [.atom none (.integer 0)]])
    "call" []

/-- The statement fails, and what it did before it failed and what was there before is not lost. -/
theorem nothing_lost_failing : ∃ v s c e site s',
    runStatements (.frames 20) 60 .nil printingProgram (.initial false) = some (.completed v, s) ∧
    Reaches (.frames 20) (.initial (.node failingStatement) .global s) c ∧
    execute (.frames 20) 60 (.node failingStatement) s = some (.failure (.error e site), s') ∧
    (Store.initial false).Retains c.store ∧ s.Retains c.store ∧ s.Retains s' ∧
    s.list ⟨0⟩ = #[.integer 1] ∧ s'.list ⟨0⟩ = #[.integer 1, .integer 2] ∧
    s.output = "a\n" ∧ s'.output = "a\nb\n" := by
  have hrun : (storeAfter? (.frames 20) 60 false printingProgram).any (fun s =>
      (execute (.frames 20) 60 (.node failingStatement) s).any fun r =>
        (errorOf? r.1).isSome &&
        decide (s.list ⟨0⟩ = #[.integer 1] ∧ r.2.list ⟨0⟩ = #[.integer 1, .integer 2] ∧
          s.output = "a\n" ∧ r.2.output = "a\nb\n")) = true := by decide +kernel
  obtain ⟨s, hs, hfails⟩ := (Option.any_eq_true _ _).mp hrun
  obtain ⟨⟨outcome, s'⟩, hexecute, hcheck⟩ := (Option.any_eq_true _ _).mp hfails
  obtain ⟨herror, hchanges⟩ := (Bool.and_eq_true _ _).mp hcheck
  obtain ⟨v, hbefore⟩ := exists_of_storeAfter? hs
  obtain ⟨e, he⟩ := Option.isSome_iff_exists.mp herror
  obtain ⟨site, rfl⟩ := exists_of_errorOf? he
  obtain ⟨c, hreaches, -⟩ := exists_reaches_of_run hexecute
  obtain ⟨hpoints, hends, hstatements⟩ := nothing_lost (.frames 20)
  refine ⟨v, s, c, e, site, s', hbefore, hreaches, hexecute, ?_, hpoints _ c hreaches,
    hends 60 _ _ s' hexecute, of_decide_eq_true hchanges⟩
  exact (hstatements 60 .nil printingProgram _ _ s hbefore).2 failingStatement c hreaches

end Interpreter

end Parley
