import Parley.Proofs.Store.References

/-! Receiver, home and owner. Code of a method runs for an instance whose class has the owner of the method
among its ancestors, and so does every block that was made by it. `Coheres` says this of a receiver and a
home; whatever else happens in the store, it stays so. -/

namespace Parley

namespace Store

/-- The receiver is an instance of a registered class that has the owner of the method among its
ancestors. -/
def Suits (s : Store) (m : Method) (receiver : Value) : Prop :=
  ∃ r name classes, receiver = .object r ∧ r.index < s.objects.size ∧
    (s.object r).cls = .registered name ∧ s.classes.ancestors name = .ok classes ∧
    m.owner ∈ classes.map (·.name)

/-- A receiver and a home belong together: outside of methods there is no receiver, and in a method it is
the one that the method was invoked for, and suits the method. -/
def Coheres (s : Store) (self : Value) : Option ActivationRef → Prop
  | none => self = .nil
  | some home => s.Created home ∧ (s.activation home).receiver = self ∧
    s.Suits (s.activation home).method self

section Growing

variable {s s' : Store}

theorem Suits.mono {m : Method} {receiver : Value} (h : s.Suits m receiver) (hgrows : s.Grows s')
    (hclasses : s.classes.Extends s'.classes) : s'.Suits m receiver := by
  obtain ⟨r, name, classes, hreceiver, hr, hcls, hancestors, howner⟩ := h
  obtain ⟨hr', hcls'⟩ := hgrows.objects r hr
  obtain ⟨classes', hancestors', hnames⟩ := hclasses.ancestors name classes hancestors
  exact ⟨r, name, classes', hreceiver, hr', hcls'.trans hcls, hancestors', hnames ▸ howner⟩

theorem Coheres.mono {self : Value} {home : Option ActivationRef} (h : s.Coheres self home)
    (hgrows : s.Grows s') (hclasses : s.classes.Extends s'.classes) : s'.Coheres self home := by
  cases home with
  | none => exact h
  | some r =>
      obtain ⟨hcreated, hreceiver, hsuits⟩ := h
      obtain ⟨hcreated', hmethod', hreceiver'⟩ := hgrows.activations r hcreated
      refine ⟨hcreated', hreceiver'.trans hreceiver, ?_⟩
      rw [hmethod']
      exact hsuits.mono hgrows hclasses

theorem Coheres.stored {self : Value} {home : Option ActivationRef} (h : s.Coheres self home) :
    self.Stored s := by
  cases home with
  | none =>
      rw [show self = .nil from h]
      trivial
  | some r =>
      obtain ⟨-, -, r, name, classes, rfl, hr, -⟩ := h
      exact hr

end Growing

/-- A store whose values refer to something, whose instances are of registered classes and whose blocks
have a receiver and a home that belong together. -/
structure Coherent (s : Store) : Prop where
  classes : s.classes.WellFormed
  closed : s.Closed
  instances : ∀ o ∈ s.objects, ∃ name, o.cls = .registered name
  blocks : ∀ b ∈ s.blocks, s.Coheres b.receiver b.home

theorem Coherent.initial (traced : Bool) : (initial traced).Coherent :=
  ⟨.initial, .initial traced, fun o h => absurd h (Array.not_mem_empty o),
    fun b h => absurd h (Array.not_mem_empty b)⟩

namespace Coherent

variable {s s' : Store}

/-- What an event leaves as it was. -/
theorem event (h : s.Coherent) (hevent : s.Event s') (hclosed : s'.Closed)
    (hinstances : ∀ o ∈ s'.objects, ∃ name, o.cls = .registered name)
    (hblocks : ∀ b ∈ s'.blocks, b ∈ s.blocks ∨ s.Coheres b.receiver b.home) : s'.Coherent := by
  have hextends := hevent.extends_classes h.classes
  refine ⟨hextends.wellFormed, hclosed, hinstances, fun b hb => ?_⟩
  rcases hblocks b hb with hb | hb
  · exact (h.blocks b hb).mono hevent.grows hextends
  · exact hb.mono hevent.grows hextends

theorem newBlock (h : s.Coherent) {b : Block} (hb : s.Coheres b.receiver b.home) :
    (s.newBlock b).2.Coherent := by
  have hevent := Event.newBlock s b
  refine h.event hevent (h.closed.congr hevent.grows rfl rfl rfl) h.instances ?_
  intro c hc
  rcases Array.mem_push.mp hc with hc | rfl
  · exact .inl hc
  · exact .inr hb

theorem newFrame (h : s.Coherent) (parent : FrameRef) (params : List String) {args : List Value}
    (hargs : ∀ v ∈ args, v.Stored s) : (s.newFrame (some parent) (params.zip args)).2.Coherent :=
  h.event (.newFrame s parent _) (h.closed.newFrame parent params hargs) h.instances
    fun _ hb => .inl hb

theorem newActivation (h : s.Coherent) (m : Method) (receiver : Value) :
    (s.newActivation m receiver).2.Coherent := by
  have hevent := Event.newActivation s m receiver
  exact h.event hevent (h.closed.congr hevent.grows rfl rfl rfl) h.instances fun _ hb => .inl hb

theorem retire (h : s.Coherent) (r : ActivationRef) : (s.retire r).Coherent := by
  have hevent := Event.retire s r
  exact h.event hevent (h.closed.congr hevent.grows rfl rfl rfl) h.instances fun _ hb => .inl hb

theorem change {known : Value → Prop} (h : s.Coherent) (hknown : ∀ v, known v → v.Stored s)
    (hc : s.Change known s') : s'.Coherent := by
  refine h.event (.change hc.weaken) (h.closed.change hknown hc) ?_ ?_
  · cases hc with
    | newObject hmade =>
        intro o ho
        rcases Array.mem_push.mp ho with ho | rfl
        · exact h.instances o ho
        · rw [instantiate] at hmade
          obtain ⟨c, -, hmade⟩ := exists_of_bind_eq_ok hmade
          obtain ⟨names, -, hmade⟩ := exists_of_bind_eq_ok hmade
          obtain ⟨slots, -, hmade⟩ := exists_of_bind_eq_ok hmade
          cases hmade
          exact ⟨c.name, rfl⟩
    | setSlot =>
        intro o ho
        dsimp only [setSlot] at ho
        obtain ho | ⟨old, hold, rfl⟩ := exists_of_mem_modify ho
        · exact h.instances o ho
        · exact h.instances old hold
    | _ => exact h.instances
  · intro b hb
    rw [hc.changes.blocks_activations.1] at hb
    exact .inl hb

theorem changes {known : Value → Prop} (h : s.Coherent) (hknown : ∀ v, known v → v.Stored s)
    (hc : s.Changes known s') : s'.Coherent := by
  induction hc with
  | refl => exact h
  | tail hbefore hchange ih =>
      exact ih.change (fun v hv => (hknown v hv).mono (Changes.evolves hbefore).grows) hchange

/-! What is read -/

theorem block (h : s.Coherent) (r : BlockRef) : s.Coheres (s.block r).receiver (s.block r).home := by
  rw [Store.block, Array.getD_eq_getD_getElem?]
  cases hr : s.blocks[r.index]? with
  | none => rfl
  | some b => exact h.blocks b (Array.mem_of_getElem? hr)

theorem registered (h : s.Coherent) {r : ObjectRef} (hr : r.index < s.objects.size) :
    ∃ name, (s.object r).cls = .registered name := by
  rw [object, Array.getD_eq_getD_getElem?, Array.getElem?_eq_getElem hr]
  exact h.instances _ (Array.getElem_mem hr)

/-! Methods that are found -/

/-- A method that an instance answers a selector with suits it. -/
theorem suits_of_lookup (h : s.Coherent) {r : ObjectRef} (hr : r.index < s.objects.size)
    {selector : String} {m : Method}
    (hm : s.classes.lookup (s.object r).cls.name selector = .ok (some m)) : s.Suits m (.object r) := by
  obtain ⟨name, hname⟩ := h.registered hr
  obtain ⟨classes, hancestors, d, hd, hfits⟩ := h.classes.exists_of_lookup hm
  rw [hname] at hancestors
  refine ⟨r, name, classes, rfl, hr, hname, hancestors, ?_⟩
  rw [hfits.owner_eq]
  exact List.mem_map_of_mem hd

/-- The ancestors of the owner of a method are the last of the ancestors of the receiver's class. -/
theorem exists_above (h : s.Coherent) {m : Method} {receiver : Value} (hm : s.Suits m receiver) :
    ∃ r name below d above, receiver = .object r ∧ (s.object r).cls = .registered name ∧
      s.classes.ancestors name = .ok (below ++ d :: above) ∧ d.name = m.owner ∧
      s.classes.ancestors m.owner = .ok (d :: above) ∧
      ∀ selector, s.classes.lookupSuper m.owner selector =
        .ok (ClassTable.firstDefinition above selector) := by
  have hstacked := h.classes.stacked
  obtain ⟨r, name, classes, hreceiver, -, hcls, hancestors, howner⟩ := hm
  obtain ⟨c, hc, rfl⟩ := ClassTable.ancestors_eq_ok_iff.mp hancestors
  obtain ⟨d, hd, hdname⟩ := List.mem_map.mp howner
  have hcmem := (ClassTable.mem_of_find? hc).1
  have hdmem : d ∈ s.classes.classes := (ClassTable.chain_sublist _ _).subset hd
  have hfind : s.classes.find? m.owner = some d := by
    rw [← hdname]
    exact hstacked.find?_name hdmem
  obtain ⟨below, hsuffix⟩ := hstacked.chain_suffix hcmem hd
  obtain ⟨above, hchain⟩ : ∃ above, ClassTable.chain s.classes.classes d.name = d :: above :=
    ⟨_, hstacked.chain_eq hdmem⟩
  have hsuper := hstacked.lookupSuper_eq hfind
  rw [hchain] at hsuffix hsuper
  refine ⟨r, name, below, d, above, hreceiver, hcls, ?_, hdname, ?_, hsuper⟩
  · rw [hancestors, ← hsuffix]
  · rw [ClassTable.ancestors_of_find? hfind, hchain]

/-- A method above a method that suits a receiver suits it too. -/
theorem suits_of_lookupSuper (h : s.Coherent) {m m' : Method} {receiver : Value}
    (hm : s.Suits m receiver) {selector : String}
    (hm' : s.classes.lookupSuper m.owner selector = .ok (some m')) : s.Suits m' receiver := by
  obtain ⟨r, name, below, d, above, rfl, hcls, hancestors, -, howner, -⟩ := h.exists_above hm
  obtain ⟨classes, hclasses, e, he, hfits⟩ := h.classes.exists_of_lookupSuper hm'
  obtain rfl := Except.ok.inj (howner.symm.trans hclasses)
  obtain ⟨r', -, -, hr', hstored, -⟩ := hm
  cases hr'
  refine ⟨r, name, _, rfl, hstored, hcls, hancestors, ?_⟩
  rw [hfits.owner_eq]
  exact List.mem_map_of_mem (List.mem_append_right below (List.mem_cons_of_mem d he))

end Coherent

end Store

end Parley
