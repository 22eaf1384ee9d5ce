import Parley.Proofs.ClassTable.Consistency

/-! Where methods are found. A method that is looked up fits its selector and is owned by a class of the
chain that was searched. New classes and methods leave the chains of the classes that were there as they
are, so what was an ancestor of a class stays one. -/

namespace Parley.ClassTable

variable {t t' : ClassTable}

theorem ancestors_eq_ok_iff {name : String} {classes : List Class} :
    t.ancestors name = .ok classes ↔
      ∃ c, t.find? name = some c ∧ classes = chain t.classes c.name := by
  constructor
  · intro h
    rw [ancestors] at h
    obtain ⟨c, hc, hend⟩ := exists_of_bind_eq_ok h
    exact ⟨c, get_eq_ok_iff.mp hc, (Except.ok.inj hend).symm⟩
  · rintro ⟨c, hc, rfl⟩
    exact ancestors_of_find? hc

theorem slots_eq_ok_iff {name : String} {names : List String} :
    t.slots name = .ok names ↔
      ∃ c, t.find? name = some c ∧ names = (chain t.classes c.name).reverse.flatMap (·.fields) := by
  constructor
  · intro h
    rw [slots] at h
    obtain ⟨classes, hclasses, hend⟩ := exists_of_bind_eq_ok h
    obtain ⟨c, hc, rfl⟩ := ancestors_eq_ok_iff.mp hclasses
    exact ⟨c, hc, (Except.ok.inj hend).symm⟩
  · rintro ⟨c, hc, rfl⟩
    exact slots_of_find? hc

/-! Methods -/

/-- A method that is found along some classes of a table fits one of them. -/
theorem WellFormed.fits_of_firstDefinition (ht : t.WellFormed) {classes : List Class}
    (hclasses : classes ⊆ t.classes) {selector : String} {m : Method}
    (h : firstDefinition classes selector = some m) : ∃ d ∈ classes, m.Fits selector d.name := by
  obtain ⟨d, hd, hm⟩ := List.exists_of_findSome?_eq_some h
  exact ⟨d, hd, ht.methods d (hclasses hd) _ (OrderedMap.mem_of_find hm)⟩

theorem WellFormed.exists_of_lookup (ht : t.WellFormed) {name selector : String} {m : Method}
    (h : t.lookup name selector = .ok (some m)) :
    ∃ classes, t.ancestors name = .ok classes ∧ ∃ d ∈ classes, m.Fits selector d.name := by
  rw [lookup] at h
  obtain ⟨classes, hclasses, hend⟩ := exists_of_bind_eq_ok h
  obtain ⟨c, -, hchain⟩ := ancestors_eq_ok_iff.mp hclasses
  have hsubset : classes ⊆ t.classes := by
    rw [hchain]
    exact (chain_sublist _ _).subset
  exact ⟨classes, hclasses, ht.fits_of_firstDefinition hsubset (Except.ok.inj hend)⟩

/-- A method above a class is owned by a class further up. -/
theorem WellFormed.exists_of_lookupSuper (ht : t.WellFormed) {owner selector : String} {m : Method}
    (h : t.lookupSuper owner selector = .ok (some m)) :
    ∃ classes, t.ancestors owner = .ok classes ∧ ∃ d ∈ classes.tail, m.Fits selector d.name := by
  cases hfind : t.find? owner with
  | none =>
      have hsuper : t.superclass owner = .error (.unknownClass owner) := by
        rw [superclass, get_eq_error_iff.mpr ⟨hfind, rfl⟩]
        rfl
      rw [lookupSuper, hsuper] at h
      cases h
  | some c =>
      rw [ht.stacked.lookupSuper_eq hfind] at h
      refine ⟨_, ancestors_of_find? hfind, ht.fits_of_firstDefinition ?_ (Except.ok.inj h)⟩
      exact fun d hd => (chain_sublist _ _).subset (List.mem_of_mem_tail hd)

theorem WellFormed.length_params_of_lookup (ht : t.WellFormed) {name selector : String} {m : Method}
    (h : t.lookup name selector = .ok (some m)) : m.params.length = Selector.arity selector := by
  obtain ⟨-, -, d, -, hfits⟩ := ht.exists_of_lookup h
  exact hfits.length_params

theorem WellFormed.length_params_of_lookupSuper (ht : t.WellFormed) {owner selector : String}
    {m : Method} (h : t.lookupSuper owner selector = .ok (some m)) :
    m.params.length = Selector.arity selector := by
  obtain ⟨-, -, d, -, hfits⟩ := ht.exists_of_lookupSuper h
  exact hfits.length_params

/-! Chains inside chains -/

/-- The chain of an ancestor is the rest of the chain from there on. -/
theorem Stacked.chain_suffix {classes : List Class} (h : Stacked classes) {c d : Class}
    (hc : c ∈ classes) (hd : d ∈ chain classes c.name) :
    chain classes d.name <:+ chain classes c.name := by
  induction h generalizing c with
  | root _ hparent =>
      obtain rfl := List.mem_singleton.mp hc
      rw [chain, if_pos rfl, hparent] at hd
      obtain rfl := List.mem_singleton.mp hd
      exact List.suffix_refl _
  | @derived b older p _ hnew _ hparent hfound _ ih =>
      have hskip : ∀ e ∈ older, chain (b :: older) e.name = chain older e.name :=
        fun e he => chain_cons_of_ne (hnew e he).symm older
      have holder : ∀ e ∈ older, d ∈ chain older e.name →
          chain (b :: older) d.name <:+ chain older e.name := by
        intro e he hde
        rw [hskip d ((chain_sublist _ _).subset hde)]
        exact ih he hde
      rcases List.mem_cons.mp hc with rfl | hc
      · rw [chain_cons_of_parent hparent] at hd ⊢
        rcases List.mem_cons.mp hd with rfl | hd
        · exact ⟨[], chain_cons_of_parent hparent older⟩
        · obtain ⟨e, he, rfl⟩ := hfound
          exact (holder e he hd).trans (List.suffix_cons c _)
      · rw [hskip c hc] at hd ⊢
        exact holder c hc hd

/-! What stays -/

/-- A class is found where it was, with the method that it got. -/
theorem find?_map_withMethod (owner selector : String) (m : Method) {name : String} {c : Class}
    (h : t.find? name = some c) :
    find? ⟨t.classes.map (withMethod owner selector m)⟩ name =
      some (withMethod owner selector m c) := by
  rw [find?, List.find?_map]
  have hsame : ((fun e : Class => decide (e.name = resolve name)) ∘ withMethod owner selector m) =
      fun e => decide (e.name = resolve name) := by
    funext e
    exact congrArg (fun n => decide (n = resolve name)) (withMethod_keeps owner selector m e).1
  rw [hsame]
  exact congrArg (Option.map (withMethod owner selector m)) h

/-- What was found before a class was registered is found again, and its chain does not pass the new
class. -/
theorem WellFormed.kept_by_subclass (ht : t.WellFormed) {parent name : String} {fields : List String}
    {c : Class} (h : t.subclass parent name fields = .ok (c, t')) {known : String} {d : Class}
    (hd : t.find? known = some d) :
    t'.find? known = some d ∧ chain t'.classes d.name = chain t.classes d.name := by
  obtain ⟨p, -, hunknown, -, rfl, rfl⟩ := exists_of_subclass ht.stacked h
  obtain ⟨hmem, hname⟩ := mem_of_find? hd
  have hne : name ≠ d.name := by
    rintro rfl
    exact nomatch (ht.stacked.find?_name hmem).symm.trans hunknown
  refine ⟨?_, chain_cons_of_ne hne t.classes⟩
  rw [find?, List.find?_cons_of_neg (by simpa [← hname] using hne)]
  exact hd

/-- A chain passes the classes that it passed, with the method that one of them got. -/
theorem chain_map_withMethod (owner selector : String) (m : Method) (classes : List Class) (d : Class) :
    chain (classes.map (withMethod owner selector m)) (withMethod owner selector m d).name =
      (chain classes d.name).map (withMethod owner selector m) := by
  have hkeeps := withMethod_keeps owner selector m
  rw [(hkeeps d).1, chain_map (fun e => (hkeeps e).1) fun e => (hkeeps e).2.1]

/-- The classes of one table are in another, each below the same classes and with the same variables as
before. -/
structure Extends (t t' : ClassTable) : Prop where
  wellFormed : t'.WellFormed
  ancestors : ∀ name classes, t.ancestors name = .ok classes →
    ∃ classes', t'.ancestors name = .ok classes' ∧ classes'.map (·.name) = classes.map (·.name)
  slots : ∀ name names, t.slots name = .ok names → t'.slots name = .ok names

theorem Extends.refl (ht : t.WellFormed) : t.Extends t :=
  ⟨ht, fun _ classes h => ⟨classes, h, rfl⟩, fun _ _ h => h⟩

theorem Extends.trans {t'' : ClassTable} (h : t.Extends t') (h' : t'.Extends t'') : t.Extends t'' := by
  refine ⟨h'.wellFormed, ?_, fun name names hnames => h'.slots name names (h.slots name names hnames)⟩
  intro name classes hclasses
  obtain ⟨classes₁, h₁, hnames₁⟩ := h.ancestors name classes hclasses
  obtain ⟨classes₂, h₂, hnames₂⟩ := h'.ancestors name classes₁ h₁
  exact ⟨classes₂, h₂, hnames₂.trans hnames₁⟩

theorem WellFormed.extends_subclass (ht : t.WellFormed) {parent name : String}
    {fields : List String} {c : Class} (h : t.subclass parent name fields = .ok (c, t')) :
    t.Extends t' := by
  refine ⟨ht.subclass h, ?_, ?_⟩
  · intro name' classes hclasses
    obtain ⟨d, hd, rfl⟩ := ancestors_eq_ok_iff.mp hclasses
    obtain ⟨hd', hchain⟩ := ht.kept_by_subclass h hd
    exact ⟨_, ancestors_eq_ok_iff.mpr ⟨d, hd', rfl⟩, congrArg _ hchain⟩
  · intro name' names hnames
    obtain ⟨d, hd, rfl⟩ := slots_eq_ok_iff.mp hnames
    obtain ⟨hd', hchain⟩ := ht.kept_by_subclass h hd
    exact slots_eq_ok_iff.mpr ⟨d, hd', by rw [hchain]⟩

theorem WellFormed.extends_define (ht : t.WellFormed) {className selector : String}
    {params : List String} {body : Node} {m : Method} {replaced : Bool}
    (h : t.define className selector params body = .ok (m, replaced, t')) : t.Extends t' := by
  have hwellFormed := ht.define h
  obtain ⟨c, -, -, -, -, rfl⟩ := exists_of_define h
  have hkeeps := withMethod_keeps c.name selector m
  refine ⟨hwellFormed, ?_, ?_⟩
  · intro name classes hclasses
    obtain ⟨d, hd, rfl⟩ := ancestors_eq_ok_iff.mp hclasses
    refine ⟨_, ancestors_eq_ok_iff.mpr ⟨_, find?_map_withMethod c.name selector m hd, rfl⟩, ?_⟩
    rw [chain_map_withMethod, List.map_map]
    exact List.map_congr_left fun e _ => (hkeeps e).1
  · intro name names hnames
    obtain ⟨d, hd, rfl⟩ := slots_eq_ok_iff.mp hnames
    refine slots_eq_ok_iff.mpr ⟨_, find?_map_withMethod c.name selector m hd, ?_⟩
    rw [chain_map_withMethod, ← List.map_reverse, List.flatMap_map]
    exact congrArg (List.flatMap · _) (funext fun e => (hkeeps e).2.2.symm)

end Parley.ClassTable
