import Mathlib.Data.List.Nodup
import Mathlib.Tactic.Common
import Parley.ClassTable
import Parley.Proofs.Except

/-! How class tables come about. A class is put before all classes that were there, names one of them as
its superclass and declares no field that it inherits. `Stacked` says so of a list of classes, and the
walk along superclasses is read off from it: it takes up each superclass by name, passes no class twice
and ends at the root. -/

namespace Parley

namespace ClassTable

/-- Classes that were registered one after another, latest first, above the root. -/
inductive Stacked : List Class → Prop
  | root {c : Class} (hname : c.name = rootName) (hparent : c.parent = none)
      (hfields : c.fields.Nodup) : Stacked [c]
  | derived {c : Class} {older : List Class} {parent : String} (h : Stacked older)
      (hnew : ∀ d ∈ older, d.name ≠ c.name) (halias : c.name ≠ rootAlias)
      (hparent : c.parent = some parent) (hfound : ∃ d ∈ older, d.name = parent)
      (hfields : ((chain older parent).reverse.flatMap (·.fields) ++ c.fields).Nodup) :
      Stacked (c :: older)

/-! Chains -/

theorem chain_cons_of_ne {c : Class} {name : String} (h : c.name ≠ name) (older : List Class) :
    chain (c :: older) name = chain older name := by
  rw [chain, if_neg h]

theorem chain_cons_of_parent {c : Class} {parent : String} (h : c.parent = some parent)
    (older : List Class) : chain (c :: older) c.name = c :: chain older parent := by
  rw [chain, if_pos rfl, h]

theorem chain_sublist (classes : List Class) (name : String) :
    (chain classes name).Sublist classes := by
  induction classes generalizing name with
  | nil => exact .refl []
  | cons c older ih =>
      rw [chain]
      split_ifs
      · refine List.Sublist.cons_cons c ?_
        split
        · exact List.nil_sublist older
        · exact ih _
      · exact (ih name).cons c

/-- What is done to every class is done to every class of a chain, if names and superclasses stay. -/
theorem chain_map {f : Class → Class} (hname : ∀ c, (f c).name = c.name)
    (hparent : ∀ c, (f c).parent = c.parent) (classes : List Class) (name : String) :
    chain (classes.map f) name = (chain classes name).map f := by
  induction classes generalizing name with
  | nil => rfl
  | cons c older ih =>
      rw [List.map_cons, chain, chain, hname, hparent]
      split_ifs
      · rw [List.map_cons]
        cases c.parent with
        | none => rfl
        | some parent => exact congrArg (f c :: ·) (ih parent)
      · exact ih name

namespace Stacked

variable {classes : List Class} {c : Class} {parent : String}

theorem names_nodup (h : Stacked classes) : (classes.map (·.name)).Nodup := by
  induction h with
  | root => exact List.nodup_singleton _
  | derived _ hnew _ _ _ _ ih =>
      refine List.nodup_cons.mpr ⟨?_, ih⟩
      intro hmem
      obtain ⟨d, hd, hname⟩ := List.mem_map.mp hmem
      exact hnew d hd hname

theorem eq_of_name (h : Stacked classes) {d : Class} (hc : c ∈ classes) (hd : d ∈ classes)
    (hname : c.name = d.name) : c = d :=
  List.inj_on_of_nodup_map h.names_nodup hc hd hname

theorem name_ne_alias (h : Stacked classes) (hc : c ∈ classes) : c.name ≠ rootAlias := by
  induction h with
  | root hname =>
      obtain rfl := List.mem_singleton.mp hc
      rw [hname]
      decide
  | derived _ _ halias _ _ _ ih =>
      rcases List.mem_cons.mp hc with rfl | hc
      · exact halias
      · exact ih hc

theorem exists_root (h : Stacked classes) : ∃ c ∈ classes, c.name = rootName := by
  induction h with
  | root hname => exact ⟨_, List.mem_singleton_self _, hname⟩
  | derived _ _ _ _ _ _ ih =>
      obtain ⟨d, hd, hname⟩ := ih
      exact ⟨d, List.mem_cons_of_mem _ hd, hname⟩

/-- Only the root has no superclass. -/
theorem parent_eq_none_iff (h : Stacked classes) (hc : c ∈ classes) :
    c.parent = none ↔ c.name = rootName := by
  induction h with
  | root hname hparent =>
      obtain rfl := List.mem_singleton.mp hc
      exact ⟨fun _ => hname, fun _ => hparent⟩
  | derived holder hnew _ hparent _ _ ih =>
      rcases List.mem_cons.mp hc with rfl | hc
      · obtain ⟨d, hd, hname⟩ := holder.exists_root
        refine ⟨fun hnone => ?_, fun hroot => ?_⟩
        · rw [hparent] at hnone
          cases hnone
        · exact absurd (hname.trans hroot.symm) (hnew d hd)
      · exact ih hc

theorem exists_parent (h : Stacked classes) (hc : c ∈ classes) (hparent : c.parent = some parent) :
    ∃ d ∈ classes, d.name = parent := by
  induction h with
  | root _ hnone =>
      obtain rfl := List.mem_singleton.mp hc
      rw [hnone] at hparent
      cases hparent
  | derived _ _ _ hparent' hfound _ ih =>
      rcases List.mem_cons.mp hc with rfl | hc
      · obtain rfl := Option.some.inj (hparent'.symm.trans hparent)
        obtain ⟨d, hd, hname⟩ := hfound
        exact ⟨d, List.mem_cons_of_mem _ hd, hname⟩
      · obtain ⟨d, hd, hname⟩ := ih hc
        exact ⟨d, List.mem_cons_of_mem _ hd, hname⟩

/-- A superclass was registered before its subclass, so it stands further down. -/
theorem exists_parent_of_append {newer older : List Class} (h : Stacked (newer ++ c :: older))
    (hparent : c.parent = some parent) : ∃ d ∈ older, d.name = parent := by
  induction newer with
  | nil =>
      cases h with
      | root _ hnone =>
          rw [hnone] at hparent
          cases hparent
      | derived _ _ _ hparent' hfound _ =>
          obtain rfl := Option.some.inj (hparent'.symm.trans hparent)
          exact hfound
  | cons b newer ih =>
      generalize htail : newer ++ c :: older = tail at h
      rw [List.cons_append, htail] at h
      cases h with
      | root => exact absurd htail (List.append_ne_nil_of_right_ne_nil newer (List.cons_ne_nil c older))
      | derived htail' =>
          rw [← htail] at htail'
          exact ih htail'

/-- The chain of a class goes on with the chain of its superclass, which is taken up by name among all
classes. -/
theorem chain_eq (h : Stacked classes) (hc : c ∈ classes) :
    chain classes c.name =
      c :: match c.parent with
        | none => []
        | some parent => chain classes parent := by
  induction h with
  | root _ hparent =>
      obtain rfl := List.mem_singleton.mp hc
      rw [chain, if_pos rfl, hparent]
  | @derived b older p holder hnew _ hparent hfound _ ih =>
      have hskip : ∀ q, (∃ d ∈ older, d.name = q) → chain (b :: older) q = chain older q := by
        rintro _ ⟨d, hd, rfl⟩
        exact chain_cons_of_ne (hnew d hd).symm older
      rcases List.mem_cons.mp hc with rfl | hc
      · rw [chain_cons_of_parent hparent, hparent]
        exact congrArg (c :: ·) (hskip p hfound).symm
      · rw [hskip c.name ⟨c, hc, rfl⟩, ih hc]
        cases hq : c.parent with
        | none => rfl
        | some q => exact congrArg (c :: ·) (hskip q (holder.exists_parent hc hq)).symm

theorem chain_names_nodup (h : Stacked classes) (name : String) :
    ((chain classes name).map (·.name)).Nodup :=
  h.names_nodup.sublist ((chain_sublist classes name).map _)

/-- A chain ends at the root. -/
theorem chain_getLast? (h : Stacked classes) (hc : c ∈ classes) :
    (chain classes c.name).getLast?.map (·.name) = some rootName := by
  induction h generalizing c with
  | root hname hparent =>
      obtain rfl := List.mem_singleton.mp hc
      rw [chain, if_pos rfl, hparent, List.getLast?_singleton, Option.map_some, hname]
  | @derived b older p _ hnew _ hparent hfound _ ih =>
      rcases List.mem_cons.mp hc with rfl | hc
      · obtain ⟨d, hd, rfl⟩ := hfound
        have hend := ih hd
        rw [chain_cons_of_parent hparent]
        cases hchain : chain older d.name with
        | nil =>
            rw [hchain] at hend
            cases hend
        | cons e rest =>
            rw [hchain] at hend
            rw [List.getLast?_cons_cons]
            exact hend
      · rw [chain_cons_of_ne (hnew c hc).symm]
        exact ih hc

/-- No field of a chain is declared twice. -/
theorem chain_fields_nodup (h : Stacked classes) (hc : c ∈ classes) :
    ((chain classes c.name).reverse.flatMap (·.fields)).Nodup := by
  induction h with
  | root _ hparent hfields =>
      obtain rfl := List.mem_singleton.mp hc
      rw [chain, if_pos rfl, hparent]
      simpa using hfields
  | derived _ hnew _ hparent _ hfields ih =>
      rcases List.mem_cons.mp hc with rfl | hc
      · rw [chain_cons_of_parent hparent, List.reverse_cons, List.flatMap_append,
          List.flatMap_singleton]
        exact hfields
      · rw [chain_cons_of_ne (hnew c hc).symm]
        exact ih hc

/-- What changes neither names nor superclasses nor fields keeps the order of registration. -/
theorem map (h : Stacked classes) {f : Class → Class} (hname : ∀ c, (f c).name = c.name)
    (hparent : ∀ c, (f c).parent = c.parent) (hfields : ∀ c, (f c).fields = c.fields) :
    Stacked (classes.map f) := by
  have hfields' : (fun c => (f c).fields) = fun c : Class => c.fields := funext hfields
  induction h with
  | root hroot hnone hdistinct =>
      refine .root ((hname _).trans hroot) ((hparent _).trans hnone) ?_
      rw [hfields]
      exact hdistinct
  | derived _ hnew halias hsome hfound hdistinct ih =>
      refine .derived ih ?_ ?_ ((hparent _).trans hsome) ?_ ?_
      · intro d hd
        obtain ⟨e, he, rfl⟩ := List.mem_map.mp hd
        rw [hname, hname]
        exact hnew e he
      · rw [hname]
        exact halias
      · obtain ⟨d, hd, hd'⟩ := hfound
        exact ⟨f d, List.mem_map_of_mem hd, (hname d).trans hd'⟩
      · rw [chain_map hname hparent, ← List.map_reverse, List.flatMap_map, hfields, hfields']
        exact hdistinct

end Stacked

/-! Finding classes -/

theorem resolve_of_ne {name : String} (h : name ≠ rootAlias) : resolve name = name := if_neg h

theorem mem_of_find? {t : ClassTable} {name : String} {c : Class} (h : t.find? name = some c) :
    c ∈ t.classes ∧ c.name = resolve name := by
  refine ⟨List.mem_of_find?_eq_some h, ?_⟩
  simpa using List.find?_some h

theorem get_eq_ok_iff {t : ClassTable} {name : String} {c : Class} :
    t.get name = .ok c ↔ t.find? name = some c := by
  rw [get]
  cases t.find? name with
  | none => exact ⟨nofun, nofun⟩
  | some d => exact ⟨fun h => congrArg some (Except.ok.inj h), fun h => congrArg _ (Option.some.inj h)⟩

theorem get_eq_error_iff {t : ClassTable} {name : String} {e : Error} :
    t.get name = .error e ↔ t.find? name = none ∧ e = .unknownClass name := by
  rw [get]
  cases t.find? name with
  | none => exact ⟨fun h => ⟨rfl, (Except.error.inj h).symm⟩, fun h => congrArg _ h.2.symm⟩
  | some d => exact ⟨nofun, fun h => nomatch h.1⟩

theorem Stacked.find?_name {t : ClassTable} (h : Stacked t.classes) {c : Class}
    (hc : c ∈ t.classes) : t.find? c.name = some c := by
  have hresolve : resolve c.name = c.name := resolve_of_ne (h.name_ne_alias hc)
  cases hfind : t.find? c.name with
  | none =>
      have hnone := List.find?_eq_none.mp hfind c hc
      rw [hresolve] at hnone
      exact absurd (decide_eq_true rfl) hnone
  | some d =>
      obtain ⟨hd, hname⟩ := mem_of_find? hfind
      rw [hresolve] at hname
      exact congrArg some (h.eq_of_name hd hc hname)

/-! Registering and defining -/

theorem firstRepeated_eq_none_iff {seen fields : List String} :
    firstRepeated seen fields = none ↔ fields.Nodup ∧ ∀ f ∈ fields, f ∉ seen := by
  induction fields generalizing seen with
  | nil => simp [firstRepeated]
  | cons f fields ih =>
      rw [firstRepeated, List.nodup_cons, List.forall_mem_cons]
      split_ifs with hf
      · exact ⟨nofun, fun h => absurd hf h.2.1⟩
      · rw [ih]
        constructor
        · rintro ⟨hnodup, hseen⟩
          refine ⟨⟨fun hmem => hseen f hmem List.mem_cons_self, hnodup⟩, hf, ?_⟩
          exact fun g hg hmem => hseen g hg (List.mem_cons_of_mem f hmem)
        · rintro ⟨⟨hnew, hnodup⟩, -, hseen⟩
          refine ⟨hnodup, fun g hg hmem => ?_⟩
          rcases List.mem_cons.mp hmem with rfl | hmem
          · exact hnew hg
          · exact hseen g hg hmem

theorem ancestors_of_find? {t : ClassTable} {name : String} {c : Class}
    (h : t.find? name = some c) : t.ancestors name = .ok (chain t.classes c.name) := by
  rw [ancestors, get_eq_ok_iff.mpr h]
  rfl

theorem slots_of_find? {t : ClassTable} {name : String} {c : Class} (h : t.find? name = some c) :
    t.slots name = .ok ((chain t.classes c.name).reverse.flatMap (·.fields)) := by
  rw [slots, ancestors_of_find? h]
  rfl

/-- The ways in which a class is registered or refused. -/
theorem subclass_cases {t : ClassTable} (h : Stacked t.classes) (parent name : String)
    (fields : List String) :
    (t.find? parent = none ∧ t.subclass parent name fields = .error (.unknownClass parent)) ∨
    ∃ p, t.find? parent = some p ∧
      ((t.contains name = true ∧ t.subclass parent name fields = .error (.duplicateClass name)) ∨
      (t.contains name = false ∧
        ((∃ f, firstRepeated ((chain t.classes p.name).reverse.flatMap (·.fields)) fields = some f ∧
          t.subclass parent name fields = .error (.duplicateSlot f name)) ∨
        (firstRepeated ((chain t.classes p.name).reverse.flatMap (·.fields)) fields = none ∧
          t.subclass parent name fields =
            .ok (⟨name, some p.name, fields, .empty⟩,
              ⟨⟨name, some p.name, fields, .empty⟩ :: t.classes⟩))))) := by
  cases hfind : t.find? parent with
  | none =>
      refine .inl ⟨rfl, ?_⟩
      rw [subclass, get_eq_error_iff.mpr ⟨hfind, rfl⟩]
      rfl
  | some p =>
      refine .inr ⟨p, rfl, ?_⟩
      have hslots := slots_of_find? (h.find?_name (mem_of_find? hfind).1)
      rw [subclass, get_eq_ok_iff.mpr hfind]
      dsimp only [bind, Except.bind]
      cases hcontains : t.contains name with
      | true => exact .inl ⟨rfl, rfl⟩
      | false =>
          refine .inr ⟨rfl, ?_⟩
          rw [hslots]
          dsimp only
          cases firstRepeated ((chain t.classes p.name).reverse.flatMap (·.fields)) fields with
          | some f => exact .inl ⟨f, rfl, rfl⟩
          | none => exact .inr ⟨rfl, rfl⟩

/-- What a registration says: the superclass exists, the name and the fields are new. -/
theorem exists_of_subclass {t t' : ClassTable} (h : Stacked t.classes) {parent name : String}
    {fields : List String} {c : Class} (hok : t.subclass parent name fields = .ok (c, t')) :
    ∃ p, t.find? parent = some p ∧ t.find? name = none ∧
      firstRepeated ((chain t.classes p.name).reverse.flatMap (·.fields)) fields = none ∧
      c = ⟨name, some p.name, fields, .empty⟩ ∧ t' = ⟨c :: t.classes⟩ := by
  obtain ⟨-, herror⟩ | ⟨p, hp, ⟨-, herror⟩ | ⟨hcontains, ⟨f, -, herror⟩ | ⟨hfields, hok'⟩⟩⟩ :=
    subclass_cases h parent name fields
  · exact nomatch herror.symm.trans hok
  · exact nomatch herror.symm.trans hok
  · exact nomatch herror.symm.trans hok
  · obtain ⟨rfl, rfl⟩ := Prod.mk.inj (Except.ok.inj (hok'.symm.trans hok))
    rw [contains] at hcontains
    exact ⟨p, hp, by simpa using hcontains, hfields, rfl, rfl⟩

/-- A class with a method put under a selector. -/
def withMethod (owner : String) (selector : String) (m : Method) (c : Class) : Class :=
  if c.name = owner then { c with methods := c.methods.put selector m } else c

theorem withMethod_keeps (owner selector : String) (m : Method) (c : Class) :
    (withMethod owner selector m c).name = c.name ∧
      (withMethod owner selector m c).parent = c.parent ∧
      (withMethod owner selector m c).fields = c.fields := by
  rw [withMethod]
  split_ifs <;> exact ⟨rfl, rfl, rfl⟩

/-- The ways in which a method is installed or refused. -/
theorem define_cases (t : ClassTable) (className selector : String) (params : List String)
    (body : Node) :
    (t.find? className = none ∧
      t.define className selector params body = .error (.unknownClass className)) ∨
    ∃ c, t.find? className = some c ∧
      ((Selector.arity selector ≠ params.length ∧ t.define className selector params body =
        .error (.arityMismatch (Selector.arity selector) params.length)) ∨
      (Selector.arity selector = params.length ∧ t.define className selector params body =
        .ok (⟨selector, params, body, c.name⟩, c.methods.contains selector,
          ⟨t.classes.map (withMethod c.name selector ⟨selector, params, body, c.name⟩)⟩))) := by
  cases hfind : t.find? className with
  | none =>
      refine .inl ⟨rfl, ?_⟩
      rw [define, get_eq_error_iff.mpr ⟨hfind, rfl⟩]
      rfl
  | some c =>
      refine .inr ⟨c, rfl, ?_⟩
      rw [define, get_eq_ok_iff.mpr hfind]
      dsimp only [bind, Except.bind]
      split_ifs with harity
      · exact .inl ⟨harity, rfl⟩
      · exact .inr ⟨not_not.mp harity, rfl⟩

/-- What a definition says: the class exists, and the parameters are as many as the selector takes. -/
theorem exists_of_define {t t' : ClassTable} {className selector : String} {params : List String}
    {body : Node} {m : Method} {replaced : Bool}
    (h : t.define className selector params body = .ok (m, replaced, t')) :
    ∃ c, t.find? className = some c ∧ Selector.arity selector = params.length ∧
      m = ⟨selector, params, body, c.name⟩ ∧ replaced = c.methods.contains selector ∧
      t' = ⟨t.classes.map (withMethod c.name selector m)⟩ := by
  obtain ⟨-, herror⟩ | ⟨c, hc, ⟨-, herror⟩ | ⟨harity, hok⟩⟩ :=
    define_cases t className selector params body
  · exact nomatch herror.symm.trans h
  · exact nomatch herror.symm.trans h
  · cases hok.symm.trans h
    exact ⟨c, hc, harity, rfl, rfl, rfl⟩

end ClassTable

/-! Methods -/

namespace OrderedMap

variable {α β : Type} [DecidableEq α]

theorem mem_of_mem_set {k : α} {v : β} {l : List (α × β)} {e : α × β} (h : e ∈ set k v l) :
    e = (k, v) ∨ e ∈ l := by
  induction l with
  | nil => exact .inl (List.mem_singleton.mp h)
  | cons head rest ih =>
      obtain ⟨a, b⟩ := head
      rw [set] at h
      split_ifs at h with ha
      · subst ha
        rcases List.mem_cons.mp h with rfl | h
        · exact .inl rfl
        · exact .inr (List.mem_cons_of_mem _ h)
      · rcases List.mem_cons.mp h with rfl | h
        · exact .inr List.mem_cons_self
        · exact (ih h).imp_right (List.mem_cons_of_mem _)

theorem mem_of_find {k : α} {v : β} {l : List (α × β)} (h : find k l = some v) : (k, v) ∈ l := by
  induction l with
  | nil => cases h
  | cons head rest ih =>
      obtain ⟨a, b⟩ := head
      rw [find] at h
      split_ifs at h with ha
      · subst ha
        obtain rfl := Option.some.inj h
        exact List.mem_cons_self
      · exact List.mem_cons_of_mem _ (ih h)

end OrderedMap

/-- A method that stands under a selector of a class: it knows both, and takes as many arguments as the
selector carries. -/
structure Method.Fits (m : Method) (selector owner : String) : Prop where
  selector_eq : m.selector = selector
  owner_eq : m.owner = owner
  length_params : m.params.length = Selector.arity selector

namespace ClassTable

/-- A table of classes that were registered one after another and whose methods fit their places. -/
structure WellFormed (t : ClassTable) : Prop where
  stacked : Stacked t.classes
  methods : ∀ c ∈ t.classes, ∀ e ∈ c.methods.entries, e.2.Fits e.1 c.name

theorem WellFormed.initial : ClassTable.initial.WellFormed := by
  refine ⟨.root rfl rfl .nil, ?_⟩
  intro c hc e he
  obtain rfl := List.mem_singleton.mp hc
  cases he

theorem WellFormed.subclass {t t' : ClassTable} (ht : t.WellFormed) {parent name : String}
    {fields : List String} {c : Class} (h : t.subclass parent name fields = .ok (c, t')) :
    t'.WellFormed := by
  obtain ⟨p, hp, hunknown, hfields, rfl, rfl⟩ := exists_of_subclass ht.stacked h
  obtain ⟨hmem, -⟩ := mem_of_find? hp
  obtain ⟨hnodup, hdisjoint⟩ := firstRepeated_eq_none_iff.mp hfields
  have halias : name ≠ rootAlias := by
    obtain ⟨root, hroot, hname⟩ := ht.stacked.exists_root
    rintro rfl
    have hfound : t.find? rootAlias = some root := by
      rw [← ht.stacked.find?_name hroot, find?, find?, hname]
      rfl
    exact nomatch hfound.symm.trans hunknown
  refine ⟨.derived ht.stacked ?_ halias rfl ⟨p, hmem, rfl⟩ ?_, ?_⟩
  · rintro d hd rfl
    exact nomatch (ht.stacked.find?_name hd).symm.trans hunknown
  · refine List.nodup_append'.mpr ⟨ht.stacked.chain_fields_nodup hmem, hnodup, ?_⟩
    exact fun f hf hf' => hdisjoint f hf' hf
  · intro c hc e he
    rcases List.mem_cons.mp hc with rfl | hc
    · cases he
    · exact ht.methods c hc e he

theorem WellFormed.define {t t' : ClassTable} (ht : t.WellFormed) {className selector : String}
    {params : List String} {body : Node} {m : Method} {replaced : Bool}
    (h : t.define className selector params body = .ok (m, replaced, t')) : t'.WellFormed := by
  obtain ⟨c, hc, harity, rfl, -, rfl⟩ := exists_of_define h
  have hkeeps := withMethod_keeps c.name selector ⟨selector, params, body, c.name⟩
  refine ⟨ht.stacked.map (fun d => (hkeeps d).1) (fun d => (hkeeps d).2.1)
    fun d => (hkeeps d).2.2, ?_⟩
  intro d' hd' e he
  obtain ⟨d, hd, rfl⟩ := List.mem_map.mp hd'
  rw [(hkeeps d).1]
  rw [withMethod] at he
  split_ifs at he with hname
  · rcases OrderedMap.mem_of_mem_set he with rfl | he
    · exact ⟨rfl, hname.symm, harity.symm⟩
    · exact ht.methods d hd e he
  · exact ht.methods d hd e he

end ClassTable

end Parley
