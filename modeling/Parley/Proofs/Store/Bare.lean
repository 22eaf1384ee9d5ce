import Parley.Machine.Dispatch
import Parley.Proofs.ClassTable.Registration
import Parley.Proofs.Except
import Parley.Proofs.Node.Bare

/-! Stores without places. The code in a store is that of blocks, methods and activations; nothing else of
a store has places. What is read from the store without them is what is read from the store, where that
is code without its places, and what is written can be written before or after the places are dropped. -/

namespace Parley

/-! Maps -/

namespace OrderedMap

variable {α β γ : Type}

/-- The map with something done to every value. -/
def mapValues (f : β → γ) (m : OrderedMap α β) : OrderedMap α γ :=
  ⟨m.entries.map fun e => (e.1, f e.2)⟩

@[simp] theorem keys_mapValues (f : β → γ) (m : OrderedMap α β) : (m.mapValues f).keys = m.keys := by
  simp [keys, mapValues]

theorem mapValues_mapValues_self {f : β → β} (hf : ∀ b, f (f b) = f b) (m : OrderedMap α β) :
    (m.mapValues f).mapValues f = m.mapValues f := by
  simp [mapValues, hf]

variable [DecidableEq α]

theorem get?_mapValues (f : β → γ) (m : OrderedMap α β) (k : α) :
    (m.mapValues f).get? k = (m.get? k).map f := by
  obtain ⟨entries⟩ := m
  simp only [get?, mapValues]
  induction entries with
  | nil => rfl
  | cons e rest ih =>
      rw [List.map_cons, find, find, ih]
      split_ifs <;> rfl

@[simp] theorem contains_mapValues (f : β → γ) (m : OrderedMap α β) (k : α) :
    (m.mapValues f).contains k = m.contains k := by
  rw [contains, contains, get?_mapValues, Option.isSome_map]

theorem put_mapValues (f : β → γ) (m : OrderedMap α β) (k : α) (v : β) :
    (m.mapValues f).put k (f v) = (m.put k v).mapValues f := by
  obtain ⟨entries⟩ := m
  simp only [put, mapValues, OrderedMap.mk.injEq]
  induction entries with
  | nil => rfl
  | cons e rest ih =>
      rw [List.map_cons, set, set, ih]
      split_ifs <;> rfl

end OrderedMap

/-! Classes -/

def Method.bare (m : Method) : Method := { m with body := m.body.bare }

def Class.bare (c : Class) : Class := { c with methods := c.methods.mapValues Method.bare }

def ClassTable.bare (t : ClassTable) : ClassTable := ⟨t.classes.map Class.bare⟩

@[simp] theorem Method.bare_bare (m : Method) : m.bare.bare = m.bare := by simp [Method.bare]

@[simp] theorem Class.bare_bare (c : Class) : c.bare.bare = c.bare := by
  simp [Class.bare, OrderedMap.mapValues_mapValues_self Method.bare_bare]

namespace ClassTable

variable (t : ClassTable)

@[simp] theorem bare_bare : t.bare.bare = t.bare := by simp [bare]

theorem find?_bare (name : String) : t.bare.find? name = (t.find? name).map Class.bare := by
  rw [find?, bare, List.find?_map]
  rfl

@[simp] theorem contains_bare (name : String) : t.bare.contains name = t.contains name := by
  rw [contains, contains, find?_bare, Option.isSome_map]

theorem get_bare (name : String) : t.bare.get name = (t.get name).map Class.bare := by
  rw [get, get, find?_bare]
  cases t.find? name <;> rfl

theorem ancestors_bare (name : String) :
    t.bare.ancestors name = (t.ancestors name).map (List.map Class.bare) := by
  rw [ancestors, ancestors, get_bare]
  cases t.get name with
  | error e => rfl
  | ok c =>
      have hchain := chain_map (f := Class.bare) (fun _ => rfl) (fun _ => rfl) t.classes c.name
      exact congrArg Except.ok hchain

theorem superclass_bare (name : String) :
    t.bare.superclass name = (t.superclass name).map (Option.map Class.bare) := by
  rw [superclass, superclass, get_bare]
  cases t.get name with
  | error e => rfl
  | ok c =>
      obtain ⟨_, parent, _, _⟩ := c
      cases parent with
      | none => rfl
      | some parent =>
          simp only [Except.map, Class.bare, bind, Except.bind, get_bare]
          cases t.get parent <;> rfl

@[simp] theorem slots_bare (name : String) : t.bare.slots name = t.slots name := by
  rw [slots, slots, ancestors_bare]
  cases t.ancestors name with
  | error e => rfl
  | ok classes =>
      refine congrArg Except.ok ?_
      rw [← List.map_reverse, List.flatMap_map]
      rfl

@[simp] theorem selectors_bare (name : String) : t.bare.selectors name = t.selectors name := by
  rw [selectors, selectors, ancestors_bare]
  cases t.ancestors name with
  | error e => rfl
  | ok classes =>
      have hkeys : (classes.map Class.bare).flatMap (·.methods.keys) =
          classes.flatMap (·.methods.keys) := by
        simp only [List.flatMap_map, Class.bare, OrderedMap.keys_mapValues]
      simp only [Except.map, bind, Except.bind, hkeys]

theorem lookup_bare (className selector : String) :
    t.bare.lookup className selector = (t.lookup className selector).map (Option.map Method.bare) := by
  rw [lookup, lookup, ancestors_bare]
  cases t.ancestors className with
  | error e => rfl
  | ok classes =>
      refine congrArg Except.ok ?_
      rw [firstDefinition, firstDefinition, List.findSome?_map, List.map_findSome?]
      refine congrArg (List.findSome? · classes) (funext fun c => ?_)
      exact OrderedMap.get?_mapValues Method.bare c.methods selector

theorem lookupSuper_bare (owner selector : String) :
    t.bare.lookupSuper owner selector = (t.lookupSuper owner selector).map (Option.map Method.bare) := by
  rw [lookupSuper, lookupSuper, superclass_bare]
  rcases t.superclass owner with e | _ | c
  · rfl
  · rfl
  · exact lookup_bare t c.name selector

theorem subclass_bare (parent name : String) (fields : List String) :
    t.bare.subclass parent name fields =
      (t.subclass parent name fields).map fun r => (r.1.bare, r.2.bare) := by
  rw [subclass, subclass, get_bare]
  cases t.get parent with
  | error e => rfl
  | ok p =>
      have hname : p.bare.name = p.name := rfl
      simp only [Except.map, bind, Except.bind, contains_bare, hname, slots_bare]
      split_ifs
      · rfl
      · cases t.slots p.name with
        | error e => rfl
        | ok slots =>
            dsimp only
            cases firstRepeated slots fields <;> rfl

theorem define_bare (className selector : String) (params : List String) (body : Node) :
    t.bare.define className selector params body.bare =
      (t.define className selector params body).map fun r => (r.1.bare, r.2.1, r.2.2.bare) := by
  rw [define, define, get_bare]
  cases t.get className with
  | error e => rfl
  | ok c =>
      have hname : c.bare.name = c.name := rfl
      have hcontains : c.bare.methods.contains selector = c.methods.contains selector :=
        OrderedMap.contains_mapValues Method.bare c.methods selector
      simp only [Except.map, bind, Except.bind, hname, hcontains]
      split_ifs
      · rfl
      · refine congrArg (fun classes => Except.ok (_, _, ClassTable.mk classes)) ?_
        rw [bare, List.map_map, List.map_map]
        refine List.map_congr_left fun d _ => ?_
        have hput := d.methods.put_mapValues Method.bare selector ⟨selector, params, body, c.name⟩
        simp only [Function.comp_apply, apply_ite Class.bare]
        exact congrArg (fun methods : OrderedMap String Method =>
          if d.name = c.name then { d with methods } else d.bare) hput

end ClassTable

/-! Stores -/

def Block.bare (b : Block) : Block := { b with body := b.body.bare }

def Activation.bare (a : Activation) : Activation := { a with method := a.method.bare }

/-- A store without the places of its code. -/
def Store.bare (s : Store) : Store :=
  { s with
    blocks := s.blocks.map Block.bare
    activations := s.activations.map Activation.bare
    classes := s.classes.bare }

@[simp] theorem Block.bare_bare (b : Block) : b.bare.bare = b.bare := by simp [Block.bare]

@[simp] theorem Activation.bare_bare (a : Activation) : a.bare.bare = a.bare := by
  simp [Activation.bare]

theorem getD_map {α β : Type} (f : α → β) (a : Array α) (i : Nat) (d : α) :
    (a.map f).getD i (f d) = f (a.getD i d) := by
  rw [Array.getD_eq_getD_getElem?, Array.getD_eq_getD_getElem?, Array.getElem?_map, Option.getD_map]

namespace Store

variable (s : Store)

@[simp] theorem bare_bare : s.bare.bare = s.bare := by
  have hblock : Block.bare ∘ Block.bare = Block.bare := funext Block.bare_bare
  have hactivation : Activation.bare ∘ Activation.bare = Activation.bare :=
    funext Activation.bare_bare
  simp [bare, hblock, hactivation]

/-! Reading -/

@[simp] theorem classes_bare : s.bare.classes = s.classes.bare := rfl

@[simp] theorem list_bare (r : ListRef) : s.bare.list r = s.list r := rfl

@[simp] theorem object_bare (r : ObjectRef) : s.bare.object r = s.object r := rfl

@[simp] theorem className_bare (v : Value) : s.bare.className v = s.className v := rfl

@[simp] theorem block_bare (r : BlockRef) : s.bare.block r = (s.block r).bare :=
  getD_map Block.bare s.blocks r.index default

@[simp] theorem activation_bare (r : ActivationRef) : s.bare.activation r = (s.activation r).bare :=
  getD_map Activation.bare s.activations r.index default

@[simp] theorem literalWithin_bare (fuel : Nat) (path : List ListRef) (v : Value) :
    s.bare.literalWithin fuel path v = s.literalWithin fuel path v := by
  have hsource (r : BlockRef) : (s.bare.block r).source = (s.block r).source := by
    rw [block_bare, Block.source, Block.bare, Node.source_bare, Block.source]
  induction fuel generalizing path v with
  | zero =>
      unfold literalWithin
      cases v with
      | block r => exact congrArg Except.ok (hsource r)
      | _ => rfl
  | succ fuel ih =>
      unfold literalWithin
      cases v with
      | block r => exact congrArg Except.ok (hsource r)
      | list r =>
          have hitems : s.bare.literalWithin fuel (r :: path) = s.literalWithin fuel (r :: path) :=
            funext fun v => ih (r :: path) v
          dsimp only
          rw [hitems, list_bare]
      | _ => rfl

@[simp] theorem literal_bare (v : Value) : s.bare.literal v = s.literal v :=
  s.literalWithin_bare _ [] v

@[simp] theorem display_bare (v : Value) : s.bare.display v = s.display v := by
  cases v with
  | string text => rfl
  | _ => exact s.literal_bare _

theorem inspectWithin_bare (fuel : Nat) (path : List ListRef) (since : List ObjectRef) (v : Value) :
    s.bare.inspectWithin fuel path since v = s.inspectWithin fuel path since v := by
  have hlabel (r : BlockRef) : (s.bare.block r).label = (s.block r).label := by
    rw [block_bare]
    rfl
  induction fuel generalizing path since v with
  | zero =>
      unfold inspectWithin
      cases v with
      | block r =>
          dsimp only
          rw [hlabel]
      | _ => rfl
  | succ fuel ih =>
      unfold inspectWithin
      cases v with
      | block r =>
          dsimp only
          rw [hlabel]
      | list r =>
          have hitems : s.bare.inspectWithin fuel (r :: path) [] = s.inspectWithin fuel (r :: path) [] :=
            funext fun v => ih (r :: path) [] v
          dsimp only
          rw [hitems, list_bare]
      | object r => simp only [ih, object_bare]
      | _ => rfl

@[simp] theorem inspectAll_bare (vs : List Value) : s.bare.inspectAll vs = s.inspectAll vs := by
  have hinspect : s.bare.inspect = s.inspect := funext fun v => s.inspectWithin_bare _ [] [] v
  rw [inspectAll, inspectAll, hinspect]

theorem equalWithin_bare (fuel : Nat) (path : List (ListRef × ListRef)) (v w : Value) :
    s.bare.equalWithin fuel path v w = s.equalWithin fuel path v w := by
  induction fuel generalizing path v w with
  | zero =>
      unfold equalWithin
      cases v <;> cases w <;> rfl
  | succ fuel ih =>
      unfold equalWithin
      cases v with
      | list a =>
          cases w with
          | list b => simp only [ih, list_bare]
          | _ => rfl
      | _ => cases w <;> rfl

@[simp] theorem equal?_bare : s.bare.equal? = s.equal? :=
  funext fun v => funext fun w => s.equalWithin_bare _ [] v w

@[simp] theorem includes?_bare : s.bare.includes? = s.includes? := by
  funext items v
  rw [includes?, includes?, equal?_bare]

@[simp] theorem respondsTo_bare (receiver : Value) (selector : String) :
    s.bare.respondsTo receiver selector = s.respondsTo receiver selector := by
  cases receiver with
  | object r =>
      simp only [respondsTo, object_bare, classes_bare, ClassTable.lookup_bare]
      rcases s.classes.lookup (s.object r).cls.name selector with e | _ | m <;> rfl
  | _ => rfl

@[simp] theorem instantiate_bare (name : String) (values : List (String × Value)) :
    s.bare.instantiate name values = s.instantiate name values := by
  rw [instantiate, instantiate, classes_bare, ClassTable.get_bare]
  cases s.classes.get name with
  | error e => rfl
  | ok c =>
      have hname : c.bare.name = c.name := rfl
      simp only [Except.map, bind, Except.bind, hname, ClassTable.slots_bare]

/-! Writing -/

theorem newFrame_bare (parent : Option FrameRef) (bindings : List (String × Value)) :
    s.bare.newFrame parent bindings =
      ((s.newFrame parent bindings).1, (s.newFrame parent bindings).2.bare) := rfl

theorem newBlock_bare (b : Block) :
    s.bare.newBlock b.bare = ((s.newBlock b).1, (s.newBlock b).2.bare) := by
  simp [newBlock, bare]

theorem newActivation_bare (m : Method) (receiver : Value) :
    s.bare.newActivation m.bare receiver =
      ((s.newActivation m receiver).1, (s.newActivation m receiver).2.bare) := by
  simp [newActivation, bare, Activation.bare]

theorem retire_bare (r : ActivationRef) : s.bare.retire r = (s.retire r).bare := by
  simp only [retire, bare, Store.mk.injEq, true_and, and_true]
  refine Array.ext_getElem? fun i => ?_
  rw [Array.getElem?_modify, Array.getElem?_map, Array.getElem?_map, Array.getElem?_modify]
  split_ifs
  · cases s.activations[i]? <;> rfl
  · rfl

theorem installMethod_bare (c : ClassRef) (name : String) (b : Block) :
    s.bare.installMethod c name b.bare = (s.installMethod c name b).map bare := by
  have hdefine : s.bare.classes.define c.name (methodSelector (Selector.normalize name) b.bare.params)
      b.bare.params b.bare.body = _ :=
    s.classes.define_bare c.name (methodSelector (Selector.normalize name) b.params) b.params b.body
  rw [installMethod, installMethod, hdefine]
  cases s.classes.define c.name (methodSelector (Selector.normalize name) b.params) b.params b.body with
  | error e => rfl
  | ok defined =>
      obtain ⟨m, replaced, classes⟩ := defined
      cases replaced <;> rfl

end Store

end Parley
