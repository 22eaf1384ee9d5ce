import Parley.Proofs.Machine.Confinement
import Parley.Proofs.Session

/-! Isolation. Code changes nothing but what it can reach, and a method that is invoked neither sees nor
changes the frames of its sender, unless a block that has captured them is within its reach. The reach of
code in a scope is what its frame, its receiver, its home and the globals lead to; that of an invoked
method is what its receiver, its arguments and the globals lead to. Nothing is assumed of the store. -/

namespace Parley

/-- The cells from which code in a scope finds everything else. -/
def Scope.roots (scope : Scope) : List Cell :=
  .frame scope.env :: .frame Store.globals :: .value scope.self ::
    (scope.home.map Cell.activation).toList

/-- The cells from which an invoked method finds everything else. -/
def invocationRoots (receiver : Value) (args : List Value) : List Cell :=
  .frame Store.globals :: .value receiver :: args.map .value

/-- Of what there was in a store, only what has a property has got other contents. -/
structure Store.ChangesOnly (P : Cell → Prop) (s s' : Store) : Prop where
  bindings : ∀ r : FrameRef, r.index < s.frames.size → ¬P (.frame r) →
    (s'.frame r).bindings = (s.frame r).bindings
  items : ∀ r : ListRef, r.index < s.lists.size → ¬P (.value (.list r)) → s'.list r = s.list r
  slots : ∀ r : ObjectRef, r.index < s.objects.size → ¬P (.value (.object r)) →
    (s'.object r).slots = (s.object r).slots

namespace Machine

open Store

/-- The cells that an outcome hands on. -/
def Outcome.roots : Outcome → List Cell
  | .value v => [.value v]
  | .failure (.signal v _) => [.value v]
  | _ => []

section Reach

variable {s : Store}

theorem within_roots (scope : Scope) : scope.Within (s.region scope.roots) where
  env := .inl (reachable_of_mem List.mem_cons_self)
  self := .inl (reachable_of_mem (by simp [Scope.roots]))
  home a ha := .inl (reachable_of_mem (by simp [Scope.roots, Option.mem_def.mp ha]))

theorem within_global {inside : Cell → Prop} (hs : s.Confines inside) : Scope.global.Within inside where
  env := hs.globals
  self := hs.free rfl
  home _ ha := by cases ha

theorem within_invocationRoots {receiver : Value} {args : List Value} {p : Cell}
    (hp : p ∈ invocationRoots receiver args) : s.region (invocationRoots receiver args) p :=
  .inl (reachable_of_mem hp)

theorem confines_invocation (receiver : Value) (args : List Value) :
    s.Confines (s.region (invocationRoots receiver args)) :=
  confines_region List.mem_cons_self

/-- An invoked method stays in its reach. -/
theorem follows_invocation {outside : Store} (m : Method) (receiver : Value) (args : List Value) :
    Follows (s.region (invocationRoots receiver args)) outside (s.invoke m receiver args)
      ((s.blend (s.region (invocationRoots receiver args)) outside).invoke m receiver args) := by
  refine follows_invoke (confines_invocation receiver args) m ?_ fun v hv => ?_
  · exact within_invocationRoots (by simp [invocationRoots])
  · exact within_invocationRoots (by simp [invocationRoots, hv])

theorem Outcome.Within.roots {inside : Cell → Prop} {outcome : Outcome} (h : outcome.Within inside) :
    ∀ p ∈ outcome.roots, inside p := by
  cases outcome with
  | value v => exact List.forall_mem_singleton.mpr h
  | failure f =>
      cases f with
      | signal v home => exact List.forall_mem_singleton.mpr h
      | error e site => exact List.forall_mem_nil _
  | crash c => exact List.forall_mem_nil _

end Reach

section Settling

variable {limit : Limit} {depth : Nat} {task : Task} {scope : Scope} {act : Action × Store}
  {s s' : Store} {outcome : Outcome}

theorem evolves_of_settle (h : limit.settle depth task scope act = some (outcome, s')) :
    act.2.Evolves s' := by
  obtain ⟨fuel, hrun⟩ := settle_eq_some_iff.mp h
  cases hstep : carryOut limit task scope [] depth act with
  | inl c =>
      rw [hstep] at hrun
      exact (evolves_carryOut hstep).trans (evolves_of_run hrun)
  | inr r =>
      rw [hstep] at hrun
      cases hrun
      exact evolves_of_carryOut_ending hstep

/-- The task that invokes a method takes up no more than the value of the method, so its scope makes no
difference. -/
theorem settle_invoke (limit : Limit) (depth : Nat) (task : Task) (scope scope' : Scope) (s : Store)
    (m : Method) (receiver : Value) (args : List Value) :
    limit.settle depth task scope (s.invoke m receiver args) =
      limit.settle depth task scope' (s.invoke m receiver args) := by
  rw [invoke]
  split_ifs
  · rw [settle_request, settle_request]
    refine congrArg (Option.bind _) (funext fun r => ?_)
    obtain ⟨outcome, s'⟩ := r
    cases outcome with
    | value v => simp only [takeUp, resume, settle_finish]
    | failure e =>
        simp only [takeUp, Work.isGuarded, if_true, recover]
        split
        · split_ifs
          · simp only [settle_finish]
          · simp only [settle_fail]
        · simp only [settle_fail]
    | crash c => rfl
  · simp only [Action.error, settle_fail]

/-- Code that stays in its reach changes nothing else: its store is the same one when it is blended with
the store that it began in. -/
theorem changesOnly_of_settle {roots : List Cell} (hact : Follows (s.region roots) s act act)
    (hscope : scope.Within (s.region roots)) (hevolves : s.Evolves act.2)
    (h : limit.settle depth task scope act = some (outcome, s')) :
    s.ChangesOnly (s.Reachable roots) s' := by
  have hblend : limit.settle depth task scope act =
      (limit.settle depth task scope act).map (blendEnd (s.region roots) s) := by
    rw [← settle_blend hact.within hscope, ← hact.eq]
  rw [h] at hblend
  have hsame : s' = s'.blend (s.region roots) s := congrArg Prod.snd (Option.some.inj hblend)
  have hretains : s.Retains s' := Store.Evolves.retains (hevolves.trans (evolves_of_settle h))
  have hout : ∀ p : Cell, p.IsIn s → ¬s.Reachable roots p → ¬s.region roots p :=
    fun p hin hp hregion => hregion.elim hp fun hnew => hnew hin
  refine ⟨fun r hr hp => ?_, fun r hr hp => ?_, fun r hr hp => ?_⟩
  · rw [hsame, bindings_blend_of_not (hout _ hr hp) (hretains.frames.lt_size hr) hr]
  · rw [hsame, list_blend_of_not (hout _ ⟨rfl, hr⟩ hp) (hretains.lists.lt_size hr) hr]
  · rw [hsame, slots_blend_of_not (hout _ ⟨rfl, hr⟩ hp) (hretains.objects.lt_size hr) hr]

end Settling

/-- Code writes only what it can reach. However the evaluation of a node ends, all that existed before and
is out of reach has the contents that it had. In particular a method changes no local frame, be it of its
sender or not, unless the method can reach a block that has captured the frame. -/
theorem writes_reachable (limit : Limit) (depth : Nat) :
    (∀ n scope s outcome s', evaluate limit depth (.node n) scope s = some (outcome, s') →
      s.ChangesOnly (s.Reachable scope.roots) s') ∧
    ∀ task scope m receiver args (s : Store) outcome s',
      limit.settle depth task scope (s.invoke m receiver args) = some (outcome, s') →
      s.ChangesOnly (s.Reachable (invocationRoots receiver args)) s' ∧
      ∀ env : FrameRef, env.index < s.frames.size → ¬s.Encloses env Store.globals →
        (∀ b, s.Reachable (invocationRoots receiver args) (.value (.block b)) →
          ¬s.Encloses env (s.block b).env) →
        (s'.frame env).bindings = (s.frame env).bindings := by
  constructor
  · intro n scope s outcome s' h
    rw [evaluate] at h
    have hs : s.Confines (s.region scope.roots) := confines_region (by simp [Scope.roots])
    have hfollows := @follows_beginNode _ s s scope hs (within_roots scope) n
    rw [blend_self] at hfollows
    exact changesOnly_of_settle hfollows (within_roots scope) (evolves_begin s scope (.node n)) h
  · intro task scope m receiver args s outcome s' h
    rw [settle_invoke limit depth task scope .global] at h
    have hfollows := @follows_invocation s s m receiver args
    rw [blend_self] at hfollows
    have hevolves : s.Evolves (s.invoke m receiver args).2 :=
      (@serves_invoke callTerms s args m receiver trivial trivial fun _ _ => trivial).evolves
    have honly := changesOnly_of_settle hfollows
      (within_global (confines_invocation receiver args)) hevolves h
    refine ⟨honly, fun env henv hglobals hblocks => honly.bindings env henv fun hreach => ?_⟩
    rcases hreach.exists_encloses with ⟨root, hroot, hencloses⟩ | ⟨b, hb, hencloses⟩
    · have hroot : root = Store.globals := by simpa [invocationRoots] using hroot
      exact hglobals (hroot ▸ hencloses)
    · exact hblocks b hb hencloses

/-- A fresh store with one more frame, in which some code has bound `x`. -/
def storeWithLocal (v : Value) : Store :=
  ((Store.initial false).newFrame (some Store.globals) [("x", v)]).2

/-- A method without arguments that is invoked for nil reaches the empty global frame and nothing else. -/
theorem reachable_storeWithLocal {v : Value} {p : Cell}
    (h : (storeWithLocal v).Reachable (invocationRoots .nil []) p) :
    p = .frame Store.globals ∨ p = .value .nil := by
  obtain ⟨root, hroot, hpath⟩ := h
  induction hpath with
  | refl => simpa [invocationRoots] using hroot
  | tail _ hlink ih =>
      rcases ih with rfl | rfl
      · cases hlink with
        | parent hparent => cases hparent
        | binding he => cases he
      · cases hlink

/-- A method that binds `x` and answers it. -/
def bindingMethod : Method :=
  ⟨"bind", [], .suite none .sequence
    [.store none (.define "x" "=") (.atom none (.integer 5)), .atom none (.variable "x")], "Object"⟩

/-- The method binds its own variable, and that of the other frame keeps its value. -/
theorem writes_reachable_binding : ∃ s', (Limit.frames 20).settle 0 (.message .nil "bind" []) .global
      ((storeWithLocal (.integer 1)).invoke bindingMethod .nil []) = some (.value (.integer 5), s') ∧
    (s'.frame ⟨1⟩).bindings.get? "x" = some (.integer 1) := by
  have hrun : (runOn (.frames 20) 20 (carryOut (.frames 20) (.message .nil "bind" []) .global [] 0
      ((storeWithLocal (.integer 1)).invoke bindingMethod .nil []))).any (fun r =>
        Interpreter.valueOf? r.1 == some (.integer 5)) = true := by
    decide +kernel
  obtain ⟨⟨outcome, s'⟩, hr, hvalue⟩ := (Option.any_eq_true _ _).mp hrun
  obtain rfl := Interpreter.eq_value_of_valueOf? (beq_iff_eq.mp hvalue)
  have hsettle := settle_eq_some_iff.mpr ⟨20, hr⟩
  refine ⟨s', hsettle, ?_⟩
  rw [((writes_reachable (.frames 20) 0).2 _ _ _ _ _ _ _ s' hsettle).2 ⟨1⟩ (by decide) ?_ ?_]
  · rfl
  · intro hencloses
    rcases hencloses.cases_head with heq | ⟨p, hparent, -⟩
    · cases heq
    · cases hparent
  · intro b hb
    rcases reachable_storeWithLocal hb with h | h
    · cases h
    · cases h

/-- A method does not observe what it cannot reach. In two stores with the same classes and the same things
in existence, which may have different contents where the receiver, the arguments and the globals do not
lead, the method comes to an end in both or in neither, to the same one, with the same output, and leaves
the same contents in all that is reachable and in all that is new. What the sender knows makes no
difference either. -/
theorem invocation_insensitive (limit : Limit) (depth : Nat) (task : Task) (scope scope' : Scope)
    (m : Method) (receiver : Value) (args : List Value) (s s' : Store)
    (hagrees : s.Agrees (s.Reachable (invocationRoots receiver args)) s') :
    (limit.settle depth task scope (s.invoke m receiver args) = none ↔
      limit.settle depth task scope' (s'.invoke m receiver args) = none) ∧
    ∀ outcome t, limit.settle depth task scope (s.invoke m receiver args) = some (outcome, t) →
      ∃ t', limit.settle depth task scope' (s'.invoke m receiver args) = some (outcome, t') ∧
        t.Agrees (fun p => s.Reachable (invocationRoots receiver args) p ∨
          t.Reachable (outcome.roots ++ invocationRoots receiver args) p ∨ ¬p.IsIn s) t' := by
  have hs := @confines_invocation s receiver args
  have hblend : s.blend (s.region (invocationRoots receiver args)) s' = s' :=
    hagrees.blend_eq fun p hin hp => hp.resolve_right fun hnew => hnew hin
  have hfollows := @follows_invocation s s' m receiver args
  rw [hblend] at hfollows
  have hsettle : limit.settle depth task .global (s'.invoke m receiver args) =
      (limit.settle depth task .global (s.invoke m receiver args)).map
        (blendEnd (s.region (invocationRoots receiver args)) s') := by
    rw [hfollows.eq, settle_blend hfollows.within (within_global hs)]
  -- nothing is known of the senders' scopes, while the global one lies in every region
  rw [settle_invoke limit depth task scope .global, settle_invoke limit depth task scope' .global, hsettle]
  refine ⟨Option.map_eq_none_iff.symm, fun outcome t ht => ?_⟩
  rw [ht]
  refine ⟨_, rfl, agrees_blend.mono ?_⟩
  obtain ⟨hconfines, houtcome⟩ := within_of_settle hfollows.within (within_global hs) ht
  have hroots : ∀ p ∈ outcome.roots ++ invocationRoots receiver args,
      s.region (invocationRoots receiver args) p :=
    List.forall_mem_append.mpr ⟨houtcome.roots, fun p => within_invocationRoots⟩
  rintro p (hp | hp | hp)
  · exact .inl hp
  · exact hconfines.reachable hroots hp
  · exact .inr hp

/-- A method that answers `x`, or 3 where no `x` is bound. -/
def readingMethod : Method :=
  ⟨"read", [], .suite none .sequence
    [.send none (.block none [] none [.atom none (.variable "x")]) "catch:"
      [.block none [] none [.atom none (.integer 3)]]], "Object"⟩

/-- The method does not find the variable of its sender, whatever the value of that is. -/
theorem invocation_insensitive_reading : ∃ t t',
    (Limit.frames 20).settle 0 (.message .nil "read" []) ⟨⟨1⟩, .nil, none⟩
      ((storeWithLocal (.integer 1)).invoke readingMethod .nil []) = some (.value (.integer 3), t) ∧
    (Limit.frames 20).settle 0 (.message .nil "read" []) ⟨⟨1⟩, .nil, none⟩
      ((storeWithLocal (.integer 2)).invoke readingMethod .nil []) = some (.value (.integer 3), t') ∧
    (t'.frame ⟨2⟩).bindings = (t.frame ⟨2⟩).bindings ∧ t'.output = t.output := by
  have hrun : (runOn (.frames 20) 20 (carryOut (.frames 20) (.message .nil "read" []) ⟨⟨1⟩, .nil, none⟩
      [] 0 ((storeWithLocal (.integer 1)).invoke readingMethod .nil []))).any (fun r =>
        Interpreter.valueOf? r.1 == some (.integer 3)) = true := by
    decide +kernel
  obtain ⟨⟨outcome, t⟩, hr, hvalue⟩ := (Option.any_eq_true _ _).mp hrun
  obtain rfl := Interpreter.eq_value_of_valueOf? (beq_iff_eq.mp hvalue)
  have hsettle := settle_eq_some_iff.mpr ⟨20, hr⟩
  have hagrees : (storeWithLocal (.integer 1)).Agrees
      ((storeWithLocal (.integer 1)).Reachable (invocationRoots .nil []))
      (storeWithLocal (.integer 2)) := by
    refine { Store.Agrees.refl (storeWithLocal (.integer 1)) with parents := ?_, bindings := ?_ }
    · rintro ⟨_ | _ | i⟩ <;> rfl
    · intro r hreach
      rcases reachable_storeWithLocal hreach with h | h
      · cases h
        rfl
      · cases h
  obtain ⟨t', hsettle', ht'⟩ := (invocation_insensitive (.frames 20) 0 (.message .nil "read" [])
    ⟨⟨1⟩, .nil, none⟩ ⟨⟨1⟩, .nil, none⟩ readingMethod .nil [] _ _ hagrees).2 _ t hsettle
  exact ⟨t, t', hsettle, hsettle', ht'.bindings ⟨2⟩ (.inr (.inr (Nat.lt_irrefl 2))), ht'.output⟩

end Machine

end Parley
