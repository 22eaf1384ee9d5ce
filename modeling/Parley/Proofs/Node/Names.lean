import Parley.Proofs.Grammar.Forms
import Parley.Proofs.Node.Layout

/-! The names that code uses: those whose bindings it reads, makes or changes. A name that is used in a
program was written there, as a word of its own. -/

namespace Parley

open Parley.Grammar

/-- The name that a statement binds or assigns. -/
def Target.names : Target → List String
  | .define name _ | .assign name => [name]
  | .slot _ => []

/-- The names that a node uses itself, its parts apart. -/
def Node.names : Node → List String
  | .atom _ (.variable name) => [name]
  | .store _ target _ => target.names
  | _ => []

/-- No part of a node uses a name. -/
inductive Node.Avoids (name : String) : Node → Prop
  | intro {n : Node} (hnames : name ∉ n.names) (hoperands : ∀ m ∈ n.operands, Avoids name m)
      (hbody : ∀ origin params bodyOrigin statements,
        n = .block origin params bodyOrigin statements →
        Avoids name (.suite bodyOrigin .sequence statements)) : Avoids name n

namespace Node.Avoids

variable {name : String} {n m : Node}

theorem names (h : n.Avoids name) : name ∉ n.names := by
  obtain ⟨hnames, -, -⟩ := h
  exact hnames

theorem operand (h : n.Avoids name) (hm : m ∈ n.operands) : m.Avoids name := by
  obtain ⟨-, hoperands, -⟩ := h
  exact hoperands m hm

theorem body {origin bodyOrigin : Option Origin} {params : List String} {statements : List Node}
    (h : (Node.block origin params bodyOrigin statements).Avoids name) :
    (Node.suite bodyOrigin .sequence statements).Avoids name := by
  obtain ⟨-, -, hbody⟩ := h
  exact hbody _ _ _ _ rfl

theorem suite {statements : List Node} (h : ∀ m ∈ statements, m.Avoids name) (origin : Option Origin)
    (kind : SuiteKind) : (Node.suite origin kind statements).Avoids name :=
  .intro List.not_mem_nil h (fun _ _ _ _ => nofun)

end Node.Avoids

/-- The body of a block that does not exist. -/
theorem avoids_default (name : String) : (default : Node).Avoids name :=
  .intro List.not_mem_nil (List.forall_mem_nil _) (fun _ _ _ _ => nofun)

/-! Texts -/

namespace Grammar

/-- A name is one of the words of a text. -/
def Mentions (text name : String) : Prop :=
  ∃ t ∈ (scan text).tokens, t.kind = .name ∧ t.text = name

/-- A name is none of the words among some terminals. -/
def Unmentioned (xs : List Terminal) (name : String) : Prop :=
  ∀ x ∈ xs, x.token.kind = .name → x.token.text ≠ name

/-- The names that a tree uses itself, its parts apart. -/
def Tree.names : Tree → List String
  | .atom token =>
    match token.kind with
    | .integer | .string | .symbol | .slot => []
    | _ => [token.text]
  | .define _ name _ _ => [name.text]
  | .assign _ target _ _ => (Target.ofToken target).names
  | _ => []

/-- Whatever node a tree is converted to does not use a name. -/
def Tree.Avoids (name : String) (t : Tree) : Prop :=
  ∀ (file : Option String) (n : Node), Node.ofTree file t = .ok n → n.Avoids name

section Trees

variable {name : String} {t : Tree} {xs : List Terminal}

theorem names_ofWord (origin : Option Origin) (word : String) :
    (Node.atom origin (.ofWord word)).names ⊆ [word] := by
  by_cases hliteral : word ∈ literalWords
  · simp only [literalWords, List.mem_cons, List.not_mem_nil, or_false] at hliteral
    rcases hliteral with rfl | rfl | rfl | rfl | rfl <;> exact List.nil_subset _
  · rw [Atom.ofWord_eq_variable hliteral]
    exact List.Subset.refl _

theorem names_ofToken {token : Token} {a : Atom} (h : Atom.ofToken token = .ok a)
    (origin : Option Origin) : (Node.atom origin a).names ⊆ (Tree.atom token).names := by
  rw [Atom.ofToken] at h
  cases hkind : token.kind <;> simp only [hkind, Tree.names] at h ⊢
  case integer =>
      split at h
      · cases h
        exact List.nil_subset _
      · cases h
  all_goals first
    | (cases h; exact List.nil_subset _)
    | (cases h; exact names_ofWord origin token.text)

/-- The names of a node are among those of its tree. -/
theorem names_of_ofTree {file : Option String} {n : Node} (h : Node.ofTree file t = .ok n) :
    n.names ⊆ t.names := by
  cases t with
  | atom token =>
      obtain ⟨a, ha, hn⟩ := exists_of_bind_eq_ok h
      cases hn
      exact names_ofToken ha _
  | block span params bodySpan body =>
      obtain ⟨names, ns, rfl, -, -⟩ := exists_body h rfl
      exact List.nil_subset _
  | binary | keyword =>
      obtain ⟨r, -, hn⟩ := exists_of_bind_eq_ok h
      obtain ⟨a, -, hn⟩ := exists_of_bind_eq_ok hn
      cases hn
      exact List.nil_subset _
  | _ =>
      obtain ⟨a, -, hn⟩ := exists_of_bind_eq_ok h
      cases hn
      exact List.Subset.refl _

theorem Tree.avoids_of_forall₂ {file : Option String} {ts : List Tree} {ns : List Node}
    (hts : ∀ t ∈ ts, t.Avoids name)
    (h : List.Forall₂ (fun t n => Node.ofTree file t = .ok n) ts ns) : ∀ n ∈ ns, n.Avoids name := by
  intro n hn
  obtain ⟨t, ht, hn⟩ := exists_tree_of_mem h hn
  exact hts t ht _ _ hn

/-- A tree avoids a name that neither it nor its parts use. -/
theorem Tree.avoids_of_parts (hnames : name ∉ t.names) (hparts : ∀ u ∈ t.parts, u.Avoids name) :
    t.Avoids name := by
  intro file n hn
  have hown : name ∉ n.names := fun hmem => hnames (names_of_ofTree hn hmem)
  cases hb : t.body? with
  | none =>
      obtain ⟨hoperands, hchildren⟩ := forall₂_operands hn hb
      refine .intro hown (avoids_of_forall₂ hparts hoperands) ?_
      rintro origin params bodyOrigin statements rfl
      cases hchildren
  | some b =>
      obtain ⟨params, ns, rfl, hns, hb'⟩ := exists_body hn hb
      rw [hb'] at hparts
      refine .intro hown (List.forall_mem_nil _) ?_
      rintro _ _ _ _ ⟨⟩
      exact .suite (avoids_of_forall₂ hparts (forall₂_of_ofTrees hns)) _ _

theorem Tree.avoids_atom {token : Token} (hatom : token.isAtom = true)
    (hname : token.kind = .name → token.text ≠ name) : (Tree.atom token).Avoids name := by
  refine avoids_of_parts (fun hmem => ?_) (List.forall_mem_nil _)
  cases hkind : token.kind <;> rw [Token.isAtom, hkind] at hatom <;> simp only [Tree.names, hkind] at hmem
  case name => exact hname hkind (List.mem_singleton.mp hmem).symm
  case integer | string | symbol | slot => cases hmem
  all_goals cases hatom

/-- An assignment to a name or an instance variable. -/
theorem Tree.avoids_assign {target op : Token} {value : Tree} {span : Span}
    (hkind : target.kind = .name ∨ target.kind = .slot) (hname : target.kind = .name → target.text ≠ name)
    (hvalue : value.Avoids name) : (Tree.assign span target op value).Avoids name := by
  refine avoids_of_parts (fun hmem => ?_) (List.forall_mem_singleton.mpr hvalue)
  rcases hkind with hkind | hkind <;> simp only [Tree.names, Target.ofToken, hkind, Target.names] at hmem
  · exact hname hkind (List.mem_singleton.mp hmem).symm
  · cases hmem

/-- A tree avoids a name that none of its tokens mentions. -/
theorem Tree.Formed.avoids (h : t.Formed fun token => token.kind = .name → token.text ≠ name) :
    t.Avoids name := by
  -- all trees but atoms, definitions and assignments have no names of their own
  have hplain : ∀ {t : Tree}, t.names = [] → (∀ u ∈ t.parts, u.Avoids name) → t.Avoids name :=
    fun hnames hparts => Tree.avoids_of_parts (by rw [hnames]; exact List.not_mem_nil) hparts
  induction h with
  | atom htoken hatom => exact avoids_atom hatom htoken
  | list _ ih => exact hplain rfl ih
  | unary _ _ ih => exact hplain rfl (List.forall_mem_singleton.mpr ih)
  | binary _ _ _ ih ih' =>
      exact hplain rfl (List.forall_mem_cons.mpr ⟨ih, List.forall_mem_singleton.mpr ih'⟩)
  | keyword _ _ _ _ _ _ ih ih' => exact hplain rfl (List.forall_mem_cons.mpr ⟨ih, ih'⟩)
  | block _ _ ih => exact hplain rfl ih
  | define hname _ _ ih =>
      refine avoids_of_parts (fun hmem => ?_) (List.forall_mem_singleton.mpr ih)
      exact hname.1 hname.2 (List.mem_singleton.mp hmem).symm
  | assign htarget _ _ ih => exact avoids_assign htarget.2 htarget.1 ih
  | answer _ ih => exact hplain rfl (List.forall_mem_singleton.mpr ih)

/-- A phrase avoids the names that its terminals do not mention. -/
theorem Derives.avoids {phrase : Phrase} (h : Derives phrase xs) (hxs : Unmentioned xs name) :
    ∀ t ∈ phrase.trees, t.Avoids name := by
  have hformed : phrase.Formed fun token => token.kind = .name → token.text ≠ name := h.formed hxs
  exact fun t ht => (hformed.trees t ht).avoids

end Trees

end Grammar

/-- A program avoids the names that its text does not mention. -/
theorem avoids_of_parseProgram {text name : String} {file : Option String} {program : Node}
    (h : parseProgram text file = .ok program) (hname : ¬Mentions text name) : program.Avoids name := by
  obtain ⟨body, ns, hread, hns, rfl⟩ := exists_of_parseProgram h
  obtain ⟨xs, hderivation⟩ := decides_program.readText_iff.mp hread
  have hxs : Unmentioned xs name := by
    intro x hx hkind htext
    have hscan : scan text = ⟨xs.map Terminal.token, none⟩ := cut_iff.mp hderivation.cut
    refine hname ⟨x.token, ?_, hkind, htext⟩
    rw [hscan]
    exact List.mem_map_of_mem hx
  exact .suite (Tree.avoids_of_forall₂ (hderivation.derives.avoids hxs) (forall₂_of_ofTrees hns)) _ _

end Parley
