import Parley.Proofs.Grammar.Layout

/-! What trees are made of. The grammar puts names where names belong, as many keywords as arguments and an
operator between two expressions, and it makes trees of the tokens of the text only. -/

namespace Parley.Grammar

/-- A name with a property. -/
def Token.IsNameOf (P : Token → Prop) (t : Token) : Prop := P t ∧ t.kind = .name

/-- All tokens in a tree have a property, and they are of the classes that belong at their places. -/
inductive Tree.Formed (P : Token → Prop) : Tree → Prop
  | atom {t : Token} (ht : P t) (hatom : t.isAtom = true) : Formed P (.atom t)
  | list {span : Span} {items : List Tree} (hitems : ∀ t ∈ items, Formed P t) : Formed P (.list span items)
  | unary {span : Span} {receiver : Tree} {name : Token} (hreceiver : Formed P receiver)
      (hname : name.IsNameOf P) : Formed P (.unary span receiver name)
  | binary {span : Span} {receiver argument : Tree} {operator : Token} (hreceiver : Formed P receiver)
      (hoperator : P operator ∧ operator.kind = .operator) (hargument : Formed P argument) :
      Formed P (.binary span receiver operator argument)
  | keyword {span : Span} {receiver : Tree} {name : Option Token} {keywords : List Token}
      {arguments : List Tree} (hreceiver : Formed P receiver) (hname : ∀ t ∈ name, t.IsNameOf P)
      (hkeywords : ∀ t ∈ keywords, t.IsNameOf P) (hne : keywords ≠ [])
      (hlength : keywords.length = arguments.length) (harguments : ∀ t ∈ arguments, Formed P t) :
      Formed P (.keyword span receiver name keywords arguments)
  | block {span : Span} {params : List Token} {bodySpan : Option Span} {body : List Tree}
      (hparams : ∀ t ∈ params, t.IsNameOf P) (hbody : ∀ t ∈ body, Formed P t) :
      Formed P (.block span params bodySpan body)
  | define {span : Span} {name operator : Token} {value : Tree} (hname : name.IsNameOf P)
      (hoperator : P operator ∧ (operator.kind = .equals ∨ operator.kind = .walrus))
      (hvalue : Formed P value) : Formed P (.define span name operator value)
  | assign {span : Span} {target operator : Token} {value : Tree}
      (htarget : P target ∧ (target.kind = .name ∨ target.kind = .slot))
      (hoperator : P operator ∧ operator.kind = .equals) (hvalue : Formed P value) :
      Formed P (.assign span target operator value)
  | answer {span : Span} {value : Tree} (hvalue : Formed P value) : Formed P (.answer span value)

/-- What a phrase stands for is made of tokens with a property. -/
def Phrase.Formed (P : Token → Prop) : Phrase → Prop
  | .body b => ∀ t ∈ b.statements, t.Formed P
  | .statements trees | .items trees => ∀ t ∈ trees, t.Formed P
  | .statement tree | .expression tree => tree.Formed P
  | .arguments keywords trees => (∀ t ∈ keywords, t.IsNameOf P) ∧ keywords ≠ [] ∧
      keywords.length = trees.length ∧ ∀ t ∈ trees, t.Formed P
  | .params names => ∀ t ∈ names, t.IsNameOf P

/-- All terminals have tokens with a property. -/
def AllTokens (P : Token → Prop) (xs : List Terminal) : Prop := ∀ x ∈ xs, P x.token

section Forms

variable {P : Token → Prop} {x : Terminal} {xs ys : List Terminal}

namespace AllTokens

theorem head (h : AllTokens P (x :: xs)) : P x.token := h x List.mem_cons_self

theorem tail (h : AllTokens P (x :: xs)) : AllTokens P xs := (List.forall_mem_cons.mp h).2

theorem left (h : AllTokens P (xs ++ ys)) : AllTokens P xs := (List.forall_mem_append.mp h).1

theorem right (h : AllTokens P (xs ++ ys)) : AllTokens P ys := (List.forall_mem_append.mp h).2

theorem name (h : AllTokens P (x :: xs)) (hx : x.Is .name) : x.token.IsNameOf P := ⟨h.head, hx.2⟩

end AllTokens

theorem Token.isAtom_of_kind {t : Token} (h : t.kind ∈ [Kind.integer, .string, .symbol, .name, .slot]) :
    t.isAtom = true := by
  simp only [List.mem_cons, List.not_mem_nil, or_false] at h
  rcases h with h | h | h | h | h <;> simp [Token.isAtom, h]

theorem Tree.Formed.part {t u : Tree} (h : t.Formed P) (hu : u ∈ t.parts) : u.Formed P := by
  cases h with
  | atom => cases hu
  | list hitems => exact hitems u hu
  | unary hreceiver _ => exact List.mem_singleton.mp hu ▸ hreceiver
  | binary hreceiver _ hargument =>
      exact List.forall_mem_cons.mpr ⟨hreceiver, List.forall_mem_singleton.mpr hargument⟩ u hu
  | keyword hreceiver _ _ _ _ harguments => exact List.forall_mem_cons.mpr ⟨hreceiver, harguments⟩ u hu
  | block _ hbody => exact hbody u hu
  | define _ _ hvalue | assign _ _ hvalue | answer hvalue => exact List.mem_singleton.mp hu ▸ hvalue

/-- A phrase is made of the tokens of the terminals that it can be written with. -/
theorem Derives.formed {phrase : Phrase} (h : Derives phrase xs) (hxs : AllTokens P xs) : phrase.Formed P := by
  induction h with
  | closed _ ih => exact ih hxs
  | ended _ _ ih ih' =>
      exact List.forall_mem_append.mpr ⟨ih hxs.left, List.forall_mem_singleton.mpr (ih' hxs.right)⟩
  | noStatement => exact List.forall_mem_nil _
  | nextStatement _ _ _ ih ih' =>
      exact List.forall_mem_append.mpr ⟨ih hxs.left, List.forall_mem_singleton.mpr (ih' hxs.right.left)⟩
  | define _ hname hop _ ih =>
      refine .define (hxs.tail.name hname) ⟨hxs.tail.tail.head, ?_⟩ (ih hxs.tail.tail.tail)
      exact hop.imp And.right And.right
  | defineSlot _ hslot hop _ ih =>
      exact .assign ⟨hxs.tail.head, .inr hslot.2⟩ ⟨hxs.tail.tail.head, hop.2⟩ (ih hxs.tail.tail.tail)
  | assign htarget hop _ ih =>
      exact .assign ⟨hxs.head, htarget.imp And.right And.right⟩ ⟨hxs.tail.head, hop.2⟩ (ih hxs.tail.tail)
  | answer _ _ ih => exact .answer (ih hxs.tail)
  | bare _ ih => exact ih hxs
  | atom hx hkind => exact .atom hxs.head (Token.isAtom_of_kind (hx.2 ▸ hkind))
  | word hx _ => exact .atom hxs.head (Token.isAtom_of_kind (by simp [hx.2.1]))
  | paren _ _ _ ih => exact ih hxs.tail.left
  | unary _ _ hname _ ih => exact .unary (ih hxs.tail.left) (hxs.tail.right.name hname)
  | named _ _ hname _ _ ih ih' =>
      obtain ⟨hkeywords, hne, hlength, harguments⟩ := ih' hxs.tail.right.tail.left
      refine .keyword (ih hxs.tail.left) ?_ hkeywords hne hlength harguments
      rintro _ ⟨⟩
      exact hxs.tail.right.name hname
  | unnamed _ _ _ _ ih ih' =>
      obtain ⟨hkeywords, hne, hlength, harguments⟩ := ih' hxs.tail.right.left
      exact .keyword (ih hxs.tail.left) nofun hkeywords hne hlength harguments
  | binary _ _ hop _ _ ih ih' =>
      exact .binary (ih hxs.tail.left) ⟨hxs.tail.right.head, hop.2⟩ (ih' hxs.tail.right.tail.left)
  | emptyList => exact .list (List.forall_mem_nil _)
  | list _ _ _ ih => exact .list (ih hxs.tail.left)
  | block _ _ _ ih => exact .block (List.forall_mem_nil _) (ih hxs.tail.left)
  | paramBlock _ _ _ _ _ _ ih ih' => exact .block (ih hxs.tail.left) (ih' hxs.tail.right.tail.tail.left)
  | firstItem _ ih => exact List.forall_mem_singleton.mpr (ih hxs)
  | nextItem _ _ _ ih ih' =>
      exact List.forall_mem_append.mpr ⟨ih hxs.left, List.forall_mem_singleton.mpr (ih' hxs.right.tail)⟩
  | firstArgument hk _ _ ih =>
      refine ⟨List.forall_mem_singleton.mpr (hxs.name hk), List.cons_ne_nil _ _, rfl, ?_⟩
      exact List.forall_mem_singleton.mpr (ih hxs.tail.tail)
  | nextArgument _ _ hk _ _ ih ih' =>
      obtain ⟨hkeywords, hne, hlength, harguments⟩ := ih hxs.left
      have hnext := hxs.right.right
      refine ⟨List.forall_mem_append.mpr ⟨hkeywords, List.forall_mem_singleton.mpr (hnext.name hk)⟩,
        List.append_ne_nil_of_left_ne_nil hne _, by simp [hlength], ?_⟩
      exact List.forall_mem_append.mpr ⟨harguments, List.forall_mem_singleton.mpr (ih' hnext.tail.tail)⟩
  | noParam => exact List.forall_mem_nil _
  | nextParam _ hn _ ih =>
      exact List.forall_mem_append.mpr ⟨ih hxs.left, List.forall_mem_singleton.mpr (hxs.right.name hn)⟩

theorem Phrase.Formed.trees {phrase : Phrase} (h : phrase.Formed P) : ∀ t ∈ phrase.trees, t.Formed P := by
  cases phrase with
  | body | statements | items => exact h
  | statement | expression => exact List.forall_mem_singleton.mpr h
  | arguments => exact h.2.2.2
  | params => exact List.forall_mem_nil _

end Forms

/-- A token of a text that is cut to its end is a lexeme of its class. -/
theorem Cut.spells {p : Point} {cs : List Char} {ts : List Token} (h : Cut p cs ts) :
    ∀ t ∈ ts, t.kind.Spells t.text.toList := by
  induction h with
  | done => exact List.forall_mem_nil _
  | skip _ _ _ ih => exact ih
  | token hlongest _ ih =>
      refine List.forall_mem_cons.mpr ⟨?_, ih⟩
      rw [String.toList_ofList]
      exact hlongest.spelled

/-- A token of a text, spelled as its class demands. -/
structure Token.IsFrom (text : String) (t : Token) : Prop where
  mem : t ∈ (scan text).tokens
  spells : t.kind.Spells t.text.toList

/-- The trees of a text are made of its tokens. -/
theorem Derivation.formed {α : Type} {rule : α → Phrase} {text : String} {a : α} {xs : List Terminal}
    (h : Derivation rule text a xs) : (rule a).Formed (·.IsFrom text) := by
  refine h.derives.formed fun x hx => ?_
  have hmem : x.token ∈ xs.map Terminal.token := List.mem_map_of_mem hx
  have hscan : scan text = ⟨xs.map Terminal.token, none⟩ := cut_iff.mp h.cut
  exact ⟨by rwa [hscan], h.cut.spells _ hmem⟩

end Parley.Grammar
