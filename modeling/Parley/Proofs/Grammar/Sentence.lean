import Parley.Grammar.Tree
import Parley.Proofs.Grammar.Cutting

/-! The grammar, rule by rule. A terminal is a token that stands either for its class or, where it is
spelled like one, for a keyword. `Derives` says which terminals a phrase can be written with and which
tree it has; it is not yet said which of the two a word stands for. A word is a keyword exactly where
the grammar admits that keyword after the terminals before it, and with that a text has a derivation. -/

namespace Parley.Grammar

/-- A token in a sentence, and whether it stands there for the keyword that it spells. -/
structure Terminal where
  token : Token
  keyword : Bool
  deriving DecidableEq

namespace Terminal

/-- The terminal stands for a class of tokens. -/
def Is (x : Terminal) (kind : Kind) : Prop := x.keyword = false ∧ x.token.kind = kind

def IsKeyword (x : Terminal) (word : String) : Prop :=
  x.keyword = true ∧ x.token.kind = .name ∧ x.token.text = word

/-- The stretch from the start of a terminal to the end of another one. -/
def upTo (x y : Terminal) : Span := ⟨x.token.span.start, y.token.span.stop⟩

/-- The stretch from a terminal to the last one of those after it. -/
def through (x : Terminal) (xs : List Terminal) : Span := x.upTo (xs.getLastD x)

end Terminal

/-- The stretch that some terminals take up; no terminals take up none. -/
def stretch : List Terminal → Option Span
  | [] => none
  | x :: xs => some (x.through xs)

theorem stretch_eq_none_iff {xs : List Terminal} : stretch xs = none ↔ xs = [] := by
  cases xs <;> simp [stretch]

/-- The stretch of terminals between brackets. -/
theorem stretch_bracketed (x y : Terminal) (xs : List Terminal) :
    stretch (x :: (xs ++ [y])) = some (x.upTo y) := by
  rw [stretch, Terminal.through, List.getLastD_concat]

theorem stretch_cons {xs : List Terminal} {outer : Span} (h : stretch xs = some outer)
    (x : Terminal) : stretch (x :: xs) = some ⟨x.token.span.start, outer.stop⟩ := by
  cases xs with
  | nil => cases h
  | cons y xs =>
      cases h
      rw [stretch, Terminal.through, List.getLastD_cons]
      rfl

theorem Terminal.through_eq {xs : List Terminal} {outer : Span} (h : stretch xs = some outer)
    (x : Terminal) : x.through xs = ⟨x.token.span.start, outer.stop⟩ :=
  Option.some.inj (stretch_cons h x)

theorem stretch_append {xs ys : List Terminal} {outer outer' : Span} (h : stretch xs = some outer)
    (h' : stretch ys = some outer') : stretch (xs ++ ys) = some ⟨outer.start, outer'.stop⟩ := by
  induction xs generalizing outer with
  | nil => cases h
  | cons x xs ih =>
      cases xs with
      | nil =>
          cases h
          exact stretch_cons h' x
      | cons y xs =>
          rw [List.cons_append, stretch_cons (ih rfl) x]
          cases h
          rfl

/-- A terminal that may be left out. -/
inductive Optional (kind : Kind) : List Terminal → Prop
  | absent : Optional kind []
  | present {x : Terminal} : x.Is kind → Optional kind [x]

/-- The phrases of the grammar, each with what it stands for. -/
inductive Phrase where
  | body (body : Body)
  /-- statements that each end with a semicolon -/
  | statements (trees : List Tree)
  | statement (tree : Tree)
  | expression (tree : Tree)
  /-- expressions with commas between them -/
  | items (trees : List Tree)
  /-- keywords with their arguments -/
  | arguments (keywords : List Token) (trees : List Tree)
  | params (names : List Token)

/-- A phrase can be written with some terminals. Repeated parts grow at their end. -/
inductive Derives : Phrase → List Terminal → Prop
  -- bodies
  | closed {trees : List Tree} {xs : List Terminal} : Derives (.statements trees) xs →
      Derives (.body ⟨stretch xs, trees⟩) xs
  | ended {trees : List Tree} {tree : Tree} {xs ys : List Terminal} :
      Derives (.statements trees) xs → Derives (.statement tree) ys →
      Derives (.body ⟨stretch (xs ++ ys), trees ++ [tree]⟩) (xs ++ ys)
  | noStatement : Derives (.statements []) []
  | nextStatement {trees : List Tree} {tree : Tree} {xs ys : List Terminal} {s : Terminal} :
      Derives (.statements trees) xs → Derives (.statement tree) ys → s.Is .semicolon →
      Derives (.statements (trees ++ [tree])) (xs ++ (ys ++ [s]))
  -- statements
  | define {l name op : Terminal} {value : Tree} {xs : List Terminal} : l.IsKeyword "let" →
      name.Is .name → op.Is .equals ∨ op.Is .walrus → Derives (.expression value) xs →
      Derives (.statement (.define (l.through xs) name.token op.token value)) (l :: name :: op :: xs)
  | defineSlot {l slot op : Terminal} {value : Tree} {xs : List Terminal} : l.IsKeyword "let" →
      slot.Is .slot → op.Is .equals → Derives (.expression value) xs →
      Derives (.statement (.assign (l.through xs) slot.token op.token value)) (l :: slot :: op :: xs)
  | assign {target op : Terminal} {value : Tree} {xs : List Terminal} :
      target.Is .name ∨ target.Is .slot → op.Is .equals → Derives (.expression value) xs →
      Derives (.statement (.assign (target.through xs) target.token op.token value))
        (target :: op :: xs)
  | answer {r : Terminal} {value : Tree} {xs : List Terminal} : r.IsKeyword "return" →
      Derives (.expression value) xs → Derives (.statement (.answer (r.through xs) value)) (r :: xs)
  | bare {tree : Tree} {xs : List Terminal} : Derives (.expression tree) xs →
      Derives (.statement tree) xs
  -- expressions
  | atom {x : Terminal} {kind : Kind} : x.Is kind →
      kind ∈ [Kind.integer, .string, .symbol, .name, .slot] → Derives (.expression (.atom x.token)) [x]
  | word {x : Terminal} {word : String} : x.IsKeyword word → word ∈ literalWords →
      Derives (.expression (.atom x.token)) [x]
  | paren {o c : Terminal} {tree : Tree} {xs : List Terminal} : o.Is .openParen →
      Derives (.expression tree) xs → c.Is .closeParen →
      Derives (.expression tree) (o :: (xs ++ [c]))
  | unary {o name c : Terminal} {receiver : Tree} {xs : List Terminal} : o.Is .openBracket →
      Derives (.expression receiver) xs → name.Is .name → c.Is .closeBracket →
      Derives (.expression (.unary (o.upTo c) receiver name.token)) (o :: (xs ++ [name, c]))
  | named {o name c : Terminal} {receiver : Tree} {keywords : List Token} {args : List Tree}
      {xs ys : List Terminal} : o.Is .openBracket → Derives (.expression receiver) xs →
      name.Is .name → Derives (.arguments keywords args) ys → c.Is .closeBracket →
      Derives (.expression (.keyword (o.upTo c) receiver (some name.token) keywords args))
        (o :: (xs ++ name :: (ys ++ [c])))
  | unnamed {o c : Terminal} {receiver : Tree} {keywords : List Token} {args : List Tree}
      {xs ys : List Terminal} : o.Is .openBracket → Derives (.expression receiver) xs →
      Derives (.arguments keywords args) ys → c.Is .closeBracket →
      Derives (.expression (.keyword (o.upTo c) receiver none keywords args)) (o :: (xs ++ (ys ++ [c])))
  | binary {o op c : Terminal} {receiver argument : Tree} {xs ys : List Terminal} :
      o.Is .openBracket → Derives (.expression receiver) xs → op.Is .operator →
      Derives (.expression argument) ys → c.Is .closeBracket →
      Derives (.expression (.binary (o.upTo c) receiver op.token argument))
        (o :: (xs ++ op :: (ys ++ [c])))
  | emptyList {o c : Terminal} : o.Is .openBracket → c.Is .closeBracket →
      Derives (.expression (.list (o.upTo c) [])) [o, c]
  | list {o c : Terminal} {trees : List Tree} {xs : List Terminal} : o.Is .openBracket →
      Derives (.items trees) xs → c.Is .closeBracket →
      Derives (.expression (.list (o.upTo c) trees)) (o :: (xs ++ [c]))
  | block {o c : Terminal} {body : Body} {xs : List Terminal} : o.Is .openBrace →
      Derives (.body body) xs → c.Is .closeBrace →
      Derives (.expression (.block (o.upTo c) [] body.span body.statements)) (o :: (xs ++ [c]))
  | paramBlock {b b' o c : Terminal} {names : List Token} {body : Body} {xs ys : List Terminal} :
      b.Is .bar → Derives (.params names) xs → b'.Is .bar → o.Is .openBrace →
      Derives (.body body) ys → c.Is .closeBrace →
      Derives (.expression (.block (b.upTo c) names body.span body.statements))
        (b :: (xs ++ b' :: o :: (ys ++ [c])))
  -- parts of expressions
  | firstItem {tree : Tree} {xs : List Terminal} : Derives (.expression tree) xs →
      Derives (.items [tree]) xs
  | nextItem {trees : List Tree} {tree : Tree} {xs ys : List Terminal} {c : Terminal} :
      Derives (.items trees) xs → c.Is .comma → Derives (.expression tree) ys →
      Derives (.items (trees ++ [tree])) (xs ++ c :: ys)
  | firstArgument {k c : Terminal} {tree : Tree} {xs : List Terminal} : k.Is .name → c.Is .colon →
      Derives (.expression tree) xs → Derives (.arguments [k.token] [tree]) (k :: c :: xs)
  | nextArgument {keywords : List Token} {trees : List Tree} {tree : Tree}
      {xs ys zs : List Terminal} {k c : Terminal} : Derives (.arguments keywords trees) xs →
      Optional .comma ys → k.Is .name → c.Is .colon → Derives (.expression tree) zs →
      Derives (.arguments (keywords ++ [k.token]) (trees ++ [tree])) (xs ++ (ys ++ k :: c :: zs))
  | noParam : Derives (.params []) []
  | nextParam {names : List Token} {xs ys : List Terminal} {n : Terminal} :
      Derives (.params names) xs → n.Is .name → Optional .colon ys →
      Derives (.params (names ++ [n.token])) (xs ++ n :: ys)

/-- After some terminals the grammar admits a token as the keyword that it spells: a sentence of the rule
goes on with it. -/
def Admits {α : Type} (rule : α → Phrase) (before : List Terminal) (t : Token) : Prop :=
  ∃ after a, Derives (rule a) (before ++ ⟨t, true⟩ :: after)

/-- Words stand for keywords exactly where the grammar admits them. -/
def Classified {α : Type} (rule : α → Phrase) (xs : List Terminal) : Prop :=
  ∀ before x after, xs = before ++ x :: after → (x.keyword = true ↔ Admits rule before x.token)

/-- The terminals are those of a text and derive a tree of it from a rule. -/
structure Derivation {α : Type} (rule : α → Phrase) (text : String) (a : α) (xs : List Terminal) :
    Prop where
  cut : Cut .first text.toList (xs.map Terminal.token)
  classified : Classified rule xs
  derives : Derives (rule a) xs

end Parley.Grammar
