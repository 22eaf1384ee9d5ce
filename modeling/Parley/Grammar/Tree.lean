import Parley.Grammar.Token

/-! Concrete trees: sentences as they were written, with their tokens. Parentheses leave no trace in
a tree. -/

namespace Parley.Grammar

/-- The words that stand for themselves wherever an expression begins. -/
def literalWords : List String := ["true", "false", "nil", "self", "super"]

/-- An expression or a statement. The span of an atom is the span of its token. -/
inductive Tree where
  /-- A literal, a name, an instance variable or one of the literal words. -/
  | atom (token : Token)
  | list (span : Span) (items : List Tree)
  /-- `[receiver name]` -/
  | unary (span : Span) (receiver : Tree) (name : Token)
  /-- `[receiver operator argument]` -/
  | binary (span : Span) (receiver : Tree) (operator : Token) (argument : Tree)
  /-- `[receiver name keyword: argument ...]`, the leading name being optional -/
  | keyword (span : Span) (receiver : Tree) (name : Option Token) (keywords : List Token)
      (arguments : List Tree)
  | block (span : Span) (params : List Token) (bodySpan : Option Span) (body : List Tree)
  /-- `let name = value` or `let name := value` -/
  | define (span : Span) (name : Token) (operator : Token) (value : Tree)
  /-- `target = value`, where the target is a name or an instance variable -/
  | assign (span : Span) (target : Token) (operator : Token) (value : Tree)
  | answer (span : Span) (value : Tree)
  deriving Repr, Inhabited

namespace Tree

/-- The stretch of text that a tree covers. -/
def span : Tree → Span
  | atom token => token.span
  | list span _ => span
  | unary span _ _ => span
  | binary span _ _ _ => span
  | keyword span _ _ _ _ => span
  | block span _ _ _ => span
  | define span _ _ _ => span
  | assign span _ _ _ => span
  | answer span _ => span

end Tree

/-- The statements of a program or of a block. One without statements covers no text. -/
structure Body where
  span : Option Span
  statements : List Tree
  deriving Repr, Inhabited

end Parley.Grammar
