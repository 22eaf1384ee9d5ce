import Parley.Grammar.Tree
import Parley.Node.Outline

/-! A concrete tree as an outline: one line for each rule of the grammar that was used, and for the tokens
that carry a word of the program. -/

namespace Parley.Grammar

open Parley.Text

/-- The name of a token's class. -/
def Kind.label : Kind → String
  | .integer => "INT"
  | .string => "STRING"
  | .symbol => "SYMBOL"
  | .slot => "IVAR"
  | .operator => "BINOP"
  | .equals => "EQUALS"
  | .walrus => "WALRUS"
  | _ => "NAME"

/-- The rule of an expression that is one token. -/
def Token.rule (t : Token) : String :=
  match t.kind with
  | .integer => "integer"
  | .string => "string"
  | .symbol => "symbol"
  | .slot => "ivar"
  | _ =>
    if t.text = "self" then "self_ref"
    else if t.text = "super" then "super_ref"
    else if literalWords.contains t.text then t.text
    else "variable"

/-- Whether a token is one of the words that stand for themselves. -/
def Token.isLiteralWord (t : Token) : Bool := t.kind = .name && literalWords.contains t.text

/-- The start of a line's piece of text, when places are shown. -/
def placeMark (places : Bool) (start : Option Point) : String :=
  match places, start with
  | true, some p => " @" ++ toString p.line ++ ":" ++ toString p.column
  | _, _ => ""

/-- A token's text in quotes, a long one cut. -/
def shortQuoted (text : String) : String :=
  if text.length < 60 then quoted text
  else quoted (String.ofList (text.toList.take 57) ++ "...")

def tokenLine (places : Bool) (depth : Nat) (t : Token) : String :=
  outlineLine depth
    (t.kind.label ++ ": " ++ shortQuoted t.text ++ placeMark places (some t.span.start))

/-- The line of a rule that has only one token below it. -/
def leafLine (places : Bool) (depth : Nat) (rule : String) (t : Token) : String :=
  outlineLine depth (rule ++ ": " ++ quoted t.text ++ placeMark places (some t.span.start))

/-- The line of a rule, which says if there is nothing below it. -/
def ruleLine (places : Bool) (depth : Nat) (rule : String) (start : Option Point)
    (isEmpty : Bool) : String :=
  outlineLine depth (rule ++ (if isEmpty then "()" else ":") ++ placeMark places start)

mutual

/-- The outline of a tree at a depth. -/
def Tree.outlineAt (places : Bool) (depth : Nat) : Tree → String
  | .atom t =>
    if t.isLiteralWord then ruleLine places depth t.rule (some t.span.start) true
    else leafLine places depth t.rule t
  | .list span items =>
    ruleLine places depth "list" (some span.start) items.isEmpty ++
      Tree.outlinesAt places (depth + 1) items
  | .unary span receiver name =>
    ruleLine places depth "send" (some span.start) false ++
      receiver.outlineAt places (depth + 1) ++
      leafLine places (depth + 1) "unary" name
  | .binary span receiver operator argument =>
    ruleLine places depth "send" (some span.start) false ++
      receiver.outlineAt places (depth + 1) ++
      ruleLine places (depth + 1) "binary" (some operator.span.start) false ++
      tokenLine places (depth + 2) operator ++
      argument.outlineAt places (depth + 2)
  | .keyword span receiver name keywords arguments =>
    let first := keywords.head?.map (·.span.start)
    ruleLine places depth "send" (some span.start) false ++
      receiver.outlineAt places (depth + 1) ++
      (match name with
        | none => ruleLine places (depth + 1) "keyword" first false
        | some n =>
          ruleLine places (depth + 1) "named_keyword" (some n.span.start) false ++
            tokenLine places (depth + 2) n) ++
      ruleLine places (depth + 2) "keyword_args" first false ++
      Tree.argumentsAt places (depth + 3) keywords arguments
  | .block span params bodySpan body =>
    ruleLine places depth "block" (some span.start) false ++
      String.join (params.map (leafLine places (depth + 1) "param")) ++
      ruleLine places (depth + 1) "body" (bodySpan.map (·.start)) body.isEmpty ++
      Tree.outlinesAt places (depth + 2) body
  | .define span name operator value =>
    ruleLine places depth "let_stmt" (some span.start) false ++
      tokenLine places (depth + 1) name ++ tokenLine places (depth + 1) operator ++
      value.outlineAt places (depth + 1)
  | .assign span target operator value =>
    let rule := if target.kind = .slot then "ivar_assign" else "assign"
    ruleLine places depth rule (some span.start) false ++
      tokenLine places (depth + 1) target ++ tokenLine places (depth + 1) operator ++
      value.outlineAt places (depth + 1)
  | .answer span value =>
    ruleLine places depth "return_stmt" (some span.start) false ++
      value.outlineAt places (depth + 1)

/-- The outlines of trees at a depth, one after another. -/
def Tree.outlinesAt (places : Bool) (depth : Nat) : List Tree → String
  | [] => ""
  | t :: ts => t.outlineAt places depth ++ Tree.outlinesAt places depth ts

def Tree.argumentsAt (places : Bool) (depth : Nat) : List Token → List Tree → String
  | k :: ks, t :: ts =>
    ruleLine places depth "keyword_arg" (some k.span.start) false ++
      tokenLine places (depth + 1) k ++ t.outlineAt places (depth + 1) ++
      Tree.argumentsAt places depth ks ts
  | _, _ => ""

end

def Body.outline (places : Bool) (b : Body) : String :=
  let start := b.span.map (·.start)
  ruleLine places 0 "start" start false ++
    ruleLine places 1 "body" start b.statements.isEmpty ++
    Tree.outlinesAt places 2 b.statements

end Parley.Grammar
