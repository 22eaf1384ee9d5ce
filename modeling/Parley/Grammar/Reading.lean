import Parley.Grammar.Tree

/-! Reading trees from tokens, one token at a time. Every construct that holds others is bracketed, so
the reader keeps a stack of the constructs that are open and knows at each point which tokens can
come next: `State.step` takes one token or refuses it, `State.program?` and `State.expression?` say
whether the text may end. A token is refused exactly when no sentence goes on with it, so the first
refused token is the one to report. -/

namespace Parley.Grammar

/-- A finished tree and the stretch it takes up, enclosing parentheses included. -/
structure Part where
  tree : Tree
  outer : Span
  deriving Repr, Inhabited

/-- What a statement began with before its value. -/
inductive Lead where
  | bare
  | define (start : Point) (name operator : Token)
  | assign (start : Point) (target operator : Token)
  | answer (start : Point)
  deriving Repr, Inhabited

/-- The start of a block: the token that opened it and its parameters, latest first. -/
structure Head where
  opening : Token
  params : List Token
  deriving Repr, Inhabited

/-- A body that is being read: the head of its block, or `none` for the program itself, its
statements so far, latest first, and the end of the semicolon after the latest one. -/
structure OpenBody where
  head : Option Head
  done : List Part
  stop : Point
  deriving Repr, Inhabited

/-- A bracketed send whose keyword part is being read; lists are latest first. -/
structure OpenSend where
  opening : Token
  receiver : Part
  name : Option Token
  keywords : List Token
  arguments : List Part
  deriving Repr, Inhabited

/-- A construct that waits for an expression. -/
inductive Open where
  | paren (opening : Token)
  | bracket (opening : Token)
  | items (opening : Token) (done : List Part)
  | operand (opening : Token) (receiver : Part) (operator : Token)
  | argument (send : OpenSend)
  | statement (body : OpenBody) (lead : Lead)
  deriving Repr, Inhabited

/-- What may come next. -/
inductive Expect where
  /-- an expression, for the innermost open construct -/
  | expression
  /-- whatever may follow an expression in the innermost open construct -/
  | completed (part : Part)
  /-- a statement or the end of the body -/
  | statement (body : OpenBody)
  /-- after `let`: a name or an instance variable -/
  | target (body : OpenBody) (start : Point)
  /-- after `let name`: `=` or `:=` -/
  | definition (body : OpenBody) (start : Point) (name : Token)
  /-- after `let @name`: `=` -/
  | assignment (body : OpenBody) (start : Point) (target : Token)
  /-- after a name or an instance variable that begins a statement: `=` or the statement's end -/
  | lead (body : OpenBody) (token : Token)
  /-- after the name in `[receiver name`: its colon, a keyword or the end -/
  | message (opening : Token) (receiver : Part) (name : Token)
  /-- a keyword -/
  | keyword (send : OpenSend)
  /-- the colon of the latest keyword -/
  | colon (send : OpenSend)
  /-- a parameter or the bar after the parameters -/
  | params (head : Head)
  /-- as `params`, or the colon of the latest parameter -/
  | paramMark (head : Head)
  /-- the brace that opens a block's body -/
  | brace (head : Head)
  deriving Repr, Inhabited

/-- A point in the reading of a text. -/
structure State where
  expect : Expect
  stack : List Open
  deriving Repr, Inhabited

namespace Token

/-- The tree of a token that is an expression by itself. -/
def part (t : Token) : Part := ⟨.atom t, t.span⟩

/-- Whether a token is an expression by itself. -/
def isAtom (t : Token) : Bool :=
  t.kind matches .integer | .string | .symbol | .slot | .name

end Token

/-- A statement from what it began with and its value. -/
def Lead.finish (lead : Lead) (value : Part) : Part :=
  match lead with
  | .bare => value
  | .define start name operator =>
    let span := ⟨start, value.outer.stop⟩
    ⟨.define span name operator value.tree, span⟩
  | .assign start target operator =>
    let span := ⟨start, value.outer.stop⟩
    ⟨.assign span target operator value.tree, span⟩
  | .answer start =>
    let span := ⟨start, value.outer.stop⟩
    ⟨.answer span value.tree, span⟩

/-- A body from its statements, latest first, and the end of its last token. -/
def bodyOf (done : List Part) (stop : Point) : Body :=
  { span := done.getLast?.map fun p => ⟨p.outer.start, stop⟩
    statements := (done.map (·.tree)).reverse }

namespace OpenBody

def start (head : Option Head) : OpenBody := ⟨head, [], .first⟩

/-- The body after one more statement and the semicolon after it. -/
def add (body : OpenBody) (p : Part) (semicolon : Token) : OpenBody :=
  { body with done := p :: body.done, stop := semicolon.span.stop }

/-- The body when it ends after a semicolon or without statements. -/
def close (body : OpenBody) : Body := bodyOf body.done body.stop

/-- The body when it ends with a statement. -/
def closeWith (body : OpenBody) (p : Part) : Body := bodyOf (p :: body.done) p.outer.stop

end OpenBody

/-- The block with a head and a body that ends at a closing brace. -/
def Head.block (head : Head) (body : Body) (closing : Token) : Part :=
  let span := ⟨head.opening.span.start, closing.span.stop⟩
  ⟨.block span head.params.reverse body.span body.statements, span⟩

/-- The list between two brackets; the items come latest first. -/
def listOf (opening closing : Token) (items : List Part) : Part :=
  let span := ⟨opening.span.start, closing.span.stop⟩
  ⟨.list span (items.map (·.tree)).reverse, span⟩

/-- The send with keywords that ends at a closing bracket. -/
def OpenSend.finish (send : OpenSend) (argument : Part) (closing : Token) : Part :=
  let span := ⟨send.opening.span.start, closing.span.stop⟩
  ⟨.keyword span send.receiver.tree send.name send.keywords.reverse
    ((argument :: send.arguments).map (·.tree)).reverse, span⟩

namespace State

/-- After a statement: a semicolon goes on with the body, a brace ends it if it is a block's. -/
def afterStatement (body : OpenBody) (p : Part) (stack : List Open) (t : Token) : Option State :=
  match t.kind with
  | .semicolon => some ⟨.statement (body.add p t), stack⟩
  | .closeBrace => body.head.map fun head => ⟨.completed (head.block (body.closeWith p) t), stack⟩
  | _ => none

/-- The first token of an expression. -/
def begin (stack : List Open) (t : Token) : Option State :=
  if t.isAtom then some ⟨.completed t.part, stack⟩
  else match t.kind with
    | .openParen => some ⟨.expression, .paren t :: stack⟩
    | .openBracket => some ⟨.expression, .bracket t :: stack⟩
    | .openBrace => some ⟨.statement (.start (some ⟨t, []⟩)), stack⟩
    | .bar => some ⟨.params ⟨t, []⟩, stack⟩
    | _ => none

/-- A token after an expression in the innermost open construct. -/
def follow (p : Part) (stack : List Open) (t : Token) : Option State :=
  match stack with
  | [] => none
  | .paren opening :: rest =>
    match t.kind with
    | .closeParen => some ⟨.completed ⟨p.tree, ⟨opening.span.start, t.span.stop⟩⟩, rest⟩
    | _ => none
  | .bracket opening :: rest =>
    match t.kind with
    | .comma => some ⟨.expression, .items opening [p] :: rest⟩
    | .closeBracket => some ⟨.completed (listOf opening t [p]), rest⟩
    | .name => some ⟨.message opening p t, rest⟩
    | .operator => some ⟨.expression, .operand opening p t :: rest⟩
    | _ => none
  | .items opening done :: rest =>
    match t.kind with
    | .comma => some ⟨.expression, .items opening (p :: done) :: rest⟩
    | .closeBracket => some ⟨.completed (listOf opening t (p :: done)), rest⟩
    | _ => none
  | .operand opening receiver operator :: rest =>
    match t.kind with
    | .closeBracket =>
      let span := ⟨opening.span.start, t.span.stop⟩
      some ⟨.completed ⟨.binary span receiver.tree operator p.tree, span⟩, rest⟩
    | _ => none
  | .argument send :: rest =>
    let next := { send with arguments := p :: send.arguments }
    match t.kind with
    | .closeBracket => some ⟨.completed (send.finish p t), rest⟩
    | .comma => some ⟨.keyword next, rest⟩
    | .name => some ⟨.colon { next with keywords := t :: next.keywords }, rest⟩
    | _ => none
  | .statement body lead :: rest => afterStatement body (lead.finish p) rest t

/-- The first token of a statement, or the end of the body. -/
def beginStatement (body : OpenBody) (stack : List Open) (t : Token) : Option State :=
  match t.kind with
  | .closeBrace => body.head.map fun head => ⟨.completed (head.block body.close t), stack⟩
  | .name =>
    if t.text = "let" then some ⟨.target body t.span.start, stack⟩
    else if t.text = "return" then
      some ⟨.expression, .statement body (.answer t.span.start) :: stack⟩
    else if literalWords.contains t.text then
      some ⟨.completed t.part, .statement body .bare :: stack⟩
    else some ⟨.lead body t, stack⟩
  | .slot => some ⟨.lead body t, stack⟩
  | _ => begin (.statement body .bare :: stack) t

/-- Takes one token, if the text can go on with it. -/
def step (s : State) (t : Token) : Option State :=
  match s.expect with
  | .expression =>
    match s.stack, t.kind with
    | .bracket opening :: rest, .closeBracket => some ⟨.completed (listOf opening t []), rest⟩
    | _, _ => begin s.stack t
  | .completed p => follow p s.stack t
  | .statement body => beginStatement body s.stack t
  | .target body start =>
    match t.kind with
    | .name => some ⟨.definition body start t, s.stack⟩
    | .slot => some ⟨.assignment body start t, s.stack⟩
    | _ => none
  | .definition body start name =>
    match t.kind with
    | .equals => some ⟨.expression, .statement body (.define start name t) :: s.stack⟩
    | .walrus => some ⟨.expression, .statement body (.define start name t) :: s.stack⟩
    | _ => none
  | .assignment body start target =>
    match t.kind with
    | .equals => some ⟨.expression, .statement body (.assign start target t) :: s.stack⟩
    | _ => none
  | .lead body token =>
    match t.kind with
    | .equals =>
      some ⟨.expression, .statement body (.assign token.span.start token t) :: s.stack⟩
    | _ => afterStatement body token.part s.stack t
  | .message opening receiver name =>
    match t.kind with
    | .closeBracket =>
      let span := ⟨opening.span.start, t.span.stop⟩
      some ⟨.completed ⟨.unary span receiver.tree name, span⟩, s.stack⟩
    | .colon => some ⟨.expression, .argument ⟨opening, receiver, none, [name], []⟩ :: s.stack⟩
    | .name => some ⟨.colon ⟨opening, receiver, some name, [t], []⟩, s.stack⟩
    | _ => none
  | .keyword send =>
    match t.kind with
    | .name => some ⟨.colon { send with keywords := t :: send.keywords }, s.stack⟩
    | _ => none
  | .colon send =>
    match t.kind with
    | .colon => some ⟨.expression, .argument send :: s.stack⟩
    | _ => none
  | .params head =>
    match t.kind with
    | .name => some ⟨.paramMark { head with params := t :: head.params }, s.stack⟩
    | .bar => some ⟨.brace head, s.stack⟩
    | _ => none
  | .paramMark head =>
    match t.kind with
    | .colon => some ⟨.params head, s.stack⟩
    | .name => some ⟨.paramMark { head with params := t :: head.params }, s.stack⟩
    | .bar => some ⟨.brace head, s.stack⟩
    | _ => none
  | .brace head =>
    match t.kind with
    | .openBrace => some ⟨.statement (.start (some head)), s.stack⟩
    | _ => none

def programStart : State := ⟨.statement (.start none), []⟩

/-- Before a single expression. -/
def expressionStart : State := ⟨.expression, []⟩

/-- The program, if the text may end here. -/
def program? (s : State) : Option Body :=
  match s.expect, s.stack with
  | .statement body, [] => if body.head.isNone then some body.close else none
  | .lead body token, [] => if body.head.isNone then some (body.closeWith token.part) else none
  | .completed p, [.statement body lead] =>
    if body.head.isNone then some (body.closeWith (lead.finish p)) else none
  | _, _ => none

/-- The expression, if the text may end here. -/
def expression? (s : State) : Option Tree :=
  match s.expect, s.stack with
  | .completed p, [] => some p.tree
  | _, _ => none

def wantsEquals (s : State) : Bool :=
  s.expect matches .definition .. | .assignment .. | .lead ..

def wantsColon (s : State) : Bool :=
  s.expect matches .message .. | .colon .. | .paramMark ..

end State

/-- Why a text is not a sentence. -/
inductive Refusal where
  | unexpected (text : String) (place : Point)
  | stray (char : Char) (place : Point)
  | unexpectedEnd (place : Point)
  deriving DecidableEq, Repr

/-- Whether a token touches an equals sign that comes after it. -/
def touchesEquals (t : Token) : List Token → Bool
  | [] => false
  | n :: _ => n.span.start = t.span.stop && n.text.toList.head? = some '='

/-- The refusal of a token. Where only `=` or only `:` may come, that character is taken from a
longer token that begins with it, and what is left of the token is refused. -/
def refusal (s : State) (t : Token) (rest : List Token) : Refusal :=
  if (s.wantsEquals && t.text = "==") || (s.wantsColon && t.text = ":=") then
    .unexpected (if touchesEquals t rest then "==" else "=") t.span.start.right
  else .unexpected t.text t.span.start

/-- Reads all tokens; `last` is the place of the last token read so far. -/
def readTokens (s : State) (last : Point) : List Token → Except Refusal (State × Point)
  | [] => .ok (s, last)
  | t :: rest =>
    match s.step t with
    | some s' => readTokens s' t.span.start rest
    | none => .error (refusal s t rest)

/-- Reads a text from a starting state to an end that `finish` accepts. -/
def readText {α : Type} (start : State) (finish : State → Option α) (text : String) :
    Except Refusal α :=
  let scanned := scan text
  match readTokens start .first scanned.tokens with
  | .error e => .error e
  | .ok (s, last) =>
    match scanned.stray with
    | some (c, p) => .error (.stray c p)
    | none =>
      match finish s with
      | some a => .ok a
      | none => .error (.unexpectedEnd last)

def readProgram (text : String) : Except Refusal Body :=
  readText State.programStart State.program? text

def readExpression (text : String) : Except Refusal Tree :=
  readText State.expressionStart State.expression? text

end Parley.Grammar
