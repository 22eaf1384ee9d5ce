import Parley.Source

/-! Tokens, and the cutting of text into them. Blanks and comments, from `//` to the end of the line,
separate tokens; each token is the longest lexeme that starts where it starts. Words are not told
apart here: whether `let` is a name or a keyword depends on where it stands in a sentence. -/

namespace Parley.Grammar

/-- The classes of tokens. -/
inductive Kind where
  | integer | string | symbol | slot | name | operator
  | equals | walrus | colon | comma | semicolon
  | openParen | closeParen | openBracket | closeBracket | openBrace | closeBrace | bar
  deriving DecidableEq, Repr, Inhabited

/-- A token with the text it was cut from. -/
structure Token where
  kind : Kind
  text : String
  span : Span
  deriving DecidableEq, Repr, Inhabited

/-- The blanks between tokens. -/
def isSpace (c : Char) : Bool :=
  c = ' ' || c = '\t' || c = '\x0c' || c = '\r' || c = '\n'

def isNameStart (c : Char) : Bool := c.isAlpha || c = '_'

/-- A character that can go on a name. -/
def isNameRest (c : Char) : Bool := c.isAlphanum || c = '_'

/-- A character that can go on the name of a symbol. -/
def isSymbolRest (c : Char) : Bool := isNameRest c || c = ':'

/-- How many characters belong to a string after its opening quote, the closing one included. A
backslash takes the next character with it, which must not be a line feed. -/
def stringRest (quote : Char) : List Char → Option Nat
  | [] => none
  | '\\' :: c :: cs => if c = '\n' then none else (stringRest quote cs).map (· + 2)
  | c :: cs =>
    if c = quote then some 1
    else if c = '\\' then none
    else (stringRest quote cs).map (· + 1)

/-- How many characters belong to a symbol after its `#`: a name with colons, or an operator. -/
def symbolRest : List Char → Option Nat
  | [] => none
  | c :: cs =>
    if isNameStart c then some (1 + (cs.takeWhile isSymbolRest).length)
    else if (c = '<' || c = '>' || c = '=' || c = '!') && cs.head? = some '=' then some 2
    else if ['-', '+', '*', '/', '%', '<', '>'].contains c then some 1
    else none

/-- The class of the lexeme that begins with `c` before `rest`, and how many characters of `rest`
belong to it; `none` when no lexeme begins so. -/
def lexeme (c : Char) (rest : List Char) : Option (Kind × Nat) :=
  let beforeEquals := rest.head? = some '='
  if c.isDigit then some (.integer, (rest.takeWhile Char.isDigit).length)
  else if isNameStart c then some (.name, (rest.takeWhile isNameRest).length)
  else match c with
    | '@' =>
      if (rest.head?.map isNameStart).getD false then
        some (.slot, (rest.takeWhile isNameRest).length)
      else none
    | '#' => (symbolRest rest).map (Kind.symbol, ·)
    | '"' => (stringRest '"' rest).map (Kind.string, ·)
    | '\'' => (stringRest '\'' rest).map (Kind.string, ·)
    | '=' => if beforeEquals then some (.operator, 1) else some (.equals, 0)
    | ':' => if beforeEquals then some (.walrus, 1) else some (.colon, 0)
    | '!' => if beforeEquals then some (.operator, 1) else none
    | '<' => some (.operator, if beforeEquals then 1 else 0)
    | '>' => some (.operator, if beforeEquals then 1 else 0)
    | '+' => some (.operator, 0)
    | '-' => some (.operator, 0)
    | '*' => some (.operator, 0)
    | '/' => some (.operator, 0)
    | '%' => some (.operator, 0)
    | ',' => some (.comma, 0)
    | ';' => some (.semicolon, 0)
    | '(' => some (.openParen, 0)
    | ')' => some (.closeParen, 0)
    | '[' => some (.openBracket, 0)
    | ']' => some (.closeBracket, 0)
    | '{' => some (.openBrace, 0)
    | '}' => some (.closeBrace, 0)
    | '|' => some (.bar, 0)
    | _ => none

/-- A text cut into tokens, up to its end or to the first character that begins no lexeme. -/
structure Scan where
  tokens : List Token
  stray : Option (Char × Point)
  deriving Repr

/-- How many characters after a slash belong to a comment, when one begins there. -/
def commentRest : List Char → Option Nat
  | '/' :: cs => some (1 + (cs.takeWhile (· ≠ '\n')).length)
  | _ => none

/-- Cuts the characters that begin at a place into tokens. -/
def scanFrom (p : Point) : List Char → Scan
  | [] => ⟨[], none⟩
  | c :: rest =>
    if isSpace c then scanFrom (p.next c) rest
    else match if c = '/' then commentRest rest else none with
      | some n => scanFrom (p.after (c :: rest.take n)) (rest.drop n)
      | none =>
        match lexeme c rest with
        | none => ⟨[], some (c, p)⟩
        | some (kind, n) =>
          let text := c :: rest.take n
          let stop := p.after text
          let more := scanFrom stop (rest.drop n)
          ⟨⟨kind, String.ofList text, ⟨p, stop⟩⟩ :: more.tokens, more.stray⟩
  termination_by cs => cs.length
  decreasing_by all_goals simp only [List.length_cons, List.length_drop]; omega

def scan (text : String) : Scan := scanFrom .first text.toList

end Parley.Grammar
