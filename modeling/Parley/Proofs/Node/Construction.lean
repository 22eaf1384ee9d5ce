import Parley.Proofs.Node.Conversion
import Parley.Proofs.Node.RoundTrip
import Parley.Proofs.Text.Decimal

/-! Parsing ends in order. `construct` converts a text through the checked constructors and stops where one of
them refuses its parts, or where a token stands that is no such part. On what the grammar makes of a text it
never stops so: it comes to what `parse` comes to, which leaves the checks out. Every node that comes out of
it is well formed. -/

namespace Parley

open Parley.Grammar

/-- Why a construction ends without a node. -/
inductive Halt where
  /-- the text is refused, or an integer in it is too long -/
  | failure (failure : ParseFailure)
  /-- a constructor refuses its parts -/
  | unfit (error : BuildError)
  /-- a token stands where no token of its class belongs -/
  | unhandled (token : Token)
  deriving DecidableEq, Repr

/-- The node with another origin. -/
def Node.placedAt (origin : Option Origin) : Node → Node
  | .atom _ a => .atom origin a
  | .list _ items => .list origin items
  | .store _ target value => .store origin target value
  | .answer _ value => .answer origin value
  | .send _ receiver selector args => .send origin receiver selector args
  | .block _ params bodyOrigin body => .block origin params bodyOrigin body
  | .suite _ kind statements => .suite origin kind statements

/-- What a constructor makes, with its origin. -/
def Node.stamp (origin : Option Origin) : Except BuildError Node → Except Halt Node
  | .ok n => .ok (n.placedAt origin)
  | .error e => .error (.unfit e)

/-- The node of a single token. A number is read like any other text. -/
def Node.constructAtom (origin : Origin) (t : Token) : Except Halt Node :=
  match t.kind with
  | .integer =>
    match Text.readInteger t.text with
    | .ok n => .ok (.atom origin (.integer n))
    | .error e => .error (.failure (.integerTooLong e))
  | .string | .symbol | .slot => ((Atom.ofToken t).map (.atom origin)).mapError .failure
  | .name =>
    if t.text ∈ literalWords then .ok (.atom origin (.ofWord t.text))
    else Node.stamp origin (Node.mkVariable (some t.text))
  | _ => .error (.unhandled t)

/-- The block with a body. Repeated parameters are an error of the text. -/
def Node.constructBlock (origin : Origin) (params : List String) (body : Node) : Except Halt Node :=
  match Node.mkBlock (.members params) (some body) with
  | .ok n => .ok (n.placedAt origin)
  | .error (.duplicateParameter names) =>
    .error (.failure (.refused ⟨.duplicateParameter names, origin.position⟩))
  | .error e => .error (.unfit e)

/-- A suite of statements. -/
def Node.constructSuite (origin : Option Origin) (kind : SuiteKind) (statements : List Node) :
    Except Halt Node :=
  Node.stamp origin (Node.mkSuite kind (.members (statements.map some)))

mutual

/-- Converts a concrete tree of a file, every node by its constructor. -/
def Node.construct (file : Option String) : Tree → Except Halt Node
  | .atom token => Node.constructAtom ⟨file, token.span⟩ token
  | .list span items => do
    let items ← Node.constructEach file items
    Node.stamp (some ⟨file, span⟩) (Node.mkList (.members (items.map some)))
  | .unary span receiver name => do
    let receiver ← Node.construct file receiver
    Node.stamp (some ⟨file, span⟩) (Node.mkSend (some receiver) name.text (.members []))
  | .binary span receiver operator argument => do
    let receiver ← Node.construct file receiver
    let argument ← Node.construct file argument
    Node.stamp (some ⟨file, span⟩)
      (Node.mkSend (some receiver) operator.text (.members [some argument]))
  | .keyword span receiver name keywords arguments => do
    let receiver ← Node.construct file receiver
    let arguments ← Node.constructEach file arguments
    let selector := Selector.make (name.map (·.text)) (keywords.map (·.text))
    Node.stamp (some ⟨file, span⟩)
      (Node.mkSend (some receiver) selector (.members (arguments.map some)))
  | .block span params bodySpan body => do
    let statements ← Node.constructEach file body
    let body ← Node.constructSuite (bodySpan.map (⟨file, ·⟩)) .sequence statements
    Node.constructBlock ⟨file, span⟩ (params.map (·.text)) body
  | .define span name operator value => do
    let value ← Node.construct file value
    Node.stamp (some ⟨file, span⟩) (Node.mkStore (.define name.text operator.text) (some value))
  | .assign span target _ value => do
    let value ← Node.construct file value
    if target.kind = .name ∨ target.kind = .slot then
      Node.stamp (some ⟨file, span⟩) (Node.mkStore (.ofToken target) (some value))
    else .error (.unhandled target)
  | .answer span value => do
    let value ← Node.construct file value
    Node.stamp (some ⟨file, span⟩) (Node.mkAnswer (some value))

def Node.constructEach (file : Option String) : List Tree → Except Halt (List Node)
  | [] => return []
  | t :: ts => do
    let n ← Node.construct file t
    let ns ← Node.constructEach file ts
    return n :: ns

end

/-- A program takes over the statements of its body. -/
def Node.constructBody (file : Option String) (body : Body) : Except Halt Node := do
  let statements ← Node.constructEach file body.statements
  let sequence ← Node.constructSuite (body.span.map (⟨file, ·⟩)) .sequence statements
  Node.constructSuite (body.span.map (⟨file, ·⟩)) .program sequence.statements

/-- Reads a text and constructs the nodes of what was read. -/
def constructWith {α : Type} (read : String → Except Refusal α)
    (convert : Option String → α → Except Halt Node) (text : String) (file : Option String) :
    Except Halt Node :=
  match read text with
  | .ok tree => convert file tree
  | .error refusal => .error (.failure (.refused (.ofRefusal file refusal)))

/-- Parses a text by a start rule, with all checks. -/
def StartRule.construct : StartRule → String → Option String → Except Halt Node
  | .program => constructWith readProgram Node.constructBody
  | .expression => constructWith readExpression Node.construct

/-! Constructors with fitting parts -/

section Constructors

variable {origin : Option Origin} {receiver : Node} {selector : String} {ns : List Node}

theorem Node.allParts_map_some (ns : List Node) (e : BuildError) :
    Node.allParts (.members (ns.map some)) e = .ok ns := by
  have hall : (ns.map some).mapM id = some ns := by
    induction ns with
    | nil => rfl
    | cons n ns ih => rw [List.map_cons, List.mapM_cons, ih]; rfl
  simp only [Node.allParts, Several.toExcept, bind, Except.bind, hall]

theorem Node.stamp_mkList : Node.stamp origin (Node.mkList (.members (ns.map some))) = .ok (.list origin ns) := by
  rw [Node.mkList, Node.allParts_map_some]
  rfl

theorem Node.constructSuite_eq (kind : SuiteKind) :
    Node.constructSuite origin kind ns = .ok (.suite origin kind ns) := by
  rw [Node.constructSuite, Node.mkSuite, Node.allParts_map_some]
  rfl

/-- A send fits if its selector takes as many arguments as there are. -/
theorem Node.stamp_mkSend (args : List Node) (h : Selector.arity selector = args.length) :
    Node.stamp origin (Node.mkSend (some receiver) selector (.members (args.map some))) =
      .ok (.send origin receiver selector args) := by
  rw [Node.mkSend, Node.allParts_map_some]
  change Node.stamp origin (if Selector.arity selector = args.length then _ else _) = _
  rw [if_pos h]
  rfl

theorem Node.constructBlock_eq (origin : Origin) (params : List String) (bodyOrigin : Option Origin)
    (body : List Node) :
    Node.constructBlock origin params (.suite bodyOrigin .sequence body) =
      if params.Nodup then .ok (.block origin params bodyOrigin body)
      else .error (.failure (.refused ⟨.duplicateParameter params, origin.position⟩)) := by
  have hblock : Node.mkBlock (.members params) (some (.suite bodyOrigin .sequence body)) =
      if params.Nodup then .ok (.block none params bodyOrigin body)
      else .error (.duplicateParameter params) := rfl
  rw [Node.constructBlock, hblock]
  split_ifs <;> rfl

end Constructors

/-! Construction and conversion -/

namespace Grammar.Token.IsFrom

variable {text : String} {t : Token}

theorem isName (h : t.IsFrom text) (hkind : t.kind = .name) : isName t.text.toList = true :=
  (proper_of_mem_scanFrom h.mem).name hkind

theorem isBinary (h : t.IsFrom text) (hkind : t.kind = .operator) : Selector.isBinary t.text = true :=
  (proper_of_mem_scanFrom h.mem).operator hkind

/-- The digits of an integer are read as any text is that gives an integer. -/
theorem readInteger (h : t.IsFrom text) (hkind : t.kind = .integer) :
    Text.readInteger t.text = (Text.readDigits t.text.toList).map Int.ofNat := by
  have hspells := h.spells
  rw [hkind] at hspells
  exact Text.readInteger_of_digits hspells.1 (List.all_eq_true.mp hspells.2)

end Grammar.Token.IsFrom

section Construction

variable {file : Option String} {text : String} {t : Tree} {ts : List Tree}

/-- A tree is constructed as it is converted. -/
def Grammar.Tree.Constructs (file : Option String) (t : Tree) : Prop :=
  Node.construct file t = (Node.ofTree file t).mapError .failure

theorem constructEach_eq (hts : ∀ t ∈ ts, t.Constructs file) :
    Node.constructEach file ts = (Node.ofTrees file ts).mapError .failure := by
  induction ts with
  | nil => rfl
  | cons t ts ih =>
      obtain ⟨ht, hts⟩ := List.forall_mem_cons.mp hts
      rw [Node.constructEach, Node.ofTrees, ht, ih hts]
      refine bind_mapError fun n _ => ?_
      exact bind_mapError fun ns _ => rfl

/-- An expression that is a single token does not stop the construction: its digits are a number, and its word
is no empty name. -/
theorem constructAtom_eq {token : Token} (htoken : token.IsFrom text) (hatom : token.isAtom = true)
    (origin : Origin) :
    Node.constructAtom origin token = ((Atom.ofToken token).map (.atom origin)).mapError .failure := by
  rw [Node.constructAtom]
  cases hkind : token.kind
  case integer =>
      dsimp only
      rw [htoken.readInteger hkind, Atom.ofToken, hkind]
      dsimp only
      cases Text.readDigits token.text.toList <;> rfl
  case string | symbol | slot => rfl
  case name =>
      have hofToken : Atom.ofToken token = .ok (.ofWord token.text) := by rw [Atom.ofToken, hkind]
      have hne : token.text ≠ "" := (Selector.isKey_of_isName (htoken.isName hkind)).ne_empty
      dsimp only
      rw [hofToken]
      split_ifs with hliteral
      · rfl
      · rw [Atom.ofWord_eq_variable hliteral, Node.mkVariable]
        · rfl
        · simpa using hne
  all_goals
      rw [Token.isAtom, hkind] at hatom
      cases hatom

theorem constructs_atom {token : Token} (htoken : token.IsFrom text) (hatom : token.isAtom = true) :
    (Tree.atom token).Constructs file := by
  have hconvert : Node.ofTree file (.atom token) =
      (Atom.ofToken token).map (.atom (some ⟨file, token.span⟩)) := by
    rw [Node.ofTree]
    cases Atom.ofToken token <;> rfl
  rw [Tree.Constructs, Node.construct, constructAtom_eq htoken hatom, hconvert]

/-- A tree of a text is constructed as it is converted: the grammar gives every constructor what it wants. -/
theorem constructs_of_formed (ht : t.Formed (·.IsFrom text)) : t.Constructs file := by
  induction ht with
  | atom htoken hatom => exact constructs_atom htoken hatom
  | list _ ih =>
      rw [Tree.Constructs, Node.construct, Node.ofTree, constructEach_eq ih]
      exact bind_mapError fun ns _ => Node.stamp_mkList
  | unary _ hname ih =>
      rw [Tree.Constructs, Node.construct, Node.ofTree, ih]
      have harity := Selector.arity_of_isName (hname.1.isName hname.2)
      exact bind_mapError fun r _ => Node.stamp_mkSend [] harity
  | binary _ hoperator _ ih ih' =>
      rw [Tree.Constructs, Node.construct, Node.ofTree, ih, ih']
      have harity : Selector.arity _ = 1 := if_pos (hoperator.1.isBinary hoperator.2)
      refine bind_mapError fun r _ => ?_
      exact bind_mapError fun a _ => Node.stamp_mkSend [a] harity
  | keyword _ hname hkeywords hne hlength _ ih ih' =>
      rw [Tree.Constructs, Node.construct, Node.ofTree, ih, constructEach_eq ih']
      refine bind_mapError fun r _ => ?_
      -- each keyword has one argument, and each argument becomes one node
      refine bind_mapError fun args hargs => Node.stamp_mkSend args ?_
      rw [Selector.arity_make_of_isName, List.length_map, hlength, (forall₂_of_ofTrees hargs).length_eq]
      · exact Option.forall_mem_map.mpr fun t ht => (hname t ht).1.isName (hname t ht).2
      · exact List.forall_mem_map.mpr fun t ht => (hkeywords t ht).1.isName (hkeywords t ht).2
      · simpa using hne
  | block _ _ ih =>
      rw [Tree.Constructs, Node.construct, Node.ofTree, constructEach_eq ih]
      refine bind_mapError fun ns _ => ?_
      rw [Node.constructSuite_eq]
      change Node.constructBlock _ _ (.suite _ .sequence ns) = _
      rw [Node.constructBlock_eq]
      split_ifs <;> rfl
  | define _ _ _ ih =>
      rw [Tree.Constructs, Node.construct, Node.ofTree, ih]
      exact bind_mapError fun v _ => rfl
  | assign htarget _ _ ih =>
      rw [Tree.Constructs, Node.construct, Node.ofTree, ih]
      refine bind_mapError fun v _ => ?_
      rw [if_pos htarget.2]
      rfl
  | answer _ ih =>
      rw [Tree.Constructs, Node.construct, Node.ofTree, ih]
      exact bind_mapError fun v _ => rfl

/-- A tree that the grammar does not make: the word between its two parts is no operator. -/
example (span : Span) :
    Node.construct none (.binary span (.atom ⟨.name, "a", span⟩) ⟨.name, "at", span⟩ (.atom ⟨.slot, "@b", span⟩)) =
      .error (.unfit (.argumentCount "at" 0 1)) := by cbv

theorem constructBody_eq {body : Body} (hbody : ∀ t ∈ body.statements, t.Formed (·.IsFrom text)) :
    Node.constructBody file body = (Node.ofBody file body).mapError .failure := by
  rw [Node.constructBody, Node.ofBody, constructEach_eq fun t ht => constructs_of_formed (hbody t ht)]
  refine bind_mapError fun ns _ => ?_
  rw [Node.constructSuite_eq]
  exact Node.constructSuite_eq .program

end Construction

/-! Well-formed nodes -/

/-- A node fits together, its parts apart: names are names, no word that stands for itself is a variable and no
keyword is assigned to, integers are not negative, parameters are distinct, and a send carries as many
arguments as its selector takes, which is in canonical spacing. That the body of a block is a sequence is in
the shape of the node already. -/
def Node.WellFormed : Node → Prop
  | .atom _ a => a.Proper
  | .store _ target _ => target.Proper
  | .send _ _ selector args =>
    Selector.arity selector = args.length ∧ Selector.normalize selector = selector
  | .block _ params _ _ => params.Nodup ∧ ∀ p ∈ params, isName p.toList = true
  | .list .. | .answer .. | .suite .. => True

/-- A statement that can be written in the grammar, or a suite of such statements. -/
inductive Node.Written : Node → Prop
  | statement {n : Node} (h : n.Proper .statement) : Written n
  | suite {origin : Option Origin} {kind : SuiteKind} {statements : List Node}
      (h : ∀ n ∈ statements, n.Proper .statement) : Written (.suite origin kind statements)

section WellFormed

variable {file : Option String} {text : String} {rule : StartRule} {n m : Node}

theorem Node.Written.wellFormed (h : n.Written) : n.WellFormed := by
  cases h with
  | suite => trivial
  | @statement n h =>
      cases n with
      | send => exact ⟨h.arity_eq, h.normalize_eq⟩
      | list | answer | suite => trivial
      | atom =>
          cases h with
          | atom ha => exact ha
      | store =>
          cases h with
          | store htarget _ => exact htarget
      | block =>
          cases h with
          | block hparams hnodup _ => exact ⟨hnodup, hparams⟩

theorem Node.Written.operand (h : n.Written) (hm : m ∈ n.operands) : m.Written := by
  cases h with
  | statement h => exact .statement (h.operand hm).statement
  | suite h => exact .statement (h m hm)

theorem Node.Written.part (h : n.Written) (hm : n.Holds m) : m.Written := by
  induction hm with
  | self => exact h
  | operand _ hm ih => exact ih.operand hm
  | body _ ih =>
      cases ih with
      | statement h =>
          cases h with
          | block _ _ hbody => exact .suite hbody

theorem written_of_parse (h : rule.parse text file = .ok n) : n.Written := by
  cases rule with
  | program =>
      obtain ⟨origin, statements, rfl, hstatements⟩ := proper_of_parseProgram h
      exact .suite hstatements
  | expression => exact .statement (proper_of_parseExpression h).statement

end WellFormed

/-! Trees of a text -/

/-- The grammar makes some trees of a text by a start rule: the statements of a program, or an expression
alone. -/
inductive StartRule.Yields : StartRule → String → List Tree → Prop
  | program {text : String} {body : Body} {xs : List Terminal} (h : Derivation .body text body xs) :
      Yields .program text body.statements
  | expression {text : String} {tree : Tree} {xs : List Terminal} (h : Derivation .expression text tree xs) :
      Yields .expression text [tree]

/-- What parsing makes of the trees of a text. -/
structure StartRule.Converts (rule : StartRule) (text : String) (file : Option String) (ts : List Tree) :
    Prop where
  formed : ∀ t ∈ ts, t.Formed (·.IsFrom text)
  construct_eq : rule.construct text file = (rule.parse text file).mapError .failure
  ok_iff : (∃ n, rule.parse text file = .ok n) ↔ ∀ t ∈ ts, ∀ f, ¬t.Fault file f
  fault : ∀ f, rule.parse text file = .error f → ∃ t ∈ ts, t.Fault file f

section Parsing

variable {rule : StartRule} {text : String} {ts : List Tree}

theorem StartRule.Yields.converts (h : rule.Yields text ts) (file : Option String) :
    rule.Converts text file ts := by
  cases h with
  | @program _ body xs h =>
      have hformed : ∀ t ∈ body.statements, t.Formed (·.IsFrom text) := h.formed
      have hread : readProgram text = .ok body := decides_program.readText_iff.mpr ⟨xs, h⟩
      have hparse : StartRule.program.parse text file = Node.ofBody file body := by
        rw [StartRule.parse, parseProgram, parseWith, hread]
      have hconstruct : StartRule.program.construct text file = Node.constructBody file body := by
        rw [StartRule.construct, constructWith, hread]
      refine ⟨hformed, ?_, ?_, fun f hf => exists_fault_of_ofBody (hparse ▸ hf)⟩
      · rw [hparse, hconstruct, constructBody_eq hformed]
      · rw [hparse, exists_ofBody_iff]
  | @expression _ tree xs h =>
      have hformed : tree.Formed (·.IsFrom text) := h.formed
      have hread : readExpression text = .ok tree := decides_expression.readText_iff.mpr ⟨xs, h⟩
      have hparse : StartRule.expression.parse text file = Node.ofTree file tree := by
        rw [StartRule.parse, parseExpression, parseWith, hread]
      have hconstruct : StartRule.expression.construct text file = Node.construct file tree := by
        rw [StartRule.construct, constructWith, hread]
      refine ⟨List.forall_mem_singleton.mpr hformed, ?_, ?_, fun f hf => ?_⟩
      · rw [hparse, hconstruct, constructs_of_formed hformed]
      · rw [hparse, exists_ofTree_iff, List.forall_mem_singleton]
      · exact ⟨tree, List.mem_singleton_self tree, fault_of_ofTree (hparse ▸ hf)⟩

/-- A text has trees, or it is refused. -/
theorem StartRule.yields_or_refused (rule : StartRule) (text : String) (file : Option String) :
    (∃ ts, rule.Yields text ts) ∨ ∃ e, rule.parse text file = .error (.refused e) ∧
      rule.construct text file = .error (.failure (.refused e)) := by
  cases rule with
  | program =>
      cases hread : readProgram text with
      | ok body =>
          obtain ⟨xs, h⟩ := decides_program.readText_iff.mp hread
          exact .inl ⟨_, .program h⟩
      | error refusal =>
          refine .inr ⟨.ofRefusal file refusal, ?_, ?_⟩
          · rw [StartRule.parse, parseProgram, parseWith, hread]
          · rw [StartRule.construct, constructWith, hread]
  | expression =>
      cases hread : readExpression text with
      | ok tree =>
          obtain ⟨xs, h⟩ := decides_expression.readText_iff.mp hread
          exact .inl ⟨_, .expression h⟩
      | error refusal =>
          refine .inr ⟨.ofRefusal file refusal, ?_, ?_⟩
          · rw [StartRule.parse, parseExpression, parseWith, hread]
          · rw [StartRule.construct, constructWith, hread]

/-- Parsing ends in order, whatever the text. No check of a constructor fails. It ends with a node in which
everything is well formed, with an error of the text, or at an integer in the text that has more digits than
are read. It ends with a node exactly if the grammar makes trees of the text that have no fault: no integer
is too long, and no block names a parameter twice. -/
theorem parse_ends_in_order (rule : StartRule) (text : String) (file : Option String) :
    rule.construct text file = (rule.parse text file).mapError .failure ∧
    ((∃ n, rule.parse text file = .ok n ∧ ∀ m, n.Holds m → m.WellFormed) ∨
      (∃ e, rule.parse text file = .error (.refused e)) ∨
      ∃ t ∈ (scan text).tokens, t.kind = .integer ∧ Text.digitLimit < t.text.length ∧
        rule.parse text file = .error (.integerTooLong (.tooManyDigits t.text.length))) ∧
    ((∃ n, rule.parse text file = .ok n) ↔
      ∃ ts, rule.Yields text ts ∧ ∀ t ∈ ts, ∀ f, ¬t.Fault file f) := by
  rcases rule.yields_or_refused text file with ⟨ts, hts⟩ | ⟨e, hparse, hconstruct⟩
  · have hconverts := hts.converts file
    refine ⟨hconverts.construct_eq, ?_, fun h => ⟨ts, hts, hconverts.ok_iff.mp h⟩, ?_⟩
    · cases hparse : rule.parse text file with
      | ok n => exact .inl ⟨n, rfl, fun m hm => ((written_of_parse hparse).part hm).wellFormed⟩
      | error f =>
          obtain ⟨t, ht, hf⟩ := hconverts.fault f hparse
          cases f with
          | refused e => exact .inr (.inl ⟨e, rfl⟩)
          | integerTooLong e =>
              obtain ⟨token, htoken, hkind, hlong, rfl⟩ := (hconverts.formed t ht).exists_integer hf
              exact .inr (.inr ⟨token, htoken.mem, hkind, hlong, rfl⟩)
    · rintro ⟨us, hus, hfault⟩
      exact (hus.converts file).ok_iff.mpr hfault
  · refine ⟨by rw [hparse, hconstruct]; rfl, .inr (.inl ⟨e, hparse⟩), ?_, ?_⟩
    · rintro ⟨n, hn⟩
      rw [hparse] at hn
      cases hn
    · rintro ⟨us, hus, hfault⟩
      exact (hus.converts file).ok_iff.mpr hfault

end Parsing

/-- Repeated parameters are found by the constructor of blocks and become an error of the text. -/
example : StartRule.expression.construct "[|x: x:| \x7b\x7d call]" none =
    .error (.failure (.refused ⟨.duplicateParameter ["x", "x"],
      Origin.position ⟨none, ⟨1, 2⟩, ⟨1, 12⟩⟩⟩)) := by cbv

end Parley
