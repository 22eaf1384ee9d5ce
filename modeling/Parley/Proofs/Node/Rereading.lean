import Parley.Proofs.Grammar.Feeding
import Parley.Proofs.Node.Bare

/-! Reading the tokens of a node again. The reader comes back to the node, places apart, unless a
statement of it is a name that is spelled like the keyword of a statement. Such a name can only come
from a text where something else stood before it, like a parenthesis, and its source is refused. -/

namespace Parley

open Parley.Grammar

/-- Whether a node is a variable that is named like the keyword of a statement. -/
def Node.isKeywordName : Node → Bool
  | .atom _ (.variable name) => name == "let" || name == "return"
  | _ => false

mutual

/-- Whether some statement of a program or of a block, at any depth, is a variable that is named like
the keyword of a statement. -/
def Node.hidesKeyword : Node → Bool
  | .atom _ _ => false
  | .list _ items => Node.anyHidesKeyword items
  | .store _ _ value => value.hidesKeyword
  | .answer _ value => value.hidesKeyword
  | .send _ receiver _ args => receiver.hidesKeyword || Node.anyHidesKeyword args
  | .block _ _ _ body => Node.anyStatementHidesKeyword body
  | .suite _ _ statements => Node.anyStatementHidesKeyword statements

/-- Whether one of some nodes holds such a statement. -/
def Node.anyHidesKeyword : List Node → Bool
  | [] => false
  | n :: ns => n.hidesKeyword || Node.anyHidesKeyword ns

/-- Whether one of some statements is such a statement or holds one. -/
def Node.anyStatementHidesKeyword : List Node → Bool
  | [] => false
  | n :: ns => n.isKeywordName || n.hidesKeyword || Node.anyStatementHidesKeyword ns

end

namespace Grammar

/-! Tokens with given words -/

theorem exists_token {ts : List Token} {kind : Kind} {text : String} {words : List Word}
    (h : ts.map Token.word = (kind, text) :: words) :
    ∃ t us, ts = t :: us ∧ t.kind = kind ∧ t.text = text ∧ us.map Token.word = words := by
  obtain ⟨t, us, rfl, ht, hus⟩ := List.map_eq_cons_iff.mp h
  obtain ⟨hkind, htext⟩ := Prod.mk.inj ht
  exact ⟨t, us, rfl, hkind, htext, hus⟩

theorem exists_last {ts : List Token} {kind : Kind} {text : String} {words : List Word}
    (h : ts.map Token.word = words ++ [(kind, text)]) :
    ∃ us t, ts = us ++ [t] ∧ us.map Token.word = words ∧ t.kind = kind := by
  obtain ⟨us, vs, rfl, hus, hvs⟩ := List.map_eq_append_iff.mp h
  obtain ⟨t, ws, rfl, hkind, -, hws⟩ := exists_token hvs
  obtain rfl := List.map_eq_nil_iff.mp hws
  exact ⟨us, t, rfl, hus, hkind⟩

/-- The reader has completed an expression that stands for a node. -/
def Completes (file : Option String) (n : Node) (stack : List Open) (s : State) : Prop :=
  ∃ p : Part, s = ⟨.completed p, stack⟩ ∧ p.tree.Denotes file n

/-- Where an expression may stand, the tokens of a node are read back as the node, or refused because
it hides a keyword. -/
def ReadsExpression (file : Option String) (n : Node) : Prop :=
  ∀ (ts : List Token) (stack : List Open), ts.map Token.word = n.words →
    Reads n.hidesKeyword (Completes file n stack) ⟨.expression, stack⟩ ts

/-- The tokens that end a statement: a semicolon, and in a block also its brace. -/
def EndsStatement (body : OpenBody) (t : Token) : Prop :=
  t.kind = .semicolon ∨ t.kind = .closeBrace ∧ body.head.isSome = true

/-- Where a statement may stand, the tokens of a node and the end of the statement are read back as the
node, or refused because it is or hides a keyword. -/
def ReadsStatement (file : Option String) (n : Node) : Prop :=
  ∀ (ts : List Token) (t : Token) (body : OpenBody) (stack : List Open),
    ts.map Token.word = n.words → EndsStatement body t →
    Reads (n.isKeywordName || n.hidesKeyword)
      (fun s => ∃ p : Part, p.tree.Denotes file n ∧ State.afterStatement body p stack t = some s)
      ⟨.statement body, stack⟩ (ts ++ [t])

theorem intercalate_cons (x : Word) (a : List Word) (l : List (List Word)) :
    [x].intercalate (a :: l) = a ++ l.flatMap (x :: ·) := by
  induction l generalizing a with
  | nil => simp
  | cons b l ih => rw [List.intercalate_cons_cons, ih]; simp

section Expressions

variable {file : Option String} {origin : Option Origin}

theorem readsExpression_atom {a : Atom} (ha : a.Proper) : ReadsExpression file (.atom origin a) := by
  intro ts stack hts
  rw [Node.words] at hts
  obtain ⟨t, us, rfl, ht, hus⟩ := List.map_eq_cons_iff.mp hts
  obtain rfl := List.map_eq_nil_iff.mp hus
  obtain ⟨hkind, -⟩ := Prod.mk.inj ht
  have hatom : t.isAtom = true ∧ t.kind ≠ .closeBracket := by
    rw [Token.isAtom, hkind]
    cases a <;> exact ⟨rfl, by simp [Atom.tokenKind]⟩
  have hstep : State.step ⟨.expression, stack⟩ t = some ⟨.completed t.part, stack⟩ := by
    rw [State.step_expression hatom.2, State.begin, if_pos hatom.1]
  exact Reads.cons hstep (.nil ⟨t.part, rfl, Tree.Denotes.atom (ofToken_word ha ht)⟩)

/-- The items of a list after the first one, to the closing bracket. -/
theorem reads_items {opening : Token} {stack : List Open} {ns : List Node}
    (hns : ∀ n ∈ ns, ReadsExpression file n) {done : List Part} {frame : Open}
    (hframe : OpenList opening done frame) {nodes : List Node}
    (hdone : List.Forall₂ (Tree.Denotes file) (done.map (·.tree)) nodes) {p : Part} {n : Node}
    (hp : p.tree.Denotes file n) {ts : List Token}
    (hts : ts.map Token.word =
      (ns.map Node.words).flatMap ((.comma, ",") :: ·) ++ [(.closeBracket, "]")]) :
    Reads (Node.anyHidesKeyword ns)
      (Completes file (.list origin ((n :: nodes).reverse ++ ns)) stack)
      ⟨.completed p, frame :: stack⟩ ts := by
  induction ns generalizing done frame nodes p n ts with
  | nil =>
      obtain ⟨t, us, rfl, hkind, -, hus⟩ := exists_token hts
      obtain rfl := List.map_eq_nil_iff.mp hus
      refine Reads.cons (hframe.follow_closeBracket p stack hkind) (.nil ⟨_, rfl, ?_⟩)
      rw [List.append_nil]
      refine Tree.Denotes.list (List.forall₂_reverse_iff.mpr ?_)
      exact .cons hp hdone
  | cons m ns ih =>
      rw [List.map_cons, List.flatMap_cons, List.cons_append, List.cons_append,
        List.append_assoc] at hts
      obtain ⟨t, us, rfl, hkind, -, hus⟩ := exists_token hts
      obtain ⟨vs, ws, rfl, hvs, hws⟩ := List.map_eq_append_iff.mp hus
      refine Reads.cons (hframe.follow_comma p stack hkind) ?_
      refine (hns m List.mem_cons_self vs _ hvs).append ?_
      rintro s' ⟨q, rfl, hq⟩
      have hrest := ih (fun k hk => hns k (List.mem_cons_of_mem m hk)) (.more (p :: done))
        (.cons hp hdone) hq hws
      simpa using hrest

theorem readsExpression_list {items : List Node} (hitems : ∀ n ∈ items, ReadsExpression file n) :
    ReadsExpression file (.list origin items) := by
  intro ts stack hts
  rw [Node.words, Node.wordsEach_eq_map] at hts
  obtain ⟨t, us, rfl, hkind, -, hus⟩ := exists_token hts
  refine Reads.cons (State.step_openBracket hkind) ?_
  cases items with
  | nil =>
      obtain ⟨t', vs, rfl, hkind', -, hvs⟩ := exists_token hus
      obtain rfl := List.map_eq_nil_iff.mp hvs
      have hclose : State.step ⟨.expression, .bracket t :: stack⟩ t' =
          some ⟨.completed (listOf t t' []), stack⟩ := by
        rw [State.step, hkind']
      exact Reads.cons hclose (.nil ⟨_, rfl, Tree.Denotes.list .nil⟩)
  | cons n ns =>
      rw [List.map_cons, intercalate_cons, List.append_assoc] at hus
      obtain ⟨vs, ws, rfl, hvs, hws⟩ := List.map_eq_append_iff.mp hus
      refine (hitems n List.mem_cons_self vs _ hvs).append ?_
      rintro s' ⟨p, rfl, hp⟩
      exact reads_items (fun k hk => hitems k (List.mem_cons_of_mem n hk)) .first .nil hp hws

/-- A send up to its receiver, before a message. -/
theorem reads_receiver {receiver : Node} (hreceiver : ReadsExpression file receiver)
    {stack : List Open} {words : List Word} {ts : List Token} {bad : Bool} {after : State → Prop}
    (hts : ts.map Token.word = (.openBracket, "[") :: (receiver.words ++ words))
    (hmessage : ∀ (opening : Token) (p : Part) (us : List Token), p.tree.Denotes file receiver →
      us.map Token.word = words → Reads bad after ⟨.completed p, .bracket opening :: stack⟩ us) :
    Reads (receiver.hidesKeyword || bad) after ⟨.expression, stack⟩ ts := by
  obtain ⟨t, us, rfl, hkind, -, hus⟩ := exists_token hts
  obtain ⟨vs, ws, rfl, hvs, hws⟩ := List.map_eq_append_iff.mp hus
  refine Reads.cons (State.step_openBracket hkind) ?_
  refine (hreceiver vs _ hvs).append ?_
  rintro s' ⟨p, rfl, hp⟩
  exact hmessage t p ws hp hws

theorem readsExpression_unary {receiver : Node} {name : String}
    (hreceiver : ReadsExpression file receiver) (hname : isName name.toList = true) :
    ReadsExpression file (.send origin receiver name []) := by
  intro ts stack hts
  obtain ⟨hleading, hkeywords⟩ := leadingWords_name hname
  rw [Node.words, sendWords, Selector.isBinary_eq_false_of_isName hname, if_neg (by simp), hleading,
    hkeywords, List.append_assoc] at hts
  rw [Node.hidesKeyword, Node.anyHidesKeyword]
  refine reads_receiver hreceiver hts ?_
  intro opening p us hp hus
  obtain ⟨t, vs, rfl, hkind, rfl, hvs⟩ := exists_token hus
  obtain ⟨t', ws, rfl, hkind', -, hws⟩ := exists_token hvs
  obtain rfl := List.map_eq_nil_iff.mp hws
  have hmessage : State.step ⟨.completed p, .bracket opening :: stack⟩ t =
      some ⟨.message opening p t, stack⟩ := by
    simp only [State.step, State.follow, hkind]
  refine Reads.cons hmessage ?_
  refine ⟨_, by simp only [State.feed_cons, State.step, hkind']; rfl, _, rfl, ?_⟩
  exact Tree.Denotes.unary hp

theorem readsExpression_binary {receiver argument : Node} {operator : String}
    (hreceiver : ReadsExpression file receiver) (hoperator : Selector.isBinary operator = true)
    (hargument : ReadsExpression file argument) :
    ReadsExpression file (.send origin receiver operator [argument]) := by
  intro ts stack hts
  rw [Node.words, sendWords, if_pos hoperator, List.append_assoc] at hts
  rw [Node.hidesKeyword, Node.anyHidesKeyword, Node.anyHidesKeyword]
  refine reads_receiver hreceiver hts ?_
  intro opening p us hp hus
  obtain ⟨t, vs, rfl, hkind, rfl, hvs⟩ := exists_token hus
  obtain ⟨ws, t', rfl, hws, hkind'⟩ := exists_last hvs
  have hmark : State.step ⟨.completed p, .bracket opening :: stack⟩ t =
      some ⟨.expression, .operand opening p t :: stack⟩ := by
    simp only [State.step, State.follow, hkind]
  refine Reads.cons hmark ((hargument ws _ hws).append ?_)
  rintro s' ⟨q, rfl, hq⟩
  refine ⟨_, by simp only [State.feed_cons, State.step, State.follow, hkind']; rfl, _, rfl, ?_⟩
  exact Tree.Denotes.binary hp hq

/-- The arguments of a send with keywords, from one of them to the closing bracket. -/
theorem reads_arguments {stack : List Open} {receiver : Node} {ns : List Node}
    (hns : ∀ n ∈ ns, ReadsExpression file n) (send : OpenSend)
    (hreceiver : send.receiver.tree.Denotes file receiver) {nodes : List Node}
    (hdone : List.Forall₂ (Tree.Denotes file) (send.arguments.map (·.tree)) nodes) {n : Node}
    (hn : ReadsExpression file n) {ks : List String} (hlength : ks.length = ns.length)
    {ts : List Token}
    (hts : ts.map Token.word =
      n.words ++ (keywordWords ks (ns.map Node.words) ++ [(.closeBracket, "]")])) :
    Reads (n.hidesKeyword || Node.anyHidesKeyword ns)
      (Completes file (.send origin receiver
        (Selector.make (send.name.map (·.text)) ((send.keywords.map (·.text)).reverse ++ ks))
        ((n :: nodes).reverse ++ ns)) stack)
      ⟨.expression, .argument send :: stack⟩ ts := by
  induction ns generalizing send nodes n ks ts with
  | nil =>
      obtain rfl := List.length_eq_zero_iff.mp hlength
      obtain ⟨us, vs, rfl, hus, hvs⟩ := List.map_eq_append_iff.mp hts
      obtain ⟨t, ws, rfl, hkind, -, hws⟩ := exists_token hvs
      obtain rfl := List.map_eq_nil_iff.mp hws
      refine (hn us _ hus).append ?_
      rintro s' ⟨q, rfl, hq⟩
      have hclose : State.step ⟨.completed q, .argument send :: stack⟩ t =
          some ⟨.completed (send.finish q t), stack⟩ := by
        simp only [State.step, State.follow, hkind]
      refine Reads.cons hclose (.nil ⟨_, rfl, ?_⟩)
      rw [List.append_nil, List.append_nil, ← List.map_reverse]
      exact Tree.Denotes.keyword hreceiver (List.forall₂_reverse_iff.mpr (.cons hq hdone))
  | cons m ns ih =>
      obtain ⟨k, ks, rfl⟩ := List.exists_cons_of_length_eq_add_one hlength
      obtain ⟨us, vs, rfl, hus, hvs⟩ := List.map_eq_append_iff.mp hts
      rw [keywordWords, List.map_cons, List.zip_cons_cons, List.flatMap_cons, ← keywordWords,
        List.cons_append, List.cons_append, List.cons_append, List.cons_append,
        List.append_assoc] at hvs
      obtain ⟨t, vs, rfl, hkind, rfl, hvs⟩ := exists_token hvs
      obtain ⟨t', vs, rfl, hkind', -, hvs⟩ := exists_token hvs
      refine (hn us _ hus).append ?_
      rintro s' ⟨q, rfl, hq⟩
      have hname : State.step ⟨.completed q, .argument send :: stack⟩ t =
          some ⟨.colon { send with arguments := q :: send.arguments, keywords := t :: send.keywords },
            stack⟩ := by
        simp only [State.step, State.follow, hkind]
      refine Reads.cons hname ?_
      have hcolon : ∀ next : OpenSend, State.step ⟨.colon next, stack⟩ t' =
          some ⟨.expression, .argument next :: stack⟩ := by
        intro next
        simp only [State.step, hkind']
      refine Reads.cons (hcolon _) ?_
      have hrest := ih (fun k hk => hns k (List.mem_cons_of_mem m hk))
        { send with arguments := q :: send.arguments, keywords := t :: send.keywords } hreceiver
        (.cons hq hdone) (hns m List.mem_cons_self) (by simpa using hlength) hvs
      simpa [Node.anyHidesKeyword] using hrest

theorem readsExpression_keyword {receiver : Node} {name : Option String} {keywords : List String}
    {args : List Node} (hreceiver : ReadsExpression file receiver)
    (hname : ∀ w ∈ name, isName w.toList = true)
    (hkeywords : ∀ w ∈ keywords, isName w.toList = true) (hne : keywords ≠ [])
    (hlength : keywords.length = args.length) (hargs : ∀ n ∈ args, ReadsExpression file n) :
    ReadsExpression file (.send origin receiver (Selector.make name keywords) args) := by
  intro ts stack hts
  have hname' := Selector.isKey_of_names hname
  have hkeywords' := Selector.isKey_of_names hkeywords
  rw [Node.words, sendWords, Selector.isBinary_make hname' hkeywords' hne, if_neg (by simp),
    leadingWords_make hname hkeywords, Selector.keywords_make hname' hkeywords',
    Node.wordsEach_eq_map, List.append_assoc, List.append_assoc] at hts
  obtain ⟨k, ks, rfl⟩ := List.exists_cons_of_ne_nil hne
  obtain ⟨n, ns, rfl⟩ := List.exists_cons_of_length_eq_add_one hlength.symm
  rw [Node.hidesKeyword, Node.anyHidesKeyword]
  refine reads_receiver hreceiver hts ?_
  intro opening p us hp hus
  rw [keywordWords, List.map_cons, List.zip_cons_cons, List.flatMap_cons, ← keywordWords,
    List.cons_append, List.cons_append, List.cons_append, List.cons_append,
    List.append_assoc] at hus
  have hfirst : ∀ (leading : Option Token) (keyword : Token) (vs : List Token),
      leading.map (·.text) = name → keyword.text = k →
      vs.map Token.word =
        n.words ++ (keywordWords ks (ns.map Node.words) ++ [(.closeBracket, "]")]) →
      Reads (n.hidesKeyword || Node.anyHidesKeyword ns)
        (Completes file (.send origin receiver (Selector.make name (k :: ks)) (n :: ns)) stack)
        ⟨.expression, .argument ⟨opening, p, leading, [keyword], []⟩ :: stack⟩ vs := by
    rintro leading keyword vs rfl rfl hvs
    exact reads_arguments (fun m hm => hargs m (List.mem_cons_of_mem n hm))
      ⟨opening, p, leading, [keyword], []⟩ hp .nil (hargs n List.mem_cons_self)
      (by simpa using hlength) hvs
  cases name with
  | none =>
      obtain ⟨t, vs, rfl, hkind, htext, hvs⟩ := exists_token hus
      obtain ⟨t', ws, rfl, hkind', -, hws⟩ := exists_token hvs
      have hmessage : State.step ⟨.completed p, .bracket opening :: stack⟩ t =
          some ⟨.message opening p t, stack⟩ := by
        simp only [State.step, State.follow, hkind]
      have hcolon : State.step ⟨.message opening p t, stack⟩ t' =
          some ⟨.expression, .argument ⟨opening, p, none, [t], []⟩ :: stack⟩ := by
        simp only [State.step, hkind']
      exact Reads.cons hmessage (Reads.cons hcolon (hfirst none t ws rfl htext hws))
  | some w =>
      obtain ⟨u, vs, rfl, hkindu, rfl, hvs⟩ := exists_token hus
      obtain ⟨t, ws, rfl, hkind, htext, hws⟩ := exists_token hvs
      obtain ⟨t', xs, rfl, hkind', -, hxs⟩ := exists_token hws
      have hmessage : State.step ⟨.completed p, .bracket opening :: stack⟩ u =
          some ⟨.message opening p u, stack⟩ := by
        simp only [State.step, State.follow, hkindu]
      have hname : State.step ⟨.message opening p u, stack⟩ t =
          some ⟨.colon ⟨opening, p, some u, [t], []⟩, stack⟩ := by
        simp only [State.step, hkind]
      have hcolon : State.step ⟨.colon ⟨opening, p, some u, [t], []⟩, stack⟩ t' =
          some ⟨.expression, .argument ⟨opening, p, some u, [t], []⟩ :: stack⟩ := by
        simp only [State.step, hkind']
      refine Reads.cons hmessage (Reads.cons hname (Reads.cons hcolon ?_))
      exact hfirst (some u) t xs rfl htext hxs

end Expressions

end Grammar

end Parley
