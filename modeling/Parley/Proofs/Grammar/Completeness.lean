import Parley.Proofs.Grammar.Taking

/-! Every phrase of the grammar is read. By induction on its derivation, a phrase is taken whole in any
state that may go on with it, whatever constructs are open around it, and leads to what it stands for. -/

namespace Parley.Grammar

/-- The reader waits for the end of a statement: a name or an instance variable by itself, or one that has
a value. -/
inductive Awaits (body : OpenBody) (stack : List Open) (p : Part) : State → Prop
  | lead {t : Token} : t.part = p → Awaits body stack p ⟨.lead body t, stack⟩
  | value {lead : Lead} {q : Part} : lead.finish q = p →
      Awaits body stack p ⟨.completed q, .statement body lead :: stack⟩

/-- The reader is in a body that may end here. -/
inductive Ends (head : Option Head) (stack : List Open) (b : Body) : State → Prop
  | closed {body : OpenBody} : body.head = head → body.close = b →
      Ends head stack b ⟨.statement body, stack⟩
  | ended {body : OpenBody} {p : Part} {s : State} : body.head = head → body.closeWith p = b →
      Awaits body stack p s → Ends head stack b s

/-- A phrase is taken whole wherever it may stand. -/
def Phrase.Taken : Phrase → List Terminal → Prop
  | .expression tree, xs => ∃ outer, stretch xs = some outer ∧ ∀ stack,
      State.takes ⟨.expression, stack⟩ xs = some ⟨.completed ⟨tree, outer⟩, stack⟩
  | .statement tree, xs => ∃ outer, stretch xs = some outer ∧ ∀ body stack, ∃ s,
      State.takes ⟨.statement body, stack⟩ xs = some s ∧ Awaits body stack ⟨tree, outer⟩ s
  | .statements trees, xs => ∀ head stack, ∃ body,
      State.takes ⟨.statement (.start head), stack⟩ xs = some ⟨.statement body, stack⟩ ∧
        body.head = head ∧ body.close = ⟨stretch xs, trees⟩
  | .body b, xs => ∀ head stack, ∃ s,
      State.takes ⟨.statement (.start head), stack⟩ xs = some s ∧ Ends head stack b s
  | .items trees, xs => ∀ opening stack, ∃ p done frame,
      State.takes ⟨.expression, .bracket opening :: stack⟩ xs = some ⟨.completed p, frame :: stack⟩ ∧
        OpenList opening done frame ∧ ((p :: done).map (·.tree)).reverse = trees
  | .arguments keywords trees, xs => ∀ (s : State) opening receiver name stack,
      (∀ k c : Terminal, k.Is .name → c.Is .colon → s.takes [k, c] =
        some ⟨.expression, .argument ⟨opening, receiver, name, [k.token], []⟩ :: stack⟩) →
      ∃ p args, s.takes xs = some ⟨.completed p,
          .argument ⟨opening, receiver, name, keywords.reverse, args⟩ :: stack⟩ ∧
        ((p :: args).map (·.tree)).reverse = trees
  | .params names, xs => ∀ opening stack, ∃ s,
      State.takes ⟨.params ⟨opening, []⟩, stack⟩ xs = some s ∧
        (s = ⟨.params ⟨opening, names.reverse⟩, stack⟩ ∨
          s = ⟨.paramMark ⟨opening, names.reverse⟩, stack⟩)

section Ends

variable {body : OpenBody} {stack : List Open} {p : Part} {s : State} {x : Terminal}

theorem Awaits.take_semicolon (h : Awaits body stack p s) (hx : x.Is .semicolon) :
    s.take x = some ⟨.statement (body.add p x.token), stack⟩ := by
  rw [State.take_of_is hx (by simp)]
  cases h with
  | lead hp => subst hp; simp [State.step, State.afterStatement, hx.2]
  | value hp => subst hp; simp [State.step, State.follow, State.afterStatement, hx.2]

theorem Awaits.take_closeBrace (h : Awaits body stack p s) (hx : x.Is .closeBrace) {head : Head}
    (hhead : body.head = some head) :
    s.take x = some ⟨.completed (head.block (body.closeWith p) x.token), stack⟩ := by
  rw [State.take_of_is hx (by simp)]
  cases h with
  | lead hp => subst hp; simp [State.step, State.afterStatement, hx.2, hhead]
  | value hp => subst hp; simp [State.step, State.follow, State.afterStatement, hx.2, hhead]

theorem Ends.take_closeBrace {head : Head} {b : Body} (h : Ends (some head) stack b s)
    (hx : x.Is .closeBrace) : s.take x = some ⟨.completed (head.block b x.token), stack⟩ := by
  cases h with
  | closed hhead hb =>
      rw [State.take_of_is hx (by simp)]
      subst hb
      simp [State.step, State.beginStatement, hx.2, hhead]
  | ended hhead hb hawaits =>
      subst hb
      exact hawaits.take_closeBrace hx hhead

theorem Ends.program? {b : Body} (h : Ends none [] b s) : s.program? = some b := by
  cases h with
  | closed hhead hb => simp [State.program?, hhead, hb]
  | ended hhead hb hawaits =>
      cases hawaits with
      | lead hp => simp [State.program?, hhead, hp, hb]
      | value hp => simp [State.program?, hhead, hp, hb]

end Ends

/-! Single terminals -/

section Steps

variable {stack : List Open} {body : OpenBody} {x : Terminal}

theorem take_begin {kind : Kind} (hx : x.Is kind) (hkind : kind ≠ .closeBracket) :
    State.take ⟨.expression, stack⟩ x = State.begin stack x.token := by
  rw [State.take_of_is hx (by simp), State.step_expression (by rwa [hx.2])]

theorem take_atom {kind : Kind} (hx : x.Is kind)
    (hkind : kind ∈ [Kind.integer, .string, .symbol, .name, .slot]) :
    State.take ⟨.expression, stack⟩ x = some ⟨.completed x.token.part, stack⟩ := by
  simp only [List.mem_cons, List.not_mem_nil, or_false] at hkind
  rw [take_begin hx (by rintro rfl; simp at hkind), State.begin, if_pos]
  rw [Token.isAtom, hx.2]
  obtain rfl | rfl | rfl | rfl | rfl := hkind <;> rfl

theorem take_word {word : String} (hx : x.IsKeyword word) (hword : word ∈ literalWords) :
    State.take ⟨.expression, stack⟩ x = some ⟨.completed x.token.part, stack⟩ := by
  obtain ⟨hkeyword, hkind, rfl⟩ := hx
  have hreserves : State.reserves ⟨.expression, stack⟩ x.token = true := by
    simp [State.reserves, hkind, hword]
  rw [State.take, if_pos hkeyword, if_pos hreserves, State.step_expression (by simp [hkind]),
    State.begin, Token.isAtom, hkind]
  rfl

theorem take_follow {kind : Kind} (hx : x.Is kind) (p : Part) :
    State.take ⟨.completed p, stack⟩ x = State.follow p stack x.token :=
  State.take_of_is hx (by simp)

end Steps

/-! Expressions -/

section Expressions

variable {xs ys : List Terminal} {tree receiver argument : Tree} {o c name : Terminal}

theorem taken_atom {x : Terminal} (h : ∀ stack, State.take ⟨.expression, stack⟩ x =
    some ⟨.completed x.token.part, stack⟩) : (Phrase.expression (.atom x.token)).Taken [x] :=
  ⟨x.token.span, rfl, fun stack => by rw [State.takes_cons_of (h stack)]; rfl⟩

theorem take_openParen (ho : o.Is .openParen) (stack : List Open) :
    State.take ⟨.expression, stack⟩ o = some ⟨.expression, .paren o.token :: stack⟩ := by
  rw [take_begin ho (by decide), State.begin, Token.isAtom, ho.2]
  rfl

theorem take_openBracket (ho : o.Is .openBracket) (stack : List Open) :
    State.take ⟨.expression, stack⟩ o = some ⟨.expression, .bracket o.token :: stack⟩ := by
  rw [State.take_of_is ho (by simp), State.step_openBracket ho.2]

theorem taken_paren (ho : o.Is .openParen) (h : (Phrase.expression tree).Taken xs)
    (hc : c.Is .closeParen) : (Phrase.expression tree).Taken (o :: (xs ++ [c])) := by
  obtain ⟨outer, -, htakes⟩ := h
  refine ⟨o.upTo c, stretch_bracketed o c xs, fun stack => ?_⟩
  rw [State.takes_cons_of (take_openParen ho stack), State.takes_append_of (htakes _),
    State.takes_cons, take_follow hc, State.follow, hc.2]
  rfl

/-- A send up to its receiver, before a message. -/
theorem takes_receiver (ho : o.Is .openBracket) (h : (Phrase.expression receiver).Taken xs) :
    ∃ p : Part, p.tree = receiver ∧ ∀ stack ys,
      State.takes ⟨.expression, stack⟩ (o :: (xs ++ ys)) =
        State.takes ⟨.completed p, .bracket o.token :: stack⟩ ys := by
  obtain ⟨outer, -, htakes⟩ := h
  refine ⟨⟨receiver, outer⟩, rfl, fun stack ys => ?_⟩
  rw [State.takes_cons_of (take_openBracket ho stack), State.takes_append_of (htakes _)]

theorem take_messageName (hname : name.Is .name) (p : Part) (opening : Token) (stack : List Open) :
    State.take ⟨.completed p, .bracket opening :: stack⟩ name =
      some ⟨.message opening p name.token, stack⟩ := by
  rw [take_follow hname, State.follow, hname.2]

theorem taken_unary (ho : o.Is .openBracket) (h : (Phrase.expression receiver).Taken xs)
    (hname : name.Is .name) (hc : c.Is .closeBracket) :
    (Phrase.expression (.unary (o.upTo c) receiver name.token)).Taken (o :: (xs ++ [name, c])) := by
  obtain ⟨p, rfl, htakes⟩ := takes_receiver ho h
  refine ⟨o.upTo c, by simpa using stretch_bracketed o c (xs ++ [name]), fun stack => ?_⟩
  rw [htakes, State.takes_cons_of (take_messageName hname p o.token stack), State.takes_cons,
    State.take_of_is hc (by simp), State.step]
  simp only [hc.2]
  rfl

theorem taken_binary {op : Terminal} (ho : o.Is .openBracket)
    (h : (Phrase.expression receiver).Taken xs) (hop : op.Is .operator)
    (h' : (Phrase.expression argument).Taken ys) (hc : c.Is .closeBracket) :
    (Phrase.expression (.binary (o.upTo c) receiver op.token argument)).Taken
      (o :: (xs ++ op :: (ys ++ [c]))) := by
  obtain ⟨p, rfl, htakes⟩ := takes_receiver ho h
  obtain ⟨outer, -, htakes'⟩ := h'
  refine ⟨o.upTo c, by simpa using stretch_bracketed o c (xs ++ op :: ys), fun stack => ?_⟩
  have hoperand : State.take ⟨.completed p, .bracket o.token :: stack⟩ op =
      some ⟨.expression, .operand o.token p op.token :: stack⟩ := by
    rw [take_follow hop, State.follow, hop.2]
  rw [htakes, State.takes_cons_of hoperand, State.takes_append_of (htakes' _), State.takes_cons,
    take_follow hc, State.follow, hc.2]
  rfl

/-- The end of a send with keywords. -/
theorem takes_finish {p : Part} {send : OpenSend} {stack : List Open} (hc : c.Is .closeBracket) :
    State.takes ⟨.completed p, .argument send :: stack⟩ [c] =
      some ⟨.completed (send.finish p c.token), stack⟩ := by
  rw [State.takes_cons, take_follow hc, State.follow, hc.2]
  rfl

theorem taken_named {keywords : List Token} {args : List Tree} (ho : o.Is .openBracket)
    (h : (Phrase.expression receiver).Taken xs) (hname : name.Is .name)
    (h' : (Phrase.arguments keywords args).Taken ys) (hc : c.Is .closeBracket) :
    (Phrase.expression (.keyword (o.upTo c) receiver (some name.token) keywords args)).Taken
      (o :: (xs ++ name :: (ys ++ [c]))) := by
  obtain ⟨p, rfl, htakes⟩ := takes_receiver ho h
  refine ⟨o.upTo c, by simpa using stretch_bracketed o c (xs ++ name :: ys), fun stack => ?_⟩
  have hfirst : ∀ k c : Terminal, k.Is .name → c.Is .colon →
      State.takes ⟨.message o.token p name.token, stack⟩ [k, c] =
        some ⟨.expression, .argument ⟨o.token, p, some name.token, [k.token], []⟩ :: stack⟩ := by
    intro k c hk hc
    rw [State.takes_cons, State.take_of_is hk (by simp), State.step]
    simp only [hk.2, Option.bind_some]
    rw [State.takes_cons, State.take_of_is hc (by simp), State.step]
    simp only [hc.2]
    rfl
  obtain ⟨q, done, hargs, hdone⟩ := h' _ _ _ _ _ hfirst
  rw [htakes, State.takes_cons_of (take_messageName hname p o.token stack),
    State.takes_append_of hargs, takes_finish hc, OpenSend.finish, List.reverse_reverse, hdone]
  rfl

theorem taken_unnamed {keywords : List Token} {args : List Tree} (ho : o.Is .openBracket)
    (h : (Phrase.expression receiver).Taken xs) (h' : (Phrase.arguments keywords args).Taken ys)
    (hc : c.Is .closeBracket) :
    (Phrase.expression (.keyword (o.upTo c) receiver none keywords args)).Taken
      (o :: (xs ++ (ys ++ [c]))) := by
  obtain ⟨p, rfl, htakes⟩ := takes_receiver ho h
  refine ⟨o.upTo c, by simpa using stretch_bracketed o c (xs ++ ys), fun stack => ?_⟩
  have hfirst : ∀ k c : Terminal, k.Is .name → c.Is .colon →
      State.takes ⟨.completed p, .bracket o.token :: stack⟩ [k, c] =
        some ⟨.expression, .argument ⟨o.token, p, none, [k.token], []⟩ :: stack⟩ := by
    intro k c hk hc
    rw [State.takes_cons_of (take_messageName hk p o.token stack), State.takes_cons,
      State.take_of_is hc (by simp), State.step]
    simp only [hc.2]
    rfl
  obtain ⟨q, done, hargs, hdone⟩ := h' _ _ _ _ _ hfirst
  rw [htakes, State.takes_append_of hargs, takes_finish hc, OpenSend.finish, List.reverse_reverse,
    hdone]
  rfl

theorem taken_emptyList (ho : o.Is .openBracket) (hc : c.Is .closeBracket) :
    (Phrase.expression (.list (o.upTo c) [])).Taken [o, c] := by
  refine ⟨o.upTo c, stretch_bracketed o c [], fun stack => ?_⟩
  rw [State.takes_cons_of (take_openBracket ho stack), State.takes_cons,
    State.take_of_is hc (by simp), State.step]
  simp only [hc.2]
  rfl

theorem taken_list {trees : List Tree} (ho : o.Is .openBracket) (h : (Phrase.items trees).Taken xs)
    (hc : c.Is .closeBracket) :
    (Phrase.expression (.list (o.upTo c) trees)).Taken (o :: (xs ++ [c])) := by
  refine ⟨o.upTo c, stretch_bracketed o c xs, fun stack => ?_⟩
  obtain ⟨p, done, frame, htakes, hframe, rfl⟩ := h o.token stack
  rw [State.takes_cons_of (take_openBracket ho stack), State.takes_append_of htakes,
    State.takes_cons, take_follow hc, hframe.follow_closeBracket p stack hc.2]
  rfl

theorem take_openBrace (ho : o.Is .openBrace) (stack : List Open) :
    State.take ⟨.expression, stack⟩ o =
      some ⟨.statement (.start (some ⟨o.token, []⟩)), stack⟩ := by
  rw [take_begin ho (by decide), State.begin, Token.isAtom, ho.2]
  rfl

theorem taken_block {body : Body} (ho : o.Is .openBrace) (h : (Phrase.body body).Taken xs)
    (hc : c.Is .closeBrace) :
    (Phrase.expression (.block (o.upTo c) [] body.span body.statements)).Taken
      (o :: (xs ++ [c])) := by
  refine ⟨o.upTo c, stretch_bracketed o c xs, fun stack => ?_⟩
  obtain ⟨s, htakes, hends⟩ := h (some ⟨o.token, []⟩) stack
  rw [State.takes_cons_of (take_openBrace ho stack), State.takes_append_of htakes,
    State.takes_cons_of (hends.take_closeBrace hc)]
  rfl

theorem takes_paramsEnd {b o : Terminal} (hb : b.Is .bar) (ho : o.Is .openBrace) {head : Head}
    {stack : List Open} {s : State} (hs : s = ⟨.params head, stack⟩ ∨ s = ⟨.paramMark head, stack⟩)
    (xs : List Terminal) :
    s.takes (b :: o :: xs) = State.takes ⟨.statement (.start (some head)), stack⟩ xs := by
  have hbar : s.take b = some ⟨.brace head, stack⟩ := by
    rw [State.take_of_is hb (by simp)]
    obtain rfl | rfl := hs <;> simp [State.step, hb.2]
  have hbrace : State.take ⟨.brace head, stack⟩ o =
      some ⟨.statement (.start (some head)), stack⟩ := by
    rw [State.take_of_is ho (by simp)]
    simp [State.step, ho.2]
  rw [State.takes_cons_of hbar, State.takes_cons_of hbrace]

theorem taken_paramBlock {b b' : Terminal} {names : List Token} {body : Body} (hb : b.Is .bar)
    (h : (Phrase.params names).Taken xs) (hb' : b'.Is .bar) (ho : o.Is .openBrace)
    (h' : (Phrase.body body).Taken ys) (hc : c.Is .closeBrace) :
    (Phrase.expression (.block (b.upTo c) names body.span body.statements)).Taken
      (b :: (xs ++ b' :: o :: (ys ++ [c]))) := by
  refine ⟨b.upTo c, by simpa using stretch_bracketed b c (xs ++ b' :: o :: ys), fun stack => ?_⟩
  have hbar : State.take ⟨.expression, stack⟩ b = some ⟨.params ⟨b.token, []⟩, stack⟩ := by
    rw [take_begin hb (by decide), State.begin, Token.isAtom, hb.2]
    rfl
  obtain ⟨s, hparams, hs⟩ := h b.token stack
  obtain ⟨s', htakes, hends⟩ := h' (some ⟨b.token, names.reverse⟩) stack
  rw [State.takes_cons_of hbar, State.takes_append_of hparams, takes_paramsEnd hb' ho hs,
    State.takes_append_of htakes, State.takes_cons_of (hends.take_closeBrace hc), Head.block,
    List.reverse_reverse]
  rfl

/-! Parts of expressions -/

theorem taken_firstItem (h : (Phrase.expression tree).Taken xs) :
    (Phrase.items [tree]).Taken xs := by
  obtain ⟨outer, -, htakes⟩ := h
  exact fun opening stack => ⟨_, [], _, htakes _, .first, rfl⟩

theorem taken_nextItem {trees : List Tree} (h : (Phrase.items trees).Taken xs) (hc : c.Is .comma)
    (h' : (Phrase.expression tree).Taken ys) :
    (Phrase.items (trees ++ [tree])).Taken (xs ++ c :: ys) := by
  intro opening stack
  obtain ⟨p, done, frame, htakes, hframe, rfl⟩ := h opening stack
  obtain ⟨outer, -, htakes'⟩ := h'
  refine ⟨⟨tree, outer⟩, p :: done, .items opening (p :: done), ?_, .more _, by simp⟩
  have hcomma : State.take ⟨.completed p, frame :: stack⟩ c =
      some ⟨.expression, .items opening (p :: done) :: stack⟩ := by
    rw [take_follow hc, hframe.follow_comma p stack hc.2]
  rw [State.takes_append_of htakes, State.takes_cons_of hcomma, htakes']

theorem taken_firstArgument {k : Terminal} (hk : k.Is .name) (hc : c.Is .colon)
    (h : (Phrase.expression tree).Taken xs) :
    (Phrase.arguments [k.token] [tree]).Taken (k :: c :: xs) := by
  intro s opening receiver name stack hfirst
  obtain ⟨outer, -, htakes⟩ := h
  refine ⟨⟨tree, outer⟩, [], ?_, rfl⟩
  have happend : s.takes ([k, c] ++ xs) = _ := State.takes_append_of (hfirst k c hk hc)
  rw [htakes] at happend
  exact happend

theorem taken_nextArgument {keywords : List Token} {trees : List Tree} {zs : List Terminal}
    {k : Terminal} (h : (Phrase.arguments keywords trees).Taken xs) (hy : Optional .comma ys)
    (hk : k.Is .name) (hc : c.Is .colon) (h' : (Phrase.expression tree).Taken zs) :
    (Phrase.arguments (keywords ++ [k.token]) (trees ++ [tree])).Taken
      (xs ++ (ys ++ k :: c :: zs)) := by
  intro s opening receiver name stack hfirst
  obtain ⟨p, args, htakes, rfl⟩ := h s opening receiver name stack hfirst
  obtain ⟨outer, -, htakes'⟩ := h'
  refine ⟨⟨tree, outer⟩, p :: args, ?_, by simp⟩
  -- the keyword leads to the same state with and without a comma before it
  have hkeyword : State.takes ⟨.completed p,
        .argument ⟨opening, receiver, name, keywords.reverse, args⟩ :: stack⟩ (ys ++ [k]) =
      some ⟨.colon ⟨opening, receiver, name, k.token :: keywords.reverse, p :: args⟩, stack⟩ := by
    cases hy with
    | absent =>
        rw [List.nil_append, State.takes_cons, take_follow hk, State.follow, hk.2]
        rfl
    | present hx =>
        rw [List.singleton_append, State.takes_cons, take_follow hx, State.follow, hx.2]
        rw [Option.bind_some, State.takes_cons, State.take_of_is hk (by simp), State.step]
        simp only [hk.2]
        rfl
  have hcolon : ∀ send, State.take ⟨.colon send, stack⟩ c =
      some ⟨.expression, .argument send :: stack⟩ := by
    intro send
    rw [State.take_of_is hc (by simp), State.step]
    simp only [hc.2]
  rw [State.takes_append_of htakes, List.append_cons ys, State.takes_append_of hkeyword,
    State.takes_cons_of (hcolon _), htakes', List.reverse_concat]

theorem taken_nextParam {names : List Token} {n : Terminal} (h : (Phrase.params names).Taken xs)
    (hn : n.Is .name) (hy : Optional .colon ys) :
    (Phrase.params (names ++ [n.token])).Taken (xs ++ n :: ys) := by
  intro opening stack
  obtain ⟨s, htakes, hs⟩ := h opening stack
  have hname : s.take n = some ⟨.paramMark ⟨opening, n.token :: names.reverse⟩, stack⟩ := by
    rw [State.take_of_is hn (by obtain rfl | rfl := hs <;> simp)]
    obtain rfl | rfl := hs <;> simp [State.step, hn.2]
  rw [State.takes_append_of htakes, State.takes_cons_of hname, List.reverse_concat]
  cases hy with
  | absent => exact ⟨_, rfl, .inr rfl⟩
  | present hx =>
      refine ⟨_, ?_, .inl rfl⟩
      rw [State.takes_cons, State.take_of_is hx (by simp), State.step]
      simp only [hx.2]
      rfl

end Expressions

/-! Statements -/

section Statements

variable {body : OpenBody} {stack : List Open} {xs ys : List Terminal} {tree value : Tree}

theorem take_plain {x : Terminal} {kind : Kind} (hx : x.Is kind) (hname : kind ≠ .name)
    (hx' : Plain x.token.word) : State.take ⟨.statement body, stack⟩ x =
      State.take ⟨.expression, .statement body .bare :: stack⟩ x := by
  rw [State.take_of_is hx (fun h => absurd h hname), State.take_of_is hx (fun h => absurd h hname),
    hx'.step]

theorem take_plainWord {x : Terminal} {word : String} (hx : x.IsKeyword word)
    (hword : word ∈ literalWords) : State.take ⟨.statement body, stack⟩ x =
      State.take ⟨.expression, .statement body .bare :: stack⟩ x := by
  rw [take_word hx hword]
  obtain ⟨hkeyword, hkind, rfl⟩ := hx
  have hplain : Plain x.token.word := by simp [Plain, Token.word, hkind, hword]
  have hreserves : State.reserves ⟨.statement body, stack⟩ x.token = true := by
    simp [State.reserves, hkind, hword]
  rw [State.take, if_pos hkeyword, if_pos hreserves, hplain.step,
    State.step_expression (by simp [hkind]), State.begin, Token.isAtom, hkind]
  rfl

/-- An expression that begins with a name or an instance variable is nothing but that. All others begin
where a statement may stand like anywhere else. -/
theorem Derives.begins (h : Derives (.expression tree) xs) : ∃ x ys, xs = x :: ys ∧
    ((x.Is .name ∨ x.Is .slot) ∧ ys = [] ∧ tree = .atom x.token ∨
      ∀ body stack, State.take ⟨.statement body, stack⟩ x =
        State.take ⟨.expression, .statement body .bare :: stack⟩ x) := by
  cases h with
  | @atom x kind hx hkind =>
      refine ⟨x, [], rfl, ?_⟩
      simp only [List.mem_cons, List.not_mem_nil, or_false] at hkind
      obtain rfl | rfl | rfl | rfl | rfl := hkind
      · exact .inr fun _ _ => take_plain hx (by decide) (by simp [Plain, Token.word, hx.2])
      · exact .inr fun _ _ => take_plain hx (by decide) (by simp [Plain, Token.word, hx.2])
      · exact .inr fun _ _ => take_plain hx (by decide) (by simp [Plain, Token.word, hx.2])
      · exact .inl ⟨.inl hx, rfl, rfl⟩
      · exact .inl ⟨.inr hx, rfl, rfl⟩
  | word hx hword => exact ⟨_, [], rfl, .inr fun _ _ => take_plainWord hx hword⟩
  | paren ho | unary ho | named ho | unnamed ho | binary ho | emptyList ho | list ho | block ho
  | paramBlock ho =>
      exact ⟨_, _, rfl, .inr fun _ _ =>
        take_plain ho (by decide) (by simp [Plain, Token.word, ho.2])⟩

theorem take_lead {x : Terminal} (hx : x.Is .name ∨ x.Is .slot) :
    State.take ⟨.statement body, stack⟩ x = some ⟨.lead body x.token, stack⟩ := by
  rcases hx with hx | hx
  · simp [State.take, hx.1, hx.2]
  · rw [State.take_of_is hx (by simp)]
    simp [State.step, State.beginStatement, hx.2]

theorem taken_bare (hderives : Derives (.expression tree) xs)
    (h : (Phrase.expression tree).Taken xs) : (Phrase.statement tree).Taken xs := by
  obtain ⟨outer, houter, htakes⟩ := h
  refine ⟨outer, houter, fun body stack => ?_⟩
  obtain ⟨x, ys, rfl, ⟨hx, rfl, rfl⟩ | hplain⟩ := hderives.begins
  · cases houter
    exact ⟨_, by rw [State.takes_cons_of (take_lead hx)]; rfl, .lead rfl⟩
  · refine ⟨⟨.completed ⟨tree, outer⟩, .statement body .bare :: stack⟩, ?_, .value rfl⟩
    rw [State.takes_cons, hplain, ← State.takes_cons, htakes]

/-- A statement with a lead before its value. -/
theorem taken_value (make : Span → Tree) {x : Terminal} {lead : Lead}
    (hlead : ∀ body stack, State.takes ⟨.statement body, stack⟩ (x :: xs) =
      some ⟨.expression, .statement body lead :: stack⟩)
    (hfinish : ∀ p : Part, p.tree = value → lead.finish p =
      ⟨make ⟨x.token.span.start, p.outer.stop⟩, ⟨x.token.span.start, p.outer.stop⟩⟩)
    (h : (Phrase.expression value).Taken ys) :
    (Phrase.statement (make (x.through ys))).Taken (x :: xs ++ ys) := by
  obtain ⟨outer, houter, htakes⟩ := h
  have hstart : stretch (x :: xs) = some (x.through xs) := rfl
  have hstretch := stretch_append hstart houter
  refine ⟨_, hstretch, fun body stack => ?_⟩
  refine ⟨⟨.completed ⟨value, outer⟩, .statement body lead :: stack⟩, ?_, .value ?_⟩
  · rw [State.takes_append_of (hlead body stack), htakes]
  · rw [hfinish _ rfl, Terminal.through_eq houter]
    rfl

theorem takes_let {l x op : Terminal} (hl : l.IsKeyword "let") {lead : Lead} {expect : Expect}
    (hx : State.take ⟨.target body l.token.span.start, stack⟩ x = some ⟨expect, stack⟩)
    (hop : State.take ⟨expect, stack⟩ op = some ⟨.expression, .statement body lead :: stack⟩) :
    State.takes ⟨.statement body, stack⟩ [l, x, op] =
      some ⟨.expression, .statement body lead :: stack⟩ := by
  obtain ⟨hkeyword, hkind, htext⟩ := hl
  have hlet : State.take ⟨.statement body, stack⟩ l =
      some ⟨.target body l.token.span.start, stack⟩ := by
    simp [State.take, hkeyword, State.reserves, hkind, htext, State.step, State.beginStatement]
  rw [State.takes_cons_of hlet, State.takes_cons_of hx, State.takes_cons_of hop]
  rfl

theorem taken_define {l name op : Terminal} (hl : l.IsKeyword "let") (hname : name.Is .name)
    (hop : op.Is .equals ∨ op.Is .walrus) (h : (Phrase.expression value).Taken xs) :
    (Phrase.statement (.define (l.through xs) name.token op.token value)).Taken
      (l :: name :: op :: xs) := by
  have hlead : ∀ body stack, State.takes ⟨.statement body, stack⟩ [l, name, op] =
      some ⟨.expression,
        .statement body (.define l.token.span.start name.token op.token) :: stack⟩ := by
    intro body stack
    have htarget : State.take ⟨.target body l.token.span.start, stack⟩ name =
        some ⟨.definition body l.token.span.start name.token, stack⟩ := by
      rw [State.take_of_is hname (by simp)]
      simp [State.step, hname.2]
    refine takes_let hl htarget ?_
    rcases hop with hop | hop <;> rw [State.take_of_is hop (by simp)] <;> simp [State.step, hop.2]
  exact taken_value (fun span => .define span name.token op.token value) hlead
    (by rintro p rfl; rfl) h

theorem taken_defineSlot {l slot op : Terminal} (hl : l.IsKeyword "let") (hslot : slot.Is .slot)
    (hop : op.Is .equals) (h : (Phrase.expression value).Taken xs) :
    (Phrase.statement (.assign (l.through xs) slot.token op.token value)).Taken
      (l :: slot :: op :: xs) := by
  have hlead : ∀ body stack, State.takes ⟨.statement body, stack⟩ [l, slot, op] =
      some ⟨.expression,
        .statement body (.assign l.token.span.start slot.token op.token) :: stack⟩ := by
    intro body stack
    have htarget : State.take ⟨.target body l.token.span.start, stack⟩ slot =
        some ⟨.assignment body l.token.span.start slot.token, stack⟩ := by
      rw [State.take_of_is hslot (by simp)]
      simp [State.step, hslot.2]
    refine takes_let hl htarget ?_
    rw [State.take_of_is hop (by simp)]
    simp [State.step, hop.2]
  exact taken_value (fun span => .assign span slot.token op.token value) hlead
    (by rintro p rfl; rfl) h

theorem taken_assign {target op : Terminal} (htarget : target.Is .name ∨ target.Is .slot)
    (hop : op.Is .equals) (h : (Phrase.expression value).Taken xs) :
    (Phrase.statement (.assign (target.through xs) target.token op.token value)).Taken
      (target :: op :: xs) := by
  have hlead : ∀ body stack, State.takes ⟨.statement body, stack⟩ [target, op] =
      some ⟨.expression,
        .statement body (.assign target.token.span.start target.token op.token) :: stack⟩ := by
    intro body stack
    rw [State.takes_cons_of (take_lead htarget), State.takes_cons, State.take_of_is hop (by simp),
      State.step]
    simp only [hop.2]
    rfl
  exact taken_value (fun span => .assign span target.token op.token value) hlead
    (by rintro p rfl; rfl) h

theorem taken_answer {r : Terminal} (hr : r.IsKeyword "return")
    (h : (Phrase.expression value).Taken xs) :
    (Phrase.statement (.answer (r.through xs) value)).Taken (r :: xs) := by
  have hlead : ∀ body stack, State.takes ⟨.statement body, stack⟩ [r] =
      some ⟨.expression, .statement body (.answer r.token.span.start) :: stack⟩ := by
    intro body stack
    obtain ⟨hkeyword, hkind, htext⟩ := hr
    rw [State.takes_cons]
    simp [State.take, hkeyword, State.reserves, hkind, htext, State.step, State.beginStatement]
  exact taken_value (fun span => .answer span value) hlead (by rintro p rfl; rfl) h

/-! Bodies -/

theorem taken_nextStatement {trees : List Tree} {x : Terminal}
    (h : (Phrase.statements trees).Taken xs) (h' : (Phrase.statement tree).Taken ys)
    (hx : x.Is .semicolon) :
    (Phrase.statements (trees ++ [tree])).Taken (xs ++ (ys ++ [x])) := by
  intro head stack
  obtain ⟨body, htakes, hhead, hclose⟩ := h head stack
  obtain ⟨outer, houter, htakes'⟩ := h'
  obtain ⟨s, hs, hawaits⟩ := htakes' body stack
  refine ⟨body.add ⟨tree, outer⟩ x.token, ?_, hhead, close_add hclose houter x⟩
  rw [State.takes_append_of htakes, State.takes_append_of hs,
    State.takes_cons_of (hawaits.take_semicolon hx), State.takes_nil]

theorem taken_closed {trees : List Tree} (h : (Phrase.statements trees).Taken xs) :
    (Phrase.body ⟨stretch xs, trees⟩).Taken xs := by
  intro head stack
  obtain ⟨body, htakes, hhead, hclose⟩ := h head stack
  exact ⟨_, htakes, .closed hhead hclose⟩

theorem taken_ended {trees : List Tree} (h : (Phrase.statements trees).Taken xs)
    (h' : (Phrase.statement tree).Taken ys) :
    (Phrase.body ⟨stretch (xs ++ ys), trees ++ [tree]⟩).Taken (xs ++ ys) := by
  intro head stack
  obtain ⟨body, htakes, hhead, hclose⟩ := h head stack
  obtain ⟨outer, houter, htakes'⟩ := h'
  obtain ⟨s, hs, hawaits⟩ := htakes' body stack
  refine ⟨s, ?_, .ended hhead (closeWith_eq hclose houter) hawaits⟩
  rw [State.takes_append_of htakes, hs]

end Statements

/-- What the grammar derives is taken whole. -/
theorem Derives.taken {phrase : Phrase} {xs : List Terminal} (h : Derives phrase xs) :
    phrase.Taken xs := by
  induction h with
  | closed _ ih => exact taken_closed ih
  | ended _ _ ih ih' => exact taken_ended ih ih'
  | noStatement => exact fun head stack => ⟨.start head, rfl, rfl, rfl⟩
  | nextStatement _ _ hs ih ih' => exact taken_nextStatement ih ih' hs
  | define hl hname hop _ ih => exact taken_define hl hname hop ih
  | defineSlot hl hslot hop _ ih => exact taken_defineSlot hl hslot hop ih
  | assign htarget hop _ ih => exact taken_assign htarget hop ih
  | answer hr _ ih => exact taken_answer hr ih
  | bare h ih => exact taken_bare h ih
  | atom hx hkind => exact taken_atom fun _ => take_atom hx hkind
  | word hx hword => exact taken_atom fun _ => take_word hx hword
  | paren ho _ hc ih => exact taken_paren ho ih hc
  | unary ho _ hname hc ih => exact taken_unary ho ih hname hc
  | named ho _ hname _ hc ih ih' => exact taken_named ho ih hname ih' hc
  | unnamed ho _ _ hc ih ih' => exact taken_unnamed ho ih ih' hc
  | binary ho _ hop _ hc ih ih' => exact taken_binary ho ih hop ih' hc
  | emptyList ho hc => exact taken_emptyList ho hc
  | list ho _ hc ih => exact taken_list ho ih hc
  | block ho _ hc ih => exact taken_block ho ih hc
  | paramBlock hb _ hb' ho _ hc ih ih' => exact taken_paramBlock hb ih hb' ho ih' hc
  | firstItem _ ih => exact taken_firstItem ih
  | nextItem _ hc _ ih ih' => exact taken_nextItem ih hc ih'
  | firstArgument hk hc _ ih => exact taken_firstArgument hk hc ih
  | nextArgument _ hy hk hc _ ih ih' => exact taken_nextArgument ih hy hk hc ih'
  | noParam => exact fun opening stack => ⟨_, rfl, .inl rfl⟩
  | nextParam _ hn hy ih => exact taken_nextParam ih hn hy

end Parley.Grammar
