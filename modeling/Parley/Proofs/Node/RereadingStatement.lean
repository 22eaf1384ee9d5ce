import Parley.Proofs.Node.Rereading

/-! Reading the tokens of statements, blocks and programs again. A statement that is a name or an
instance variable waits for what comes after it; `let` and `return` by themselves are refused there. -/

namespace Parley

open Parley.Grammar

namespace Grammar

section Statements

variable {file : Option String} {origin bodyOrigin : Option Origin} {body : OpenBody}
  {stack : List Open}

/-- The end of a statement is taken wherever the statement may end. -/
theorem EndsStatement.afterStatement {t : Token} (h : EndsStatement body t) (p : Part)
    (stack : List Open) : ∃ s, State.afterStatement body p stack t = some s := by
  rcases h with hkind | ⟨hkind, hhead⟩
  · exact ⟨_, by rw [State.afterStatement, hkind]⟩
  · obtain ⟨head, hhead⟩ := Option.isSome_iff_exists.mp hhead
    exact ⟨_, by rw [State.afterStatement, hkind, hhead]; rfl⟩

/-- The value of a statement and the end of the statement. -/
theorem reads_value {value n : Node} (hvalue : ReadsExpression file value) {lead : Lead}
    (hlead : ∀ p : Part, p.tree.Denotes file value → (lead.finish p).tree.Denotes file n)
    {ts : List Token} (hts : ts.map Token.word = value.words) {t : Token}
    (ht : EndsStatement body t) :
    Reads value.hidesKeyword
      (fun s => ∃ p : Part, p.tree.Denotes file n ∧ State.afterStatement body p stack t = some s)
      ⟨.expression, .statement body lead :: stack⟩ (ts ++ [t]) := by
  rw [← Bool.or_false value.hidesKeyword]
  refine (hvalue ts _ hts).append ?_
  rintro s' ⟨p, rfl, hp⟩
  obtain ⟨s, hs⟩ := ht.afterStatement (lead.finish p) stack
  exact Reads.cons hs (.nil ⟨lead.finish p, hlead p hp, hs⟩)

/-- An expression that begins plainly is read as a statement like anywhere else. -/
theorem readsStatement_of_expression {n : Node} (hn : ReadsExpression file n)
    (hkeyword : n.isKeywordName = false) {w : Word} {words : List Word} (hwords : n.words = w :: words)
    (hw : Plain w) : ReadsStatement file n := by
  intro ts t body stack hts ht
  rw [hkeyword, Bool.false_or]
  have hvalue := @reads_value file body stack n n hn .bare (fun _ hp => hp) ts hts t ht
  refine hvalue.of_feed_eq ?_
  rw [hwords] at hts
  obtain ⟨u, us, rfl, rfl, -⟩ := List.map_eq_cons_iff.mp hts
  rw [List.cons_append, State.feed_cons, State.feed_cons, hw.step]

/-- A name or an instance variable that is a statement by itself. -/
theorem reads_lead {t u : Token} {a : Atom} (hu : Tree.Denotes file u.part.tree (.atom origin a))
    (hstep : State.step ⟨.statement body, stack⟩ u = some ⟨.lead body u, stack⟩)
    (ht : EndsStatement body t) :
    Reads false (fun s => ∃ p : Part, p.tree.Denotes file (.atom origin a) ∧
        State.afterStatement body p stack t = some s)
      ⟨.statement body, stack⟩ [u, t] := by
  obtain ⟨s, hs⟩ := ht.afterStatement u.part stack
  have hend : State.step ⟨.lead body u, stack⟩ t = some s := by
    rw [State.step]
    rcases ht with hkind | ⟨hkind, -⟩ <;> simpa only [hkind] using hs
  exact Reads.cons hstep (Reads.cons hend (.nil ⟨u.part, hu, hs⟩))

/-- After `let` or `return` a statement cannot end. -/
theorem reads_keywordName {t u : Token} {after : State → Prop} (hkind : u.kind = .name)
    (hu : u.text = "let" ∨ u.text = "return") (ht : EndsStatement body t) :
    Reads true after ⟨.statement body, stack⟩ [u, t] := by
  rcases hu with hu | hu
  · have hlet : State.step ⟨.statement body, stack⟩ u = some ⟨.target body u.span.start, stack⟩ := by
      simp only [State.step, State.beginStatement, hkind, hu, if_pos]
    refine Reads.cons hlet (Reads.refused ?_)
    rcases ht with hend | ⟨hend, -⟩ <;> simp only [State.step, hend]
  · have hreturn : State.step ⟨.statement body, stack⟩ u =
        some ⟨.expression, .statement body (.answer u.span.start) :: stack⟩ := by
      simp [State.step, State.beginStatement, hkind, hu]
    refine Reads.cons hreturn (Reads.refused ?_)
    rcases ht with hend | ⟨hend, -⟩ <;>
      simp [State.step_expression, State.begin, Token.isAtom, hend]

theorem readsStatement_variable {name : String} (ha : (Atom.variable name).Proper) :
    ReadsStatement file (.atom origin (.variable name)) := by
  intro ts t body stack hts ht
  rw [Node.words] at hts
  obtain ⟨u, us, rfl, hu, hus⟩ := List.map_eq_cons_iff.mp hts
  obtain rfl := List.map_eq_nil_iff.mp hus
  have hdenotes : u.part.tree.Denotes file (.atom origin (.variable name)) :=
    Tree.Denotes.atom (ofToken_word ha hu)
  obtain ⟨hkind, rfl⟩ := Prod.mk.inj hu
  rw [Node.isKeywordName, Node.hidesKeyword, Bool.or_false]
  by_cases hkeyword : u.text = "let" ∨ u.text = "return"
  · rw [show (u.text == "let" || u.text == "return") = true by simpa using hkeyword]
    exact reads_keywordName hkind hkeyword ht
  · rw [show (u.text == "let" || u.text == "return") = false by simpa using hkeyword]
    refine reads_lead hdenotes ?_ ht
    obtain ⟨hlet, hreturn⟩ := not_or.mp hkeyword
    have hliteral : ¬literalWords.contains u.text = true := by simpa using ha.2
    rw [State.step]
    simp only [State.beginStatement, hkind, Atom.tokenKind]
    rw [if_neg hlet, if_neg hreturn, if_neg hliteral]

theorem readsStatement_slot {name : String} (ha : (Atom.slot name).Proper) :
    ReadsStatement file (.atom origin (.slot name)) := by
  intro ts t body stack hts ht
  rw [Node.words] at hts
  obtain ⟨u, us, rfl, hu, hus⟩ := List.map_eq_cons_iff.mp hts
  obtain rfl := List.map_eq_nil_iff.mp hus
  refine reads_lead (Tree.Denotes.atom (ofToken_word ha hu)) ?_ ht
  rw [State.step]
  simp only [State.beginStatement, (Prod.mk.inj hu).1, Atom.tokenKind]

theorem readsStatement_plain {a : Atom} (ha : a.Proper) {w : Word} (hw : Plain w) (haw : a.word = w)
    (hkeyword : Node.isKeywordName (.atom origin a) = false) :
    ReadsStatement file (.atom origin a) :=
  readsStatement_of_expression (readsExpression_atom ha) hkeyword (by rw [Node.words, haw]) hw

theorem readsStatement_atom {a : Atom} (ha : a.Proper) : ReadsStatement file (.atom origin a) := by
  match a with
  | .variable name => exact readsStatement_variable ha
  | .slot name => exact readsStatement_slot ha
  | .integer n => exact readsStatement_plain ha (w := (.integer, _)) (by simp [Plain]) rfl rfl
  | .string s => exact readsStatement_plain ha (w := (.string, _)) (by simp [Plain]) rfl rfl
  | .symbol name => exact readsStatement_plain ha (w := (.symbol, _)) (by simp [Plain]) rfl rfl
  | .boolean true =>
      exact readsStatement_plain ha (w := (.name, "true")) (by simp [Plain, literalWords]) rfl rfl
  | .boolean false =>
      exact readsStatement_plain ha (w := (.name, "false")) (by simp [Plain, literalWords]) rfl rfl
  | .nil => exact readsStatement_plain ha (w := (.name, "nil")) (by simp [Plain, literalWords]) rfl rfl
  | .self => exact readsStatement_plain ha (w := (.name, "self")) (by simp [Plain, literalWords]) rfl rfl
  | .super => exact readsStatement_plain ha (w := (.name, "super")) (by simp [Plain, literalWords]) rfl rfl

theorem readsStatement_answer {value : Node} (hvalue : ReadsExpression file value) :
    ReadsStatement file (.answer origin value) := by
  intro ts t body stack hts ht
  rw [Node.words] at hts
  obtain ⟨u, us, rfl, hkind, htext, hus⟩ := exists_token hts
  have hreturn : State.step ⟨.statement body, stack⟩ u =
      some ⟨.expression, .statement body (.answer u.span.start) :: stack⟩ := by
    simp [State.step, State.beginStatement, hkind, htext]
  have hlead : ∀ p : Part, p.tree.Denotes file value →
      ((Lead.answer u.span.start).finish p).tree.Denotes file (.answer origin value) :=
    fun _ hp => Tree.Denotes.answer hp
  change Reads (false || (Node.answer origin value).hidesKeyword) _ _ _
  rw [Bool.false_or, Node.hidesKeyword]
  exact Reads.cons hreturn (reads_value hvalue hlead hus ht)

/-- The tokens before the value of a statement make up what the statement begins with. -/
theorem feed_target {target : Target} (htarget : target.Proper) {value : Node} {ts : List Token}
    (hts : ts.map Token.word = target.words) :
    ∃ lead : Lead, State.feed ⟨.statement body, stack⟩ ts =
        some ⟨.expression, .statement body lead :: stack⟩ ∧
      ∀ p : Part, p.tree.Denotes file value →
        (lead.finish p).tree.Denotes file (.store origin target value) := by
  match target with
  | .define name operator =>
      obtain ⟨u, us, rfl, hkindu, htextu, hus⟩ := exists_token hts
      obtain ⟨v, vs, rfl, hkindv, rfl, hvs⟩ := exists_token hus
      obtain ⟨w, ws, rfl, hkindw, rfl, hws⟩ := exists_token hvs
      obtain rfl := List.map_eq_nil_iff.mp hws
      refine ⟨.define u.span.start v w, ?_, fun _ hp => Tree.Denotes.define hp⟩
      have hlet : State.step ⟨.statement body, stack⟩ u =
          some ⟨.target body u.span.start, stack⟩ := by
        simp only [State.step, State.beginStatement, hkindu, htextu, if_pos]
      rw [State.feed_cons, hlet]
      rcases htarget.2 with hw | hw <;>
        simp [State.feed_cons, State.step, hkindv, hkindw, hw]
  | .assign name =>
      obtain ⟨u, us, rfl, hkindu, rfl, hus⟩ := exists_token hts
      obtain ⟨v, vs, rfl, hkindv, -, hvs⟩ := exists_token hus
      obtain rfl := List.map_eq_nil_iff.mp hvs
      obtain ⟨-, hliteral, hlet, hreturn⟩ := htarget
      have htarget : Target.ofToken u = .assign u.text := by rw [Target.ofToken, hkindu]
      refine ⟨.assign u.span.start u v, ?_, fun _ hp => htarget ▸ Tree.Denotes.assign hp⟩
      simp [State.feed_cons, State.step, State.beginStatement, hkindu, hkindv, hliteral, hlet,
        hreturn]
  | .slot name =>
      obtain ⟨u, us, rfl, hkindu, htextu, hus⟩ := exists_token hts
      obtain ⟨v, vs, rfl, hkindv, -, hvs⟩ := exists_token hus
      obtain rfl := List.map_eq_nil_iff.mp hvs
      have htarget : Target.ofToken u = .slot name := by
        rw [Target.ofToken, hkindu]
        simp [htextu, dropMark]
      refine ⟨.assign u.span.start u v, ?_, fun _ hp => htarget ▸ Tree.Denotes.assign hp⟩
      simp [State.feed_cons, State.step, State.beginStatement, hkindu, hkindv]

theorem readsStatement_store {target : Target} (htarget : target.Proper) {value : Node}
    (hvalue : ReadsExpression file value) : ReadsStatement file (.store origin target value) := by
  intro ts t body stack hts ht
  rw [Node.words] at hts
  obtain ⟨us, vs, rfl, hus, hvs⟩ := List.map_eq_append_iff.mp hts
  obtain ⟨lead, hfeed, hlead⟩ := feed_target htarget hus
  have hbegin : Reads false (· = ⟨.expression, .statement body lead :: stack⟩)
      ⟨.statement body, stack⟩ us := ⟨_, hfeed, rfl⟩
  change Reads (false || (Node.store origin target value).hidesKeyword) _ _ _
  rw [Node.hidesKeyword, List.append_assoc]
  refine hbegin.append ?_
  rintro s' rfl
  exact reads_value hvalue hlead hvs ht

/-- Statements that each end with a semicolon are added to the body one by one. -/
theorem reads_statements {ns : List Node} (hns : ∀ n ∈ ns, ReadsStatement file n)
    {nodes : List Node} (hdone : List.Forall₂ (Tree.Denotes file) (body.done.map (·.tree)) nodes)
    {ts : List Token}
    (hts : ts.map Token.word = (ns.map Node.words).flatMap (· ++ [(.semicolon, ";")])) :
    Reads (Node.anyStatementHidesKeyword ns)
      (fun s => ∃ body', s = ⟨.statement body', stack⟩ ∧ body'.head = body.head ∧
        List.Forall₂ (Tree.Denotes file) (body'.done.map (·.tree)) (ns.reverse ++ nodes))
      ⟨.statement body, stack⟩ ts := by
  induction ns generalizing body nodes ts with
  | nil =>
      obtain rfl := List.map_eq_nil_iff.mp hts
      exact .nil ⟨body, rfl, rfl, hdone⟩
  | cons n ns ih =>
      obtain ⟨us, vs, rfl, hus, hvs⟩ := List.map_eq_append_iff.mp hts
      obtain ⟨us, t, rfl, hus, hkind⟩ := exists_last hus
      rw [Node.anyStatementHidesKeyword]
      refine (hns n List.mem_cons_self us t body stack hus (.inl hkind)).append ?_
      rintro s' ⟨p, hp, hs'⟩
      rw [State.afterStatement, hkind] at hs'
      obtain rfl := Option.some.inj hs'
      have hrest := @ih (body.add p t) (fun k hk => hns k (List.mem_cons_of_mem n hk)) (n :: nodes)
        (.cons hp hdone) vs hvs
      rw [List.reverse_cons, List.append_assoc]
      exact hrest

theorem anyStatementHidesKeyword_concat (ns : List Node) (n : Node) :
    Node.anyStatementHidesKeyword (ns ++ [n]) =
      (Node.anyStatementHidesKeyword ns || (n.isKeywordName || n.hidesKeyword)) := by
  induction ns with
  | nil => simp [Node.anyStatementHidesKeyword]
  | cons m ns ih =>
      rw [List.cons_append, Node.anyStatementHidesKeyword, ih, Node.anyStatementHidesKeyword,
        Bool.or_assoc _ _ (n.isKeywordName || n.hidesKeyword)]

/-- The body of a block, from its first statement to the closing brace. -/
theorem reads_body {head : Head} {ns : List Node} (hns : ∀ n ∈ ns, ReadsStatement file n)
    (hparams : (head.params.reverse.map (·.text)).Nodup) {ts : List Token}
    (hts : ts.map Token.word =
      [(.semicolon, ";")].intercalate (ns.map Node.words) ++ [(.closeBrace, "\x7d")]) :
    Reads (Node.anyStatementHidesKeyword ns)
      (Completes file (.block origin (head.params.reverse.map (·.text)) bodyOrigin ns) stack)
      ⟨.statement (.start (some head)), stack⟩ ts := by
  rcases List.eq_nil_or_concat ns with rfl | ⟨ns, n, rfl⟩
  · obtain ⟨t, us, rfl, hkind, -, hus⟩ := exists_token hts
    obtain rfl := List.map_eq_nil_iff.mp hus
    have hclose : State.step ⟨.statement (.start (some head)), stack⟩ t =
        some ⟨.completed (head.block (OpenBody.start (some head)).close t), stack⟩ := by
      simp only [State.step, State.beginStatement, hkind, OpenBody.start, Option.map_some]
    exact Reads.cons hclose (.nil ⟨_, rfl, Tree.Denotes.block hparams .nil⟩)
  · rw [List.concat_eq_append] at hns hts ⊢
    rw [List.map_append, List.map_singleton, intercalate_concat, List.append_assoc] at hts
    obtain ⟨us, vs, rfl, hus, hvs⟩ := List.map_eq_append_iff.mp hts
    obtain ⟨vs, t, rfl, hvs, hkind⟩ := exists_last hvs
    rw [anyStatementHidesKeyword_concat]
    refine (reads_statements (fun k hk => hns k (List.mem_append_left _ hk)) .nil hus).append ?_
    rintro s' ⟨body', rfl, hhead, hdone⟩
    have hlast := hns n (List.mem_append_right ns List.mem_cons_self) vs t body' stack hvs
      (.inr ⟨hkind, by rw [hhead]; rfl⟩)
    refine hlast.mono ?_
    rintro s ⟨p, hp, hs⟩
    rw [State.afterStatement, hkind, hhead] at hs
    refine ⟨_, (Option.some.inj hs).symm, Tree.Denotes.block hparams ?_⟩
    rw [List.append_nil] at hdone
    have hall := List.forall₂_reverse_iff.mpr (List.Forall₂.cons hp hdone)
    rwa [List.reverse_cons, List.reverse_cons, List.reverse_reverse, ← List.reverse_cons] at hall

theorem feed_params {params : List String} {ts : List Token}
    (hts : ts.map Token.word = params.flatMap fun p => [(.name, p), (.colon, ":")]) (head : Head) :
    ∃ head', State.feed ⟨.params head, stack⟩ ts = some ⟨.params head', stack⟩ ∧
      head'.params.reverse.map (·.text) = head.params.reverse.map (·.text) ++ params := by
  induction params generalizing head ts with
  | nil =>
      obtain rfl := List.map_eq_nil_iff.mp hts
      exact ⟨head, rfl, (List.append_nil _).symm⟩
  | cons name params ih =>
      obtain ⟨t, us, rfl, hkind, rfl, hus⟩ := exists_token hts
      obtain ⟨t', vs, rfl, hkind', -, hvs⟩ := exists_token hus
      obtain ⟨head', hfeed, hparams⟩ := ih hvs { head with params := t :: head.params }
      refine ⟨head', ?_, by rw [hparams]; simp⟩
      simp only [State.feed_cons, State.step, hkind, hkind', Option.bind_some]
      exact hfeed

/-- A block begins with a brace or with its parameters between bars. -/
theorem feed_paramWords {params : List String} {ts : List Token}
    (hts : ts.map Token.word = paramWords params ++ [(.openBrace, "\x7b")]) :
    ∃ head : Head, State.feed ⟨.expression, stack⟩ ts =
        some ⟨.statement (.start (some head)), stack⟩ ∧
      head.params.reverse.map (·.text) = params := by
  obtain ⟨us, t, rfl, hus, hkind⟩ := exists_last hts
  cases params with
  | nil =>
      obtain rfl := List.map_eq_nil_iff.mp hus
      refine ⟨⟨t, []⟩, ?_, rfl⟩
      rw [List.nil_append, State.feed_cons, State.step_expression (by simp [hkind]), State.begin,
        Token.isAtom, hkind]
      rfl
  | cons name params =>
      rw [paramWords, if_neg (by simp)] at hus
      obtain ⟨bar, vs, rfl, hbar, -, hvs⟩ := exists_token hus
      obtain ⟨vs, bar', rfl, hvs, hbar'⟩ := exists_last hvs
      obtain ⟨head, hfeed, hparams⟩ := feed_params hvs ⟨bar, []⟩
      refine ⟨head, ?_, hparams⟩
      have hopen : State.step ⟨.expression, stack⟩ bar = some ⟨.params ⟨bar, []⟩, stack⟩ := by
        rw [State.step_expression (by simp [hbar]), State.begin, Token.isAtom, hbar]
        rfl
      rw [List.cons_append, State.feed_cons, hopen, Option.bind_some, State.feed_append,
        State.feed_append, hfeed]
      simp only [Option.bind_some, State.feed_cons, State.step, hbar', hkind, State.feed_nil]

theorem readsExpression_block {params : List String} {ns : List Node} (hparams : params.Nodup)
    (hns : ∀ n ∈ ns, ReadsStatement file n) :
    ReadsExpression file (.block origin params bodyOrigin ns) := by
  intro ts stack hts
  rw [Node.words, Node.wordsEach_eq_map, ← List.singleton_append, ← List.append_assoc] at hts
  obtain ⟨us, vs, rfl, hus, hvs⟩ := List.map_eq_append_iff.mp hts
  obtain ⟨head, hfeed, rfl⟩ := feed_paramWords hus
  have hbegin : Reads false (· = ⟨.statement (.start (some head)), stack⟩)
      ⟨.expression, stack⟩ us := ⟨_, hfeed, rfl⟩
  rw [Node.hidesKeyword, ← Bool.false_or (Node.anyStatementHidesKeyword ns)]
  refine hbegin.append ?_
  rintro s' rfl
  exact reads_body hns hparams hvs

end Statements

theorem paramWords_plain (params : List String) (words : List Word) :
    ∃ w rest, paramWords params ++ (.openBrace, "\x7b") :: words = w :: rest ∧ Plain w := by
  cases params with
  | nil => exact ⟨_, _, rfl, by simp [Plain]⟩
  | cons name params => exact ⟨_, _, rfl, by simp [Plain]⟩

end Grammar

/-- Every proper node is read again wherever it may stand. -/
theorem Node.Proper.reads {file : Option String} {place : Place} {n : Node} (h : n.Proper place) :
    (place = .expression → ReadsExpression file n) ∧ ReadsStatement file n := by
  have hbracket : Plain (.openBracket, "[") := by simp [Plain]
  induction h with
  | atom ha => exact ⟨fun _ => readsExpression_atom ha, readsStatement_atom ha⟩
  | @list _ origin items _ ih =>
      have hlist : ReadsExpression file (.list origin items) :=
        readsExpression_list fun n hn => (ih n hn).1 rfl
      exact ⟨fun _ => hlist, readsStatement_of_expression hlist rfl (by rw [Node.words]) hbracket⟩
  | @unary _ origin receiver name _ hname ih =>
      have hsend : ReadsExpression file (.send origin receiver name []) :=
        readsExpression_unary (ih.1 rfl) hname
      exact ⟨fun _ => hsend,
        readsStatement_of_expression hsend rfl (by rw [Node.words, sendWords]) hbracket⟩
  | @binary _ origin receiver operator argument _ hoperator _ ih ih' =>
      have hsend : ReadsExpression file (.send origin receiver operator [argument]) :=
        readsExpression_binary (ih.1 rfl) hoperator (ih'.1 rfl)
      exact ⟨fun _ => hsend,
        readsStatement_of_expression hsend rfl (by rw [Node.words, sendWords]) hbracket⟩
  | @keyword _ origin receiver name keywords args _ hname hkeywords hne hlength _ ih ih' =>
      have hsend : ReadsExpression file (.send origin receiver (Selector.make name keywords) args) :=
        readsExpression_keyword (ih.1 rfl) hname hkeywords hne hlength fun n hn => (ih' n hn).1 rfl
      exact ⟨fun _ => hsend,
        readsStatement_of_expression hsend rfl (by rw [Node.words, sendWords]) hbracket⟩
  | @block _ origin params bodyOrigin body _ hnodup _ ih =>
      have hblock : ReadsExpression file (.block origin params bodyOrigin body) :=
        readsExpression_block hnodup fun n hn => (ih n hn).2
      obtain ⟨w, rest, hwords, hw⟩ := paramWords_plain params _
      exact ⟨fun _ => hblock,
        readsStatement_of_expression hblock rfl (by rw [Node.words]; exact hwords) hw⟩
  | store htarget _ ih => exact ⟨Place.noConfusion, readsStatement_store htarget (ih.1 rfl)⟩
  | answer _ ih => exact ⟨Place.noConfusion, readsStatement_answer (ih.1 rfl)⟩

end Parley
