import Parley.Proofs.Grammar.Taking

/-! Everything that is read is a phrase of the grammar. The state of the reader describes the terminals
that it has taken: each construct on the stack stands for those that opened it and for the phrases
between them. Every terminal keeps the description true, so where the text may end it is a sentence. -/

namespace Parley.Grammar

/-- An expression that was written with some terminals. -/
structure Part.Spelled (p : Part) (xs : List Terminal) : Prop where
  derives : Derives (.expression p.tree) xs
  outer : stretch xs = some p.outer

/-- A statement that was written with some terminals. -/
structure Part.Stated (p : Part) (xs : List Terminal) : Prop where
  derives : Derives (.statement p.tree) xs
  outer : stretch xs = some p.outer

/-- The statements of a body so far, each with its semicolon. -/
structure OpenBody.Holds (body : OpenBody) (xs : List Terminal) : Prop where
  derives : Derives (.statements body.close.statements) xs
  span : body.close.span = stretch xs

/-- The start of a block: a brace, or parameters between bars and a brace. -/
inductive Head.Spelled : Head → List Terminal → Prop
  | bare {o : Terminal} : o.Is .openBrace → Head.Spelled ⟨o.token, []⟩ [o]
  | params {b b' o : Terminal} {names : List Token} {xs : List Terminal} : b.Is .bar →
      Derives (.params names.reverse) xs → b'.Is .bar → o.Is .openBrace →
      Head.Spelled ⟨b.token, names⟩ (b :: (xs ++ [b', o]))

/-- What stands before the value of a statement. -/
inductive Lead.Spelled : Lead → List Terminal → Prop
  | bare : Lead.Spelled .bare []
  | define {l name op : Terminal} : l.IsKeyword "let" → name.Is .name →
      op.Is .equals ∨ op.Is .walrus →
      Lead.Spelled (.define l.token.span.start name.token op.token) [l, name, op]
  | defineSlot {l slot op : Terminal} : l.IsKeyword "let" → slot.Is .slot → op.Is .equals →
      Lead.Spelled (.assign l.token.span.start slot.token op.token) [l, slot, op]
  | assign {target op : Terminal} : target.Is .name ∨ target.Is .slot → op.Is .equals →
      Lead.Spelled (.assign target.token.span.start target.token op.token) [target, op]
  | answer {r : Terminal} : r.IsKeyword "return" → Lead.Spelled (.answer r.token.span.start) [r]

/-- A send up to the keywords: its bracket, its receiver and its name, if it has one. -/
inductive OpenSend.Addressed : OpenSend → List Terminal → Prop
  | unnamed {o : Terminal} {receiver : Part} {keywords : List Token} {arguments : List Part}
      {xs : List Terminal} : o.Is .openBracket → receiver.Spelled xs →
      OpenSend.Addressed ⟨o.token, receiver, none, keywords, arguments⟩ (o :: xs)
  | named {o name : Terminal} {receiver : Part} {keywords : List Token} {arguments : List Part}
      {xs : List Terminal} : o.Is .openBracket → receiver.Spelled xs → name.Is .name →
      OpenSend.Addressed ⟨o.token, receiver, some name.token, keywords, arguments⟩
        (o :: (xs ++ [name]))

/-- The keywords of a send, each with an argument. -/
def OpenSend.Supplied (send : OpenSend) (xs : List Terminal) : Prop :=
  Derives (.arguments send.keywords.reverse (send.arguments.map (·.tree)).reverse) xs

/-- The keywords of a send, the latest of which waits for its argument. -/
inductive OpenSend.Keyed : OpenSend → List Terminal → Prop
  | first {opening : Token} {receiver : Part} {name : Option Token} {k : Terminal} : k.Is .name →
      OpenSend.Keyed ⟨opening, receiver, name, [k.token], []⟩ [k]
  | next {send : OpenSend} {k : Terminal} {xs ys : List Terminal} : send.Supplied xs →
      Optional .comma ys → k.Is .name →
      OpenSend.Keyed { send with keywords := k.token :: send.keywords } (xs ++ (ys ++ [k]))

/-- What opened a construct other than a statement, up to the expression that it waits for. -/
inductive Open.Spelled : Open → List Terminal → Prop
  | paren {o : Terminal} : o.Is .openParen → Open.Spelled (.paren o.token) [o]
  | bracket {o : Terminal} : o.Is .openBracket → Open.Spelled (.bracket o.token) [o]
  | items {o c : Terminal} {done : List Part} {xs : List Terminal} : o.Is .openBracket →
      Derives (.items (done.map (·.tree)).reverse) xs → c.Is .comma →
      Open.Spelled (.items o.token done) (o :: (xs ++ [c]))
  | operand {o op : Terminal} {receiver : Part} {xs : List Terminal} : o.Is .openBracket →
      receiver.Spelled xs → op.Is .operator →
      Open.Spelled (.operand o.token receiver op.token) (o :: (xs ++ [op]))
  | argument {send : OpenSend} {c : Terminal} {xs ys : List Terminal} : send.Addressed xs →
      send.Keyed ys → c.Is .colon → Open.Spelled (.argument send) (xs ++ (ys ++ [c]))

mutual

/-- The terminals before an expression stand for the constructs that are open around it. -/
inductive Opened (root : StartRule) : List Open → List Terminal → Prop
  | root : root = .expression → Opened root [] []
  | frame {frame : Open} {stack : List Open} {xs ys : List Terminal} : Opened root stack xs →
      frame.Spelled ys → Opened root (frame :: stack) (xs ++ ys)
  | statement {body : OpenBody} {lead : Lead} {stack : List Open} {xs ys : List Terminal} :
      Inside root body stack xs → lead.Spelled ys →
      Opened root (.statement body lead :: stack) (xs ++ ys)

/-- The terminals before a statement stand for its body and the constructs that are open around that. -/
inductive Inside (root : StartRule) : OpenBody → List Open → List Terminal → Prop
  | program {body : OpenBody} {xs : List Terminal} : root = .program → body.head = none →
      body.Holds xs → Inside root body [] xs
  | block {body : OpenBody} {head : Head} {stack : List Open} {xs ys zs : List Terminal} :
      Opened root stack xs → body.head = some head → head.Spelled ys → body.Holds zs →
      Inside root body stack (xs ++ (ys ++ zs))

end

/-- The terminals that were taken are those that the state describes. -/
inductive Described (root : StartRule) : State → List Terminal → Prop
  | expression {stack : List Open} {xs : List Terminal} : Opened root stack xs →
      Described root ⟨.expression, stack⟩ xs
  | completed {p : Part} {stack : List Open} {xs ys : List Terminal} : Opened root stack xs →
      p.Spelled ys → Described root ⟨.completed p, stack⟩ (xs ++ ys)
  | statement {body : OpenBody} {stack : List Open} {xs : List Terminal} :
      Inside root body stack xs → Described root ⟨.statement body, stack⟩ xs
  | target {body : OpenBody} {stack : List Open} {l : Terminal} {xs : List Terminal} :
      Inside root body stack xs → l.IsKeyword "let" →
      Described root ⟨.target body l.token.span.start, stack⟩ (xs ++ [l])
  | definition {body : OpenBody} {stack : List Open} {l name : Terminal} {xs : List Terminal} :
      Inside root body stack xs → l.IsKeyword "let" → name.Is .name →
      Described root ⟨.definition body l.token.span.start name.token, stack⟩ (xs ++ [l, name])
  | assignment {body : OpenBody} {stack : List Open} {l slot : Terminal} {xs : List Terminal} :
      Inside root body stack xs → l.IsKeyword "let" → slot.Is .slot →
      Described root ⟨.assignment body l.token.span.start slot.token, stack⟩ (xs ++ [l, slot])
  | lead {body : OpenBody} {stack : List Open} {x : Terminal} {xs : List Terminal} :
      Inside root body stack xs → x.Is .name ∨ x.Is .slot →
      Described root ⟨.lead body x.token, stack⟩ (xs ++ [x])
  | message {stack : List Open} {o name : Terminal} {receiver : Part} {xs ys : List Terminal} :
      Opened root stack xs → o.Is .openBracket → receiver.Spelled ys → name.Is .name →
      Described root ⟨.message o.token receiver name.token, stack⟩ (xs ++ o :: (ys ++ [name]))
  | keyword {stack : List Open} {send : OpenSend} {c : Terminal} {xs ys zs : List Terminal} :
      Opened root stack xs → send.Addressed ys → send.Supplied zs → c.Is .comma →
      Described root ⟨.keyword send, stack⟩ (xs ++ (ys ++ (zs ++ [c])))
  | colon {stack : List Open} {send : OpenSend} {xs ys zs : List Terminal} :
      Opened root stack xs → send.Addressed ys → send.Keyed zs →
      Described root ⟨.colon send, stack⟩ (xs ++ (ys ++ zs))
  | params {stack : List Open} {b : Terminal} {names : List Token} {xs ys : List Terminal} :
      Opened root stack xs → b.Is .bar → Derives (.params names.reverse) ys →
      Described root ⟨.params ⟨b.token, names⟩, stack⟩ (xs ++ b :: ys)
  | paramMark {stack : List Open} {b name : Terminal} {names : List Token}
      {xs ys : List Terminal} : Opened root stack xs → b.Is .bar →
      Derives (.params names.reverse) ys → name.Is .name →
      Described root ⟨.paramMark ⟨b.token, name.token :: names⟩, stack⟩ (xs ++ b :: (ys ++ [name]))
  | brace {stack : List Open} {b b' : Terminal} {names : List Token} {xs ys : List Terminal} :
      Opened root stack xs → b.Is .bar → Derives (.params names.reverse) ys → b'.Is .bar →
      Described root ⟨.brace ⟨b.token, names⟩, stack⟩ (xs ++ b :: (ys ++ [b']))

/-! Finished phrases -/

section Phrases

variable {p : Part} {xs ys : List Terminal} {c : Terminal}

/-- A name or an instance variable is a statement by itself. -/
theorem stated_part {x : Terminal} (hx : x.Is .name ∨ x.Is .slot) : x.token.part.Stated [x] := by
  rcases hx with hx | hx <;> exact ⟨.bare (.atom hx (by decide)), rfl⟩

theorem Lead.Spelled.finish {lead : Lead} (hlead : lead.Spelled xs) (hp : p.Spelled ys) :
    (lead.finish p).Stated (xs ++ ys) := by
  obtain ⟨tree, outer⟩ := p
  obtain ⟨hp, houter⟩ := hp
  have hthrough := fun x => Terminal.through_eq houter x
  cases hlead with
  | bare => exact ⟨.bare hp, houter⟩
  | @define l name op hl hname hop =>
      have hderives := Derives.define hl hname hop hp
      rw [hthrough] at hderives
      exact ⟨hderives, stretch_cons (stretch_cons (stretch_cons houter op) name) l⟩
  | @defineSlot l slot op hl hslot hop =>
      have hderives := Derives.defineSlot hl hslot hop hp
      rw [hthrough] at hderives
      exact ⟨hderives, stretch_cons (stretch_cons (stretch_cons houter op) slot) l⟩
  | @assign target op htarget hop =>
      have hderives := Derives.assign htarget hop hp
      rw [hthrough] at hderives
      exact ⟨hderives, stretch_cons (stretch_cons houter op) target⟩
  | @answer r hr =>
      have hderives := Derives.answer hr hp
      rw [hthrough] at hderives
      exact ⟨hderives, stretch_cons houter r⟩

theorem OpenBody.Holds.close_eq {body : OpenBody} (h : body.Holds xs) :
    body.close = ⟨stretch xs, body.close.statements⟩ := by
  rw [← h.span]

theorem OpenBody.Holds.start (head : Option Head) : (OpenBody.start head).Holds [] :=
  ⟨.noStatement, rfl⟩

theorem OpenBody.Holds.add {body : OpenBody} (h : body.Holds xs) (hp : p.Stated ys)
    (hc : c.Is .semicolon) : (body.add p c.token).Holds (xs ++ (ys ++ [c])) := by
  have hclose := close_add h.close_eq hp.outer c
  refine ⟨?_, by rw [hclose]⟩
  rw [hclose]
  exact .nextStatement h.derives hp.derives hc

theorem OpenBody.Holds.derives_close {body : OpenBody} (h : body.Holds xs) :
    Derives (.body body.close) xs := by
  rw [h.close_eq]
  exact .closed h.derives

theorem OpenBody.Holds.derives_closeWith {body : OpenBody} (h : body.Holds xs) (hp : p.Stated ys) :
    Derives (.body (body.closeWith p)) (xs ++ ys) := by
  rw [closeWith_eq h.close_eq hp.outer]
  exact .ended h.derives hp.derives

theorem Head.Spelled.block {head : Head} {b : Body} (hhead : head.Spelled xs)
    (hb : Derives (.body b) ys) (hc : c.Is .closeBrace) :
    (head.block b c.token).Spelled (xs ++ (ys ++ [c])) := by
  cases hhead with
  | bare ho => exact ⟨.block ho hb hc, stretch_bracketed _ c ys⟩
  | @params b b' o names xs hbar hnames hbar' ho =>
      have hderives := Derives.paramBlock hbar hnames hbar' ho hb hc
      have houter := stretch_bracketed b c (xs ++ b' :: o :: ys)
      exact ⟨by simpa [Head.block, Terminal.upTo] using hderives,
        by simpa [Head.block, Terminal.upTo] using houter⟩

theorem OpenSend.Keyed.supplied {send : OpenSend} (h : send.Keyed xs) (hc : c.Is .colon)
    (hp : p.Spelled ys) :
    OpenSend.Supplied { send with arguments := p :: send.arguments } (xs ++ c :: ys) := by
  cases h with
  | first hk => exact .firstArgument hk hc hp.derives
  | @next send k xs zs hsupplied hcomma hk =>
      have hderives := Derives.nextArgument hsupplied hcomma hk hc hp.derives
      simpa [OpenSend.Supplied] using hderives

theorem OpenSend.Addressed.finish {send : OpenSend} (h : send.Addressed xs)
    (h' : OpenSend.Supplied { send with arguments := p :: send.arguments } ys)
    (hc : c.Is .closeBracket) : (send.finish p c.token).Spelled (xs ++ (ys ++ [c])) := by
  cases h with
  | @unnamed o receiver keywords arguments xs ho hreceiver =>
      have hderives := Derives.unnamed ho hreceiver.derives h' hc
      have houter := stretch_bracketed o c (xs ++ ys)
      exact ⟨by simpa [OpenSend.finish, Terminal.upTo] using hderives,
        by simpa [OpenSend.finish, Terminal.upTo] using houter⟩
  | @named o name receiver keywords arguments xs ho hreceiver hname =>
      have hderives := Derives.named ho hreceiver.derives hname h' hc
      have houter := stretch_bracketed o c (xs ++ name :: ys)
      exact ⟨by simpa [OpenSend.finish, Terminal.upTo] using hderives,
        by simpa [OpenSend.finish, Terminal.upTo] using houter⟩

theorem OpenSend.Addressed.congr {send send' : OpenSend} (h : send.Addressed xs)
    (hopening : send'.opening = send.opening) (hreceiver : send'.receiver = send.receiver)
    (hname : send'.name = send.name) : send'.Addressed xs := by
  obtain ⟨opening, receiver, name, keywords, arguments⟩ := send'
  subst hopening hreceiver hname
  cases h with
  | unnamed ho hreceiver => exact .unnamed ho hreceiver
  | named ho hreceiver hname => exact .named ho hreceiver hname

end Phrases

/-! Steps -/

section Steps

variable {root : StartRule} {stack : List Open} {body : OpenBody} {s s' : State} {p : Part}
  {xs ys : List Terminal} {x : Terminal}

theorem Described.of_eq (h : Described root s xs) (heq : xs = ys) : Described root s ys := heq ▸ h

theorem Inside.add (h : Inside root body stack xs) (hp : p.Stated ys) (hx : x.Is .semicolon) :
    Inside root (body.add p x.token) stack (xs ++ (ys ++ [x])) := by
  cases h with
  | program hroot hhead hholds => exact .program hroot hhead (hholds.add hp hx)
  | block hstack hhead hspelled hholds =>
      have hinside : Inside root (body.add p x.token) stack _ :=
        .block hstack hhead hspelled (hholds.add hp hx)
      simpa using hinside

/-- The block of a body that ends after some more terminals. -/
theorem Inside.complete {head : Head} {b : Body} (h : Inside root body stack xs)
    (hhead : body.head = some head)
    (hb : ∀ zs, body.Holds zs → Derives (.body b) (zs ++ ys)) (hx : x.Is .closeBrace) :
    Described root ⟨.completed (head.block b x.token), stack⟩ (xs ++ (ys ++ [x])) := by
  cases h with
  | program _ hnone _ => simp [hnone] at hhead
  | block hstack hsome hspelled hholds =>
      obtain rfl := Option.some.inj (hsome.symm.trans hhead)
      exact (Described.completed hstack (hspelled.block (hb _ hholds) hx)).of_eq (by simp)

theorem Described.afterStatement (h : Inside root body stack xs) (hp : p.Stated ys)
    (hx : x.keyword = false) (hs : State.afterStatement body p stack x.token = some s) :
    Described root s (xs ++ (ys ++ [x])) := by
  rw [State.afterStatement] at hs
  split at hs
  · next hkind =>
      cases hs
      exact .statement (h.add hp ⟨hx, hkind⟩)
  · next hkind =>
      obtain ⟨head, hhead, rfl⟩ := Option.map_eq_some_iff.mp hs
      exact h.complete hhead (fun zs hzs => hzs.derives_closeWith hp) ⟨hx, hkind⟩
  · cases hs

theorem Token.kind_mem_of_isAtom {t : Token} (h : t.isAtom = true) :
    t.kind ∈ [Kind.integer, .string, .symbol, .name, .slot] := by
  unfold Token.isAtom at h
  cases hkind : t.kind <;> simp [hkind] at h ⊢

theorem Described.begin (h : Opened root stack xs) (hx : x.keyword = false)
    (hs : State.begin stack x.token = some s) : Described root s (xs ++ [x]) := by
  rw [State.begin] at hs
  split_ifs at hs with hatom
  · cases hs
    exact .completed h ⟨.atom ⟨hx, rfl⟩ (Token.kind_mem_of_isAtom hatom), rfl⟩
  · split at hs <;> cases hs
    · next hkind => exact .expression (.frame h (.paren ⟨hx, hkind⟩))
    · next hkind => exact .expression (.frame h (.bracket ⟨hx, hkind⟩))
    · next hkind => exact .statement (.block h rfl (.bare ⟨hx, hkind⟩) (.start _))
    · next hkind => exact .params h ⟨hx, hkind⟩ .noParam

/-- A list that ends after its latest item. -/
theorem spelled_listOf {o : Terminal} {done : List Part} (ho : o.Is .openBracket)
    (h : Derives (.items (done.map (·.tree)).reverse) xs) (hx : x.Is .closeBracket) :
    (listOf o.token x.token done).Spelled (o :: (xs ++ [x])) :=
  ⟨.list ho h hx, stretch_bracketed o x xs⟩

theorem Described.nextKeyword {send : OpenSend} {zs ws : List Terminal}
    (hstack : Opened root stack xs) (haddressed : send.Addressed ys) (hsupplied : send.Supplied zs)
    (hcomma : Optional .comma ws) (hx : x.Is .name) :
    Described root ⟨.colon { send with keywords := x.token :: send.keywords }, stack⟩
      (xs ++ (ys ++ (zs ++ (ws ++ [x])))) := by
  refine .colon hstack ?_ (.next hsupplied hcomma hx)
  exact haddressed.congr rfl rfl rfl

theorem Described.follow (h : Opened root stack xs) (hp : p.Spelled ys) (hx : x.keyword = false)
    (hs : State.follow p stack x.token = some s) : Described root s (xs ++ (ys ++ [x])) := by
  cases h with
  | root => cases hs
  | @statement body lead stack xs zs hinside hlead =>
      exact (Described.afterStatement hinside (hlead.finish hp) hx hs).of_eq (by simp)
  | frame hstack hframe =>
      cases hframe with
      | @paren o ho =>
          rw [State.follow] at hs
          split at hs <;> cases hs
          next hkind =>
          have hspelled : Part.Spelled ⟨p.tree, o.upTo x⟩ (o :: (ys ++ [x])) :=
            ⟨.paren ho hp.derives ⟨hx, hkind⟩, stretch_bracketed o x ys⟩
          exact (Described.completed hstack hspelled).of_eq (by simp)
      | bracket ho =>
          have hitems : Derives (.items ([p].map (·.tree)).reverse) ys := .firstItem hp.derives
          rw [State.follow] at hs
          split at hs <;> cases hs
          · next hkind =>
              exact (Described.expression (.frame hstack (.items ho hitems ⟨hx, hkind⟩))).of_eq
                (by simp)
          · next hkind =>
              exact (Described.completed hstack (spelled_listOf ho hitems ⟨hx, hkind⟩)).of_eq
                (by simp)
          · next hkind => exact (Described.message hstack ho hp ⟨hx, hkind⟩).of_eq (by simp)
          · next hkind =>
              exact (Described.expression (.frame hstack (.operand ho hp ⟨hx, hkind⟩))).of_eq
                (by simp)
      | @items o c done zs ho hdone hc =>
          have hitems : Derives (.items ((p :: done).map (·.tree)).reverse) (zs ++ c :: ys) := by
            simpa using Derives.nextItem hdone hc hp.derives
          rw [State.follow] at hs
          split at hs <;> cases hs
          · next hkind =>
              exact (Described.expression (.frame hstack (.items ho hitems ⟨hx, hkind⟩))).of_eq
                (by simp)
          · next hkind =>
              exact (Described.completed hstack (spelled_listOf ho hitems ⟨hx, hkind⟩)).of_eq
                (by simp)
      | @operand o op receiver zs ho hreceiver hop =>
          rw [State.follow] at hs
          split at hs <;> cases hs
          next hkind =>
          have hspelled : Part.Spelled ⟨.binary (o.upTo x) receiver.tree op.token p.tree, o.upTo x⟩
              (o :: (zs ++ op :: (ys ++ [x]))) :=
            ⟨.binary ho hreceiver.derives hop hp.derives ⟨hx, hkind⟩,
              by simpa using stretch_bracketed o x (zs ++ op :: ys)⟩
          exact (Described.completed hstack hspelled).of_eq (by simp)
      | @argument send c zs ws haddressed hkeyed hc =>
          have hsupplied := hkeyed.supplied hc hp
          have haddressed' : OpenSend.Addressed { send with arguments := p :: send.arguments } zs :=
            haddressed.congr rfl rfl rfl
          rw [State.follow] at hs
          split at hs <;> cases hs
          · next hkind =>
              exact (Described.completed hstack (haddressed.finish hsupplied ⟨hx, hkind⟩)).of_eq
                (by simp)
          · next hkind =>
              exact (Described.keyword hstack haddressed' hsupplied ⟨hx, hkind⟩).of_eq (by simp)
          · next hkind =>
              exact (Described.nextKeyword hstack haddressed' hsupplied .absent ⟨hx, hkind⟩).of_eq
                (by simp)

/-- A keyword where the state reserves it. -/
theorem Described.keywordStep (h : Described root s xs) (hx : x.keyword = true)
    (hreserves : s.reserves x.token = true) (hs : s.step x.token = some s') :
    Described root s' (xs ++ [x]) := by
  rw [State.reserves, Bool.and_eq_true, decide_eq_true_eq] at hreserves
  obtain ⟨hkind, hreserves⟩ := hreserves
  have hliteral : literalWords.contains x.token.text = true → x.token.part.Spelled [x] :=
    fun hmem => ⟨.word ⟨hx, hkind, rfl⟩ (by simpa using hmem), rfl⟩
  cases h with
  | expression hstack =>
      rw [State.step_expression (by simp [hkind]), State.begin, Token.isAtom, hkind] at hs
      cases hs
      exact .completed hstack (hliteral hreserves)
  | statement hinside =>
      simp only [State.step, State.beginStatement, hkind] at hs
      split_ifs at hs with hlet hreturn hword <;> cases hs
      · exact .target hinside ⟨hx, hkind, hlet⟩
      · exact .expression (.statement hinside (.answer ⟨hx, hkind, hreturn⟩))
      · have hstack := Opened.statement hinside .bare
        exact (Described.completed hstack (hliteral hword)).of_eq (by simp)
      · rw [Bool.or_eq_true, Bool.or_eq_true, decide_eq_true_eq, decide_eq_true_eq] at hreserves
        rcases hreserves with (hlet' | hreturn') | hword'
        · exact absurd hlet' hlet
        · exact absurd hreturn' hreturn
        · exact absurd hword' hword
  | _ => cases hreserves

/-- A terminal that stands for its class where a statement or the end of the body may come. -/
theorem Described.beginStatement (h : Inside root body stack xs) (hx : x.keyword = false)
    (hname : x.token.kind ≠ .name) (hs : State.beginStatement body stack x.token = some s) :
    Described root s (xs ++ [x]) := by
  rw [State.beginStatement] at hs
  split at hs
  · next hkind =>
      obtain ⟨head, hhead, rfl⟩ := Option.map_eq_some_iff.mp hs
      have hclose : ∀ zs, body.Holds zs → Derives (.body body.close) (zs ++ []) := by
        intro zs hzs
        rw [List.append_nil]
        exact hzs.derives_close
      exact h.complete hhead hclose ⟨hx, hkind⟩
  · next hkind => exact absurd hkind hname
  · next hkind =>
      cases hs
      exact .lead h (.inr ⟨hx, hkind⟩)
  · exact (Described.begin (.statement h .bare) hx hs).of_eq (by simp)

/-- A terminal where an expression may come; in a bracket this can be its end. -/
theorem Described.expressionStep (h : Opened root stack xs) (hx : x.keyword = false)
    (hs : State.step ⟨.expression, stack⟩ x.token = some s) : Described root s (xs ++ [x]) := by
  simp only [State.step] at hs
  split at hs
  · next opening rest hkind =>
      cases hs
      cases h with
      | frame hstack hframe =>
          cases hframe with
          | bracket ho =>
              have hspelled : Part.Spelled (listOf _ x.token []) _ :=
                ⟨.emptyList ho ⟨hx, hkind⟩, stretch_bracketed _ x []⟩
              exact (Described.completed hstack hspelled).of_eq (by simp)
  · exact .begin h hx hs

/-- A terminal after the name in a bracket. -/
theorem Described.messageStep {o name : Terminal} {receiver : Part} (h : Opened root stack xs)
    (ho : o.Is .openBracket) (hreceiver : receiver.Spelled ys) (hname : name.Is .name)
    (hx : x.keyword = false)
    (hs : State.step ⟨.message o.token receiver name.token, stack⟩ x.token = some s) :
    Described root s (xs ++ o :: (ys ++ [name, x])) := by
  simp only [State.step] at hs
  split at hs <;> cases hs
  · next hkind =>
      have hspelled : Part.Spelled ⟨.unary (o.upTo x) receiver.tree name.token, o.upTo x⟩
          (o :: (ys ++ [name, x])) :=
        ⟨.unary ho hreceiver.derives hname ⟨hx, hkind⟩,
          by simpa using stretch_bracketed o x (ys ++ [name])⟩
      exact .completed h hspelled
  · next hkind =>
      exact (Described.expression (.frame h
        (.argument (.unnamed ho hreceiver) (.first hname) ⟨hx, hkind⟩))).of_eq (by simp)
  · next hkind =>
      exact (Described.colon h (.named ho hreceiver hname) (.first ⟨hx, hkind⟩)).of_eq (by simp)

/-- A terminal after the name of a parameter. -/
theorem Described.paramMarkStep {b name : Terminal} {names : List Token} (h : Opened root stack xs)
    (hb : b.Is .bar) (hnames : Derives (.params names.reverse) ys) (hname : name.Is .name)
    (hx : x.keyword = false)
    (hs : State.step ⟨.paramMark ⟨b.token, name.token :: names⟩, stack⟩ x.token = some s) :
    Described root s (xs ++ b :: (ys ++ [name, x])) := by
  have hnext : ∀ {zs}, Optional .colon zs →
      Derives (.params (name.token :: names).reverse) (ys ++ name :: zs) := by
    intro zs hzs
    rw [List.reverse_cons]
    exact .nextParam hnames hname hzs
  simp only [State.step] at hs
  split at hs <;> cases hs
  · next hkind => exact .params h hb (hnext (.present ⟨hx, hkind⟩))
  · next hkind => exact (Described.paramMark h hb (hnext .absent) ⟨hx, hkind⟩).of_eq (by simp)
  · next hkind => exact (Described.brace h hb (hnext .absent) ⟨hx, hkind⟩).of_eq (by simp)

/-- What the state describes grows with the terminals that are taken. -/
theorem Described.take (h : Described root s xs) (hs : s.take x = some s') :
    Described root s' (xs ++ [x]) := by
  rw [State.take] at hs
  cases hx : x.keyword with
  | true =>
      rw [hx, if_pos rfl] at hs
      split_ifs at hs with hreserves
      exact h.keywordStep hx hreserves hs
  | false =>
      simp only [hx, Bool.false_eq_true, if_false] at hs
      cases h with
      | expression hstack => exact .expressionStep hstack hx hs
      | completed hstack hp => exact (Described.follow hstack hp hx hs).of_eq (by simp)
      | statement hinside =>
          split at hs
          · next hexpect hkind =>
              cases hexpect
              cases hs
              exact .lead hinside (.inl ⟨hx, hkind⟩)
          · next hnot =>
              exact .beginStatement hinside hx (fun hkind => hnot _ rfl hkind) hs
      | target hinside hl =>
          simp only [State.step] at hs
          split at hs <;> cases hs
          · next hkind => exact (Described.definition hinside hl ⟨hx, hkind⟩).of_eq (by simp)
          · next hkind => exact (Described.assignment hinside hl ⟨hx, hkind⟩).of_eq (by simp)
      | definition hinside hl hname =>
          simp only [State.step] at hs
          split at hs <;> cases hs
          · next hkind =>
              exact (Described.expression (.statement hinside
                (.define hl hname (.inl ⟨hx, hkind⟩)))).of_eq (by simp)
          · next hkind =>
              exact (Described.expression (.statement hinside
                (.define hl hname (.inr ⟨hx, hkind⟩)))).of_eq (by simp)
      | assignment hinside hl hslot =>
          simp only [State.step] at hs
          split at hs <;> cases hs
          next hkind =>
          exact (Described.expression (.statement hinside
            (.defineSlot hl hslot ⟨hx, hkind⟩))).of_eq (by simp)
      | lead hinside htarget =>
          simp only [State.step] at hs
          split at hs
          · next hkind =>
              cases hs
              exact (Described.expression (.statement hinside
                (.assign htarget ⟨hx, hkind⟩))).of_eq (by simp)
          · exact (Described.afterStatement hinside (stated_part htarget) hx hs).of_eq (by simp)
      | message hstack ho hreceiver hname =>
          exact (Described.messageStep hstack ho hreceiver hname hx hs).of_eq (by simp)
      | keyword hstack haddressed hsupplied hc =>
          simp only [State.step] at hs
          split at hs <;> cases hs
          next hkind =>
          exact (Described.nextKeyword hstack haddressed hsupplied (.present hc)
            ⟨hx, hkind⟩).of_eq (by simp)
      | colon hstack haddressed hkeyed =>
          simp only [State.step] at hs
          split at hs <;> cases hs
          next hkind =>
          exact (Described.expression (.frame hstack
            (.argument haddressed hkeyed ⟨hx, hkind⟩))).of_eq (by simp)
      | params hstack hb hnames =>
          simp only [State.step] at hs
          split at hs <;> cases hs
          · next hkind => exact (Described.paramMark hstack hb hnames ⟨hx, hkind⟩).of_eq (by simp)
          · next hkind => exact (Described.brace hstack hb hnames ⟨hx, hkind⟩).of_eq (by simp)
      | paramMark hstack hb hnames hname =>
          exact (Described.paramMarkStep hstack hb hnames hname hx hs).of_eq (by simp)
      | brace hstack hb hnames hb' =>
          simp only [State.step] at hs
          split at hs <;> cases hs
          next hkind =>
          exact (Described.statement (.block hstack rfl
            (.params hb hnames hb' ⟨hx, hkind⟩) (.start _))).of_eq (by simp)

theorem Described.takes (h : Described root s xs) (hs : s.takes ys = some s') :
    Described root s' (xs ++ ys) := by
  induction ys generalizing s xs with
  | nil =>
      cases hs
      rwa [List.append_nil]
  | cons y ys ih =>
      rw [State.takes_cons] at hs
      obtain ⟨s₁, hstep, hs⟩ := Option.bind_eq_some_iff.mp hs
      exact (ih (h.take hstep) hs).of_eq (by simp)

theorem described_programStart : Described .program .programStart [] :=
  .statement (.program rfl rfl (.start none))

theorem described_expressionStart : Described .expression .expressionStart [] :=
  .expression (.root rfl)

theorem Inside.holds (h : Inside root body [] xs) (hhead : body.head.isNone = true) :
    body.Holds xs := by
  cases h with
  | program _ _ hholds => exact hholds
  | block _ hsome _ _ => simp [hsome] at hhead

/-- Where a program may end, it is derived. -/
theorem Described.derives_program {b : Body} (h : Described root s xs) (hb : s.program? = some b) :
    Derives (.body b) xs := by
  cases h with
  | @statement body stack xs hinside =>
      cases stack with
      | cons => cases hb
      | nil =>
          simp only [State.program?] at hb
          split_ifs at hb with hhead
          cases hb
          exact (hinside.holds hhead).derives_close
  | @lead body stack x xs hinside htarget =>
      cases stack with
      | cons => cases hb
      | nil =>
          simp only [State.program?] at hb
          split_ifs at hb with hhead
          cases hb
          exact (hinside.holds hhead).derives_closeWith (stated_part htarget)
  | completed hopened hp =>
      cases hopened with
      | root => cases hb
      | frame _ hframe => cases hframe <;> cases hb
      | @statement body lead stack xs ys hinside hlead =>
          cases stack with
          | cons => cases hb
          | nil =>
              simp only [State.program?] at hb
              split_ifs at hb with hhead
              cases hb
              rw [List.append_assoc]
              exact (hinside.holds hhead).derives_closeWith (hlead.finish hp)
  | _ => cases hb

/-- Where an expression may end, it is derived. -/
theorem Described.derives_expression {tree : Tree} (h : Described root s xs)
    (ht : s.expression? = some tree) : Derives (.expression tree) xs := by
  cases h with
  | completed hopened hp =>
      cases hopened with
      | root =>
          cases ht
          exact hp.derives
      | _ => cases ht
  | _ => cases ht

end Steps

end Parley.Grammar
