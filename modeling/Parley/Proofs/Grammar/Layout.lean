import Parley.Proofs.Grammar.Prefixes
import Parley.Proofs.Grammar.Slices

/-! How trees lie in their text. A phrase inside a sentence is classified as it would be alone: the terminals
before it leave open which phrase of its rule comes next. So the characters that it takes up are read as the
same phrase, and trees lie in their text as they lie in one another. -/

namespace Parley.Grammar

/-! Phrases inside sentences -/

/-- After these terminals any phrase of a rule can come in a phrase of another one. -/
def Precedes {α β : Type} (root : α → Phrase) (before : List Terminal) (rule : β → Phrase) : Prop :=
  ∀ b xs, Derives (rule b) xs → ∃ after a, Derives (root a) (before ++ (xs ++ after))

/-- Terminals stand in a sentence of a text, where phrases of a rule can come. -/
def Stands {α β : Type} (root : α → Phrase) (text : String) (rule : β → Phrase) (xs : List Terminal) :
    Prop :=
  ∃ before after, Cut .first text.toList ((before ++ (xs ++ after)).map Terminal.token) ∧
    Classified root (before ++ (xs ++ after)) ∧ Precedes root before rule

section Contexts

variable {α β γ : Type} {root : α → Phrase} {rule : β → Phrase} {inner : γ → Phrase} {text : String}
  {xs ys : List Terminal} {b : β}

theorem Precedes.self (rule : β → Phrase) : Precedes rule [] rule := by
  intro b xs h
  exact ⟨[], b, by rwa [List.append_nil]⟩

theorem Precedes.trans (h : Precedes root xs rule) (h' : Precedes rule ys inner) :
    Precedes root (xs ++ ys) inner := by
  intro c zs hzs
  obtain ⟨after, b, hb⟩ := h' c zs hzs
  obtain ⟨after', a, ha⟩ := h b _ hb
  exact ⟨after ++ after', a, by simpa using ha⟩

/-- A sentence of a text stands in it. -/
theorem Derivation.stands {b : β} (h : Derivation rule text b xs) : Stands rule text rule xs :=
  ⟨[], [], by simpa using h.cut, by simpa using h.classified, .self rule⟩

/-- A part of what stands in a text stands in it. -/
theorem Stands.part (h : Stands root text rule xs) {before : List Terminal}
    (hinner : Precedes rule before inner) (hys : before ++ ys <+: xs) : Stands root text inner ys := by
  obtain ⟨pre, post, hcut, hclassified, hpre⟩ := h
  obtain ⟨after, rfl⟩ := hys
  exact ⟨pre ++ before, after ++ post, by simpa using hcut, by simpa using hclassified, hpre.trans hinner⟩

theorem Stands.inOrder (h : Stands root text rule xs) : InOrder xs := by
  obtain ⟨pre, post, hcut, -, -⟩ := h
  exact (hcut.inOrder rfl).sublist
    ((List.sublist_append_left xs post).trans (List.sublist_append_right pre _))

/-- Whether a word of a phrase is a keyword is decided as if the phrase stood alone. -/
theorem Stands.classified (h : Stands root text rule xs) (hxs : Derives (rule b) xs) :
    Classified rule xs := by
  obtain ⟨pre, post, -, hclassified, hpre⟩ := h
  intro before x after heq
  constructor
  · intro hx
    have hkeyword : (⟨x.token, true⟩ : Terminal) = x := by rw [← hx]
    exact ⟨after, b, by rwa [hkeyword, ← heq]⟩
  · rintro ⟨after', b', hb'⟩
    obtain ⟨after'', a, ha⟩ := hpre b' _ hb'
    exact (hclassified (pre ++ before) x (after ++ post) (by simp [heq])).mpr
      ⟨after' ++ after'', a, by simpa using ha⟩

/-- The reader takes the characters of a phrase to the end that it comes to in the sentence. -/
theorem Stands.feed_slice (h : Stands root text rule xs) {start : State} {finish : State → Option β}
    (hdecides : Decides start finish rule) (hxs : Derives (rule b) xs) {span : Span}
    (hspan : stretch xs = some span) :
    ∃ s s', finish s = some b ∧ (scan (span.slice text)).stray = none ∧
      start.feed (scan (span.slice text)).tokens = some s' ∧ s'.unplaced [] = s.unplaced [] := by
  obtain ⟨s, hs, hb⟩ := (hdecides.derives_iff b xs).mp hxs
  have hfaithful := (hdecides.classified_iff hs).mp (h.classified hxs)
  rw [hfaithful.takes_eq_feed] at hs
  obtain ⟨pre, post, hcut, -, -⟩ := h
  obtain ⟨p, hslice⟩ := hcut.exists_slice hspan
  rw [cut_iff] at hslice
  obtain ⟨hwords, hstray⟩ := scanFrom_words .first p (span.slice text).toList
  rw [hslice] at hwords hstray
  obtain ⟨s', hs', hunplaced⟩ := State.exists_feed_of_words hs hwords
  exact ⟨s, s', hb, Option.isNone_iff_eq_none.mp hstray, hs', hunplaced⟩

theorem Stands.readExpression_slice (h : Stands root text Phrase.expression xs) {t : Tree}
    (ht : Derives (.expression t) xs) {span : Span} (hspan : stretch xs = some span) :
    ∃ u, readExpression (span.slice text) = .ok u ∧ u.unplaced = t.unplaced := by
  obtain ⟨s, s', hs, hstray, hfeed, hunplaced⟩ := h.feed_slice decides_expression ht hspan
  have htree := s'.expression?_unplaced
  rw [hunplaced, State.expression?_unplaced, hs] at htree
  obtain ⟨u, hu, heq⟩ := Option.map_eq_some_iff.mp htree.symm
  exact ⟨u, readText_of_feed hstray hfeed hu, heq⟩

theorem Stands.readProgram_slice (h : Stands root text Phrase.body xs) {b : Body}
    (hb : Derives (.body b) xs) {span : Span} (hspan : stretch xs = some span) :
    ∃ b', readProgram (span.slice text) = .ok b' ∧
      Tree.unplacedEach b'.statements = Tree.unplacedEach b.statements := by
  obtain ⟨s, s', hs, hstray, hfeed, hunplaced⟩ := h.feed_slice decides_program hb hspan
  have hstatements := @State.program?_unplaced [] s'
  rw [hunplaced, State.program?_unplaced, hs] at hstatements
  obtain ⟨b', hb', heq⟩ := Option.map_eq_some_iff.mp hstatements.symm
  exact ⟨b', readText_of_feed hstray hfeed hb', heq⟩

end Contexts

/-! What comes before the parts of a phrase -/

section Before

variable {o op c k name l : Terminal} {receiver : Tree} {trees : List Tree} {keywords names : List Token}
  {xs ys : List Terminal}

/-- A statement alone. -/
theorem Derives.only {t : Tree} (h : Derives (.statement t) xs) : Derives (.body ⟨stretch xs, [t]⟩) xs :=
  .ended .noStatement h

theorem Derives.statements_append (h : Derives (.statements trees) xs) {more : List Tree}
    (h' : Derives (.statements more) ys) : Derives (.statements (trees ++ more)) (xs ++ ys) := by
  generalize hphrase : Phrase.statements more = phrase at h'
  induction h' generalizing more with
  | noStatement =>
      cases hphrase
      simpa using h
  | nextStatement _ hstatement hs ih _ =>
      cases hphrase
      simpa using (ih rfl).nextStatement hstatement hs
  | _ => cases hphrase

theorem precedes_statements (h : Derives (.statements trees) xs) : Precedes .body xs .body := by
  intro b ys hb
  refine ⟨[], ?_⟩
  rw [List.append_nil]
  cases hb with
  | closed hmore => exact ⟨_, .closed (h.statements_append hmore)⟩
  | ended hmore hlast =>
      rw [← List.append_assoc]
      exact ⟨_, .ended (h.statements_append hmore) hlast⟩

theorem precedes_value (xs : List Terminal)
    (h : ∀ t ys, Derives (.expression t) ys → ∃ u, Derives (.statement u) (xs ++ ys)) :
    Precedes .body xs .expression := by
  intro t ys ht
  obtain ⟨u, hu⟩ := h t ys ht
  exact ⟨[], _, by simpa using hu.only⟩

theorem precedes_paren (ho : o.Is .openParen) : Precedes .expression [o] .expression :=
  fun t _ ht => ⟨[Kind.closeParen.terminal], t, .paren ho ht (Kind.is_terminal _)⟩

theorem precedes_items (ho : o.Is .openBracket) : Precedes .expression [o] .items :=
  fun _ _ ht => ⟨[Kind.closeBracket.terminal], _, .list ho ht (Kind.is_terminal _)⟩

theorem precedes_firstItem : Precedes .items [] .expression :=
  fun t xs ht => ⟨[], [t], by simpa using Derives.firstItem ht⟩

theorem precedes_nextItem (h : Derives (.items trees) xs) (hc : c.Is .comma) :
    Precedes .items (xs ++ [c]) .expression :=
  fun _ _ ht => ⟨[], _, by simpa using h.nextItem hc ht⟩

theorem precedes_receiver (ho : o.Is .openBracket) : Precedes .expression [o] .expression :=
  (precedes_items ho).trans precedes_firstItem

theorem precedes_operand (ho : o.Is .openBracket) (h : Derives (.expression receiver) xs)
    (hop : op.Is .operator) : Precedes .expression (o :: (xs ++ [op])) .expression :=
  fun _ _ ht => ⟨[Kind.closeBracket.terminal], _,
    by simpa using Derives.binary ho h hop ht (Kind.is_terminal .closeBracket)⟩

/-- Keywords with their arguments, as one rule. -/
def argumentsRule (p : List Token × List Tree) : Phrase := .arguments p.1 p.2

theorem precedes_namedArguments (ho : o.Is .openBracket) (h : Derives (.expression receiver) xs)
    (hname : name.Is .name) : Precedes .expression (o :: (xs ++ [name])) argumentsRule :=
  fun _ _ hargs => ⟨[Kind.closeBracket.terminal], _,
    by simpa using Derives.named ho h hname hargs (Kind.is_terminal .closeBracket)⟩

theorem precedes_arguments (ho : o.Is .openBracket) (h : Derives (.expression receiver) xs) :
    Precedes .expression (o :: xs) argumentsRule :=
  fun _ _ hargs => ⟨[Kind.closeBracket.terminal], _,
    by simpa using Derives.unnamed ho h hargs (Kind.is_terminal .closeBracket)⟩

theorem precedes_firstArgument (hk : k.Is .name) (hc : c.Is .colon) :
    Precedes argumentsRule [k, c] .expression :=
  fun t _ ht => ⟨[], ([k.token], [t]), by simpa [argumentsRule] using Derives.firstArgument hk hc ht⟩

theorem precedes_nextArgument (h : Derives (.arguments keywords trees) xs) (hys : Optional .comma ys)
    (hk : k.Is .name) (hc : c.Is .colon) :
    Precedes argumentsRule (xs ++ (ys ++ [k, c])) .expression :=
  fun t _ ht => ⟨[], (keywords ++ [k.token], trees ++ [t]),
    by simpa [argumentsRule] using Derives.nextArgument h hys hk hc ht⟩

theorem precedes_block (ho : o.Is .openBrace) : Precedes .expression [o] .body :=
  fun _ _ hb => ⟨[Kind.closeBrace.terminal], _, .block ho hb (Kind.is_terminal _)⟩

theorem precedes_paramBlock {b b' : Terminal} (hb : b.Is .bar) (h : Derives (.params names) xs)
    (hb' : b'.Is .bar) (ho : o.Is .openBrace) : Precedes .expression (b :: (xs ++ [b', o])) .body :=
  fun _ _ hbody => ⟨[Kind.closeBrace.terminal], _,
    by simpa using Derives.paramBlock hb h hb' ho hbody (Kind.is_terminal .closeBrace)⟩

end Before

/-! Trees one after another -/

/-- The trees that a tree is made of. -/
def Tree.parts : Tree → List Tree
  | .atom _ => []
  | .list _ items => items
  | .unary _ receiver _ => [receiver]
  | .binary _ receiver _ argument => [receiver, argument]
  | .keyword _ receiver _ _ arguments => receiver :: arguments
  | .block _ _ _ body => body
  | .define _ _ _ value | .assign _ _ _ value | .answer _ value => [value]

def Tree.body? : Tree → Option Body
  | .block _ _ bodySpan body => some ⟨bodySpan, body⟩
  | _ => none

def Tree.isStatement : Tree → Bool
  | .define .. | .assign .. | .answer .. => true
  | _ => false

/-- Trees lie in a span one after another. -/
structure Spread (outer : Span) (ts : List Tree) : Prop where
  within : ∀ t ∈ ts, t.span.Within outer
  ordered : ts.Pairwise fun t u => t.span.Before u.span

/-- Trees lie among some terminals one after another. -/
structure Laid (xs : List Terminal) (ts : List Tree) : Prop where
  among : ∀ t ∈ ts, t.span.Among xs
  ordered : ts.Pairwise fun t u => t.span.Before u.span

namespace Laid

variable {xs ys : List Terminal} {ts us : List Tree} {t : Tree} {outer : Span}

theorem nil (xs : List Terminal) : Laid xs [] := ⟨List.forall_mem_nil _, .nil⟩

theorem single (h : t.span.Among xs) : Laid xs [t] :=
  ⟨List.forall_mem_singleton.mpr h, List.pairwise_singleton _ _⟩

theorem mono (h : Laid xs ts) (hxs : ∀ x ∈ xs, x ∈ ys) : Laid ys ts :=
  ⟨fun t ht => (h.among t ht).mono fun _ hx => hxs _ hx, h.ordered⟩

theorem append (h : Laid xs ts) (h' : Laid ys us) (hxs : InOrder (xs ++ ys)) :
    Laid (xs ++ ys) (ts ++ us) := by
  refine ⟨fun t ht => ?_, List.pairwise_append.mpr ⟨h.ordered, h'.ordered, fun t ht u hu => ?_⟩⟩
  · rcases List.mem_append.mp ht with ht | ht
    · exact (h.among t ht).mono (List.subset_append_left xs ys)
    · exact (h'.among t ht).mono (List.subset_append_right xs ys)
  · exact hxs.before (h.among t ht) (h'.among u hu)

theorem spread (h : Laid xs ts) (hxs : InOrder xs) (houter : stretch xs = some outer) : Spread outer ts :=
  ⟨fun t ht => hxs.within (h.among t ht) houter, h.ordered⟩

end Laid

/-- The characters of a tree are read as the tree again, places apart, a statement as the only one of a
program. -/
def Tree.Rereads (text : String) (t : Tree) : Prop :=
  if t.isStatement then
    ∃ b, readProgram (t.span.slice text) = .ok b ∧ Tree.unplacedEach b.statements = Tree.unplacedEach [t]
  else ∃ u, readExpression (t.span.slice text) = .ok u ∧ u.unplaced = t.unplaced

/-- The characters of a body are read as its statements again, and these lie in it one after another. -/
structure Body.Placed (text : String) (b : Body) (span : Span) : Prop where
  rereads : ∃ b', readProgram (span.slice text) = .ok b' ∧
    Tree.unplacedEach b'.statements = Tree.unplacedEach b.statements
  spread : Spread span b.statements

/-- The characters of a tree and of all trees and bodies in it are read as these again, and they lie in
one another and one after another. -/
inductive Tree.Placed (text : String) : Tree → Prop
  | intro {t : Tree} (rereads : t.Rereads text) (spread : Spread t.span t.parts)
      (body : ∀ b span, t.body? = some b → b.span = some span → b.Placed text span ∧ span.Within t.span)
      (parts : ∀ u ∈ t.parts, Placed text u) : Placed text t

/-- Trees lie among some terminals one after another, and each is placed. -/
structure Arranged (text : String) (xs : List Terminal) (ts : List Tree) : Prop where
  laid : Laid xs ts
  placed : ∀ t ∈ ts, t.Placed text

namespace Arranged

variable {text : String} {xs ys : List Terminal} {ts us : List Tree}

theorem nil (text : String) (xs : List Terminal) : Arranged text xs [] := ⟨.nil xs, List.forall_mem_nil _⟩

theorem mono (h : Arranged text xs ts) (hxs : ∀ x ∈ xs, x ∈ ys) : Arranged text ys ts :=
  ⟨h.laid.mono hxs, h.placed⟩

theorem append (h : Arranged text xs ts) (h' : Arranged text ys us) (hxs : InOrder (xs ++ ys)) :
    Arranged text (xs ++ ys) (ts ++ us) :=
  ⟨h.laid.append h'.laid hxs, List.forall_mem_append.mpr ⟨h.placed, h'.placed⟩⟩

end Arranged

/-- The trees of a phrase. -/
def Phrase.trees : Phrase → List Tree
  | .body b => b.statements
  | .statement t | .expression t => [t]
  | .statements ts | .items ts | .arguments _ ts => ts
  | .params _ => []

/-- The terminals of a phrase stand in a sentence where such phrases can come. A statement can come where a
body begins. -/
def Phrase.StandsIn {α : Type} (root : α → Phrase) (text : String) (xs : List Terminal) : Phrase → Prop
  | .body _ | .statements _ | .statement _ => Stands root text .body xs
  | .expression _ => Stands root text .expression xs
  | .items _ => Stands root text .items xs
  | .arguments _ _ => Stands root text argumentsRule xs
  | .params _ => True

section Placing

variable {α : Type} {root : α → Phrase} {text : String} {xs ys : List Terminal} {t : Tree} {b : Body}

theorem Derives.ne_nil (h : Derives (.expression t) xs) : xs ≠ [] := by
  obtain ⟨x, ys, rfl, -⟩ := h.begins
  exact List.cons_ne_nil x ys

theorem Derives.span_body (h : Derives (.body b) xs) : b.span = stretch xs := by
  cases h <;> rfl

/-- The stretch of a statement goes from its first terminal to the end of its value. -/
theorem stretch_value {x : Terminal} (xs : List Terminal) (hys : ys ≠ []) :
    stretch (x :: (xs ++ ys)) = some (x.through ys) := by
  rw [stretch, Terminal.through, Terminal.through, List.getLastD_eq_getLast?, List.getLastD_eq_getLast?,
    List.getLast?_append_of_ne_nil xs hys]

/-- An expression whose span is that of all its terminals. -/
theorem Stands.placed_expression (h : Stands root text .expression xs) (ht : Derives (.expression t) xs)
    (hspan : stretch xs = some t.span) (hexpression : t.isStatement = false)
    (hparts : Arranged text xs t.parts)
    (hbody : ∀ b span, t.body? = some b → b.span = some span → b.Placed text span ∧ span.Within t.span) :
    Arranged text xs [t] := by
  refine ⟨.single (among_of_stretch hspan),
    List.forall_mem_singleton.mpr (.intro ?_ (hparts.laid.spread h.inOrder hspan) hbody hparts.placed)⟩
  rw [Tree.Rereads, hexpression, if_neg (by simp)]
  exact h.readExpression_slice ht hspan

/-- A statement that begins with terminals of its own and has one value. -/
theorem Stands.placed_statement (h : Stands root text .body xs) (ht : Derives (.statement t) xs)
    (hspan : stretch xs = some t.span) (hstatement : t.isStatement = true)
    (hparts : Arranged text xs t.parts) : Arranged text xs [t] := by
  refine ⟨.single (among_of_stretch hspan),
    List.forall_mem_singleton.mpr (.intro ?_ (hparts.laid.spread h.inOrder hspan) ?_ hparts.placed)⟩
  · rw [Tree.Rereads, hstatement, if_pos rfl]
    exact h.readProgram_slice ht.only hspan
  · intro b span hb
    cases t with
    | block => cases hstatement
    | _ => cases hb

/-- A body in its text. -/
theorem Stands.placed_body (h : Stands root text .body xs) (hb : Derives (.body b) xs)
    (hlaid : Laid xs b.statements) {span : Span} (hspan : b.span = some span) : b.Placed text span := by
  rw [hb.span_body] at hspan
  exact ⟨h.readProgram_slice hb hspan, hlaid.spread h.inOrder hspan⟩

/-- A block, whose body lies among its terminals. -/
theorem Stands.placed_block {span : Span} {params : List Token} (h : Stands root text .expression xs)
    (ht : Derives (.expression (.block span params b.span b.statements)) xs)
    (hspan : stretch xs = some span) (hinner : Stands root text .body ys) (hb : Derives (.body b) ys)
    (hys : ∀ y ∈ ys, y ∈ xs) (hstatements : Arranged text ys b.statements) :
    Arranged text xs [.block span params b.span b.statements] := by
  refine h.placed_expression ht hspan rfl (hstatements.mono hys) ?_
  rintro _ inner ⟨⟩ hbspan
  refine ⟨hinner.placed_body hb hstatements.laid hbspan, ?_⟩
  rw [hb.span_body] at hbspan
  exact h.inOrder.within ((among_of_stretch hbspan).mono fun _ hy => hys _ hy) hspan

/-- The trees of a phrase in a sentence are placed. By induction on the derivation: the terminals before a
part of a phrase are those before the phrase and some of its own. -/
theorem Derives.arranged {phrase : Phrase} (h : Derives phrase xs) (hstands : phrase.StandsIn root text xs) :
    Arranged text xs phrase.trees := by
  induction h with
  | closed _ ih => exact ih hstands
  | ended hmore _ ih ih' =>
      have hinner := ih (hstands.part (.self _) (by simp))
      have hinner' := ih' (hstands.part (precedes_statements hmore) (by simp))
      exact hinner.append hinner' hstands.inOrder
  | noStatement => exact .nil text []
  | nextStatement hmore _ _ ih ih' =>
      have hinner := ih (hstands.part (.self _) (by simp))
      have hinner' := ih' (hstands.part (precedes_statements hmore) (by simp))
      exact hinner.append (hinner'.mono (by simp +contextual)) hstands.inOrder
  | @define l name op value xs hl hname hop hvalue ih =>
      have hinner := ih (hstands.part (precedes_value [l, name, op]
        fun _ _ ht => ⟨_, .define hl hname hop ht⟩) (by simp))
      exact hstands.placed_statement (.define hl hname hop hvalue)
        (stretch_value [name, op] hvalue.ne_nil) rfl (hinner.mono (by simp +contextual))
  | @defineSlot l slot op value xs hl hslot hop hvalue ih =>
      have hinner := ih (hstands.part (precedes_value [l, slot, op]
        fun _ _ ht => ⟨_, .defineSlot hl hslot hop ht⟩) (by simp))
      exact hstands.placed_statement (.defineSlot hl hslot hop hvalue)
        (stretch_value [slot, op] hvalue.ne_nil) rfl (hinner.mono (by simp +contextual))
  | @assign target op value xs htarget hop hvalue ih =>
      have hinner := ih (hstands.part (precedes_value [target, op]
        fun _ _ ht => ⟨_, .assign htarget hop ht⟩) (by simp))
      exact hstands.placed_statement (.assign htarget hop hvalue)
        (stretch_value [op] hvalue.ne_nil) rfl (hinner.mono (by simp +contextual))
  | @answer r value xs hr hvalue ih =>
      have hinner := ih (hstands.part (precedes_value [r] fun _ _ ht => ⟨_, .answer hr ht⟩) (by simp))
      exact hstands.placed_statement (.answer hr hvalue) (stretch_value [] hvalue.ne_nil) rfl
        (hinner.mono (by simp +contextual))
  | bare _ ih => exact ih (hstands.part (precedes_value [] fun _ _ ht => ⟨_, .bare ht⟩) (by simp))
  | atom hx hkind => exact hstands.placed_expression (.atom hx hkind) rfl rfl (.nil text _) nofun
  | word hx hword => exact hstands.placed_expression (.word hx hword) rfl rfl (.nil text _) nofun
  | paren ho _ _ ih => exact (ih (hstands.part (precedes_paren ho) (by simp))).mono (by simp +contextual)
  | @unary o name c receiver xs ho hreceiver hname hc ih =>
      have hinner := ih (hstands.part (precedes_receiver ho) (by simp))
      exact hstands.placed_expression (.unary ho hreceiver hname hc)
        (by simpa [Tree.span] using stretch_bracketed o c (xs ++ [name])) rfl (hinner.mono (by simp +contextual)) nofun
  | @named o name c receiver keywords args xs ys ho hreceiver hname hargs hc ih ih' =>
      have hinner := ih (hstands.part (precedes_receiver ho) (by simp))
      have hinner' := ih' (hstands.part (precedes_namedArguments ho hreceiver hname) (by simp))
      refine hstands.placed_expression (.named ho hreceiver hname hargs hc)
        (by simpa [Tree.span] using stretch_bracketed o c (xs ++ name :: ys)) rfl (.mono (hinner.append
          (hinner'.mono (by simp +contextual)) hstands.inOrder.tail) (by simp +contextual)) nofun
  | @unnamed o c receiver keywords args xs ys ho hreceiver hargs hc ih ih' =>
      have hinner := ih (hstands.part (precedes_receiver ho) (by simp))
      have hinner' := ih' (hstands.part (precedes_arguments ho hreceiver) (by simp))
      exact hstands.placed_expression (.unnamed ho hreceiver hargs hc)
        (by simpa [Tree.span] using stretch_bracketed o c (xs ++ ys)) rfl (.mono (hinner.append
          (hinner'.mono (by simp +contextual)) hstands.inOrder.tail) (by simp +contextual)) nofun
  | @binary o op c receiver argument xs ys ho hreceiver hop hargument hc ih ih' =>
      have hinner := ih (hstands.part (precedes_receiver ho) (by simp))
      have hinner' := ih' (hstands.part (precedes_operand ho hreceiver hop) (by simp))
      exact hstands.placed_expression (.binary ho hreceiver hop hargument hc)
        (by simpa [Tree.span] using stretch_bracketed o c (xs ++ op :: ys)) rfl (.mono (hinner.append
          (hinner'.mono (by simp +contextual)) hstands.inOrder.tail) (by simp +contextual)) nofun
  | emptyList ho hc => exact hstands.placed_expression (.emptyList ho hc) rfl rfl (.nil text _) nofun
  | list ho hitems hc ih =>
      have hinner := ih (hstands.part (precedes_items ho) (by simp))
      exact hstands.placed_expression (.list ho hitems hc) (stretch_bracketed _ _ _) rfl
        (hinner.mono (by simp +contextual)) nofun
  | @block o c body xs ho hbody hc ih =>
      have hinner : Stands root text .body xs := hstands.part (precedes_block ho) (by simp)
      exact hstands.placed_block (.block ho hbody hc) (stretch_bracketed _ _ _) hinner hbody
        (by simp +contextual) (ih hinner)
  | @paramBlock b b' o c names body xs ys hb hnames hb' ho hbody hc ih ih' =>
      have hinner : Stands root text .body ys :=
        hstands.part (precedes_paramBlock hb hnames hb' ho) (by simp)
      exact hstands.placed_block (.paramBlock hb hnames hb' ho hbody hc)
        (by simpa [Tree.span] using stretch_bracketed b c (xs ++ b' :: o :: ys)) hinner hbody
        (by simp +contextual) (ih' hinner)
  | firstItem _ ih => exact ih (hstands.part precedes_firstItem (by simp))
  | nextItem hitems hc _ ih ih' =>
      have hinner := ih (hstands.part (.self _) (by simp))
      have hinner' := ih' (hstands.part (precedes_nextItem hitems hc) (by simp))
      exact hinner.append (hinner'.mono (by simp +contextual)) hstands.inOrder
  | firstArgument hk hc _ ih =>
      exact (ih (hstands.part (precedes_firstArgument hk hc) (by simp))).mono (by simp +contextual)
  | nextArgument hargs hcomma hk hc _ ih ih' =>
      have hinner := ih (hstands.part (.self _) (by simp))
      have hinner' := ih' (hstands.part (precedes_nextArgument hargs hcomma hk hc) (by simp))
      exact hinner.append (hinner'.mono (by simp +contextual)) hstands.inOrder
  | noParam => exact .nil text []
  | nextParam => exact .nil text _

end Placing

/-- A program that is read from a text lies in it as it was written, and so do all its trees. -/
theorem placed_of_readProgram {text : String} {b : Body} (h : readProgram text = .ok b) :
    (∀ span, b.span = some span → b.Placed text span) ∧ ∀ t ∈ b.statements, t.Placed text := by
  obtain ⟨xs, hderivation⟩ := decides_program.readText_iff.mp h
  have harranged := hderivation.derives.arranged hderivation.stands
  exact ⟨fun _ => hderivation.stands.placed_body hderivation.derives harranged.laid, harranged.placed⟩

end Parley.Grammar
