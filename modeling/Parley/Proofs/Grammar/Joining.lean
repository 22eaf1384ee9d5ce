import Parley.Proofs.Grammar.Cutting
import Parley.Proofs.Grammar.Feeding

/-! Texts one after another. A line feed ends every lexeme except a string, and a string that has ended
stays as it is, so a text that is scanned to its end keeps its tokens when a line feed and another text
come after it, and the other text has the tokens that it has alone, places apart. The reader does not
look at places, and after a semicolon it stands where a program begins, with some statements done. So
the two texts together are read as the statements of both. -/

namespace Parley.Grammar

/-! Lexemes before a line feed -/

section Lexemes

variable {cs ds : List Char} {n : Nat}

theorem takeWhile_append_lineFeed {p : Char → Bool} (hp : p '\n' = false) (cs ds : List Char) :
    (cs ++ '\n' :: ds).takeWhile p = cs.takeWhile p := by
  induction cs with
  | nil => simp [hp]
  | cons c cs ih =>
      rw [List.cons_append, List.takeWhile_cons, List.takeWhile_cons, ih]

theorem head?_append_lineFeed {c : Char} (hc : c ≠ '\n') (cs ds : List Char) :
    (cs ++ '\n' :: ds).head? = some c ↔ cs.head? = some c := by
  cases cs with
  | nil => simp [Ne.symm hc]
  | cons d cs => simp

theorem stringRest_append {quote : Char} (hquote : quote ≠ '\\') (h : stringRest quote cs = some n)
    (ds : List Char) : stringRest quote (cs ++ ds) = some n := by
  obtain ⟨body, hbody, htake, hle⟩ := exists_of_stringRest h
  have hlength : n = body.length + 1 := by
    have := congrArg List.length htake
    rwa [List.length_take, Nat.min_eq_left hle, List.length_append, List.length_singleton] at this
  have hcs : cs ++ ds = body ++ quote :: (cs.drop n ++ ds) := by
    calc cs ++ ds = cs.take n ++ cs.drop n ++ ds := by rw [List.take_append_drop]
      _ = body ++ quote :: (cs.drop n ++ ds) := by rw [htake]; simp
  rw [hcs, stringRest_of_quotable hquote hbody, hlength]

theorem symbolRest_append_lineFeed (h : symbolRest cs = some n) (ds : List Char) :
    symbolRest (cs ++ '\n' :: ds) = some n := by
  cases cs with
  | nil => cases h
  | cons c cs =>
      rw [symbolRest] at h
      rw [List.cons_append, symbolRest, takeWhile_append_lineFeed (by decide)]
      simp only [head?_append_lineFeed (c := '=') (by decide)]
      exact h

theorem commentRest_append_lineFeed (cs ds : List Char) :
    commentRest (cs ++ '\n' :: ds) = commentRest cs := by
  cases cs with
  | nil => rfl
  | cons c cs =>
      by_cases hc : c = '/'
      · subst hc
        rw [List.cons_append, commentRest, commentRest, takeWhile_append_lineFeed (by simp)]
      · simp [commentRest, hc]

/-- What is a lexeme before the end of a text is one before a line feed. -/
theorem lexeme_append_lineFeed {c : Char} {kind : Kind} (h : lexeme c cs = some (kind, n))
    (ds : List Char) : lexeme c (cs ++ '\n' :: ds) = some (kind, n) := by
  by_cases hdigit : c.isDigit = true
  · rw [lexeme_of_isDigit hdigit] at h ⊢
    rw [takeWhile_append_lineFeed (by decide), h]
  by_cases hname : isNameStart c = true
  · rw [lexeme_of_isNameStart hname] at h ⊢
    rw [takeWhile_append_lineFeed (by decide), h]
  simp only [lexeme, if_neg hdigit, if_neg hname] at h ⊢
  simp only [head?_append_lineFeed (c := '=') (by decide)]
  -- what is left begins with a mark of its own
  split at h
  case h_1 =>
    rw [takeWhile_append_lineFeed (by decide)]
    cases cs with
    | nil => cases h
    | cons d cs => exact h
  case h_2 =>
    obtain ⟨m, hm, heq⟩ := Option.map_eq_some_iff.mp h
    rw [symbolRest_append_lineFeed hm, Option.map_some, heq]
  case h_3 | h_4 =>
    obtain ⟨m, hm, heq⟩ := Option.map_eq_some_iff.mp h
    rw [stringRest_append (by decide) hm, Option.map_some, heq]
  all_goals exact h

end Lexemes

/-! Scans -/

/-- After a lexeme and what is left of a text comes the same as after the whole. -/
theorem after_take_drop (p : Point) (c : Char) (n : Nat) (rest : List Char) :
    (p.after (c :: rest.take n)).after (rest.drop n) = p.after (c :: rest) := by
  rw [← Point.after_append, List.cons_append, List.take_append_drop]

/-- The tokens of a text are kept when a line feed and another text come after it. -/
theorem scanFrom_append_lineFeed {p : Point} {cs : List Char} (h : (scanFrom p cs).stray = none)
    (ds : List Char) :
    scanFrom p (cs ++ '\n' :: ds) =
      ⟨(scanFrom p cs).tokens ++ (scanFrom ((p.after cs).next '\n') ds).tokens,
        (scanFrom ((p.after cs).next '\n') ds).stray⟩ := by
  fun_induction scanFrom p cs with
  | case1 p => rw [List.nil_append, scanFrom, if_pos (by decide)]; rfl
  | case2 p c rest hspace ih =>
      rw [List.cons_append, scanFrom, if_pos hspace, ih h]
      rfl
  | case3 p c rest hspace n hcomment ih =>
      rw [dite_eq_ite] at hcomment
      have hle : n ≤ rest.length := by
        split_ifs at hcomment
        exact (exists_of_commentRest hcomment).2
      rw [List.cons_append, scanFrom, if_neg hspace, commentRest_append_lineFeed, hcomment]
      dsimp only
      rw [List.take_append_of_le_length hle, List.drop_append_of_le_length hle, ih h, after_take_drop]
  | case4 p c rest hspace hcomment hlexeme => cases h
  | case5 p c rest hspace hcomment kind n hlexeme text stop more ih =>
      rw [dite_eq_ite] at hcomment
      have hle : n ≤ rest.length := (Kind.spells_of_lexeme hlexeme).2
      rw [List.cons_append, scanFrom, if_neg hspace, commentRest_append_lineFeed, hcomment]
      dsimp only
      rw [lexeme_append_lineFeed hlexeme]
      dsimp only
      rw [List.take_append_of_le_length hle, List.drop_append_of_le_length hle, ih h, after_take_drop]
      rfl

/-- What a text is cut into does not depend on where it begins, places apart. -/
theorem scanFrom_words (p q : Point) (cs : List Char) :
    (scanFrom p cs).tokens.map Token.word = (scanFrom q cs).tokens.map Token.word ∧
      (scanFrom p cs).stray.isNone = (scanFrom q cs).stray.isNone := by
  fun_induction scanFrom p cs generalizing q with
  | case1 p => rw [scanFrom]; exact ⟨rfl, rfl⟩
  | case2 p c rest hspace ih =>
      rw [scanFrom, if_pos hspace]
      exact ih _
  | case3 p c rest hspace n hcomment ih =>
      rw [dite_eq_ite] at hcomment
      rw [scanFrom, if_neg hspace, hcomment]
      exact ih _
  | case4 p c rest hspace hcomment hlexeme =>
      rw [dite_eq_ite] at hcomment
      rw [scanFrom, if_neg hspace, hcomment]
      dsimp only
      rw [hlexeme]
      exact ⟨rfl, rfl⟩
  | case5 p c rest hspace hcomment kind n hlexeme text stop more ih =>
      rw [dite_eq_ite] at hcomment
      rw [scanFrom, if_neg hspace, hcomment]
      dsimp only
      rw [hlexeme]
      obtain ⟨hwords, hstray⟩ := ih (q.after (c :: rest.take n))
      exact ⟨congrArg (List.cons (kind, String.ofList text)) hwords, hstray⟩

/-! Trees without places -/

/-- The span that stands for all spans. -/
def nowhere : Span := ⟨.first, .first⟩

def Token.unplaced (t : Token) : Token := { t with span := nowhere }

mutual

/-- A tree without its places. It is kept whether a body has statements. -/
def Tree.unplaced : Tree → Tree
  | .atom token => .atom token.unplaced
  | .list _ items => .list nowhere (Tree.unplacedEach items)
  | .unary _ receiver name => .unary nowhere receiver.unplaced name.unplaced
  | .binary _ receiver operator argument =>
    .binary nowhere receiver.unplaced operator.unplaced argument.unplaced
  | .keyword _ receiver name keywords arguments =>
    .keyword nowhere receiver.unplaced (name.map Token.unplaced) (keywords.map Token.unplaced)
      (Tree.unplacedEach arguments)
  | .block _ params bodySpan body =>
    .block nowhere (params.map Token.unplaced) (bodySpan.map fun _ => nowhere) (Tree.unplacedEach body)
  | .define _ name operator value => .define nowhere name.unplaced operator.unplaced value.unplaced
  | .assign _ target operator value => .assign nowhere target.unplaced operator.unplaced value.unplaced
  | .answer _ value => .answer nowhere value.unplaced

def Tree.unplacedEach : List Tree → List Tree
  | [] => []
  | t :: ts => t.unplaced :: Tree.unplacedEach ts

end

theorem Tree.unplacedEach_eq_map (ts : List Tree) : Tree.unplacedEach ts = ts.map Tree.unplaced := by
  induction ts with
  | nil => rfl
  | cons t ts ih => rw [Tree.unplacedEach, ih, List.map_cons]

def Body.unplaced (b : Body) : Body := ⟨b.span.map fun _ => nowhere, Tree.unplacedEach b.statements⟩

/-! States of the reader without places -/

def Part.unplaced (p : Part) : Part := ⟨p.tree.unplaced, nowhere⟩

def Lead.unplaced : Lead → Lead
  | .bare => .bare
  | .define _ name operator => .define .first name.unplaced operator.unplaced
  | .assign _ target operator => .assign .first target.unplaced operator.unplaced
  | .answer _ => .answer .first

def Head.unplaced (h : Head) : Head := ⟨h.opening.unplaced, h.params.map Token.unplaced⟩

def OpenSend.unplaced (send : OpenSend) : OpenSend :=
  ⟨send.opening.unplaced, send.receiver.unplaced, send.name.map Token.unplaced,
    send.keywords.map Token.unplaced, send.arguments.map Part.unplaced⟩

/-- A body without places, which for the program has some statements more at its beginning. -/
def OpenBody.unplaced (earlier : List Part) (b : OpenBody) : OpenBody :=
  ⟨b.head.map Head.unplaced, b.done.map Part.unplaced ++ (if b.head.isNone then earlier else []), .first⟩

def Open.unplaced (earlier : List Part) : Open → Open
  | .paren opening => .paren opening.unplaced
  | .bracket opening => .bracket opening.unplaced
  | .items opening done => .items opening.unplaced (done.map Part.unplaced)
  | .operand opening receiver operator => .operand opening.unplaced receiver.unplaced operator.unplaced
  | .argument send => .argument send.unplaced
  | .statement body lead => .statement (body.unplaced earlier) lead.unplaced

def Expect.unplaced (earlier : List Part) : Expect → Expect
  | .expression => .expression
  | .completed part => .completed part.unplaced
  | .statement body => .statement (body.unplaced earlier)
  | .target body _ => .target (body.unplaced earlier) .first
  | .definition body _ name => .definition (body.unplaced earlier) .first name.unplaced
  | .assignment body _ slot => .assignment (body.unplaced earlier) .first slot.unplaced
  | .lead body token => .lead (body.unplaced earlier) token.unplaced
  | .message opening receiver name => .message opening.unplaced receiver.unplaced name.unplaced
  | .keyword send => .keyword send.unplaced
  | .colon send => .colon send.unplaced
  | .params head => .params head.unplaced
  | .paramMark head => .paramMark head.unplaced
  | .brace head => .brace head.unplaced

def State.unplaced (earlier : List Part) (s : State) : State :=
  ⟨s.expect.unplaced earlier, s.stack.map (Open.unplaced earlier)⟩

section Steps

variable {earlier : List Part}

theorem Lead.finish_unplaced (lead : Lead) (p : Part) :
    lead.unplaced.finish p.unplaced = (lead.finish p).unplaced := by
  cases lead <;> rfl

theorem map_tree_unplaced (ps : List Part) :
    ((ps.map Part.unplaced).map (·.tree)).reverse = Tree.unplacedEach ((ps.map (·.tree)).reverse) := by
  rw [Tree.unplacedEach_eq_map, List.map_reverse, List.map_map, List.map_map]
  rfl

theorem bodyOf_unplaced (done : List Part) (stop : Point) :
    bodyOf (done.map Part.unplaced) .first = (bodyOf done stop).unplaced := by
  simp only [bodyOf, Body.unplaced, map_tree_unplaced, List.getLast?_map, Option.map_map]
  rfl

theorem listOf_unplaced (opening closing : Token) (items : List Part) :
    listOf opening.unplaced closing.unplaced (items.map Part.unplaced) =
      (listOf opening closing items).unplaced := by
  rw [listOf, map_tree_unplaced]
  rfl

theorem OpenSend.finish_unplaced (send : OpenSend) (argument : Part) (closing : Token) :
    send.unplaced.finish argument.unplaced closing.unplaced =
      (send.finish argument closing).unplaced := by
  have harguments := map_tree_unplaced (argument :: send.arguments)
  rw [List.map_cons] at harguments
  simp only [OpenSend.finish, OpenSend.unplaced, harguments, ← List.map_reverse]
  rfl

theorem Head.block_unplaced (head : Head) (body : Body) (closing : Token) :
    head.unplaced.block body.unplaced closing.unplaced = (head.block body closing).unplaced := by
  simp only [Head.block, Head.unplaced, Body.unplaced, ← List.map_reverse]
  rfl

theorem OpenBody.done_unplaced {b : OpenBody} {head : Head} (h : b.head = some head) :
    (b.unplaced earlier).done = b.done.map Part.unplaced := by
  simp [OpenBody.unplaced, h]

theorem OpenBody.close_unplaced {b : OpenBody} {head : Head} (h : b.head = some head) :
    (b.unplaced earlier).close = b.close.unplaced := by
  rw [OpenBody.close, OpenBody.done_unplaced h]
  exact bodyOf_unplaced b.done b.stop

theorem OpenBody.closeWith_unplaced {b : OpenBody} {head : Head} (h : b.head = some head) (p : Part) :
    (b.unplaced earlier).closeWith p.unplaced = (b.closeWith p).unplaced := by
  rw [OpenBody.closeWith, OpenBody.done_unplaced h]
  exact bodyOf_unplaced (p :: b.done) p.outer.stop

namespace State

theorem afterStatement_unplaced (body : OpenBody) (p : Part) (stack : List Open) (t : Token) :
    afterStatement (body.unplaced earlier) p.unplaced (stack.map (Open.unplaced earlier)) t.unplaced =
      (afterStatement body p stack t).map (State.unplaced earlier) := by
  obtain ⟨kind, text, span⟩ := t
  cases kind with
  | closeBrace =>
      cases hhead : body.head with
      | none => simp [afterStatement, Token.unplaced, OpenBody.unplaced, hhead]
      | some head =>
          have hunplaced : (body.unplaced earlier).head = some head.unplaced := by
            rw [OpenBody.unplaced, hhead]
            rfl
          simp only [afterStatement, Token.unplaced, hhead, hunplaced, Option.map_some,
            OpenBody.closeWith_unplaced hhead]
          exact congrArg (fun p => some (State.mk (.completed p) _)) (head.block_unplaced _ _)
  | _ => rfl

theorem begin_unplaced (stack : List Open) (t : Token) :
    begin (stack.map (Open.unplaced earlier)) t.unplaced =
      (begin stack t).map (State.unplaced earlier) := by
  obtain ⟨kind, text, span⟩ := t
  cases kind <;> rfl

theorem follow_unplaced (p : Part) (stack : List Open) (t : Token) :
    follow p.unplaced (stack.map (Open.unplaced earlier)) t.unplaced =
      (follow p stack t).map (State.unplaced earlier) := by
  cases stack with
  | nil => rfl
  | cons opening stack =>
      cases opening with
      | statement body lead =>
          rw [List.map_cons, Open.unplaced, follow, Lead.finish_unplaced, afterStatement_unplaced]
          rfl
      | argument send =>
          obtain ⟨kind, text, span⟩ := t
          cases kind with
          | closeBracket =>
              exact congrArg (fun p => some (State.mk (.completed p) _)) (send.finish_unplaced p _)
          | _ => rfl
      | items opening done =>
          obtain ⟨kind, text, span⟩ := t
          cases kind with
          | closeBracket =>
              exact congrArg (fun p => some (State.mk (.completed p) _)) (listOf_unplaced _ _ (p :: done))
          | _ => rfl
      | _ =>
          obtain ⟨kind, text, span⟩ := t
          cases kind <;> rfl

theorem beginStatement_unplaced (body : OpenBody) (stack : List Open) (t : Token) :
    beginStatement (body.unplaced earlier) (stack.map (Open.unplaced earlier)) t.unplaced =
      (beginStatement body stack t).map (State.unplaced earlier) := by
  obtain ⟨kind, text, span⟩ := t
  cases kind with
  | closeBrace =>
      cases hhead : body.head with
      | none => simp [beginStatement, Token.unplaced, OpenBody.unplaced, hhead]
      | some head =>
          have hunplaced : (body.unplaced earlier).head = some head.unplaced := by
            rw [OpenBody.unplaced, hhead]
            rfl
          simp only [beginStatement, Token.unplaced, hhead, hunplaced, Option.map_some,
            OpenBody.close_unplaced hhead]
          exact congrArg (fun p => some (State.mk (.completed p) _)) (head.block_unplaced _ _)
  | name =>
      simp only [beginStatement, Token.unplaced, apply_ite (Option.map (State.unplaced earlier))]
      rfl
  | slot => rfl
  | _ => rfl

theorem step_unplaced (s : State) (t : Token) :
    (s.unplaced earlier).step t.unplaced = (s.step t).map (State.unplaced earlier) := by
  obtain ⟨expect, stack⟩ := s
  cases expect with
  | expression =>
      cases stack with
      | nil => exact begin_unplaced [] t
      | cons opening stack =>
          cases opening with
          | bracket opening =>
              obtain ⟨kind, text, span⟩ := t
              cases kind with
              | closeBracket => rfl
              | _ => exact begin_unplaced (.bracket opening :: stack) _
          | _ => exact begin_unplaced (_ :: stack) t
  | completed p => exact follow_unplaced p stack t
  | statement body => exact beginStatement_unplaced body stack t
  | lead body token =>
      have hafter := @afterStatement_unplaced earlier body token.part stack t
      obtain ⟨kind, text, span⟩ := t
      cases kind with
      | equals => rfl
      | _ => exact hafter
  | _ =>
      obtain ⟨kind, text, span⟩ := t
      cases kind <;> rfl

theorem feed_unplaced (s : State) (tokens : List Token) :
    (s.unplaced earlier).feed (tokens.map Token.unplaced) =
      (s.feed tokens).map (State.unplaced earlier) := by
  induction tokens generalizing s with
  | nil => rfl
  | cons t tokens ih =>
      rw [List.map_cons, feed_cons, feed_cons, step_unplaced]
      cases s.step t with
      | none => rfl
      | some s' => exact ih s'

/-- The statements of a program that has earlier ones before its own. -/
theorem statements_unplaced (done : List Part) (stop stop' : Point) :
    (bodyOf (done.map Part.unplaced ++ earlier) stop').statements =
      (earlier.map (·.tree)).reverse ++ Tree.unplacedEach (bodyOf done stop).statements := by
  rw [bodyOf, List.map_append, List.reverse_append, map_tree_unplaced]
  rfl

theorem program?_unplaced (s : State) :
    (s.unplaced earlier).program?.map Body.statements =
      s.program?.map fun b => (earlier.map (·.tree)).reverse ++ Tree.unplacedEach b.statements := by
  obtain ⟨expect, stack⟩ := s
  cases expect with
  | statement body =>
      cases stack with
      | cons => rfl
      | nil =>
          obtain ⟨head, done, stop⟩ := body
          cases head with
          | some head => rfl
          | none => exact congrArg some (statements_unplaced done stop _)
  | lead body token =>
      cases stack with
      | cons => rfl
      | nil =>
          obtain ⟨head, done, stop⟩ := body
          cases head with
          | some head => rfl
          | none => exact congrArg some (statements_unplaced (token.part :: done) _ _)
  | completed p =>
      match stack with
      | [] => rfl
      | [.statement body lead] =>
          obtain ⟨head, done, stop⟩ := body
          cases head with
          | some head => rfl
          | none =>
              refine Eq.trans ?_ (congrArg some (statements_unplaced (lead.finish p :: done) stop .first))
              rw [List.map_cons, ← Lead.finish_unplaced]
              rfl
      | [.paren ..] | [.bracket ..] | [.items ..] | [.operand ..] | [.argument ..] => rfl
      | opening :: _ :: _ => cases opening <;> rfl
  | _ => rfl

/-- After a semicolon comes a statement. -/
theorem exists_statement_of_step {s s' : State} {t : Token} (ht : t.kind = .semicolon)
    (h : s.step t = some s') : ∃ body, s'.expect = .statement body := by
  have hafter {body : OpenBody} {p : Part} {stack : List Open} {s' : State}
      (h : afterStatement body p stack t = some s') : ∃ body, s'.expect = .statement body := by
    rw [afterStatement, ht] at h
    exact ⟨_, congrArg State.expect (Option.some.inj h).symm⟩
  have hbegin (stack : List Open) : begin stack t = none := by simp [begin, Token.isAtom, ht]
  obtain ⟨expect, stack⟩ := s
  cases expect with
  | lead body token =>
      simp only [step, ht] at h
      exact hafter h
  | completed p =>
      simp only [step, follow, ht] at h
      split at h
      case h_7 => exact hafter h
      all_goals cases h
  | expression =>
      simp only [step, ht, hbegin] at h
      cases h
  | statement body =>
      simp only [step, beginStatement, ht, hbegin] at h
      cases h
  | _ =>
      simp only [step, ht] at h
      cases h

/-- A program that ends with a semicolon, or without a token, ends where a statement may come. -/
theorem exists_statement_of_feed {tokens : List Token} {s : State}
    (hlast : ∀ t ∈ tokens.getLast?, t.kind = .semicolon) (h : programStart.feed tokens = some s) :
    ∃ body, s.expect = .statement body := by
  rcases tokens.eq_nil_or_concat with rfl | ⟨init, t, rfl⟩
  · cases h
    exact ⟨_, rfl⟩
  · rw [List.concat_eq_append, feed_append] at h
    obtain ⟨s₀, -, hfeed⟩ := Option.bind_eq_some_iff.mp h
    rw [feed_cons] at hfeed
    obtain ⟨s₁, hstep, hnil⟩ := Option.bind_eq_some_iff.mp hfeed
    cases hnil
    exact exists_statement_of_step (hlast t (by simp)) hstep

/-- Where a statement may come in a program that has begun, the reader is as at its beginning, with
earlier statements. -/
theorem unplaced_of_program? {s : State} {body : OpenBody} {b : Body} (hs : s.expect = .statement body)
    (h : s.program? = some b) :
    ∃ earlier : List Part, s.unplaced [] = programStart.unplaced earlier ∧
      (earlier.map (·.tree)).reverse = Tree.unplacedEach b.statements := by
  obtain ⟨expect, stack⟩ := s
  obtain rfl : expect = .statement body := hs
  obtain ⟨head, done, stop⟩ := body
  match head, stack with
  | none, [] =>
      cases h
      refine ⟨done.map Part.unplaced, ?_, map_tree_unplaced done⟩
      simp [State.unplaced, Expect.unplaced, OpenBody.unplaced, programStart, OpenBody.start]
  | some head, [] => cases h
  | none, _ :: _ | some head, _ :: _ => cases h

end State

end Steps

/-! Texts -/

theorem map_unplaced_of_word {ts us : List Token} (h : ts.map Token.word = us.map Token.word) :
    ts.map Token.unplaced = us.map Token.unplaced := by
  have hword : Token.unplaced = (fun w : Word => (⟨w.1, w.2, nowhere⟩ : Token)) ∘ Token.word := rfl
  rw [hword, ← List.map_map, h, List.map_map]

/-- A program that ends with a semicolon, or has no token, may be followed by another on a new line, and
together they have the statements of both. -/
theorem exists_of_readProgram_append {a b : String} {p q : Body} (ha : readProgram a = .ok p)
    (hb : readProgram b = .ok q) (hlast : ∀ t ∈ (scan a).tokens.getLast?, t.kind = .semicolon) :
    ∃ r, readProgram (a ++ "\n" ++ b) = .ok r ∧
      Tree.unplacedEach r.statements =
        Tree.unplacedEach p.statements ++ Tree.unplacedEach q.statements := by
  obtain ⟨s, hfeed, hp⟩ := feed_of_readText ha
  obtain ⟨s', hfeed', hq⟩ := feed_of_readText hb
  -- the tokens of the joined text are those of both, places apart
  have hscan : scan (a ++ "\n" ++ b) =
      ⟨(scan a).tokens ++ (scanFrom ((Point.first.after a.toList).next '\n') b.toList).tokens,
        (scanFrom ((Point.first.after a.toList).next '\n') b.toList).stray⟩ := by
    have htext : (a ++ "\n" ++ b).toList = a.toList ++ '\n' :: b.toList := by simp
    rw [scan, htext]
    exact scanFrom_append_lineFeed (stray_of_readText ha) _
  obtain ⟨hwords, hstray⟩ :=
    scanFrom_words ((Point.first.after a.toList).next '\n') .first b.toList
  have hnone : (scan (a ++ "\n" ++ b)).stray = none := by
    rw [← Option.isNone_iff_eq_none, hscan, hstray]
    exact Option.isNone_iff_eq_none.mpr (stray_of_readText hb)
  -- the second text goes on from where the first one ends as from the beginning
  obtain ⟨body, hbody⟩ := State.exists_statement_of_feed hlast hfeed
  obtain ⟨earlier, hstart, htrees⟩ := State.unplaced_of_program? hbody hp
  have hmore : (s.feed (scanFrom ((Point.first.after a.toList).next '\n') b.toList).tokens).map
      (State.unplaced []) = some (s'.unplaced earlier) := by
    rw [← State.feed_unplaced, hstart, map_unplaced_of_word hwords, State.feed_unplaced]
    exact congrArg (Option.map (State.unplaced earlier)) hfeed'
  obtain ⟨s₁, hfeed₁, hs₁⟩ := Option.map_eq_some_iff.mp hmore
  have hprogram := @State.program?_unplaced [] s₁
  rw [hs₁, State.program?_unplaced, hq] at hprogram
  obtain ⟨r, hr, hstatements⟩ := Option.map_eq_some_iff.mp hprogram.symm
  refine ⟨r, readText_of_feed hnone ?_ hr, ?_⟩
  · rw [hscan, State.feed_append, hfeed]
    exact hfeed₁
  · rw [← htrees]
    exact hstatements

end Parley.Grammar
