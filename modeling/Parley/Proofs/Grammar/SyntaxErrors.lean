import Parley.Proofs.Grammar.Exactness
import Parley.Proofs.Grammar.Joining

/-! Texts that are no sentences. A text is read token by token up to a place where no sentence goes on with
what stands there. Up to that place the text is cut into tokens like any other; closing the constructs that
are open makes a sentence of them, and no sentence begins with them and the token after them. -/

namespace Parley.Grammar

/-! Cutting the beginning of a text -/

/-- What a scan finds at a place where neither blanks nor a comment begin. -/
inductive Ahead (p : Point) : List Char → List Token → Option (Char × Point) → Prop
  | nothing : Ahead p [] [] none
  | stray {c : Char} {rest : List Char} : leading c rest = none → Ahead p (c :: rest) [] (some (c, p))
  | token {kind : Kind} {w rest : List Char} : Longest (.token kind) w rest →
      Ahead p (w ++ rest) (⟨kind, String.ofList w, ⟨p, p.after w⟩⟩ :: (scanFrom (p.after w) rest).tokens)
        (scanFrom (p.after w) rest).stray

/-- Some characters begin with some tokens, and after these a scan finds what is left. Whatever is cut where
they end can be cut together with them. -/
def BeginsWith (p : Point) (cs : List Char) (ts more : List Token) (stray : Option (Char × Point)) : Prop :=
  ∃ before rest, cs = before ++ rest ∧ Ahead (p.after before) rest more stray ∧
    ∀ inner us, inner <+: rest → Cut (p.after before) inner us → Cut p (before ++ inner) (ts ++ us)

section Beginnings

variable {p : Point} {cs w rest : List Char} {ts more : List Token} {stray : Option (Char × Point)}

theorem Ahead.beginsWith (h : Ahead p cs more stray) : BeginsWith p cs [] more stray :=
  ⟨[], cs, rfl, h, fun _ _ _ hcut => hcut⟩

/-- A lexeme before the characters, which is cut into some tokens, none or one. -/
theorem BeginsWith.cons (h : BeginsWith (p.after w) rest ts more stray) (us : List Token)
    (hw : ∀ after vs, after <+: rest → Cut (p.after w) after vs → Cut p (w ++ after) (us ++ vs)) :
    BeginsWith p (w ++ rest) (us ++ ts) more stray := by
  obtain ⟨before, rest', rfl, hahead, hcut⟩ := h
  refine ⟨w ++ before, rest', (List.append_assoc _ _ _).symm, ?_, fun inner vs hinner hvs => ?_⟩
  · rwa [Point.after_append]
  · rw [Point.after_append] at hvs
    rw [List.append_assoc, List.append_assoc]
    exact hw _ _ ((List.prefix_append_right_inj before).mpr hinner) (hcut inner vs hinner hvs)

theorem exists_longest_of_leading {c : Char} {l : Lexical} {n : Nat} (h : leading c cs = some (l, n)) :
    ∃ w rest, c :: cs = w ++ rest ∧ Longest l w rest ∧ rest.length < (c :: cs).length := by
  have hn := (spells_of_leading h).2
  refine ⟨c :: cs.take n, cs.drop n, ?_, ?_, ?_⟩
  · rw [List.cons_append, List.take_append_drop]
  · rwa [longest_iff, List.take_append_drop, List.length_take, Nat.min_eq_left hn]
  · rw [List.length_drop, List.length_cons]
    omega

/-- The characters begin with the first tokens of their scan. -/
theorem beginsWith_of_scanFrom (h : (scanFrom p cs).tokens = ts ++ more) :
    BeginsWith p cs ts more (scanFrom p cs).stray := by
  induction hn : cs.length using Nat.strongRecOn generalizing p cs ts with
  | ind n ih =>
      cases cs with
      | nil =>
          rw [scanFrom] at h ⊢
          obtain ⟨rfl, rfl⟩ := List.append_eq_nil_iff.mp h.symm
          exact Ahead.nothing.beginsWith
      | cons c tail =>
          cases hleading : leading c tail with
          | none =>
              rw [scanFrom_cons, hleading] at h ⊢
              obtain ⟨rfl, rfl⟩ := List.append_eq_nil_iff.mp h.symm
              exact (Ahead.stray hleading).beginsWith
          | some r =>
              obtain ⟨l, m⟩ := r
              obtain ⟨w, rest, hsplit, hlongest, hlt⟩ := exists_longest_of_leading hleading
              rw [hn] at hlt
              rw [hsplit] at h ⊢
              cases l with
              | token kind =>
                  rw [scanFrom_token hlongest] at h ⊢
                  cases ts with
                  | nil =>
                      rw [List.nil_append] at h
                      subst h
                      exact (Ahead.token hlongest).beginsWith
                  | cons t ts =>
                      obtain ⟨rfl, hts⟩ := List.cons.inj h
                      exact (ih _ hlt hts rfl).cons [_] fun after vs hafter hvs =>
                        .token (hlongest.shorten hafter) hvs
              | blanks =>
                  rw [scanFrom_skip (.inl rfl) hlongest] at h ⊢
                  exact (ih _ hlt h rfl).cons [] fun after vs hafter hvs =>
                    .skip (.inl rfl) (hlongest.shorten hafter) hvs
              | comment =>
                  rw [scanFrom_skip (.inr rfl) hlongest] at h ⊢
                  exact (ih _ hlt h rfl).cons [] fun after vs hafter hvs =>
                    .skip (.inr rfl) (hlongest.shorten hafter) hvs

end Beginnings

/-! What the reader finds fault with -/

/-- The fault in a text, found by the reader in a state at a place: a token that it refuses, a character
that begins no lexeme, or an end that comes too soon. -/
inductive Faults {α : Type} (finish : State → Option α) (s : State) (last place : Point) :
    List Char → Refusal → Prop
  | unexpected {kind : Kind} {w after : List Char} : Longest (.token kind) w after →
      s.step ⟨kind, String.ofList w, ⟨place, place.after w⟩⟩ = none →
      Faults finish s last place (w ++ after) (.unexpected (String.ofList w) place)
  | stray {c : Char} {after : List Char} : leading c after = none →
      Faults finish s last place (c :: after) (.stray c place)
  | ended : finish s = none → Faults finish s last place [] (.unexpectedEnd last)

/-- The start of the last of some tokens, or of the text. -/
def lastStart (last : Point) (ts : List Token) : Point := (ts.getLast?.map (·.span.start)).getD last

theorem exists_of_readTokens_eq_error {s : State} {last : Point} {tokens : List Token}
    {refused : Refusal} (h : readTokens s last tokens = .error refused) :
    ∃ ts t more s', tokens = ts ++ t :: more ∧ s.feed ts = some s' ∧ s'.step t = none ∧
      refused = refusal s' t more := by
  induction tokens generalizing s last with
  | nil => cases h
  | cons t tokens ih =>
      rw [readTokens] at h
      cases hstep : s.step t with
      | none =>
          rw [hstep] at h
          cases h
          exact ⟨[], t, tokens, s, rfl, rfl, hstep, rfl⟩
      | some s₁ =>
          rw [hstep] at h
          obtain ⟨ts, u, more, s', rfl, hfeed, hu, hrefused⟩ := ih h
          refine ⟨t :: ts, u, more, s', rfl, ?_, hu, hrefused⟩
          rw [State.feed_cons, hstep]
          exact hfeed

theorem feed_of_readTokens {s s' : State} {last last' : Point} {tokens : List Token}
    (h : readTokens s last tokens = .ok (s', last')) :
    s.feed tokens = some s' ∧ last' = lastStart last tokens := by
  induction tokens generalizing s last with
  | nil =>
      cases h
      exact ⟨rfl, rfl⟩
  | cons t tokens ih =>
      rw [readTokens] at h
      cases hstep : s.step t with
      | none =>
          rw [hstep] at h
          cases h
      | some s₁ =>
          rw [hstep] at h
          obtain ⟨hfeed, hlast⟩ := ih h
          refine ⟨by rw [State.feed_cons, hstep]; exact hfeed, hlast.trans ?_⟩
          rw [lastStart, lastStart, List.getLast?_cons]
          cases tokens.getLast? <;> rfl

/-! Where one character of a token is read as a token of its own, the rest of it is refused. -/

section Split

variable {s : State} {p : Point} {cs : List Char} {t : Token}

theorem le_start_of_mem_scanFrom (ht : t ∈ (scanFrom p cs).tokens) : p ≤ t.span.start := by
  fun_induction scanFrom p cs with
  | case1 => cases ht
  | case2 p c rest hspace ih => exact (Point.lt_next p c).le.trans (ih ht)
  | case3 p c rest hspace n hcomment ih => exact (Point.le_after p _).trans (ih ht)
  | case4 => cases ht
  | case5 p c rest hspace hcomment kind n hlexeme text stop more ih =>
      rcases List.mem_cons.mp ht with rfl | ht
      · exact le_rfl
      · exact (Point.le_after p _).trans (ih ht)

/-- A token touches an equals sign exactly if that is the next character. -/
theorem touchesEquals_iff (cs : List Char) (ht : t.span.stop = p) :
    touchesEquals t (scanFrom p cs).tokens = true ↔ cs.head? = some '=' := by
  cases cs with
  | nil => simp [scanFrom, touchesEquals]
  | cons c rest =>
      rw [scanFrom_cons]
      cases hleading : leading c rest with
      | none =>
          have hc : c ≠ '=' := by
            rintro rfl
            by_cases hequals : rest.head? = some '=' <;>
              simp [leading, lexeme, isSpace, isNameStart, hequals] at hleading
          simpa [touchesEquals] using hc
      | some r =>
          obtain ⟨l, n⟩ := r
          have hskipped (hc : c ≠ '=') :
              touchesEquals t (scanFrom (p.after (c :: rest.take n)) (rest.drop n)).tokens = false := by
            cases htokens : (scanFrom (p.after (c :: rest.take n)) (rest.drop n)).tokens with
            | nil => rfl
            | cons u us =>
                have hlt : p < u.span.start := (Point.lt_after (List.cons_ne_nil c _) p).trans_le
                  (le_start_of_mem_scanFrom (by rw [htokens]; exact List.mem_cons_self))
                simp [touchesEquals, ht, hlt.ne']
          have hspells := (spells_of_leading hleading).1
          cases l with
          | token kind => simp [touchesEquals, ht]
          | blanks =>
              have hc : c ≠ '=' := by
                rintro rfl
                simp [Lexical.Spells, isSpace] at hspells
              simp [hskipped hc, hc]
          | comment =>
              have hc : c ≠ '=' := by
                rintro rfl
                obtain ⟨_, heq, -⟩ := hspells
                cases heq
              simp [hskipped hc, hc]

theorem longest_equals (h : cs.head? ≠ some '=') : Longest (.token .equals) ['='] cs := by
  rw [longest_iff]
  simp [leading, lexeme, isSpace, isNameStart, h]

theorem longest_doubleEquals (h : cs.head? = some '=') :
    ∃ rest, cs = '=' :: rest ∧ Longest (.token .operator) ['=', '='] rest := by
  cases cs with
  | nil => cases h
  | cons c rest =>
      obtain rfl := Option.some.inj h
      exact ⟨rest, rfl, by rw [longest_iff]; simp [leading, lexeme, isSpace, isNameStart]⟩

theorem longest_colon : Longest (.token .colon) [':'] [] := by
  rw [longest_iff]
  simp [leading, lexeme, isSpace, isNameStart]

/-- Where only an equals sign may come, it leads to where an expression is expected. -/
theorem exists_step_of_wantsEquals (hs : s.wantsEquals = true) (ht : t.kind = .equals) :
    ∃ s', s.step t = some s' ∧ ∀ u : Token, u.kind = .equals ∨ u.kind = .operator → s'.step u = none := by
  obtain ⟨expect, stack⟩ := s
  cases expect with
  | definition | assignment | lead =>
      simp only [State.step, ht]
      refine ⟨_, rfl, fun u hu => ?_⟩
      rcases hu with hu | hu <;> simp [State.begin, Token.isAtom, hu]
  | _ => cases hs

/-- Where only a colon may come, it leads to where an expression or a parameter is expected. -/
theorem exists_step_of_wantsColon (hs : s.wantsColon = true) (ht : t.kind = .colon) :
    ∃ s', s.step t = some s' ∧ ∀ u : Token, u.kind = .equals ∨ u.kind = .operator → s'.step u = none := by
  obtain ⟨expect, stack⟩ := s
  cases expect with
  | message | colon | paramMark =>
      simp only [State.step, ht]
      refine ⟨_, rfl, fun u hu => ?_⟩
      rcases hu with hu | hu <;> simp [State.begin, Token.isAtom, hu]
  | _ => cases hs

variable {α : Type} {finish : State → Option α}

/-- An equals sign that comes after a character is refused with what touches it. -/
theorem faults_equals (hs : ∀ u : Token, u.kind = .equals ∨ u.kind = .operator → s.step u = none)
    (last p : Point) (cs : List Char) :
    Faults finish s last p ('=' :: cs)
      (.unexpected (if cs.head? = some '=' then "==" else "=") p) := by
  split_ifs with hcs
  · obtain ⟨rest, rfl, hlongest⟩ := longest_doubleEquals hcs
    exact .unexpected hlongest (hs _ (.inr rfl))
  · exact .unexpected (longest_equals hcs) (hs _ (.inl rfl))

/-- The fault with a token that is refused: it is the token, or what comes after its first character, where
that alone is taken. -/
theorem exists_fault_of_step {kind : Kind} {w after : List Char} (hw : Longest (.token kind) w after)
    (hstep : s.step ⟨kind, String.ofList w, ⟨p, p.after w⟩⟩ = none) :
    ∃ inner rest us s', w ++ after = inner ++ rest ∧ Cut p inner us ∧ s.feed us = some s' ∧
      ∀ last, Faults finish s' last (p.after inner) rest
        (refusal s ⟨kind, String.ofList w, ⟨p, p.after w⟩⟩ (scanFrom (p.after w) after).tokens) := by
  have htouches := @touchesEquals_iff _ ⟨kind, String.ofList w, ⟨p, p.after w⟩⟩ after rfl
  simp only [refusal, htouches]
  by_cases hequals : s.wantsEquals = true ∧ String.ofList w = "=="
  · obtain ⟨hwants, htext⟩ := hequals
    obtain rfl : w = ['=', '='] := by simpa using congrArg String.toList htext
    obtain ⟨s', hs', hrefuses⟩ := exists_step_of_wantsEquals hwants
      (t := ⟨.equals, String.ofList ['='], ⟨p, p.after ['=']⟩⟩) rfl
    refine ⟨['='], '=' :: after, [_], s', rfl, .token (longest_equals (by simp)) (.done _), ?_, ?_⟩
    · rw [State.feed_cons, hs']
      rfl
    · intro last
      rw [if_pos (by simp [hwants])]
      exact faults_equals hrefuses last _ after
  by_cases hcolon : s.wantsColon = true ∧ String.ofList w = ":="
  · obtain ⟨hwants, htext⟩ := hcolon
    obtain rfl : w = [':', '='] := by simpa using congrArg String.toList htext
    obtain ⟨s', hs', hrefuses⟩ := exists_step_of_wantsColon hwants
      (t := ⟨.colon, String.ofList [':'], ⟨p, p.after [':']⟩⟩) rfl
    refine ⟨[':'], '=' :: after, [_], s', rfl, .token longest_colon (.done _), ?_, ?_⟩
    · rw [State.feed_cons, hs']
      rfl
    · intro last
      rw [if_pos (by simp [hwants])]
      exact faults_equals hrefuses last _ after
  · rw [if_neg (by simp [hequals, hcolon])]
    exact ⟨[], w ++ after, [], s, rfl, .done p, rfl, fun last => .unexpected hw hstep⟩

end Split

/-- A text that is refused was read up to a fault. -/
theorem exists_fault {α : Type} {start : State} {finish : State → Option α} {text : String}
    {refused : Refusal} (h : readText start finish text = .error refused) :
    ∃ ts before rest s, text.toList = before ++ rest ∧ Cut .first before ts ∧
      start.feed ts = some s ∧
      Faults finish s (lastStart .first ts) (Point.first.after before) rest refused := by
  simp only [readText] at h
  cases hread : readTokens start .first (scan text).tokens with
  | error r =>
      rw [hread] at h
      cases h
      obtain ⟨ts, t, more, s, htokens, hfeed, hstep, rfl⟩ := exists_of_readTokens_eq_error hread
      obtain ⟨before, rest, htext, hahead, hcut⟩ := beginsWith_of_scanFrom htokens
      generalize hstray : (scanFrom Point.first text.toList).stray = stray at hahead
      cases hahead with
      | @token kind w after hlongest =>
          obtain ⟨inner, rest', us, s', hsplit, hus, hfeed', hfault⟩ := exists_fault_of_step hlongest hstep
          refine ⟨ts ++ us, before ++ inner, rest', s', ?_, ?_, ?_, ?_⟩
          · rw [htext, hsplit, List.append_assoc]
          · exact hcut inner us ⟨rest', hsplit.symm⟩ hus
          · rw [State.feed_append, hfeed]
            exact hfeed'
          · rw [Point.after_append]
            exact hfault _
  | ok r =>
      obtain ⟨s, last⟩ := r
      obtain ⟨hfeed, rfl⟩ := feed_of_readTokens hread
      have hall : (scanFrom .first text.toList).tokens = (scanFrom .first text.toList).tokens ++ [] :=
        (List.append_nil _).symm
      obtain ⟨before, rest, htext, hahead, hcut⟩ := beginsWith_of_scanFrom hall
      have hcut₀ := hcut [] [] List.nil_prefix (.done _)
      rw [List.append_nil, List.append_nil] at hcut₀
      refine ⟨_, before, rest, s, htext, hcut₀, hfeed, ?_⟩
      rw [hread] at h
      generalize hstray : (scanFrom Point.first text.toList).stray = stray at hahead
      have hscan : (scan text).stray = stray := hstray
      cases hahead with
      | nothing =>
          simp only [hscan] at h
          split at h
          · cases h
          · next hfinish =>
              cases h
              exact .ended hfinish
      | stray hleading =>
          simp only [hscan] at h
          cases h
          exact .stray hleading

end Parley.Grammar
