import Parley.Proofs.Grammar.Scanning
import Parley.Proofs.Source

/-! Cutting a text at the longest lexeme. `Lexical.Spells` says which texts belong to each class of lexemes,
blanks and comments among them; `Cut` says of a text and some tokens that at each place the longest lexeme
that begins there was cut off. A text is scanned to its end exactly when it can be cut, and the scan gives
the tokens of the cut. -/

namespace Parley

namespace Grammar

/-- What may stand between the quotes of a string: a backslash with any character but a line feed after
it, and characters other than the backslash and the quote. -/
inductive Quotable (quote : Char) : List Char → Prop
  | nil : Quotable quote []
  | escape {c : Char} {cs : List Char} :
      c ≠ '\n' → Quotable quote cs → Quotable quote ('\\' :: c :: cs)
  | plain {c : Char} {cs : List Char} :
      c ≠ quote → c ≠ '\\' → Quotable quote cs → Quotable quote (c :: cs)

/-- The texts of a class of tokens. -/
def Kind.Spells : Kind → List Char → Prop
  | .integer, w => w ≠ [] ∧ w.all Char.isDigit = true
  | .string, w => ∃ quote body, (quote = '"' ∨ quote = '\'') ∧ Quotable quote body ∧
      w = quote :: (body ++ [quote])
  | .colon, w => w = [':']
  | .comma, w => w = [',']
  | .semicolon, w => w = [';']
  | .openParen, w => w = ['(']
  | .closeParen, w => w = [')']
  | .openBracket, w => w = ['[']
  | .closeBracket, w => w = [']']
  | .openBrace, w => w = ['{']
  | .closeBrace, w => w = ['}']
  | .bar, w => w = ['|']
  | kind, w => spells kind w = true

/-- What a text consists of. -/
inductive Lexical where
  | token (kind : Kind)
  | blanks
  | comment
  deriving DecidableEq

/-- The texts of a class of lexemes. A comment goes up to the end of its line. -/
def Lexical.Spells : Lexical → List Char → Prop
  | .token kind, w => kind.Spells w
  | .blanks, w => w ≠ [] ∧ w.all isSpace = true
  | .comment, w => ∃ cs, w = '/' :: '/' :: cs ∧ '\n' ∉ cs

/-- The text is a lexeme, and what comes after it does not go on with it or with another lexeme that
begins at the same place. -/
structure Longest (l : Lexical) (w rest : List Char) : Prop where
  spelled : l.Spells w
  le : ∀ (l' : Lexical) (w' : List Char), l'.Spells w' → w' <+: w ++ rest → w'.length ≤ w.length

theorem Longest.shorten {l : Lexical} {w rest rest' : List Char} (h : Longest l w rest)
    (hrest : rest' <+: rest) : Longest l w rest' where
  spelled := h.spelled
  le l' w' hspells hw :=
    h.le l' w' hspells (hw.trans ((List.prefix_append_right_inj w).mpr hrest))

/-- The characters that begin at a place are cut into tokens. -/
inductive Cut : Point → List Char → List Token → Prop
  | done (p : Point) : Cut p [] []
  | skip {p : Point} {l : Lexical} {w rest : List Char} {ts : List Token} :
      l = .blanks ∨ l = .comment → Longest l w rest → Cut (p.after w) rest ts → Cut p (w ++ rest) ts
  | token {p : Point} {kind : Kind} {w rest : List Char} {ts : List Token} :
      Longest (.token kind) w rest → Cut (p.after w) rest ts →
      Cut p (w ++ rest) (⟨kind, String.ofList w, ⟨p, p.after w⟩⟩ :: ts)

/-- The class of the lexeme that begins with `c` before `rest`, and how many characters of `rest` belong
to it. -/
def leading (c : Char) (rest : List Char) : Option (Lexical × Nat) :=
  if isSpace c then some (.blanks, (rest.takeWhile isSpace).length)
  else match if c = '/' then commentRest rest else none with
    | some n => some (.comment, n)
    | none => (lexeme c rest).map fun r => (.token r.1, r.2)

/-! What is cut off is a lexeme -/

theorem exists_of_stringRest {quote : Char} {cs : List Char} {n : Nat}
    (h : stringRest quote cs = some n) :
    ∃ body, Quotable quote body ∧ cs.take n = body ++ [quote] ∧ n ≤ cs.length := by
  fun_induction stringRest quote cs generalizing n with
  | case1 => cases h
  | case2 cs => cases h
  | case3 c cs hc ih =>
      obtain ⟨m, hm, rfl⟩ := Option.map_eq_some_iff.mp h
      obtain ⟨body, hbody, htake, hle⟩ := ih hm
      exact ⟨'\\' :: c :: body, .escape hc hbody, by simp [htake], by simpa using hle⟩
  | case4 cs hne =>
      obtain rfl := Option.some.inj h
      exact ⟨[], .nil, by simp, by simp⟩
  | case5 => cases h
  | case6 c cs hne hquote hc ih =>
      obtain ⟨m, hm, rfl⟩ := Option.map_eq_some_iff.mp h
      obtain ⟨body, hbody, htake, hle⟩ := ih hm
      exact ⟨c :: body, .plain hquote hc hbody, by simp [htake], by simpa using hle⟩

theorem one_le_of_head? {cs : List Char} {c : Char} (h : cs.head? = some c) : 1 ≤ cs.length := by
  cases cs with
  | nil => cases h
  | cons d cs => simp

theorem symbolRest_le {cs : List Char} {n : Nat} (h : symbolRest cs = some n) : n ≤ cs.length := by
  cases cs with
  | nil => cases h
  | cons c cs =>
      have hlength : (cs.takeWhile isSymbolRest).length ≤ cs.length :=
        (List.takeWhile_sublist _).length_le
      rw [symbolRest] at h
      rw [List.length_cons]
      split_ifs at h with hname htwo hone
      · obtain rfl := Option.some.inj h
        omega
      · obtain rfl := Option.some.inj h
        simp only [Bool.and_eq_true, decide_eq_true_eq] at htwo
        have hone := one_le_of_head? htwo.2
        omega
      · obtain rfl := Option.some.inj h
        omega

theorem Kind.spells_of_lexeme {c : Char} {rest : List Char} {kind : Kind} {n : Nat}
    (h : lexeme c rest = some (kind, n)) : kind.Spells (c :: rest.take n) ∧ n ≤ rest.length := by
  have hspells := Grammar.spells_of_lexeme h
  by_cases hdigit : c.isDigit = true
  · rw [lexeme_of_isDigit hdigit] at h
    cases h
    exact ⟨⟨List.cons_ne_nil _ _, hspells⟩, (List.takeWhile_sublist _).length_le⟩
  by_cases hname : isNameStart c = true
  · rw [lexeme_of_isNameStart hname] at h
    cases h
    exact ⟨hspells, (List.takeWhile_sublist _).length_le⟩
  simp only [lexeme, if_neg hdigit, if_neg hname] at h
  -- what is left begins with a mark of its own
  split at h
  case h_1 =>
    split_ifs at h
    cases h
    exact ⟨hspells, (List.takeWhile_sublist _).length_le⟩
  case h_2 =>
    obtain ⟨m, hm, heq⟩ := Option.map_eq_some_iff.mp h
    cases heq
    exact ⟨hspells, symbolRest_le hm⟩
  case h_3 =>
    obtain ⟨m, hm, heq⟩ := Option.map_eq_some_iff.mp h
    cases heq
    obtain ⟨body, hbody, htake, hle⟩ := exists_of_stringRest hm
    exact ⟨⟨'"', body, .inl rfl, hbody, by rw [htake]⟩, hle⟩
  case h_4 =>
    obtain ⟨m, hm, heq⟩ := Option.map_eq_some_iff.mp h
    cases heq
    obtain ⟨body, hbody, htake, hle⟩ := exists_of_stringRest hm
    exact ⟨⟨'\'', body, .inr rfl, hbody, by rw [htake]⟩, hle⟩
  case h_5 | h_8 | h_9 =>
    split_ifs at h with hequals <;> cases h
    · exact ⟨hspells, one_le_of_head? hequals⟩
    · exact ⟨hspells, Nat.zero_le _⟩
  case h_6 =>
    split_ifs at h with hequals <;> cases h
    · exact ⟨hspells, one_le_of_head? hequals⟩
    · exact ⟨rfl, Nat.zero_le _⟩
  case h_7 =>
    split_ifs at h with hequals
    cases h
    exact ⟨hspells, one_le_of_head? hequals⟩
  case h_10 | h_11 | h_12 | h_13 | h_14 =>
    cases h
    exact ⟨hspells, Nat.zero_le _⟩
  case h_24 => cases h
  all_goals
    cases h
    exact ⟨rfl, Nat.zero_le _⟩

theorem exists_of_commentRest {cs : List Char} {n : Nat} (h : commentRest cs = some n) :
    Lexical.comment.Spells ('/' :: cs.take n) ∧ n ≤ cs.length := by
  unfold commentRest at h
  split at h
  · next cs =>
      obtain rfl := Option.some.inj h
      have hlength : (cs.takeWhile (· ≠ '\n')).length ≤ cs.length :=
        (List.takeWhile_sublist _).length_le
      refine ⟨⟨cs.takeWhile (· ≠ '\n'), ?_, ?_⟩, ?_⟩
      · rw [Nat.add_comm, List.take_succ_cons, take_length_takeWhile]
      · intro hmem
        simpa using List.all_eq_true.mp List.all_takeWhile '\n' hmem
      · rw [List.length_cons]
        omega
  · cases h

/-- What is cut off is a lexeme. -/
theorem spells_of_leading {c : Char} {rest : List Char} {l : Lexical} {n : Nat}
    (h : leading c rest = some (l, n)) : l.Spells (c :: rest.take n) ∧ n ≤ rest.length := by
  unfold leading at h
  split_ifs at h with hspace hslash
  · cases h
    rw [take_length_takeWhile]
    refine ⟨⟨List.cons_ne_nil _ _, ?_⟩, (List.takeWhile_sublist _).length_le⟩
    rw [List.all_cons, hspace, Bool.true_and]
    exact List.all_takeWhile
  · subst hslash
    split at h
    · next m hm =>
        cases h
        exact exists_of_commentRest hm
    · obtain ⟨⟨kind, m⟩, hm, heq⟩ := Option.map_eq_some_iff.mp h
      cases heq
      exact Kind.spells_of_lexeme hm
  · obtain ⟨⟨kind, m⟩, hm, heq⟩ := Option.map_eq_some_iff.mp h
    cases heq
    exact Kind.spells_of_lexeme hm

/-! The longest lexeme is cut off -/

/-- Whatever comes after the characters, what is cut off is at least as long as they are, and of the class
`l` if it is no longer. -/
def Leads (l : Lexical) (c : Char) (w : List Char) : Prop :=
  ∀ rest, ∃ l' n, leading c (w ++ rest) = some (l', n) ∧ w.length ≤ n ∧ (n = w.length → l' = l)

theorem length_le_takeWhile_append {p : Char → Bool} {w : List Char} (hw : w.all p = true)
    (rest : List Char) : w.length ≤ ((w ++ rest).takeWhile p).length := by
  rw [List.takeWhile_append_of_pos (List.all_eq_true.mp hw), List.length_append]
  exact Nat.le_add_right _ _

theorem leading_eq_lexeme {c : Char} (hspace : isSpace c = false) (hslash : c ≠ '/')
    (rest : List Char) :
    leading c rest = (lexeme c rest).map fun r => (.token r.1, r.2) := by
  simp only [leading, hspace, if_neg hslash, Bool.false_eq_true, if_false]

theorem leads_takeWhile {kind : Kind} {p : Char → Bool} {c : Char} {w : List Char}
    (hspace : isSpace c = false) (hslash : c ≠ '/') (hw : w.all p = true)
    (h : ∀ rest, lexeme c (w ++ rest) = some (kind, ((w ++ rest).takeWhile p).length)) :
    Leads (.token kind) c w := by
  intro rest
  refine ⟨.token kind, ((w ++ rest).takeWhile p).length, ?_, length_le_takeWhile_append hw rest,
    fun _ => rfl⟩
  rw [leading_eq_lexeme hspace hslash, h]
  rfl

theorem stringRest_of_quotable {quote : Char} (hquote : quote ≠ '\\') {body : List Char}
    (h : Quotable quote body) (rest : List Char) :
    stringRest quote (body ++ quote :: rest) = some (body.length + 1) := by
  induction h with
  | nil => simp [stringRest, hquote]
  | escape hc _ ih => simp [stringRest, hc, ih]
  | plain hc hslash _ ih => simp [stringRest, hc, hslash, ih]

theorem le_symbolRest {name : List Char} (h : isSymbolName name = true) (rest : List Char) :
    ∃ n, symbolRest (name ++ rest) = some n ∧ name.length ≤ n := by
  cases name with
  | nil => cases h
  | cons c cs =>
      rw [isSymbolName, Bool.or_eq_true, Bool.and_eq_true] at h
      rcases h with ⟨hstart, hcs⟩ | hoperator
      · rw [List.cons_append, symbolRest, if_pos hstart]
        have hle := length_le_takeWhile_append hcs rest
        exact ⟨_, rfl, by rw [List.length_cons]; omega⟩
      · have hcases := operator_cases hoperator
        simp only [List.mem_cons, List.cons.injEq, List.not_mem_nil, or_false] at hcases
        rcases hcases with ⟨rfl, rfl⟩ | ⟨rfl, rfl⟩ | ⟨rfl, rfl⟩ | ⟨rfl, rfl⟩ | ⟨rfl, rfl⟩ |
          ⟨rfl, rfl⟩ | ⟨rfl, rfl⟩ | ⟨rfl, rfl⟩ | ⟨rfl, rfl⟩ | ⟨rfl, rfl⟩ | ⟨rfl, rfl⟩ <;>
          by_cases hequals : rest.head? = some '=' <;> simp [symbolRest, isNameStart, hequals]

theorem leads_operator {c : Char} {w : List Char}
    (h : Selector.operators.contains (String.ofList (c :: w)) = true) :
    Leads (.token .operator) c w := by
  intro rest
  have hcases := operator_cases h
  simp only [List.mem_cons, List.cons.injEq, List.not_mem_nil, or_false] at hcases
  rcases hcases with ⟨rfl, rfl⟩ | ⟨rfl, rfl⟩ | ⟨rfl, rfl⟩ | ⟨rfl, rfl⟩ | ⟨rfl, rfl⟩ |
    ⟨rfl, rfl⟩ | ⟨rfl, rfl⟩ | ⟨rfl, rfl⟩ | ⟨rfl, rfl⟩ | ⟨rfl, rfl⟩ | ⟨rfl, rfl⟩
  case inr.inr.inr.inl =>
    -- a slash before another one begins a comment, which is longer
    cases hcomment : commentRest rest with
    | none =>
        refine ⟨.token .operator, 0, ?_, Nat.le_refl _, fun _ => rfl⟩
        simp [leading, hcomment, isSpace, lexeme, isNameStart]
    | some n =>
        refine ⟨.comment, n, by simp [leading, hcomment, isSpace], Nat.zero_le n, ?_⟩
        rintro rfl
        unfold commentRest at hcomment
        split at hcomment <;> simp at hcomment
  all_goals
    by_cases hequals : rest.head? = some '=' <;>
      simp [leading, lexeme, isSpace, isNameStart, hequals]

theorem leads_kind {kind : Kind} {c : Char} {w : List Char} (h : kind.Spells (c :: w)) :
    Leads (.token kind) c w := by
  cases kind with
  | integer =>
      have hall : c.isDigit = true ∧ w.all Char.isDigit = true := by simpa using h.2
      refine leads_takeWhile ?_ ?_ hall.2 fun rest => lexeme_of_isDigit hall.1 _
      · exact isSpace_eq_false_of_isNameRest (by simp [isNameRest, Char.isAlphanum, hall.1])
      · rintro rfl
        simp at hall
  | name =>
      have hname : isNameStart c = true ∧ w.all isNameRest = true := by
        simpa only [Kind.Spells, spells, isName, Bool.and_eq_true] using h
      refine leads_takeWhile ?_ ?_ hname.2 fun rest => lexeme_of_isNameStart hname.1 _
      · exact isSpace_eq_false_of_isNameRest (isNameRest_of_isNameStart hname.1)
      · rintro rfl
        simp [isNameStart] at hname
  | slot =>
      obtain ⟨hc, hname⟩ : c = '@' ∧ isName w = true := by
        simpa [Kind.Spells, spells] using h
      subst hc
      cases w with
      | nil => cases hname
      | cons d w =>
          rw [isName, Bool.and_eq_true] at hname
          have hall : (d :: w).all isNameRest = true := by
            rw [List.all_cons, isNameRest_of_isNameStart hname.1, hname.2, Bool.true_and]
          refine leads_takeWhile rfl (by decide) hall ?_
          intro rest
          have hmark : ¬ '@'.isDigit = true ∧ ¬ isNameStart '@' = true := by decide
          simp only [lexeme, if_neg hmark.1, if_neg hmark.2, List.cons_append, List.head?_cons,
            Option.map_some, Option.getD_some, hname.1, if_true]
  | symbol =>
      obtain ⟨hc, hname⟩ : c = '#' ∧ isSymbolName w = true := by
        simpa [Kind.Spells, spells] using h
      subst hc
      intro rest
      obtain ⟨n, hn, hle⟩ := le_symbolRest hname rest
      refine ⟨.token .symbol, n, ?_, hle, fun _ => rfl⟩
      rw [leading_eq_lexeme rfl (by decide)]
      simp [lexeme, isNameStart, hn]
  | string =>
      obtain ⟨quote, body, hquote, hbody, heq⟩ := h
      obtain ⟨rfl, rfl⟩ := List.cons.inj heq
      intro rest
      rcases hquote with rfl | rfl
      · refine ⟨.token .string, _, ?_, Nat.le_refl _, fun _ => rfl⟩
        rw [leading_eq_lexeme rfl (by decide)]
        simp [lexeme, isNameStart, stringRest_of_quotable _ hbody]
      · refine ⟨.token .string, _, ?_, Nat.le_refl _, fun _ => rfl⟩
        rw [leading_eq_lexeme rfl (by decide)]
        simp [lexeme, isNameStart, stringRest_of_quotable _ hbody]
  | operator => exact leads_operator h
  | equals | walrus | colon =>
      intro rest
      simp only [Kind.Spells, spells, beq_iff_eq, List.cons.injEq] at h
      obtain ⟨rfl, rfl⟩ := h
      by_cases hequals : rest.head? = some '=' <;>
        simp [leading, lexeme, isSpace, isNameStart, hequals]
  | _ =>
      intro rest
      obtain ⟨rfl, rfl⟩ := List.cons.inj h
      exact ⟨_, 0, rfl, Nat.le_refl _, fun _ => rfl⟩

theorem leads_comment {cs : List Char} (h : '\n' ∉ cs) : Leads .comment '/' ('/' :: cs) := by
  intro rest
  have hall : cs.all (· ≠ '\n') = true := by
    rw [List.all_eq_true]
    intro c hc
    have hne : c ≠ '\n' := fun heq => h (heq ▸ hc)
    simpa using hne
  have hle := length_le_takeWhile_append hall rest
  refine ⟨.comment, 1 + ((cs ++ rest).takeWhile (· ≠ '\n')).length, rfl, ?_, fun _ => rfl⟩
  rw [List.length_cons]
  omega

theorem Lexical.Spells.leads {l : Lexical} {c : Char} {w : List Char} (h : l.Spells (c :: w)) :
    Leads l c w := by
  cases l with
  | token kind => exact leads_kind h
  | blanks =>
      intro rest
      have hall : isSpace c = true ∧ w.all isSpace = true := by
        simpa only [List.all_cons, Bool.and_eq_true] using h.2
      refine ⟨.blanks, _, ?_, length_le_takeWhile_append hall.2 rest, fun _ => rfl⟩
      rw [leading, if_pos hall.1]
  | comment =>
      obtain ⟨cs, heq, hcs⟩ := h
      obtain ⟨rfl, rfl⟩ := List.cons.inj heq
      exact leads_comment hcs

theorem Lexical.Spells.ne_nil {l : Lexical} {w : List Char} (h : l.Spells w) : w ≠ [] := by
  rintro rfl
  cases l with
  | token kind =>
      cases kind
      case operator =>
        exact absurd (show Selector.operators.contains "" = true from h) (by decide)
      all_goals simp [Lexical.Spells, Kind.Spells, spells, isName] at h
  | blanks => exact h.1 rfl
  | comment =>
      obtain ⟨cs, heq, -⟩ := h
      cases heq

/-- The longest lexeme that begins at a place is the one that is cut off there. -/
theorem longest_iff {l : Lexical} {c : Char} {w rest : List Char} :
    Longest l (c :: w) rest ↔ leading c (w ++ rest) = some (l, w.length) := by
  constructor
  · rintro ⟨hspells, hlongest⟩
    obtain ⟨l', n, hleading, hle, hclass⟩ := hspells.leads rest
    obtain ⟨hspells', hn⟩ := spells_of_leading hleading
    have hlength := hlongest l' _ hspells' (List.prefix_cons_inj c |>.mpr (List.take_prefix _ _))
    rw [List.length_cons, List.length_cons, List.length_take, Nat.min_eq_left hn] at hlength
    have heq : n = w.length := by omega
    rw [hleading, heq, hclass heq]
  · intro hleading
    refine ⟨?_, ?_⟩
    · have hspells := (spells_of_leading hleading).1
      rwa [List.take_left] at hspells
    · intro l' w' hspells' hprefix
      obtain ⟨rest', heq⟩ := hprefix
      cases w' with
      | nil => exact absurd rfl hspells'.ne_nil
      | cons c' w' =>
          rw [List.cons_append, List.cons_append, List.cons.injEq] at heq
          obtain ⟨rfl, htail⟩ := heq
          obtain ⟨l'', n, hleading', hle, -⟩ := hspells'.leads rest'
          rw [htail, hleading] at hleading'
          cases hleading'
          simpa using hle

/-! Cuts and scans -/

theorem scanFrom_blanks {w : List Char} (hw : w.all isSpace = true) (p : Point) (rest : List Char) :
    scanFrom p (w ++ rest) = scanFrom (p.after w) rest := by
  induction w generalizing p with
  | nil => rfl
  | cons c w ih =>
      rw [List.all_cons, Bool.and_eq_true] at hw
      rw [List.cons_append, scanFrom, if_pos hw.1, ih hw.2]
      rfl

/-- Scanning cuts off what begins at a place and goes on after it. -/
theorem scanFrom_cons (p : Point) (c : Char) (rest : List Char) :
    scanFrom p (c :: rest) =
      match leading c rest with
      | none => ⟨[], some (c, p)⟩
      | some (.token kind, n) =>
        let text := c :: rest.take n
        let more := scanFrom (p.after text) (rest.drop n)
        ⟨⟨kind, String.ofList text, ⟨p, p.after text⟩⟩ :: more.tokens, more.stray⟩
      | some (_, n) => scanFrom (p.after (c :: rest.take n)) (rest.drop n) := by
  rw [scanFrom, leading]
  by_cases hspace : isSpace c = true
  · rw [if_pos hspace, if_pos hspace]
    have hall : (rest.take (rest.takeWhile isSpace).length).all isSpace = true := by
      rw [take_length_takeWhile]
      exact List.all_takeWhile
    have hblanks := scanFrom_blanks hall (p.next c) (rest.drop (rest.takeWhile isSpace).length)
    rw [List.take_append_drop] at hblanks
    exact hblanks
  · rw [if_neg hspace, if_neg hspace]
    cases (if c = '/' then commentRest rest else none) with
    | some n => rfl
    | none =>
        cases lexeme c rest with
        | none => rfl
        | some r => rfl

theorem scanFrom_skip {l : Lexical} {w rest : List Char} (hl : l = .blanks ∨ l = .comment)
    (h : Longest l w rest) (p : Point) : scanFrom p (w ++ rest) = scanFrom (p.after w) rest := by
  cases w with
  | nil => exact absurd rfl h.spelled.ne_nil
  | cons c w =>
      rw [List.cons_append, scanFrom_cons, longest_iff.mp h]
      rcases hl with rfl | rfl <;> simp

theorem scanFrom_token {kind : Kind} {w rest : List Char} (h : Longest (.token kind) w rest)
    (p : Point) :
    scanFrom p (w ++ rest) = ⟨⟨kind, String.ofList w, ⟨p, p.after w⟩⟩ ::
      (scanFrom (p.after w) rest).tokens, (scanFrom (p.after w) rest).stray⟩ := by
  cases w with
  | nil => exact absurd rfl h.spelled.ne_nil
  | cons c w =>
      rw [List.cons_append, scanFrom_cons, longest_iff.mp h]
      simp

/-- A text that is scanned to its end can be cut. -/
theorem cut_of_scanFrom {p : Point} {cs : List Char} (h : (scanFrom p cs).stray = none) :
    Cut p cs (scanFrom p cs).tokens := by
  induction hn : cs.length using Nat.strongRecOn generalizing p cs with
  | ind n ih =>
      cases cs with
      | nil =>
          rw [scanFrom]
          exact .done p
      | cons c rest =>
          cases hleading : leading c rest with
          | none =>
              rw [scanFrom_cons, hleading] at h
              cases h
          | some r =>
              obtain ⟨l, m⟩ := r
              have hm := (spells_of_leading hleading).2
              have hlongest : Longest l (c :: rest.take m) (rest.drop m) := by
                rw [longest_iff, List.take_append_drop, List.length_take, Nat.min_eq_left hm]
                exact hleading
              have hsplit : c :: rest = c :: rest.take m ++ rest.drop m := by
                rw [List.cons_append, List.take_append_drop]
              have hlt : (rest.drop m).length < n := by
                rw [← hn, List.length_drop, List.length_cons]
                omega
              have hmore : ∀ {p}, (scanFrom p (rest.drop m)).stray = none →
                  Cut p (rest.drop m) (scanFrom p (rest.drop m)).tokens :=
                fun hstray => ih _ hlt hstray rfl
              rw [hsplit] at h ⊢
              cases l with
              | token kind =>
                  rw [scanFrom_token hlongest] at h ⊢
                  exact .token hlongest (hmore h)
              | blanks =>
                  rw [scanFrom_skip (.inl rfl) hlongest] at h ⊢
                  exact .skip (.inl rfl) hlongest (hmore h)
              | comment =>
                  rw [scanFrom_skip (.inr rfl) hlongest] at h ⊢
                  exact .skip (.inr rfl) hlongest (hmore h)

/-- A text can be cut into tokens exactly if it is scanned to its end, and the scan gives the tokens. -/
theorem cut_iff {p : Point} {cs : List Char} {ts : List Token} :
    Cut p cs ts ↔ scanFrom p cs = ⟨ts, none⟩ := by
  constructor
  · intro h
    induction h with
    | done p => rw [scanFrom]
    | skip hl hlongest _ ih => rw [scanFrom_skip hl hlongest, ih]
    | token hlongest _ ih => rw [scanFrom_token hlongest, ih]
  · intro h
    have hstray : (scanFrom p cs).stray = none := by rw [h]
    have hcut := cut_of_scanFrom hstray
    rwa [h] at hcut

end Grammar

end Parley
