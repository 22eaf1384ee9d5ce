import Parley.Node.Source
import Parley.Proofs.Grammar.Lexeme

/-! Texts that are put together from tokens. `Lexes ok cs words` says that the characters `cs` are cut
into tokens with the classes and texts `words`, wherever they stand and whatever comes after them, as
long as the next character is `ok`. Such texts can be put one after another. -/

namespace Parley.Grammar

abbrev Word := Kind × String

/-- The class and the text of a token. -/
def Token.word (t : Token) : Word := (t.kind, t.text)

/-- The characters are cut into tokens of these words if the next character, where there is one, is
`ok`. -/
def Lexes (ok : Char → Bool) (cs : List Char) (words : List Word) : Prop :=
  ∀ (p : Point) (rest : List Char), rest.head?.all ok = true →
    ∃ (tokens : List Token) (stop : Point), tokens.map Token.word = words ∧
      scanFrom p (cs ++ rest) =
        ⟨tokens ++ (scanFrom stop rest).tokens, (scanFrom stop rest).stray⟩

/-- Any character may come next. -/
def anything (_ : Char) : Bool := true

theorem head?_all_mono {ok ok' : Char → Bool} {rest : List Char} (hrest : rest.head?.all ok = true)
    (hok : ∀ c, ok c = true → ok' c = true) : rest.head?.all ok' = true := by
  cases rest with
  | nil => rfl
  | cons c rest => exact hok c hrest

namespace Lexes

variable {ok ok' : Char → Bool} {cs ds : List Char} {words words' : List Word}

theorem nil : Lexes ok [] [] := fun p _ _ => ⟨[], p, rfl, rfl⟩

theorem mono (h : Lexes ok cs words) (hok : ∀ c, ok' c = true → ok c = true) :
    Lexes ok' cs words :=
  fun p rest hrest => h p rest (head?_all_mono hrest hok)

/-- Two texts one after the other, when the second begins with a character that may come next. -/
theorem append (h : Lexes ok cs words) (h' : Lexes ok' ds words')
    (hnext : ∀ rest : List Char, rest.head?.all ok' = true → (ds ++ rest).head?.all ok = true) :
    Lexes ok' (cs ++ ds) (words ++ words') := by
  intro p rest hrest
  obtain ⟨tokens, stop, hwords, hscan⟩ := h p (ds ++ rest) (hnext rest hrest)
  obtain ⟨tokens', stop', hwords', hscan'⟩ := h' stop rest hrest
  refine ⟨tokens ++ tokens', stop', by rw [List.map_append, hwords, hwords'], ?_⟩
  rw [List.append_assoc, hscan, hscan', List.append_assoc]

/-- A text that any character may follow, and another one after it. -/
theorem append_of_anything (h : Lexes anything cs words) (h' : Lexes ok ds words') :
    Lexes ok (cs ++ ds) (words ++ words') := by
  refine h.append h' ?_
  intro rest _
  cases ds ++ rest <;> rfl

/-- A text and another one that begins with a certain character. -/
theorem append_cons {c : Char} (h : Lexes ok cs words) (h' : Lexes ok' (c :: ds) words')
    (hc : ok c = true) : Lexes ok' (cs ++ c :: ds) (words ++ words') :=
  h.append h' fun _ _ => hc

theorem blank {c : Char} (hc : isSpace c = true) : Lexes anything [c] [] := by
  intro p rest _
  refine ⟨[], p.next c, rfl, ?_⟩
  rw [List.singleton_append, scanFrom, if_pos hc, List.nil_append]

theorem space : Lexes anything [' '] [] := blank rfl

theorem token {c : Char} {kind : Kind} (hspace : isSpace c = false)
    (hlexeme : ∀ rest : List Char, rest.head?.all ok = true →
      lexeme c (cs ++ rest) = some (kind, cs.length) ∧
        (c = '/' → commentRest (cs ++ rest) = none)) :
    Lexes ok (c :: cs) [(kind, String.ofList (c :: cs))] := by
  intro p rest hrest
  obtain ⟨hkind, hcomment⟩ := hlexeme rest hrest
  refine ⟨[⟨kind, String.ofList (c :: cs), ⟨p, p.after (c :: cs)⟩⟩], p.after (c :: cs), rfl, ?_⟩
  have hno : (if c = '/' then commentRest (cs ++ rest) else none) = none := by
    split_ifs with hc
    · exact hcomment hc
    · rfl
  rw [List.cons_append, scanFrom, if_neg (by simp [hspace]), hno, hkind]
  simp

end Lexes

theorem takeWhile_append_eq {p : Char → Bool} {cs rest : List Char} (hcs : cs.all p = true)
    (hrest : rest.head?.all (fun c => !p c) = true) : (cs ++ rest).takeWhile p = cs := by
  rw [List.takeWhile_append_of_pos (List.all_eq_true.mp hcs)]
  cases rest with
  | nil => simp
  | cons c rest =>
      have hc : ¬p c = true := by simpa using hrest
      rw [List.takeWhile_cons_of_neg hc, List.append_nil]

/-- The characters that come after an expression inside a program. -/
def isBreak (c : Char) : Bool := c = ' ' || c = ']' || c = ',' || c = ';'

theorem isBreak_cases {c : Char} (hc : isBreak c = true) : c = ' ' ∨ c = ']' ∨ c = ',' ∨ c = ';' := by
  simpa [isBreak, or_assoc] using hc

theorem not_isNameRest_of_isBreak {c : Char} (hc : isBreak c = true) : (!isNameRest c) = true := by
  obtain rfl | rfl | rfl | rfl := isBreak_cases hc <;> decide

theorem isSpace_eq_false_of_isNameRest {c : Char} (hc : isNameRest c = true) : isSpace c = false := by
  by_contra hspace
  simp only [isSpace, Bool.not_eq_false, Bool.or_eq_true, decide_eq_true_eq] at hspace
  rcases hspace with (((rfl | rfl) | rfl) | rfl) | rfl <;> revert hc <;> decide

namespace Lexes

theorem integer {cs : List Char} (hne : cs ≠ []) (hcs : cs.all Char.isDigit = true) :
    Lexes (fun c => !c.isDigit) cs [(.integer, String.ofList cs)] := by
  cases cs with
  | nil => exact absurd rfl hne
  | cons c cs =>
      rw [List.all_cons, Bool.and_eq_true] at hcs
      have hspace : isSpace c = false :=
        isSpace_eq_false_of_isNameRest (by simp [isNameRest, Char.isAlphanum, hcs.1])
      refine token hspace fun rest hrest => ⟨?_, ?_⟩
      · rw [lexeme_of_isDigit hcs.1, takeWhile_append_eq hcs.2 hrest]
      · rintro rfl
        simp at hcs

theorem name {cs : List Char} (hcs : isName cs = true) :
    Lexes (fun c => !isNameRest c) cs [(.name, String.ofList cs)] := by
  cases cs with
  | nil => simp [isName] at hcs
  | cons c cs =>
      rw [isName, Bool.and_eq_true] at hcs
      have hspace : isSpace c = false :=
        isSpace_eq_false_of_isNameRest (isNameRest_of_isNameStart hcs.1)
      refine token hspace fun rest hrest => ⟨?_, ?_⟩
      · rw [lexeme_of_isNameStart hcs.1, takeWhile_append_eq hcs.2 hrest]
      · rintro rfl
        simp [isNameStart] at hcs

theorem slot {cs : List Char} (hcs : isName cs = true) :
    Lexes (fun c => !isNameRest c) ('@' :: cs) [(.slot, String.ofList ('@' :: cs))] := by
  refine token rfl fun rest hrest => ⟨?_, by simp⟩
  cases cs with
  | nil => simp [isName] at hcs
  | cons c cs =>
      rw [isName, Bool.and_eq_true] at hcs
      have hall : (c :: cs).all isNameRest = true := by
        rw [List.all_cons, isNameRest_of_isNameStart hcs.1, hcs.2, Bool.true_and]
      have hmark : ¬ '@'.isDigit = true ∧ ¬ isNameStart '@' = true := by decide
      simp only [lexeme, if_neg hmark.1, if_neg hmark.2, List.cons_append, List.head?_cons,
        Option.map_some, Option.getD_some, hcs.1, if_true]
      rw [← List.cons_append, takeWhile_append_eq hall hrest]

end Lexes

theorem operator_cases {cs : List Char} (h : Selector.operators.contains (String.ofList cs) = true) :
    cs ∈ [['+'], ['-'], ['*'], ['/'], ['%'], ['<'], ['>'], ['<', '='], ['>', '='], ['=', '='],
      ['!', '=']] := by
  have hmem : String.ofList cs ∈ Selector.operators := by simpa using h
  have hlist : (String.ofList cs).toList ∈ Selector.operators.map String.toList :=
    List.mem_map_of_mem hmem
  rwa [String.toList_ofList] at hlist

theorem head?_ne_equals_of_isBreak {rest : List Char} (hrest : rest.head?.all isBreak = true) :
    ¬rest.head? = some '=' := by
  intro h
  rw [h] at hrest
  exact absurd hrest (by decide)

/-- The name of a symbol is cut off whole before a break. -/
theorem symbolRest_append {name rest : List Char} (hname : isSymbolName name = true)
    (hrest : rest.head?.all isBreak = true) : symbolRest (name ++ rest) = some name.length := by
  cases name with
  | nil => simp [isSymbolName] at hname
  | cons c cs =>
      rw [isSymbolName, Bool.or_eq_true, Bool.and_eq_true] at hname
      rcases hname with ⟨hstart, hcs⟩ | hoperator
      · have hstop : rest.head?.all (fun c => !isSymbolRest c) = true := by
          refine head?_all_mono hrest fun c hc => ?_
          obtain rfl | rfl | rfl | rfl := isBreak_cases hc <;> decide
        rw [List.cons_append, symbolRest, if_pos hstart, takeWhile_append_eq hcs hstop,
          List.length_cons, Nat.add_comm]
      · have hequals := head?_ne_equals_of_isBreak hrest
        have hcases := operator_cases hoperator
        simp only [List.mem_cons, List.cons.injEq, List.not_mem_nil, or_false] at hcases
        rcases hcases with ⟨rfl, rfl⟩ | ⟨rfl, rfl⟩ | ⟨rfl, rfl⟩ | ⟨rfl, rfl⟩ | ⟨rfl, rfl⟩ |
          ⟨rfl, rfl⟩ | ⟨rfl, rfl⟩ | ⟨rfl, rfl⟩ | ⟨rfl, rfl⟩ | ⟨rfl, rfl⟩ | ⟨rfl, rfl⟩ <;>
          simp [symbolRest, isNameStart, hequals]

/-- One character between the quotes of a literal. -/
def escaped (c : Char) : List Char := if c = '"' || c = '\\' then ['\\', c] else [c]

theorem toList_stringLiteral (s : String) :
    (stringLiteral s).toList = '"' :: (s.toList.flatMap escaped ++ ['"']) := by
  rw [stringLiteral, String.toList_ofList]
  rfl

theorem stringRest_escaped (cs rest : List Char) :
    stringRest '"' (cs.flatMap escaped ++ '"' :: rest) = some ((cs.flatMap escaped).length + 1) := by
  induction cs with
  | nil => simp [stringRest]
  | cons c cs ih =>
      rw [List.flatMap_cons, List.append_assoc, escaped]
      split_ifs with hc
      · have hfeed : ¬c = '\n' := by
          rintro rfl
          simp at hc
        simp [stringRest, hfeed, ih]
      · simp only [Bool.or_eq_true, decide_eq_true_eq, not_or] at hc
        rw [List.singleton_append, stringRest, if_neg hc.1, if_neg hc.2, ih]
        · simp
        · exact fun _ _ h => absurd h hc.2

namespace Lexes

/-- A string as a literal is one token. -/
theorem string (s : String) : Lexes anything (stringLiteral s).toList [(.string, stringLiteral s)] := by
  have h : Lexes anything ('"' :: (s.toList.flatMap escaped ++ ['"']))
      [(.string, String.ofList ('"' :: (s.toList.flatMap escaped ++ ['"'])))] := by
    refine token rfl fun rest _ => ⟨?_, by simp⟩
    have hmark : ¬ '"'.isDigit = true ∧ ¬ isNameStart '"' = true := by decide
    simp only [lexeme, if_neg hmark.1, if_neg hmark.2, List.append_assoc, List.singleton_append,
      stringRest_escaped, Option.map_some, List.length_append, List.length_singleton]
  rwa [← toList_stringLiteral, String.ofList_toList] at h

theorem operator {cs : List Char} (hcs : Selector.operators.contains (String.ofList cs) = true) :
    Lexes (· == ' ') cs [(.operator, String.ofList cs)] := by
  have hlexeme : ∀ rest : List Char, rest.head?.all (· == ' ') = true →
      ¬rest.head? = some '=' ∧ commentRest rest = none := by
    intro rest hrest
    cases rest with
    | nil => exact ⟨by simp, rfl⟩
    | cons c rest =>
        obtain rfl : c = ' ' := by simpa using hrest
        exact ⟨by simp, rfl⟩
  have hcases := operator_cases hcs
  simp only [List.mem_cons, List.not_mem_nil, or_false] at hcases
  rcases hcases with rfl | rfl | rfl | rfl | rfl | rfl | rfl | rfl | rfl | rfl | rfl <;>
    refine token rfl fun rest hrest => ?_ <;>
    obtain ⟨hequals, hcomment⟩ := hlexeme rest hrest <;>
    simp [lexeme, isNameStart, hequals, hcomment]

/-- A mark of one character that is a token whatever comes after it. -/
theorem mark {c : Char} {kind : Kind} (hspace : isSpace c = false) (hslash : ¬c = '/')
    (hlexeme : ∀ rest : List Char, lexeme c rest = some (kind, 0)) :
    Lexes anything [c] [(kind, String.ofList [c])] :=
  token hspace fun rest _ => ⟨hlexeme rest, fun h => absurd h hslash⟩

theorem openBracket : Lexes anything ['['] [(.openBracket, "[")] :=
  mark rfl (by decide) fun _ => rfl

theorem closeBracket : Lexes anything [']'] [(.closeBracket, "]")] :=
  mark rfl (by decide) fun _ => rfl

theorem openBrace : Lexes anything ['{'] [(.openBrace, "\x7b")] :=
  mark rfl (by decide) fun _ => rfl

theorem closeBrace : Lexes anything ['}'] [(.closeBrace, "\x7d")] :=
  mark rfl (by decide) fun _ => rfl

theorem bar : Lexes anything ['|'] [(.bar, "|")] :=
  mark rfl (by decide) fun _ => rfl

theorem comma : Lexes anything [','] [(.comma, ",")] :=
  mark rfl (by decide) fun _ => rfl

theorem semicolon : Lexes anything [';'] [(.semicolon, ";")] :=
  mark rfl (by decide) fun _ => rfl

theorem colon : Lexes (fun c => !(c == '=')) [':'] [(.colon, ":")] := by
  refine token rfl fun rest hrest => ⟨?_, by simp⟩
  cases rest with
  | nil => rfl
  | cons c rest =>
      have hc : ¬c = '=' := by simpa using hrest
      simp [lexeme, isNameStart, hc]

/-- The sign of an assignment with a space on both sides. -/
theorem equalsSpaced : Lexes anything [' ', '=', ' '] [(.equals, "=")] := by
  have hequals : Lexes (· == ' ') ['='] [(.equals, "=")] := by
    refine token rfl fun rest hrest => ⟨?_, by simp⟩
    cases rest with
    | nil => rfl
    | cons c rest =>
        obtain rfl : c = ' ' := by simpa using hrest
        rfl
  exact space.append_of_anything (hequals.append_cons space rfl)

/-- The other sign of a definition with a space on both sides. -/
theorem walrusSpaced : Lexes anything [' ', ':', '=', ' '] [(.walrus, ":=")] := by
  have hwalrus : Lexes anything [':', '='] [(.walrus, ":=")] :=
    token rfl fun _ _ => ⟨rfl, by simp⟩
  exact space.append_of_anything (hwalrus.append_of_anything space)

/-- Texts with a separator between them, which begins with a character that may come after each. -/
theorem intercalate {α : Type} {ok : Char → Bool} {c : Char} {sep : List Char} {sepWords : List Word} {l : List α}
    {text : α → List Char} {words : α → List Word} (hsep : Lexes anything (c :: sep) sepWords)
    (hc : ok c = true) (hl : ∀ a ∈ l, Lexes ok (text a) (words a)) :
    Lexes ok ((c :: sep).intercalate (l.map text)) (sepWords.intercalate (l.map words)) := by
  induction l with
  | nil => exact nil
  | cons a l ih =>
      have ha := hl a List.mem_cons_self
      have hrest := ih fun b hb => hl b (List.mem_cons_of_mem a hb)
      cases l with
      | nil => simpa using ha
      | cons b l =>
          simp only [List.map_cons, List.intercalate_cons_cons, List.append_assoc] at hrest ⊢
          exact ha.append_cons (hsep.append_of_anything hrest) hc

theorem symbol {cs : List Char} (hcs : isSymbolName cs = true) :
    Lexes isBreak ('#' :: cs) [(.symbol, String.ofList ('#' :: cs))] := by
  refine token rfl fun rest hrest => ⟨?_, by simp⟩
  have hmark : ¬ '#'.isDigit = true ∧ ¬ isNameStart '#' = true := by decide
  simp only [lexeme, if_neg hmark.1, if_neg hmark.2, symbolRest_append hcs hrest, Option.map_some]

end Lexes

end Parley.Grammar
