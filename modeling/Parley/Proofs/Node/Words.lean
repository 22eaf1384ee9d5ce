import Parley.Proofs.Grammar.Scanning
import Parley.Proofs.Node.Proper

/-! The tokens of a node's source. `words` lists them, class and text, and the source of a proper node
is cut into exactly these: no two texts run together, and none is cut in two. -/

namespace Parley

open Parley.Grammar Parley.Text

/-- The class of an atom's token. -/
def Atom.tokenKind : Atom → Grammar.Kind
  | .integer _ => .integer
  | .string _ => .string
  | .symbol _ => .symbol
  | .slot _ => .slot
  | _ => .name

def Atom.word (a : Atom) : Word := (a.tokenKind, a.source)

/-- The tokens before the value of a statement. -/
def Target.words : Target → List Word
  | .define name operator =>
    [(.name, "let"), (.name, name), (if operator = ":=" then .walrus else .equals, operator)]
  | .assign name => [(.name, name), (.equals, "=")]
  | .slot name => [(.slot, "@" ++ name), (.equals, "=")]

/-- The tokens of the leading name of a selector. -/
def leadingWords (selector : String) : List Word :=
  ((wordsOf selector.toList).filter fun w => !Selector.isPart w).map fun w =>
    (.name, String.ofList w)

/-- The tokens of keywords, each before those of its argument. -/
def keywordWords (keywords : List String) (args : List (List Word)) : List Word :=
  (keywords.zip args).flatMap fun p => (.name, p.1) :: (.colon, ":") :: p.2

/-- The tokens of a send from those of its parts. -/
def sendWords (receiver : List Word) (selector : String) (args : List (List Word)) : List Word :=
  (.openBracket, "[") :: (receiver ++
    (if Selector.isBinary selector then (.operator, selector) :: args.headD []
      else leadingWords selector ++ keywordWords (Selector.keywords selector) args) ++
    [(.closeBracket, "]")])

/-- The tokens of a block's parameters. -/
def paramWords (params : List String) : List Word :=
  if params.isEmpty then []
  else (.bar, "|") :: (params.flatMap fun p => [(.name, p), (.colon, ":")]) ++ [(.bar, "|")]

mutual

/-- The tokens of a node. -/
def Node.words : Node → List Word
  | .atom _ a => [a.word]
  | .list _ items =>
    (.openBracket, "[") :: ([(.comma, ",")].intercalate (Node.wordsEach items) ++
      [(.closeBracket, "]")])
  | .store _ target value => target.words ++ value.words
  | .answer _ value => (.name, "return") :: value.words
  | .send _ receiver selector args => sendWords receiver.words selector (Node.wordsEach args)
  | .block _ params _ body =>
    paramWords params ++ (.openBrace, "\x7b") ::
      ([(.semicolon, ";")].intercalate (Node.wordsEach body) ++ [(.closeBrace, "\x7d")])
  | .suite _ .sequence statements => [(.semicolon, ";")].intercalate (Node.wordsEach statements)
  | .suite _ .program statements =>
    (Node.wordsEach statements).flatMap (· ++ [(.semicolon, ";")])

def Node.wordsEach : List Node → List (List Word)
  | [] => []
  | n :: ns => n.words :: Node.wordsEach ns

end

theorem Node.wordsEach_eq_map (ns : List Node) : Node.wordsEach ns = ns.map Node.words := by
  induction ns with
  | nil => rfl
  | cons n ns ih => rw [Node.wordsEach, ih, List.map_cons]

theorem Node.sources_eq_map (ns : List Node) : Node.sources ns = ns.map Node.source := by
  induction ns with
  | nil => rfl
  | cons n ns ih => rw [Node.sources, ih, List.map_cons]

/-! Atoms and targets -/

theorem toList_toString_natCast (n : Nat) : (toString (n : Int)).toList = Nat.toDigits 10 n := by
  rw [Int.toString_eq_repr, Int.repr_eq_if, if_pos (Int.natCast_nonneg n), Int.toNat_natCast,
    Nat.toList_repr]

theorem Grammar.Lexes.nameText {s : String} (hs : isName s.toList = true) :
    Lexes (fun c => !isNameRest c) s.toList [(.name, s)] := by
  have h := Lexes.name hs
  rwa [String.ofList_toList] at h

theorem Grammar.Lexes.slotText {s : String} (hs : isName s.toList = true) :
    Lexes (fun c => !isNameRest c) ("@" ++ s).toList [(.slot, "@" ++ s)] := by
  have h := Lexes.slot hs
  rwa [show '@' :: s.toList = ("@" ++ s).toList by simp, String.ofList_toList] at h

theorem Atom.Proper.lexes {a : Atom} (ha : a.Proper) : Lexes isBreak a.source.toList [a.word] := by
  match a with
  | .integer n =>
      obtain ⟨n, rfl⟩ := Int.eq_ofNat_of_zero_le ha.1
      have hdigits : (toString (n : Int)).toList.all Char.isDigit = true := by
        rw [toList_toString_natCast, List.all_eq_true]
        exact fun c hc => Nat.isDigit_of_mem_toDigits (by decide) (by decide) hc
      have hne : (toString (n : Int)).toList ≠ [] := by
        rw [toList_toString_natCast]
        exact Nat.toDigits_ne_nil
      have h := Lexes.integer hne hdigits
      rw [String.ofList_toList] at h
      refine h.mono ?_
      intro c hc
      obtain rfl | rfl | rfl | rfl := isBreak_cases hc <;> decide
  | .string s => exact (Lexes.string s).mono fun _ _ => rfl
  | .symbol name =>
      have h := Lexes.symbol ha
      rwa [show '#' :: name.toList = ("#" ++ name).toList by simp, String.ofList_toList] at h
  | .variable name => exact (Lexes.nameText ha.1).mono fun _ => not_isNameRest_of_isBreak
  | .slot name => exact (Lexes.slotText ha).mono fun _ => not_isNameRest_of_isBreak
  | .boolean true => exact (Lexes.nameText rfl).mono fun _ => not_isNameRest_of_isBreak
  | .boolean false => exact (Lexes.nameText rfl).mono fun _ => not_isNameRest_of_isBreak
  | .nil => exact (Lexes.nameText rfl).mono fun _ => not_isNameRest_of_isBreak
  | .self => exact (Lexes.nameText rfl).mono fun _ => not_isNameRest_of_isBreak
  | .super => exact (Lexes.nameText rfl).mono fun _ => not_isNameRest_of_isBreak

theorem Grammar.Lexes.nameSpace {s : String} (hs : isName s.toList = true) :
    Lexes anything (s.toList ++ [' ']) [(.name, s)] :=
  (Lexes.nameText hs).append_cons Lexes.space rfl

/-- A keyword part of a send or a parameter of a block. -/
theorem Grammar.Lexes.keyword {s : String} (hs : isName s.toList = true) :
    Lexes (fun c => !(c == '=')) (s ++ ":").toList [(.name, s), (.colon, ":")] := by
  rw [String.toList_append]
  exact (Lexes.nameText hs).append_cons Lexes.colon rfl

theorem ne_equals_of_isBreak {c : Char} (hc : isBreak c = true) : (!(c == '=')) = true := by
  obtain rfl | rfl | rfl | rfl := isBreak_cases hc <;> decide

theorem Grammar.Lexes.operatorText {s : String} (hs : Selector.isBinary s = true) :
    Lexes (· == ' ') s.toList [(.operator, s)] := by
  have h := @Lexes.operator s.toList (by rwa [String.ofList_toList])
  rwa [String.ofList_toList] at h

/-- What comes before the value of a statement ends with a space. -/
theorem Target.Proper.lexes {target : Target} (h : target.Proper) :
    Lexes anything target.source.toList target.words := by
  match target with
  | .define name operator =>
      have hname : Lexes (fun c => !isNameRest c) ("let " ++ name).toList
          [(.name, "let"), (.name, name)] := by
        rw [String.toList_append]
        exact (Lexes.nameSpace (s := "let") rfl).append_of_anything (Lexes.nameText h.1)
      rcases h.2 with rfl | rfl
      · have hall := hname.append_cons Lexes.equalsSpaced rfl
        rwa [show ("let " ++ name).toList ++ [' ', '=', ' '] =
          (Target.define name "=").source.toList by simp [Target.source]] at hall
      · have hall := hname.append_cons Lexes.walrusSpaced rfl
        rwa [show ("let " ++ name).toList ++ [' ', ':', '=', ' '] =
          (Target.define name ":=").source.toList by simp [Target.source]] at hall
  | .assign name =>
      have hall := (Lexes.nameText h.1).append_cons Lexes.equalsSpaced rfl
      rwa [show name.toList ++ [' ', '=', ' '] = (Target.assign name).source.toList by
        simp [Target.source]] at hall
  | .slot name =>
      have hall := (Lexes.slotText h).append_cons Lexes.equalsSpaced rfl
      rwa [show ("@" ++ name).toList ++ [' ', '=', ' '] = (Target.slot name).source.toList by
        simp [Target.source]] at hall

/-- The tokens of a node whose source is a bracket round some text. -/
theorem Grammar.Lexes.bracketed {cs : List Char} {words : List Word} (h : Lexes isBreak cs words) :
    Lexes isBreak ('[' :: (cs ++ [']']))
      ((.openBracket, "[") :: (words ++ [(.closeBracket, "]")])) :=
  (Lexes.openBracket.append_of_anything (h.append_cons Lexes.closeBracket rfl)).mono fun _ _ => rfl

/-! Sends -/

theorem leadingWords_make {name : Option String} {keywords : List String}
    (hname : ∀ w ∈ name, isName w.toList = true)
    (hkeywords : ∀ w ∈ keywords, isName w.toList = true) :
    leadingWords (Selector.make name keywords) = name.toList.map fun w => (.name, w) := by
  rw [leadingWords, Selector.filter_not_isPart_make (Selector.isKey_of_names hname)
    (Selector.isKey_of_names hkeywords), List.map_map]
  simp

/-- The selector of a message without arguments is its leading name. -/
theorem leadingWords_name {name : String} (hname : isName name.toList = true) :
    leadingWords name = [(.name, name)] ∧ Selector.keywords name = [] := by
  have hsome : ∀ w ∈ some name, isName w.toList = true := fun w hw => Option.some.inj hw ▸ hname
  have hnone : ∀ w ∈ ([] : List String), isName w.toList = true := by simp
  have hleading := leadingWords_make hsome hnone
  have hkeywords :=
    Selector.keywords_make (Selector.isKey_of_names hsome) (Selector.isKey_of_names hnone)
  rw [Selector.make_some_nil (Selector.isKey_of_isName hname)] at hleading hkeywords
  exact ⟨hleading, hkeywords⟩

theorem interleave_keywords {keywords : List String} {args : List String}
    (hlength : keywords.length = args.length) :
    interleave (keywords.map (·.toList ++ [':'])) args =
      (keywords.zip args).flatMap fun p => [p.1 ++ ":", p.2] := by
  induction keywords generalizing args with
  | nil => rfl
  | cons k keywords ih =>
      cases args with
      | nil => simp at hlength
      | cons a args =>
          rw [List.map_cons, interleave, if_pos (Selector.isPart_keyword k.toList),
            ih (by simpa using hlength)]
          simp

/-- The texts of a send after its receiver, each keyword followed by its argument. -/
theorem interleave_make {name : Option String} {keywords : List String} {args : List String}
    (hname : ∀ w ∈ name, isName w.toList = true) (hlength : keywords.length = args.length) :
    interleave (name.toList.map String.toList ++ keywords.map (·.toList ++ [':'])) args =
      name.toList ++ (keywords.zip args).flatMap fun p => [p.1 ++ ":", p.2] := by
  cases name with
  | none => exact interleave_keywords hlength
  | some w =>
      have hpart : ¬Selector.isPart w.toList = true := by
        simp [Selector.isPart_eq_false_of_isName (hname w rfl)]
      simp only [Option.toList_some, List.map_cons, List.map_nil, List.singleton_append]
      unfold interleave
      rw [if_neg hpart, interleave_keywords hlength, String.ofList_toList]

theorem nil_intercalate {α : Type} (l : List (List α)) : [].intercalate l = l.flatten := by
  induction l with
  | nil => rfl
  | cons a l ih =>
      cases l with
      | nil => simp
      | cons b l => rw [List.intercalate_cons_cons, ih, List.append_nil, List.flatten_cons (l := a)]

/-- The texts between the spaces of a send with keywords, each with its tokens. -/
def sendPieces (receiver : Node) (name : Option String) (keywords : List String)
    (args : List Node) : List (List Char × List Word) :=
  (receiver.source.toList, receiver.words) ::
    (name.toList.map fun w => (w.toList, [(.name, w)])) ++
    (keywords.zip args).flatMap fun p =>
      [((p.1 ++ ":").toList, [(.name, p.1), (.colon, ":")]), (p.2.source.toList, p.2.words)]

section Pieces

variable {receiver : Node} {name : Option String} {keywords : List String} {args : List Node}
  (hname : ∀ w ∈ name, isName w.toList = true)
  (hkeywords : ∀ w ∈ keywords, isName w.toList = true)
  (hbinary : Selector.isBinary (Selector.make name keywords) = false)
  (hlength : keywords.length = args.length)

include hname hkeywords hbinary hlength in
theorem toList_keywordSend : (sendSource receiver.source (Selector.make name keywords)
      (Node.sources args)).toList =
    '[' :: ([' '].intercalate ((sendPieces receiver name keywords args).map Prod.fst) ++ [']']) := by
  rw [sendSource, hbinary, if_neg (by simp),
    Selector.wordsOf_make (Selector.isKey_of_names hname) (Selector.isKey_of_names hkeywords),
    Node.sources_eq_map, interleave_make hname (by simpa using hlength)]
  simp [sendPieces, List.zip_map_right, List.map_flatMap, List.flatMap_map, Function.comp_def]

include hname hkeywords hbinary in
theorem keywordSend_words : sendWords receiver.words (Selector.make name keywords)
      (Node.wordsEach args) =
    (.openBracket, "[") :: ([].intercalate ((sendPieces receiver name keywords args).map Prod.snd) ++
      [(.closeBracket, "]")]) := by
  rw [sendWords, hbinary, if_neg (by simp),
    leadingWords_make hname hkeywords,
    Selector.keywords_make (Selector.isKey_of_names hname) (Selector.isKey_of_names hkeywords),
    Node.wordsEach_eq_map]
  have hparts : ∀ l : List (String × Node),
      (l.flatMap fun p => [[(Kind.name, p.1), (Kind.colon, ":")], p.2.words]).flatten =
        l.flatMap fun p => (Kind.name, p.1) :: (Kind.colon, ":") :: p.2.words := by
    intro l
    induction l with
    | nil => rfl
    | cons p l ih => simp [ih]
  cases name <;>
    simp [nil_intercalate, sendPieces, keywordWords, List.zip_map_right, List.flatMap_map,
      List.map_flatMap, hparts]

include hname hkeywords in
theorem sendPieces_lexes (hreceiver : Lexes isBreak receiver.source.toList receiver.words)
    (hargs : ∀ n ∈ args, Lexes isBreak n.source.toList n.words) :
    ∀ piece ∈ sendPieces receiver name keywords args, Lexes isBreak piece.1 piece.2 := by
  intro piece hpiece
  rw [sendPieces, List.cons_append, List.mem_cons, List.mem_append] at hpiece
  rcases hpiece with rfl | hpiece | hpiece
  · exact hreceiver
  · obtain ⟨w, hw, rfl⟩ := List.mem_map.mp hpiece
    exact (Lexes.nameText (hname w (Option.mem_toList.mp hw))).mono fun _ =>
      not_isNameRest_of_isBreak
  · obtain ⟨⟨k, n⟩, hmem, hpiece⟩ := List.mem_flatMap.mp hpiece
    simp only [List.mem_cons, List.not_mem_nil, or_false] at hpiece
    rcases hpiece with rfl | rfl
    · exact (Lexes.keyword (hkeywords k (List.of_mem_zip hmem).1)).mono fun _ => ne_equals_of_isBreak
    · exact hargs n (List.of_mem_zip hmem).2

include hname hkeywords hbinary hlength in
theorem keywordSend_lexes (hreceiver : Lexes isBreak receiver.source.toList receiver.words)
    (hargs : ∀ n ∈ args, Lexes isBreak n.source.toList n.words) :
    Lexes isBreak (sendSource receiver.source (Selector.make name keywords)
      (Node.sources args)).toList
      (sendWords receiver.words (Selector.make name keywords) (Node.wordsEach args)) := by
  rw [toList_keywordSend hname hkeywords hbinary hlength, keywordSend_words hname hkeywords hbinary]
  exact (Lexes.space.intercalate rfl
    (sendPieces_lexes hname hkeywords hreceiver hargs)).bracketed

end Pieces

/-! Blocks -/

/-- The text before the braces of a block with parameters. -/
theorem paramSource_lexes {params : List String} (hparams : ∀ p ∈ params, isName p.toList = true)
    (hne : ¬params.isEmpty = true) :
    Lexes anything ("|" ++ " ".intercalate (params.map (· ++ ":")) ++ "| ").toList
      (paramWords params) := by
  have hwords := Lexes.space.intercalate rfl fun p hp => Lexes.keyword (hparams p hp)
  have hall := Lexes.bar.append_of_anything
    (hwords.append_cons (Lexes.bar.append_of_anything Lexes.space) rfl)
  rw [nil_intercalate] at hall
  rw [paramWords, if_neg hne]
  simpa [Function.comp_def, List.flatMap_def] using hall

theorem blockSource_lexes {params : List String} {body : String} {words : List Word}
    (hparams : ∀ p ∈ params, isName p.toList = true) (hbody : Lexes isBreak body.toList words) :
    Lexes anything (blockSource params body).toList
      (paramWords params ++ (.openBrace, "\x7b") :: (words ++ [(.closeBrace, "\x7d")])) := by
  have hclose := hbody.append_cons (Lexes.space.append_of_anything Lexes.closeBrace) rfl
  have hbraces := Lexes.openBrace.append_of_anything (Lexes.space.append_of_anything hclose)
  rw [blockSource]
  by_cases hne : params.isEmpty = true
  · rw [if_pos hne, paramWords, if_pos hne]
    simpa using hbraces
  · rw [if_neg hne, String.toList_append]
    have hall := (paramSource_lexes hparams hne).append_of_anything hbraces
    simpa using hall

/-- The source of a proper node is cut into its tokens. -/
theorem Node.Proper.lexes {place : Place} {n : Node} (h : n.Proper place) :
    Lexes isBreak n.source.toList n.words := by
  induction h with
  | atom ha => exact ha.lexes
  | @list _ origin items _ ih =>
      have hitems := (Lexes.comma.append_of_anything Lexes.space).intercalate rfl ih
      rw [Node.source, Node.words, Node.sources_eq_map, Node.wordsEach_eq_map]
      simpa [Function.comp_def] using hitems.bracketed
  | @unary _ origin receiver name _ hname ihreceiver =>
      have hmake := Selector.make_some_nil (Selector.isKey_of_isName hname)
      have h := @keywordSend_lexes receiver (some name) [] [] (fun w hw => Option.some.inj hw ▸ hname)
        (by simp) (by rw [hmake, Selector.isBinary_eq_false_of_isName hname])
        rfl ihreceiver (by simp)
      rwa [hmake] at h
  | @binary _ origin receiver operator argument _ hoperator _ ihreceiver ihargument =>
      have hargument := Lexes.space.append_of_anything ihargument
      have hoperation := (Lexes.operatorText hoperator).append_cons hargument rfl
      have hall := ihreceiver.append_cons (Lexes.space.append_of_anything hoperation) rfl
      rw [Node.source, Node.words, sendSource, sendWords, if_pos hoperator, if_pos hoperator]
      simpa [Node.sources, Node.wordsEach] using hall.bracketed
  | @keyword _ origin receiver name keywords args _ hname hkeywords hne hlength _ ihreceiver ihargs =>
      have hbinary := Selector.isBinary_make (Selector.isKey_of_names hname)
        (Selector.isKey_of_names hkeywords) hne
      exact keywordSend_lexes hname hkeywords hbinary hlength ihreceiver ihargs
  | @block _ origin params bodyOrigin body hparams _ _ ihbody =>
      have hbody := (Lexes.semicolon.append_of_anything Lexes.space).intercalate rfl ihbody
      rw [Node.source, Node.words, suiteSource, Node.sources_eq_map, Node.wordsEach_eq_map]
      refine (blockSource_lexes hparams ?_).mono fun _ _ => rfl
      simpa [Function.comp_def] using hbody
  | @store origin target value htarget _ ih =>
      rw [Node.source, Node.words, String.toList_append]
      exact htarget.lexes.append_of_anything ih
  | @answer origin value _ ih =>
      rw [Node.source, Node.words, String.toList_append]
      exact (Lexes.nameSpace (s := "return") rfl).append_of_anything ih

/-- The source of a program of proper statements is cut into its tokens. -/
theorem Node.program_lexes {origin : Option Origin} {statements : List Node}
    (h : ∀ n ∈ statements, n.Proper .statement) :
    Lexes anything (Node.suite origin .program statements).source.toList
      (Node.suite origin .program statements).words := by
  rw [Node.source, Node.words, suiteSource, Node.sources_eq_map, Node.wordsEach_eq_map,
    String.toList_join]
  induction statements with
  | nil => exact Lexes.nil
  | cons n ns ih =>
      have hrest := ih fun m hm => h m (List.mem_cons_of_mem n hm)
      have hend := Lexes.semicolon.append_of_anything (Lexes.blank (c := '\n') rfl)
      have hn := (h n List.mem_cons_self).lexes.append_cons hend rfl
      simpa using hn.append_of_anything hrest

/-- A text that is cut into tokens to its end. -/
theorem Grammar.Lexes.scan {ok : Char → Bool} {text : String} {words : List Word}
    (h : Lexes ok text.toList words) :
    (scan text).tokens.map Token.word = words ∧ (scan text).stray = none := by
  obtain ⟨tokens, stop, hwords, hscan⟩ := h .first [] rfl
  have hend : scanFrom stop [] = ⟨[], none⟩ := by rw [scanFrom]
  rw [List.append_nil, hend] at hscan
  rw [Grammar.scan, hscan, List.append_nil]
  exact ⟨hwords, rfl⟩

end Parley
