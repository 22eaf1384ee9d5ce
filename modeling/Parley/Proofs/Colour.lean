import Mathlib.Data.List.Infix
import Mathlib.Data.List.TakeWhile
import Parley.Colour

/-! Marked text on a terminal and elsewhere. A text is cut at its colour codes, and the cut leaves no code
out: if a code stands anywhere in the text, at least one is found. So a text is left alone exactly if it has
no code, and what a terminal shows of it, its escape sequences apart, is what everybody else gets. Before a
character that stands in no code a text can be parted, and each part is cut on its own. -/

namespace Parley.Colour

/-! Runs of characters -/

/-- The longest run of a class at the head of a text, if it is not empty and `stop` ends it. -/
def run? (p : Char → Bool) (stop : Char) (cs : List Char) : Option (List Char) :=
  let run := cs.takeWhile p
  if run ≠ [] && (cs.dropWhile p).head? = some stop then some run else none

theorem letters?_eq_run? (cs : List Char) : letters? cs = run? isLetter '-' cs := rfl

theorem run?_eq_some_iff {p : Char → Bool} {stop : Char} (hstop : p stop = false) {cs run : List Char} :
    run? p stop cs = some run ↔ run ≠ [] ∧ (∀ c ∈ run, p c = true) ∧ run ++ [stop] <+: cs := by
  simp only [run?, Option.ite_none_right_eq_some, Bool.and_eq_true, decide_eq_true_eq, Option.some.injEq]
  constructor
  · rintro ⟨⟨hne, hhead⟩, rfl⟩
    obtain ⟨rest, hrest⟩ := List.head?_eq_some_iff.mp hhead
    refine ⟨hne, fun c hc => List.mem_takeWhile_imp hc, rest, ?_⟩
    rw [List.append_assoc, List.singleton_append, ← hrest, List.takeWhile_append_dropWhile]
  · rintro ⟨hne, hrun, rest, rfl⟩
    rw [List.append_assoc, List.singleton_append, List.takeWhile_append_of_pos hrun,
      List.dropWhile_append_of_pos hrun, List.takeWhile_cons, List.dropWhile_cons, hstop]
    exact ⟨⟨by simpa using hne, rfl⟩, List.append_nil run⟩

/-! Codes -/

/-- The text of a colour code: a backslash, a dash, letters and a dash. -/
inductive IsCode : List Char → Prop
  | intro {letters : List Char} (hne : letters ≠ []) (hletters : ∀ c ∈ letters, isLetter c = true) :
      IsCode ('\\' :: '-' :: (letters ++ ['-']))

/-- A text in which a colour code stands somewhere. -/
def HasCode (cs : List Char) : Prop := ∃ code, IsCode code ∧ code <:+: cs

theorem letters?_eq_some_iff {cs letters : List Char} : letters? cs = some letters ↔
    letters ≠ [] ∧ (∀ c ∈ letters, isLetter c = true) ∧ letters ++ ['-'] <+: cs := by
  rw [letters?_eq_run?]
  exact run?_eq_some_iff (by decide)

/-- A code at the head of a text is a code that the cut finds there. -/
theorem IsCode.exists_letters? {code cs : List Char} (hcode : IsCode code) (hstart : code <+: cs) :
    ∃ rest letters, cs = '\\' :: '-' :: rest ∧ letters? rest = some letters := by
  obtain ⟨hne, hletters⟩ := hcode
  obtain ⟨more, rfl⟩ := hstart
  exact ⟨_, _, rfl, letters?_eq_some_iff.mpr ⟨hne, hletters, more, rfl⟩⟩

namespace Segment

/-- A segment as it stands in the text. -/
def source : Segment → List Char
  | char c => [c]
  | code letters => '\\' :: '-' :: (letters ++ ['-'])

/-- What is left of a segment without colours. -/
def plain : Segment → List Char
  | char c => [c]
  | code _ => []

end Segment

section Cut

variable {c : Char} {cs letters : List Char}

theorem segments_code (h : letters? cs = some letters) :
    segments ('\\' :: '-' :: cs) = .code letters :: segments (cs.drop (letters.length + 1)) := by
  rw [segments, h]

theorem segments_backslash (h : letters? cs = none) :
    segments ('\\' :: '-' :: cs) = .char '\\' :: segments ('-' :: cs) := by
  rw [segments, h]

theorem segments_cons (h : ∀ rest, c = '\\' → cs = '-' :: rest → False) :
    segments (c :: cs) = .char c :: segments cs :=
  segments.eq_3 c cs h

/-- The cut loses nothing. -/
theorem flatMap_source_segments (cs : List Char) : (segments cs).flatMap Segment.source = cs := by
  induction cs using segments.induct with
  | case1 => rw [segments, List.flatMap_nil]
  | case2 cs letters hletters ih =>
      obtain ⟨-, -, rest, rfl⟩ := letters?_eq_some_iff.mp hletters
      have hrest : (letters ++ ['-'] ++ rest).drop (letters.length + 1) = rest :=
        List.drop_left' (by simp)
      rw [segments_code hletters, List.flatMap_cons, ih, hrest]
      rfl
  | case3 cs hletters ih =>
      rw [segments_backslash hletters, List.flatMap_cons, ih]
      rfl
  | case4 c cs hother ih =>
      rw [segments_cons hother, List.flatMap_cons, ih]
      rfl

theorem mem_of_code_mem_char_cons {l : List Segment} (h : .code letters ∈ .char c :: l) :
    .code letters ∈ l := by
  cases h with
  | tail _ h => exact h

theorem isCode_of_mem_segments (h : .code letters ∈ segments cs) :
    IsCode (Segment.code letters).source := by
  induction cs using segments.induct with
  | case1 =>
      rw [segments] at h
      cases h
  | case2 cs found hfound ih =>
      rw [segments_code hfound] at h
      rcases List.mem_cons.mp h with heq | h
      · obtain rfl := Segment.code.inj heq
        obtain ⟨hne, hletters, -⟩ := letters?_eq_some_iff.mp hfound
        exact .intro hne hletters
      · exact ih h
  | case3 cs hnone ih =>
      rw [segments_backslash hnone] at h
      exact ih (mem_of_code_mem_char_cons h)
  | case4 c cs hother ih =>
      rw [segments_cons hother] at h
      exact ih (mem_of_code_mem_char_cons h)

/-- A code is found if there is any: the cut goes on one character at a time until it meets one. -/
theorem any_isCode_iff (cs : List Char) : (segments cs).any Segment.isCode = true ↔ HasCode cs := by
  constructor
  · intro hany
    obtain ⟨segment, hmem, hcode⟩ := List.any_eq_true.mp hany
    cases segment with
    | char c => cases hcode
    | code letters =>
        refine ⟨_, isCode_of_mem_segments hmem, ?_⟩
        have hinfix := List.infix_of_mem_flatten (List.mem_map_of_mem (f := Segment.source) hmem)
        rwa [← List.flatMap_def, flatMap_source_segments] at hinfix
  · rintro ⟨code, hcode, hinfix⟩
    induction cs using segments.induct with
    | case1 =>
        obtain rfl := List.infix_nil.mp hinfix
        cases hcode
    | case2 cs letters hletters _ =>
        rw [segments_code hletters]
        rfl
    | case3 cs hletters ih =>
        rw [segments_backslash hletters]
        rcases List.infix_cons_iff.mp hinfix with hstart | hinfix
        · obtain ⟨rest, letters, heq, hfound⟩ := hcode.exists_letters? hstart
          obtain rfl := (List.cons.inj (List.cons.inj heq).2).2
          rw [hletters] at hfound
          cases hfound
        · exact ih hinfix
    | case4 c cs hother ih =>
        rw [segments_cons hother]
        rcases List.infix_cons_iff.mp hinfix with hstart | hinfix
        · obtain ⟨rest, letters, heq, -⟩ := hcode.exists_letters? hstart
          obtain ⟨hc, hcs⟩ := List.cons.inj heq
          exact absurd hcs (hother rest hc)
        · exact ih hinfix

theorem isCode_eq_false_of_mem (h : ¬HasCode cs) : ∀ segment ∈ segments cs, segment.isCode = false := by
  intro segment hmem
  rw [← Bool.not_eq_true]
  exact fun hcode => h ((any_isCode_iff cs).mp (List.any_eq_true.mpr ⟨segment, hmem, hcode⟩))

end Cut

/-! Parts of a text -/

/-- A character that stands in no code. -/
structure IsInert (c : Char) : Prop where
  backslash : c ≠ '\\'
  dash : c ≠ '-'
  letter : isLetter c = false

theorem IsInert.not_mem {c : Char} (hc : IsInert c) {letters : List Char}
    (hletters : ∀ d ∈ letters, isLetter d = true) : c ∉ letters ++ ['-'] := by
  rw [List.mem_append, List.mem_singleton, not_or]
  refine ⟨fun hmem => ?_, hc.dash⟩
  exact Bool.false_ne_true (hc.letter.symm.trans (hletters c hmem))

theorem isPrefix_of_isPrefix_append_cons {c : Char} {l cs rest : List Char}
    (h : l <+: cs ++ c :: rest) (hc : c ∉ l) : l <+: cs := by
  rcases List.prefix_or_prefix_of_prefix h (List.prefix_append cs (c :: rest)) with hl | ⟨more, rfl⟩
  · exact hl
  · cases more with
    | nil => rw [List.append_nil]
    | cons d more =>
        obtain ⟨rfl, -⟩ := List.cons_prefix_cons.mp ((List.prefix_append_right_inj cs).mp h)
        exact absurd (List.mem_append_right cs List.mem_cons_self) hc

theorem letters?_append_cons {c : Char} (hc : IsInert c) (cs rest : List Char) :
    letters? (cs ++ c :: rest) = letters? cs := by
  refine Option.ext fun letters => ?_
  rw [letters?_eq_some_iff, letters?_eq_some_iff]
  refine and_congr_right fun _ => and_congr_right fun hletters => ⟨fun h => ?_, fun h => ?_⟩
  · exact isPrefix_of_isPrefix_append_cons h (hc.not_mem hletters)
  · exact h.trans (List.prefix_append cs (c :: rest))

/-- The cut of a text is the cut of what stands before an inert character and of what starts with it. -/
theorem segments_append_cons {c : Char} (hc : IsInert c) (cs rest : List Char) :
    segments (cs ++ c :: rest) = segments cs ++ segments (c :: rest) := by
  induction cs using segments.induct with
  | case1 => rw [segments, List.nil_append, List.nil_append]
  | case2 cs letters hletters ih =>
      have hle : letters.length + 1 ≤ cs.length := by
        obtain ⟨-, -, hstart⟩ := letters?_eq_some_iff.mp hletters
        simpa using hstart.length_le
      have hmore : letters? (cs ++ c :: rest) = some letters :=
        (letters?_append_cons hc cs rest).trans hletters
      rw [List.cons_append, List.cons_append, segments_code hmore, segments_code hletters,
        List.drop_append_of_le_length hle, ih, List.cons_append]
  | case3 cs hletters ih =>
      have hmore : letters? (cs ++ c :: rest) = none :=
        (letters?_append_cons hc cs rest).trans hletters
      rw [List.cons_append] at ih
      rw [List.cons_append, List.cons_append, segments_backslash hmore, segments_backslash hletters, ih,
        List.cons_append]
  | case4 d cs hother ih =>
      have hmore : ∀ more, d = '\\' → cs ++ c :: rest = '-' :: more → False := by
        intro more hd h
        cases cs with
        | nil => exact hc.dash (List.cons.inj h).1
        | cons e cs => exact hother cs hd (congrArg (· :: cs) (List.cons.inj h).1)
      rw [List.cons_append, segments_cons hmore, segments_cons hother, ih, List.cons_append]

theorem segments_cons_of_ne {c : Char} (hc : c ≠ '\\') (cs : List Char) :
    segments (c :: cs) = .char c :: segments cs :=
  segments_cons fun _ heq _ => hc heq

theorem segments_append_of_not_mem {cs : List Char} (h : '\\' ∉ cs) (rest : List Char) :
    segments (cs ++ rest) = cs.map .char ++ segments rest := by
  induction cs with
  | nil => rfl
  | cons c cs ih =>
      obtain ⟨hc, hcs⟩ := not_or.mp (mt List.mem_cons.mpr h)
      rw [List.cons_append, segments_cons_of_ne (Ne.symm hc), ih hcs]
      rfl

/-- A code of one letter is cut off whatever comes after it. -/
theorem segments_letter {c : Char} (hc : isLetter c = true) (rest : List Char) :
    segments ('\\' :: '-' :: c :: '-' :: rest) = .code [c] :: segments rest := by
  have hletters : letters? (c :: '-' :: rest) = some [c] :=
    letters?_eq_some_iff.mpr ⟨List.cons_ne_nil _ _, fun d hd => List.mem_singleton.mp hd ▸ hc,
      List.prefix_append [c, '-'] rest⟩
  exact segments_code hletters

/-! Text without colours -/

theorem toList_strip (text : String) :
    (strip text).toList = (segments text.toList).flatMap Segment.plain := by
  rw [strip, String.toList_ofList, List.filterMap_eq_flatMap_toList]
  congr 1
  funext segment
  cases segment <;> rfl

theorem length_plain_le (segment : Segment) : segment.plain.length ≤ segment.source.length := by
  cases segment with
  | char c => exact le_rfl
  | code letters => exact Nat.zero_le _

theorem length_flatMap_plain_le (l : List Segment) :
    (l.flatMap Segment.plain).length ≤ (l.flatMap Segment.source).length := by
  induction l with
  | nil => exact le_rfl
  | cons segment l ih =>
      rw [List.flatMap_cons, List.flatMap_cons, List.length_append, List.length_append]
      exact Nat.add_le_add (length_plain_le segment) ih

/-- Codes take room in the text and none in what is left. -/
theorem length_flatMap_plain_lt {l : List Segment} (h : l.any Segment.isCode = true) :
    (l.flatMap Segment.plain).length < (l.flatMap Segment.source).length := by
  induction l with
  | nil => cases h
  | cons segment l ih =>
      rw [List.flatMap_cons, List.flatMap_cons, List.length_append, List.length_append]
      cases segment with
      | char c => exact Nat.add_lt_add_of_le_of_lt (length_plain_le (.char c)) (ih h)
      | code letters =>
          have hcode : (Segment.code letters).plain.length < (Segment.code letters).source.length :=
            Nat.succ_pos _
          exact Nat.add_lt_add_of_lt_of_le hcode (length_flatMap_plain_le l)

theorem length_strip_le (text : String) : (strip text).toList.length ≤ text.toList.length := by
  have hle := length_flatMap_plain_le (segments text.toList)
  rwa [flatMap_source_segments, ← toList_strip] at hle

/-- A text is its own plain form exactly if there is no code in it. -/
theorem strip_eq_self_iff (text : String) : strip text = text ↔ ¬HasCode text.toList := by
  constructor
  · intro h hcode
    have hlt := length_flatMap_plain_lt ((any_isCode_iff _).mpr hcode)
    rw [flatMap_source_segments, ← toList_strip, h] at hlt
    exact lt_irrefl _ hlt
  · intro h
    have hplain : ∀ segment ∈ segments text.toList, segment.plain = segment.source := by
      intro segment hmem
      have hsegment := isCode_eq_false_of_mem h segment hmem
      cases segment with
      | char c => rfl
      | code letters => cases hsegment
    apply String.toList_inj.mp
    rw [toList_strip, List.flatMap_congr hplain, flatMap_source_segments]

theorem flatMap_plain_map_char (cs : List Char) : (cs.map Segment.char).flatMap Segment.plain = cs := by
  rw [List.flatMap_map]
  exact List.flatMap_singleton' cs

/-- Two texts with one text between them are both plain exactly if nothing is missing from the whole. -/
theorem strip_append_eq_iff (left middle right : String) :
    strip left ++ middle ++ strip right = left ++ middle ++ right ↔
      ¬HasCode left.toList ∧ ¬HasCode right.toList := by
  rw [← strip_eq_self_iff, ← strip_eq_self_iff]
  constructor
  · intro h
    have hchars := congrArg String.toList h
    simp only [String.toList_append, List.append_assoc] at hchars
    have hlength := congrArg List.length hchars
    simp only [List.length_append] at hlength
    have hleft := length_strip_le left
    have hright := length_strip_le right
    obtain ⟨hl, hmore⟩ := List.append_inj hchars (by omega)
    exact ⟨String.toList_inj.mp hl, String.toList_inj.mp (List.append_cancel_left hmore)⟩
  · rintro ⟨hleft, hright⟩
    rw [hleft, hright]

theorem render_of_not_painted {stream : Stream}
    (h : stream.isTerminal = false ∨ stream.noColour = true) (text : String) :
    render text stream = strip text := by
  rw [render, if_neg]
  rcases h with h | h <;> rw [h] <;> simp

theorem mem_of_mem_strip {text : String} {c : Char} (hc : c ∈ (strip text).toList) : c ∈ text.toList := by
  rw [toList_strip] at hc
  obtain ⟨segment, hmem, hc⟩ := List.mem_flatMap.mp hc
  rw [← flatMap_source_segments text.toList]
  refine List.mem_flatMap.mpr ⟨segment, hmem, ?_⟩
  cases segment with
  | char d => exact hc
  | code letters => cases hc

/-! Text on a terminal -/

/-- The character with which escape sequences begin. -/
def escape : Char := '\x1b'

/-- The text of an escape sequence: an escape and a bracket, digits and an `m`. -/
inductive IsSequence : List Char → Prop
  | intro {digits : List Char} (hne : digits ≠ []) (hdigits : ∀ c ∈ digits, c.isDigit = true) :
      IsSequence (escape :: '[' :: (digits ++ ['m']))

/-- A text without its escape sequences, which are looked for from the left. -/
def unpaint : List Char → List Char
  | [] => []
  | '\x1b' :: '[' :: cs =>
    match run? Char.isDigit 'm' cs with
    | some digits => unpaint (cs.drop (digits.length + 1))
    | none => escape :: unpaint ('[' :: cs)
  | c :: cs => c :: unpaint cs
  termination_by cs => cs.length
  decreasing_by all_goals simp only [List.length_cons, List.length_drop]; omega

theorem unpaint_cons {c : Char} (hc : c ≠ escape) (cs : List Char) :
    unpaint (c :: cs) = c :: unpaint cs :=
  unpaint.eq_3 c cs fun _ h _ => hc h

theorem IsSequence.unpaint_append {cs : List Char} (h : IsSequence cs) (rest : List Char) :
    unpaint (cs ++ rest) = unpaint rest := by
  obtain ⟨hne, hdigits⟩ := h
  rename_i digits
  have hrun : run? Char.isDigit 'm' (digits ++ ['m'] ++ rest) = some digits :=
    (run?_eq_some_iff (by decide)).mpr ⟨hne, hdigits, rest, rfl⟩
  have hrest : (digits ++ ['m'] ++ rest).drop (digits.length + 1) = rest :=
    List.drop_left' (by simp)
  rw [List.cons_append, List.cons_append]
  change unpaint ('\x1b' :: '[' :: _) = _
  rw [unpaint, hrun]
  dsimp only
  rw [hrest]

theorem IsSequence.of_all {digits : List Char} (hne : digits ≠ []) (hdigits : digits.all Char.isDigit = true) :
    IsSequence (escape :: '[' :: (digits ++ ['m'])) :=
  .intro hne (List.all_eq_true.mp hdigits)

theorem isSequence_sequence (c : Char) : IsSequence (sequence c).toList := by
  unfold sequence
  split
  · exact @IsSequence.of_all ['3', '1'] (by decide) (by decide)
  · exact @IsSequence.of_all ['3', '2'] (by decide) (by decide)
  · exact @IsSequence.of_all ['3', '3'] (by decide) (by decide)
  · exact @IsSequence.of_all ['3', '6'] (by decide) (by decide)
  · exact @IsSequence.of_all ['1'] (by decide) (by decide)
  · exact @IsSequence.of_all ['2'] (by decide) (by decide)
  · exact @IsSequence.of_all ['0'] (by decide) (by decide)

theorem unpaint_sequences_append (letters rest : List Char) :
    unpaint ((String.join (letters.map sequence)).toList ++ rest) = unpaint rest := by
  rw [String.toList_join]
  induction letters with
  | nil => rfl
  | cons c letters ih =>
      rw [List.map_cons, List.flatMap_cons, List.append_assoc,
        (isSequence_sequence c).unpaint_append, ih]

theorem toList_apply (text : String) : (apply text).toList =
    (segments text.toList).flatMap (·.paint.toList) ++
      (if (segments text.toList).any Segment.isCode then reset else "").toList := by
  rw [apply, String.toList_append, String.toList_join, List.flatMap_map]

/-- Without its escape sequences a painted text is a plain one, whatever comes after it. -/
theorem unpaint_flatMap_paint {l : List Segment} (h : escape ∉ l.flatMap Segment.plain)
    (rest : List Char) :
    unpaint (l.flatMap (·.paint.toList) ++ rest) = l.flatMap Segment.plain ++ unpaint rest := by
  induction l with
  | nil => rfl
  | cons segment l ih =>
      rw [List.flatMap_cons, List.mem_append, not_or] at h
      rw [List.flatMap_cons, List.flatMap_cons, List.append_assoc, List.append_assoc, ← ih h.2]
      cases segment with
      | char c =>
          have hc : c ≠ escape := fun heq => h.1 (heq ▸ List.mem_singleton_self c)
          rw [Segment.paint, String.toList_singleton]
          exact unpaint_cons hc _
      | code letters => exact unpaint_sequences_append letters _

theorem unpaint_eq_self {cs : List Char} (h : escape ∉ cs) : unpaint cs = cs := by
  induction cs with
  | nil => rw [unpaint]
  | cons c cs ih =>
      obtain ⟨hc, hcs⟩ := not_or.mp (mt List.mem_cons.mpr h)
      rw [unpaint_cons (Ne.symm hc), ih hcs]

theorem apply_of_not_hasCode {text : String} (h : ¬HasCode text.toList) : apply text = text := by
  have hany : ¬(segments text.toList).any Segment.isCode = true := mt (any_isCode_iff _).mp h
  have hpaint : ∀ segment ∈ segments text.toList, segment.paint.toList = segment.source := by
    intro segment hmem
    have hsegment := isCode_eq_false_of_mem h segment hmem
    cases segment with
    | char c => exact String.toList_singleton c
    | code letters => cases hsegment
  apply String.toList_inj.mp
  rw [toList_apply, if_neg hany, List.flatMap_congr hpaint, flatMap_source_segments]
  exact List.append_nil _

theorem reset_suffix_apply {text : String} (h : HasCode text.toList) :
    reset.toList <:+ (apply text).toList := by
  rw [toList_apply, if_pos ((any_isCode_iff _).mpr h)]
  exact List.suffix_append _ _

/-- A text without escapes shows the same on a terminal as elsewhere. Without its escape sequences the
painted text is the plain one, both are the text itself exactly if no code stands in it, and otherwise the
painted one ends by going back to normal. -/
theorem shows_same_text (text : String) (hescape : escape ∉ text.toList) :
    unpaint (apply text).toList = (strip text).toList ∧
    (apply text = text ↔ ¬HasCode text.toList) ∧ (strip text = text ↔ ¬HasCode text.toList) ∧
    (HasCode text.toList → reset.toList <:+ (apply text).toList) ∧
    ∀ stream, unpaint (render text stream).toList = (strip text).toList := by
  have hplain : escape ∉ (strip text).toList := fun hmem => hescape (mem_of_mem_strip hmem)
  have hunpaint : unpaint (apply text).toList = (strip text).toList := by
    have hend : unpaint (if (segments text.toList).any Segment.isCode then reset else "").toList = [] := by
      split_ifs
      · rw [← List.append_nil reset.toList, reset, (isSequence_sequence 'n').unpaint_append, unpaint]
      · exact unpaint_eq_self List.not_mem_nil
    rw [toList_strip] at hplain ⊢
    rw [toList_apply, unpaint_flatMap_paint hplain, hend, List.append_nil]
  refine ⟨hunpaint, ⟨fun h hcode => hescape ?_, apply_of_not_hasCode⟩, strip_eq_self_iff text,
    reset_suffix_apply, fun stream => ?_⟩
  · have hsuffix := reset_suffix_apply hcode
    rw [h] at hsuffix
    exact hsuffix.subset (by decide)
  · rw [render]
    split_ifs
    · exact hunpaint
    · exact unpaint_eq_self hplain

/-- The beginning of a code before another code stays, and so does what follows the other one. -/
theorem shows_same_text_overlapping : escape ∉ "\\-\\-r-r-".toList ∧
    unpaint (apply "\\-\\-r-r-").toList = "\\-r-".toList ∧ strip "\\-\\-r-r-" ≠ "\\-\\-r-r-" ∧
    reset.toList <:+ (apply "\\-\\-r-r-").toList := by
  have hescape : escape ∉ "\\-\\-r-r-".toList := by decide
  obtain ⟨hunpaint, -, hself, hreset, -⟩ := shows_same_text "\\-\\-r-r-" hescape
  have hcode : HasCode "\\-\\-r-r-".toList :=
    ⟨_, @IsCode.intro ['r'] (by decide) (by simp [isLetter]), ['\\', '-'], ['r', '-'], rfl⟩
  have hplain : strip "\\-\\-r-r-" = "\\-r-" := by cbv
  rw [hplain] at hunpaint
  exact ⟨hescape, hunpaint, fun h => hself.mp h hcode, hreset hcode⟩

end Parley.Colour
