import FluentLog.Proofs.Code.Comment
import Mathlib.Data.List.Sort

namespace FluentLog

/-!
# Where a text is cut

Splitting gives the parts of a text, untrimmed and in order, so each separator between
two of them stands behind a *front*: the first part, the first two parts with the separator
between them, and so on.  `cutFronts` lists the fronts, `cutOffsets` the places of the
separators in bytes.

A walk over the same text tells its cursor about line ends, and the splitter does not.  So
the two of them find the same commas exactly if line ends make no difference to any comma.
That is so in every text with no literal open at a line end.
-/

/-! ## Fronts -/

/-- The texts in front of the separators between parts, which all stand behind
`done`. -/
def fronts (separator : Char) (done first : Text) : List Text -> List Text
  | [] => []
  | next :: others =>
      (done ++ first) :: fronts separator (done ++ first ++ [separator]) next others

def cutFronts (separator : Char) (text : Text) : List Text :=
  fronts separator [] (splitFrom separator .start text).1 (splitFrom separator .start text).2

def cutOffsets (separator : Char) (text : Text) : List Nat :=
  (cutFronts separator text).map fun front => (Utf8.encode front).length

/-- The offsets of the commas that a walk reports outside of parentheses. -/
def commaOffsets (text : Bytes) : List Nat :=
  ((Walk.start text 0).remaining.1.filter fun point =>
    point.byte = Byte.comma && point.depth = 0).map CodeByte.offset

theorem intercalate_splitFrom (separator : Char) (cursor : Cursor) (text : Text) :
    [separator].intercalate
      ((splitFrom separator cursor text).1 :: (splitFrom separator cursor text).2) = text := by
  fun_induction splitFrom separator cursor text with
  | case1 cursor => rfl
  | case2 cursor character isCut => rw [isCut.1]; rfl
  | case3 cursor character noCut => simp [List.intercalate]
  | case4 cursor character following rest isCut isIncrement first others split ih =>
      rw [split] at ih
      cases others <;> simp_all [List.intercalate]
  | case5 cursor character following rest isCut notIncrement first others split ih =>
      rw [split] at ih
      rw [← ih, isCut.1]
      simp [List.intercalate]
  | case6 cursor character following rest noCut first others split ih =>
      rw [split] at ih
      rw [← ih]
      cases others <;> simp [List.intercalate]

variable {separator : Char} {done first : Text}

theorem fronts_cons (character : Char) (others : List Text) :
    fronts separator done (character :: first) others =
      fronts separator (done ++ [character]) first others := by
  cases others with
  | nil => rfl
  | cons next others => simp [fronts]

theorem prefix_of_mem_fronts {others : List Text} {front : Text}
    (member : front ∈ fronts separator done first others) : done ++ first <+: front := by
  induction others generalizing done first with
  | nil => cases member
  | cons next others ih =>
      rcases List.mem_cons.mp member with rfl | behind
      · exact List.prefix_rfl
      · exact (List.prefix_append _ _).trans ((List.prefix_append _ _).trans (ih behind))

theorem pairwise_fronts (separator : Char) (done first : Text) (others : List Text) :
    (fronts separator done first others).Pairwise fun earlier later =>
      earlier ++ [separator] <+: later := by
  induction others generalizing done first with
  | nil => exact .nil
  | cons next others ih =>
      refine List.pairwise_cons.mpr ⟨fun later member => ?_, ih _ _⟩
      exact (List.prefix_append _ _).trans (prefix_of_mem_fronts member)

/-- A separator other than the plus sign cuts wherever nothing is open. -/
theorem splitFrom_cons_of_ne_plus (notPlus : separator ≠ '+') (cursor : Cursor) (character : Char)
    (rest : Text) :
    splitFrom separator cursor (character :: rest) =
      if character = separator ∧ cursor.isUnnested = true then
        ([], (splitFrom separator cursor rest).1 :: (splitFrom separator cursor rest).2)
      else
        (character :: (splitFrom separator (cursor.feedChar character) rest).1,
          (splitFrom separator (cursor.feedChar character) rest).2) := by
  split
  · rename_i isCut
    cases rest with
    | nil => exact if_pos isCut
    | cons following rest => rw [splitFrom, if_pos isCut, if_neg fun plus => notPlus plus.1]
  · rename_i noCut
    exact splitFrom_cons_of_noCut noCut rest

theorem mem_fronts_splitFrom_iff (notPlus : separator ≠ '+')
    (keeps : Cursor.start.feedChar separator = .start) {cursor : Cursor} {text front : Text} :
    front ∈ fronts separator done (splitFrom separator cursor text).1
        (splitFrom separator cursor text).2 ↔
      ∃ between rest, front = done ++ between ∧ text = between ++ separator :: rest ∧
        (cursor.feedText between).isUnnested = true := by
  induction text generalizing cursor done with
  | nil =>
      refine ⟨(nomatch ·), ?_⟩
      rintro ⟨between, rest, -, same, -⟩
      simp at same
  | cons character text ih =>
      rw [splitFrom_cons_of_ne_plus notPlus]
      split
      · rename_i isCut
        rcases isCut with ⟨rfl, unnested⟩
        rw [fronts, List.mem_cons, ih, List.append_nil]
        have stays : cursor.feedChar character = cursor := by
          rw [Cursor.eq_start_of_isUnnested unnested, keeps]
        constructor
        · rintro (rfl | ⟨between, rest, rfl, rfl, outside⟩)
          · exact ⟨[], text, (List.append_nil _).symm, rfl, unnested⟩
          · refine ⟨character :: between, rest, by simp, rfl, ?_⟩
            rw [Cursor.feedText_cons, stays]
            exact outside
        · rintro ⟨between, rest, rfl, same, outside⟩
          cases between with
          | nil => exact .inl (List.append_nil _)
          | cons first between =>
              rcases List.cons.inj same with ⟨rfl, rfl⟩
              rw [Cursor.feedText_cons, stays] at outside
              exact .inr ⟨between, rest, by simp, rfl, outside⟩
      · rename_i noCut
        rw [fronts_cons, ih]
        constructor
        · rintro ⟨between, rest, rfl, rfl, outside⟩
          exact ⟨character :: between, rest, by simp, rfl, outside⟩
        · rintro ⟨between, rest, rfl, same, outside⟩
          cases between with
          | nil => exact absurd ⟨(List.cons.inj same).1, outside⟩ noCut
          | cons first between =>
              rcases List.cons.inj same with ⟨rfl, rfl⟩
              exact ⟨between, rest, by simp, rfl, outside⟩

/-- A text is cut at each separator, other than plus signs, in front of which
nothing is open. -/
theorem mem_cutFronts_iff (notPlus : separator ≠ '+')
    (keeps : Cursor.start.feedChar separator = .start) {text front : Text} :
    front ∈ cutFronts separator text ↔
      (∃ rest, text = front ++ separator :: rest) ∧
        (Cursor.start.feedText front).isUnnested = true := by
  rw [cutFronts, mem_fronts_splitFrom_iff notPlus keeps]
  constructor
  · rintro ⟨between, rest, rfl, isText, outside⟩
    exact ⟨⟨rest, isText⟩, outside⟩
  · rintro ⟨⟨rest, isText⟩, outside⟩
    exact ⟨front, rest, rfl, isText, outside⟩

/-! ## Texts that are not cut -/

theorem cutFronts_eq_nil_iff {text : Text} :
    cutFronts separator text = [] ↔ (splitFrom separator .start text).2 = [] := by
  unfold cutFronts
  cases (splitFrom separator .start text).2 <;> simp [fronts]

theorem splitUnnested_of_uncut {text : Text} (uncut : cutFronts separator text = []) :
    splitUnnested separator text = [Text.trim text].filter (!·.isEmpty) := by
  rw [cutFronts_eq_nil_iff] at uncut
  have whole := intercalate_splitFrom separator .start text
  rw [uncut, List.intercalate_singleton] at whole
  rw [splitUnnested_eq, uncut, whole]
  rfl

/-! ## Two texts in a row -/

/-- Whether no pair of plus signs can stand across the seam of two texts. -/
def AreApart (separator : Char) (left right : Text) : Prop :=
  separator = '+' -> left.getLast? ≠ some '+' ∨ right.head? ≠ some '+'

theorem areApart_of_getLast? {left right : Text} (last : left.getLast? ≠ some separator) :
    AreApart separator left right := by
  rintro rfl
  exact .inl last

/-- The parts of a text followed by those of another one.  The last part of
the first and the first part of the second become one. -/
def glue (first : Text) : List Text -> Text × List Text -> Text × List Text
  | [], behind => (first ++ behind.1, behind.2)
  | next :: others, behind => (first, (glue next others behind).1 :: (glue next others behind).2)

theorem glue_cons (character : Char) (first : Text) (others : List Text)
    (behind : Text × List Text) :
    glue (character :: first) others behind =
      (character :: (glue first others behind).1, (glue first others behind).2) := by
  cases others <;> rfl

theorem glue_eq_nil_iff {others : List Text} {behind : Text × List Text} :
    (glue first others behind).2 = [] ↔ others = [] ∧ behind.2 = [] := by
  cases others <;> simp [glue]

/-- The first part of what follows ends a part, and the others are left as
they are. -/
theorem glue_eq (others parts : List Text) (last : Text) :
    glue first others (last, parts) =
      ((glue first others (last, [])).1, (glue first others (last, [])).2 ++ parts) := by
  induction others generalizing first with
  | nil => rfl
  | cons next others ih => rw [glue, glue, ih, List.cons_append]

theorem fronts_glue (others : List Text) (behind : Text × List Text) :
    fronts separator done (glue first others behind).1 (glue first others behind).2 =
      fronts separator done first others ++
        fronts separator (done ++ [separator].intercalate (first :: others)) behind.1 behind.2 := by
  induction others generalizing done first with
  | nil =>
      rw [glue, List.intercalate_singleton]
      cases behind.2 <;> simp [fronts]
  | cons next others ih =>
      rw [glue, fronts, fronts, ih]
      simp [List.intercalate]

theorem AreApart.tail {character : Char} {left right : Text}
    (apart : AreApart separator (character :: left) right) : AreApart separator left right := by
  intro isPlus
  refine (apart isPlus).imp_left fun last => ?_
  cases left with
  | nil => exact nofun
  | cons following left => rwa [List.getLast?_cons_cons] at last

/-- Where no pair of plus signs stands across the seam, the parts of a text
are those in front of the seam and those behind it. -/
theorem splitFrom_append (keeps : Cursor.start.feedChar separator = .start) {cursor : Cursor}
    {left right : Text} (apart : AreApart separator left right) :
    splitFrom separator cursor (left ++ right) =
      glue (splitFrom separator cursor left).1 (splitFrom separator cursor left).2
        (splitFrom separator (cursor.feedText left) right) := by
  have stays : forall {cursor : Cursor} {character : Char} {rest : Text},
      character = separator ∧ cursor.isUnnested = true ->
      cursor.feedText (character :: rest) = cursor.feedText rest := by
    rintro cursor character rest ⟨rfl, unnested⟩
    rw [Cursor.feedText_cons, Cursor.eq_start_of_isUnnested unnested, keeps]
  fun_induction splitFrom separator cursor left with
  | case1 cursor => rfl
  | case2 cursor character isCut =>
      rw [stays isCut, List.singleton_append]
      cases right with
      | nil =>
          simp only [splitFrom, isCut, and_self, if_true]
          rfl
      | cons following rest =>
          have notIncrement : ¬ (separator = '+' ∧ following = '+') := by
            rintro ⟨isPlus, rfl⟩
            rcases apart isPlus with last | head
            · exact last (congrArg some (isCut.1.trans isPlus))
            · exact head rfl
          rw [splitFrom, if_pos isCut, if_neg notIncrement]
          rfl
  | case3 cursor character noCut =>
      rw [List.singleton_append, splitFrom_cons_of_noCut noCut]
      rfl
  | case4 cursor character following rest isCut isIncrement first others split ih =>
      have isCutBehind : following = separator ∧ cursor.isUnnested = true :=
        ⟨isIncrement.2.trans isIncrement.1.symm, isCut.2⟩
      rw [List.cons_append, List.cons_append, splitFrom, if_pos isCut, if_pos isIncrement,
        ih apart.tail.tail, stays isCut, stays isCutBehind, split, glue_cons, glue_cons]
  | case5 cursor character following rest isCut notIncrement first others split ih =>
      have behind := ih apart.tail
      rw [List.cons_append] at behind
      rw [List.cons_append, List.cons_append, splitFrom, if_pos isCut, if_neg notIncrement,
        behind, stays isCut, split]
      rfl
  | case6 cursor character following rest noCut first others split ih =>
      have behind := ih apart.tail
      rw [split] at behind
      rw [List.cons_append, splitFrom_cons_of_noCut noCut, behind, glue_cons]
      rfl

theorem cutFronts_append (keeps : Cursor.start.feedChar separator = .start) {left right : Text}
    (apart : AreApart separator left right) (back : Cursor.start.feedText left = .start) :
    cutFronts separator (left ++ right) =
      cutFronts separator left ++ fronts separator left (splitFrom separator .start right).1
        (splitFrom separator .start right).2 := by
  rw [cutFronts, splitFrom_append keeps apart, back, fronts_glue, intercalate_splitFrom,
    List.nil_append]
  rfl

theorem cutFronts_append_eq_nil_iff (keeps : Cursor.start.feedChar separator = .start)
    {left right : Text} (apart : AreApart separator left right)
    (back : Cursor.start.feedText left = .start) :
    cutFronts separator (left ++ right) = [] ↔
      cutFronts separator left = [] ∧ cutFronts separator right = [] := by
  simp only [cutFronts_eq_nil_iff]
  rw [splitFrom_append keeps apart, back, glue_eq_nil_iff]

theorem cutFronts_append_of_noCut {stretch rest : Text} (noCut : NoCut separator .start stretch)
    (back : Cursor.start.feedText stretch = .start) :
    cutFronts separator (stretch ++ rest) = [] ↔ cutFronts separator rest = [] := by
  rw [cutFronts_eq_nil_iff, cutFronts_eq_nil_iff, splitFrom_append_of_noCut noCut, back]

/-! ## One part at a time -/

/-- Either a text is not cut, or its first part ends, where nothing is open,
in front of a separator, and the other parts are those of the text behind it. -/
theorem splitFrom_peel (keeps : Cursor.start.feedChar separator = .start)
    (cursor : Cursor) (text : Text) :
    (text = (splitFrom separator cursor text).1 ∧ (splitFrom separator cursor text).2 = []) ∨
      ∃ rest, text = (splitFrom separator cursor text).1 ++ separator :: rest ∧
        cursor.feedText (splitFrom separator cursor text).1 = .start ∧
        (splitFrom separator cursor text).2 =
          (splitFrom separator .start rest).1 :: (splitFrom separator .start rest).2 := by
  fun_induction splitFrom separator cursor text with
  | case1 cursor => exact .inl ⟨rfl, rfl⟩
  | case2 cursor character isCut =>
      exact .inr ⟨[], by rw [isCut.1]; rfl, Cursor.eq_start_of_isUnnested isCut.2, rfl⟩
  | case3 cursor character noCut => exact .inl ⟨rfl, rfl⟩
  | case4 cursor character following rest isCut isIncrement first others split ih =>
      rw [split] at ih
      rcases ih with ⟨isText, noOthers⟩ | ⟨behind, isText, outside, isOthers⟩
      · exact .inl ⟨congrArg (character :: following :: ·) isText, noOthers⟩
      · refine .inr ⟨behind, ?_, ?_, isOthers⟩
        · exact congrArg (character :: following :: ·) isText
        · have keepsFirst : Cursor.start.feedChar character = .start := isCut.1 ▸ keeps
          have keepsSecond : Cursor.start.feedChar following = .start := by
            rw [isIncrement.2, ← isIncrement.1]
            exact keeps
          rw [Cursor.eq_start_of_isUnnested isCut.2] at outside ⊢
          rw [Cursor.feedText_cons, Cursor.feedText_cons, keepsFirst, keepsSecond]
          exact outside
  | case5 cursor character following rest isCut notIncrement first others split ih =>
      rw [Cursor.eq_start_of_isUnnested isCut.2] at split ⊢
      exact .inr ⟨following :: rest, by rw [isCut.1]; rfl, rfl, by rw [split]⟩
  | case6 cursor character following rest noCut first others split ih =>
      rw [split] at ih
      rcases ih with ⟨isText, noOthers⟩ | ⟨behind, isText, outside, isOthers⟩
      · exact .inl ⟨congrArg (character :: ·) isText, noOthers⟩
      · exact .inr ⟨behind, congrArg (character :: ·) isText, outside, isOthers⟩

/-- Either a text is not cut and is its only part, or its parts are that in
front of the first cut and those of the text behind it. -/
theorem splitUnnested_peel (keeps : Cursor.start.feedChar separator = .start)
    (text : Text) :
    (cutFronts separator text = [] ∧
        splitUnnested separator text = [Text.trim text].filter (!·.isEmpty)) ∨
      ∃ first rest, text = first ++ separator :: rest ∧ Cursor.start.feedText first = .start ∧
        splitUnnested separator text =
          [Text.trim first].filter (!·.isEmpty) ++ splitUnnested separator rest := by
  rcases splitFrom_peel keeps .start text with
    ⟨isText, noOthers⟩ | ⟨rest, isText, outside, isOthers⟩
  · left
    rw [cutFronts_eq_nil_iff, splitUnnested_eq, noOthers, ← isText]
    exact ⟨rfl, rfl⟩
  · right
    refine ⟨_, rest, isText, outside, ?_⟩
    rw [splitUnnested_eq, isOthers, List.map_cons, ← List.singleton_append, List.filter_append]
    rfl

theorem isInfix_of_mem_splitUnnested
    (keeps : Cursor.start.feedChar separator = .start) {text part : Text}
    (member : part ∈ splitUnnested separator text) : part <:+: text := by
  have trimmed : forall {text : Text}, part ∈ [Text.trim text].filter (!·.isEmpty) ->
      part <:+: text := by
    intro text isPart
    rw [List.mem_singleton.mp (List.mem_of_mem_filter isPart)]
    rcases Text.exists_trim text with ⟨lead, trail, whole, -, -⟩
    exact ⟨lead, trail, whole.symm⟩
  rcases splitUnnested_peel keeps text with ⟨-, isOnly⟩ | ⟨first, rest, isText, -, isSplit⟩
  · exact trimmed (isOnly ▸ member)
  · have shorter : rest.length < text.length := by
      rw [isText, List.length_append, List.length_cons]
      omega
    rw [isSplit] at member
    rcases List.mem_append.mp member with inFirst | inRest
    · exact (trimmed inFirst).trans ⟨[], separator :: rest, isText.symm⟩
    · apply (isInfix_of_mem_splitUnnested keeps inRest).trans
      exact ⟨first ++ [separator], [], by simp [isText]⟩
termination_by text.length

theorem splitUnnested_ne_nil (keeps : Cursor.start.feedChar separator = .start) {text : Text}
    {character : Char} (member : character ∈ text) (notBlank : isBlank character = false)
    (other : character ≠ separator) : splitUnnested separator text ≠ [] := by
  have trimmed : forall {text : Text}, character ∈ text ->
      [Text.trim text].filter (!·.isEmpty) ≠ [] := by
    intro text inText isEmpty
    exact Text.trim_ne_nil inText notBlank (by simpa using isEmpty)
  rcases splitUnnested_peel keeps text with ⟨-, isOnly⟩ | ⟨first, rest, isText, -, isSplit⟩
  · exact isOnly ▸ trimmed member
  · have shorter : rest.length < text.length := by
      rw [isText, List.length_append, List.length_cons]
      omega
    rw [isText, List.mem_append, List.mem_cons] at member
    rw [isSplit, Ne, List.append_eq_nil_iff, not_and_or]
    rcases member with inFirst | isSeparator | inRest
    · exact .inl (trimmed inFirst)
    · exact absurd isSeparator other
    · exact .inr (splitUnnested_ne_nil keeps inRest notBlank other)
termination_by text.length

/-! ## The commas of a text -/

/-- A walk reports the commas in front of which its scanner has nothing open. -/
theorem mem_commaOffsets_iff {text : Bytes} {offset : Nat} :
    offset ∈ commaOffsets text ↔
      ∃ front rest, text = front ++ Byte.comma :: rest ∧ offset = front.length ∧
        Scanner.start.run (some Byte.comma) front = .start := by
  have reported : forall {scanner : Scanner} {ahead : Option UInt8},
      (scanner.step Byte.comma ahead).1 = some 0 ↔ scanner = .start := by
    intro scanner ahead
    constructor
    · exact Scanner.eq_atRest_of_step
    · rintro rfl
      rfl
  unfold commaOffsets
  simp only [List.mem_map, List.mem_filter, Bool.and_eq_true, decide_eq_true_eq,
    Walk.mem_remaining_iff, Scanner.mem_codeBytes_iff]
  constructor
  · rintro ⟨⟨_, _, _⟩, ⟨⟨⟨front, rest, isText, atOffset, step⟩, -⟩, rfl, rfl⟩, rfl⟩
    exact ⟨front, rest, isText, atOffset.trans (Nat.zero_add _), reported.mp step⟩
  · rintro ⟨front, rest, rfl, rfl, isStart⟩
    refine ⟨⟨front.length, Byte.comma, 0⟩, ⟨⟨⟨front, rest, rfl, (Nat.zero_add _).symm, ?_⟩, ?_⟩,
      rfl, rfl⟩, rfl⟩
    · exact reported.mpr isStart
    · simp [Walk.start]

theorem pairwise_commaOffsets (text : Bytes) : (commaOffsets text).Pairwise (· < ·) := by
  rw [commaOffsets, Walk.remaining, Walk.take_eq_filter_codeBytes (Nat.le_refl _),
    List.pairwise_map]
  exact ((Scanner.pairwise_codeBytes _ _ _).filter _).filter _

theorem pairwise_cutOffsets (separator : Char) (text : Text) :
    (cutOffsets separator text).Pairwise (· < ·) := by
  rw [cutOffsets, List.pairwise_map]
  refine (pairwise_fronts _ _ _ _).imp fun {earlier later} => ?_
  rintro ⟨between, rfl⟩
  have positive : 0 < (String.utf8EncodeChar separator).length := by
    rw [String.length_utf8EncodeChar]
    exact separator.utf8Size_pos
  simp only [Utf8.encode_append, Utf8.encode_cons, List.length_append]
  omega

/-- Two ways of finding commas in a text, by what stands in front of them,
find the same ones exactly if they agree about each comma. -/
theorem forall_offset_iff {text : Text} (first second : Text -> Bool) :
    (∀ offset, (∃ front rest, text = front ++ ',' :: rest ∧
          offset = (Utf8.encode front).length ∧ first front = true) ↔
        ∃ front rest, text = front ++ ',' :: rest ∧
          offset = (Utf8.encode front).length ∧ second front = true) ↔
      ∀ front rest, text = front ++ ',' :: rest -> first front = second front := by
  have unique : forall {front other rest behind : Text}, text = front ++ ',' :: rest ->
      text = other ++ ',' :: behind ->
      (Utf8.encode front).length = (Utf8.encode other).length -> front = other := by
    rintro front other rest behind rfl isText sameLength
    have sameBytes := congrArg Utf8.encode isText
    rw [Utf8.encode_append, Utf8.encode_append] at sameBytes
    rw [← Utf8.decode_encode front, (List.append_inj sameBytes sameLength).1,
      Utf8.decode_encode]
  constructor
  · intro same front rest isText
    rw [Bool.eq_iff_iff]
    constructor
    · intro isFirst
      rcases (same _).mp ⟨front, rest, isText, rfl, isFirst⟩ with
        ⟨other, behind, isOther, sameLength, isSecond⟩
      rw [unique isText isOther sameLength]
      exact isSecond
    · intro isSecond
      rcases (same _).mpr ⟨front, rest, isText, rfl, isSecond⟩ with
        ⟨other, behind, isOther, sameLength, isFirst⟩
      rw [unique isText isOther sameLength]
      exact isFirst
  · intro agree offset
    constructor
    · rintro ⟨front, rest, isText, atOffset, isFirst⟩
      exact ⟨front, rest, isText, atOffset, agree front rest isText ▸ isFirst⟩
    · rintro ⟨front, rest, isText, atOffset, isSecond⟩
      exact ⟨front, rest, isText, atOffset, (agree front rest isText).symm ▸ isSecond⟩

theorem mem_cutOffsets_iff {text : Text} {offset : Nat} :
    offset ∈ cutOffsets ',' text ↔
      ∃ front rest, text = front ++ ',' :: rest ∧ offset = (Utf8.encode front).length ∧
        (Cursor.start.feed (Utf8.encode front)).isUnnested = true := by
  rw [cutOffsets, List.mem_map]
  constructor
  · rintro ⟨front, member, rfl⟩
    rcases (mem_cutFronts_iff (by decide) (by decide)).mp member with ⟨⟨rest, isText⟩, outside⟩
    rw [← Cursor.feed_encode] at outside
    exact ⟨front, rest, isText, rfl, outside⟩
  · rintro ⟨front, rest, isText, rfl, outside⟩
    rw [Cursor.feed_encode] at outside
    exact ⟨front, (mem_cutFronts_iff (by decide) (by decide)).mpr ⟨⟨rest, isText⟩, outside⟩, rfl⟩

/-- The commas that a walk over a text without comments reports outside of
parentheses. -/
theorem mem_commaOffsets_encode_iff {text : Text}
    (noComment : hasComment (Utf8.encode text) = false) {offset : Nat} :
    offset ∈ commaOffsets (Utf8.encode text) ↔
      ∃ front rest, text = front ++ ',' :: rest ∧ offset = (Utf8.encode front).length ∧
        (Cursor.start.feedLines (Utf8.encode front)).isUnnested = true := by
  have atRest : forall {front rest : Bytes}, Utf8.encode text = front ++ Byte.comma :: rest ->
      (Scanner.start.run (some Byte.comma) front = .start ↔
        (Cursor.start.feedLines front).isUnnested = true) := by
    intro front rest same
    rw [same] at noComment
    have read := Cursor.run_of_noComment noComment
    rw [List.head?_cons] at read
    change Scanner.run ⟨.start, .code⟩ _ _ = ⟨.start, .code⟩ ↔ _
    rw [read]
    constructor
    · intro isStart
      have sameCursor : Cursor.start.feedLines front = .start := congrArg Scanner.cursor isStart
      rw [sameCursor]
      rfl
    · intro unnested
      rw [Cursor.eq_start_of_isUnnested unnested]
  rw [mem_commaOffsets_iff]
  constructor
  · rintro ⟨left, right, same, rfl, isStart⟩
    rcases Utf8.exists_of_encode_eq (by decide) same with ⟨front, rest, rfl, rfl, isText⟩
    exact ⟨front, rest, isText, rfl, (atRest same).mp isStart⟩
  · rintro ⟨front, rest, rfl, rfl, unnested⟩
    have same : Utf8.encode (front ++ ',' :: rest) =
        Utf8.encode front ++ Byte.comma :: Utf8.encode rest := Utf8.encode_append _ _
    exact ⟨_, _, same, rfl, (atRest same).mpr unnested⟩

/-- A text without comments is cut at the commas that a walk over it reports
outside of parentheses exactly if line ends make no difference to a cursor in
front of any comma.  So it is whenever no literal is open at a line end. -/
theorem cutOffsets_eq_commaOffsets_iff {text : Text}
    (noComment : hasComment (Utf8.encode text) = false) :
    (cutOffsets ',' text = commaOffsets (Utf8.encode text) ↔
      ∀ front rest, text = front ++ ',' :: rest ->
        (Cursor.start.feed (Utf8.encode front)).isUnnested =
          (Cursor.start.feedLines (Utf8.encode front)).isUnnested) ∧
    (Scanner.start.KeepsLines (Utf8.encode text) ->
      cutOffsets ',' text = commaOffsets (Utf8.encode text)) := by
  have exactly : cutOffsets ',' text = commaOffsets (Utf8.encode text) ↔
      ∀ front rest, text = front ++ ',' :: rest ->
        (Cursor.start.feed (Utf8.encode front)).isUnnested =
          (Cursor.start.feedLines (Utf8.encode front)).isUnnested := by
    rw [← forall_offset_iff]
    simp only [← mem_cutOffsets_iff, ← mem_commaOffsets_encode_iff noComment]
    constructor
    · intro same offset
      rw [same]
    · exact fun same =>
        (pairwise_cutOffsets ',' text).eq_of_mem_iff (pairwise_commaOffsets _) same
  refine ⟨exactly, fun keeps => exactly.mpr ?_⟩
  rintro front rest rfl
  unfold hasComment at noComment
  rw [Utf8.encode_append] at noComment keeps
  rw [Cursor.feedLines_of_keepsLines noComment keeps]

/-- Parentheses, escapes and other literals across lines do no harm. -/
theorem cutOffsets_eq_commaOffsets_acrossLines :
    hasComment (Utf8.encode "f(a,\"x,\\\"y\",')'),\nb,(c\n,d)".toList) = false ∧
      Scanner.start.KeepsLines (Utf8.encode "f(a,\"x,\\\"y\",')'),\nb,(c\n,d)".toList) ∧
      cutOffsets ',' "f(a,\"x,\\\"y\",')'),\nb,(c\n,d)".toList =
        commaOffsets (Utf8.encode "f(a,\"x,\\\"y\",')'),\nb,(c\n,d)".toList) :=
  ⟨by decide +kernel, by decide +kernel,
    (cutOffsets_eq_commaOffsets_iff (by decide +kernel)).2 (by decide +kernel)⟩

/-- A quote that no literal closes in its line hides the commas of the next
lines from the splitter, and from it alone. -/
theorem cutOffsets_ne_commaOffsets_openQuote :
    hasComment (Utf8.encode ['"', '\n', ',', 'a']) = false ∧
      splitUnnested ',' ['"', '\n', ',', 'a'] = [['"', '\n', ',', 'a']] ∧
      cutOffsets ',' ['"', '\n', ',', 'a'] ≠ commaOffsets (Utf8.encode ['"', '\n', ',', 'a']) := by
  decide +kernel

end FluentLog
