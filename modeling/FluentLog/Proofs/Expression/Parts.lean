import FluentLog.Proofs.Expression.Closed
import FluentLog.Proofs.Expression.Cuts

namespace FluentLog

/-!
# The parts of a text

Splitting loses nothing but blanks and separators, splits no part again, and undoes joining.
All three rest on how two texts in a row are cut, together with the fact that the cursor is
back at the start behind each cut.

Plus signs need a closer look.  A run of them is read in pairs from the left, so of a longest
run outside of everything only the last sign can cut, and it does if the run is odd.
-/

variable {separator : Char}

/-- Commas and plus signs are the separators in use. -/
def IsSeparator (separator : Char) : Prop :=
  separator = ',' ∨ separator = '+'

instance (separator : Char) : Decidable (IsSeparator separator) :=
  inferInstanceAs (Decidable (_ ∨ _))

namespace IsSeparator

variable (isSeparator : IsSeparator separator)

include isSeparator

theorem keeps : Cursor.start.feedChar separator = .start := by
  rcases isSeparator with rfl | rfl <;> rfl

theorem not_mem_blanks {blanks : Text} (blank : ∀ character ∈ blanks, isBlank character = true) :
    separator ∉ blanks := by
  intro member
  have isBlank := blank separator member
  rcases isSeparator with rfl | rfl <;> cases isBlank

theorem apart_blanks {blanks : Text} (blank : ∀ character ∈ blanks, isBlank character = true)
    (text : Text) : AreApart separator text blanks := by
  rintro rfl
  exact .inr fun head => isSeparator.not_mem_blanks blank (List.mem_of_head? head)

end IsSeparator

/-! ## Slices -/

/-- Whether a stretch behind a text consists of blanks and of separators
outside of literals and parentheses. -/
def IsSpacing (separator : Char) (before spacing : Text) : Prop :=
  forall left character right, spacing = left ++ character :: right ->
    isBlank character = true ∨
      character = separator ∧
        (Cursor.start.feed (Utf8.encode (before ++ left))).isUnnested = true

/-- Whether the parts are slices of a text, one behind the other, with nothing
but spacing in front of, between and behind them.  The text stands behind
another one. -/
def AreSlices (separator : Char) (before text : Text) : List Text -> Prop
  | [] => IsSpacing separator before text
  | part :: parts =>
      ∃ spacing rest, text = spacing ++ part ++ rest ∧ IsSpacing separator before spacing ∧
        AreSlices separator (before ++ spacing ++ part) rest parts

theorem isSpacing_of_isBlank {before blanks : Text}
    (blank : ∀ character ∈ blanks, isBlank character = true) :
    IsSpacing separator before blanks := by
  rintro left character right rfl
  exact .inl (blank character (List.mem_append_right left List.mem_cons_self))

theorem isSpacing_singleton {before : Text}
    (unnested : (Cursor.start.feedText before).isUnnested = true) :
    IsSpacing separator before [separator] := by
  intro left character right same
  cases left with
  | nil =>
      right
      rw [List.append_nil, Cursor.feed_encode]
      exact ⟨(List.cons.inj same).1.symm, unnested⟩
  | cons first left =>
      have noMore := (List.cons.inj same).2
      cases left <;> cases noMore

theorem IsSpacing.append {before first second : Text} (isFirst : IsSpacing separator before first)
    (isSecond : IsSpacing separator (before ++ first) second) :
    IsSpacing separator before (first ++ second) := by
  intro left character right same
  rcases List.append_eq_append_iff.mp same with ⟨middle, rfl, isRest⟩ | ⟨middle, rfl, isRest⟩
  · rw [← List.append_assoc]
    exact isSecond middle character right isRest
  · cases middle with
    | nil =>
        rw [List.append_nil] at isSecond
        have atSeam := isSecond [] character right isRest.symm
        rwa [List.append_nil] at atSeam
    | cons head middle =>
        rcases List.cons.inj isRest with ⟨rfl, rfl⟩
        exact isFirst left character middle rfl

theorem AreSlices.behind_spacing {before spacing text : Text} {parts : List Text}
    (isSpacing : IsSpacing separator before spacing)
    (areSlices : AreSlices separator (before ++ spacing) text parts) :
    AreSlices separator before (spacing ++ text) parts := by
  cases parts with
  | nil => exact isSpacing.append areSlices
  | cons part parts =>
      rcases areSlices with ⟨between, rest, rfl, isBetween, others⟩
      refine ⟨spacing ++ between, rest, by simp, isSpacing.append isBetween, ?_⟩
      rw [List.append_assoc before spacing between] at others
      exact others

theorem AreSlices.trim_cons {before text rest : Text} {parts : List Text}
    (others : AreSlices separator (before ++ text) rest parts) :
    AreSlices separator before (text ++ rest) ([Text.trim text].filter (!·.isEmpty) ++ parts) := by
  rcases Text.exists_trim text with ⟨lead, trail, whole, blankLead, blankTrail⟩
  have isLead : IsSpacing separator before lead := isSpacing_of_isBlank blankLead
  have isTrail : IsSpacing separator (before ++ lead ++ Text.trim text) trail :=
    isSpacing_of_isBlank blankTrail
  generalize Text.trim text = part at whole isTrail ⊢
  subst whole
  have behind : AreSlices separator (before ++ lead ++ part) (trail ++ rest) parts := by
    apply AreSlices.behind_spacing isTrail
    simpa using others
  cases part with
  | nil =>
      rw [List.append_nil] at behind ⊢
      rw [List.append_assoc]
      exact AreSlices.behind_spacing isLead behind
  | cons first part => exact ⟨lead, trail ++ rest, by simp, isLead, behind⟩

/-- The parts are slices of the text, whatever stands in front of it, as long
as nothing is open there. -/
theorem areSlices_splitUnnested (keeps : Cursor.start.feedChar separator = .start)
    {before : Text} (back : Cursor.start.feedText before = .start) (text : Text) :
    AreSlices separator before text (splitUnnested separator text) := by
  rcases splitUnnested_peel keeps text with ⟨-, isOnly⟩ | ⟨first, rest, isText, outside, isSplit⟩
  · have noOthers : AreSlices separator (before ++ text) [] [] :=
      isSpacing_of_isBlank (List.forall_mem_nil _)
    have single := noOthers.trim_cons
    rwa [List.append_nil, List.append_nil, ← isOnly] at single
  · have shorter : rest.length < text.length := by
      rw [isText, List.length_append, List.length_cons]
      omega
    have inFront : Cursor.start.feedText (before ++ first) = .start := by
      rw [Cursor.feedText_append, back, outside]
    have behindCut : Cursor.start.feedText (before ++ first ++ [separator]) = .start := by
      rw [Cursor.feedText_append, inFront]
      exact keeps
    have isCut : IsSpacing separator (before ++ first) [separator] :=
      isSpacing_singleton (by rw [inFront]; rfl)
    rw [isSplit, isText]
    exact AreSlices.trim_cons
      (AreSlices.behind_spacing isCut (areSlices_splitUnnested keeps behindCut rest))
termination_by text.length

/-! ## Parts are not split again -/

theorem splitFrom_part (cursor : Cursor) (text : Text) :
    splitFrom separator cursor (splitFrom separator cursor text).1 =
        ((splitFrom separator cursor text).1, []) ∧
      ∀ part ∈ (splitFrom separator cursor text).2,
        splitFrom separator .start part = (part, []) := by
  fun_induction splitFrom separator cursor text with
  | case1 cursor => exact ⟨rfl, List.forall_mem_nil _⟩
  | case2 cursor character isCut =>
      refine ⟨rfl, fun part member => ?_⟩
      rw [List.mem_singleton.mp member]
      rfl
  | case3 cursor character noCut =>
      exact ⟨splitFrom_cons_of_noCut noCut [], List.forall_mem_nil _⟩
  | case4 cursor character following rest isCut isIncrement first others split ih =>
      rw [split] at ih
      refine ⟨?_, ih.2⟩
      rw [splitFrom, if_pos isCut, if_pos isIncrement, ih.1]
  | case5 cursor character following rest isCut notIncrement first others split ih =>
      rw [Cursor.eq_start_of_isUnnested isCut.2] at split ih
      rw [split] at ih
      exact ⟨rfl, List.forall_mem_cons.mpr ih⟩
  | case6 cursor character following rest noCut first others split ih =>
      rw [split] at ih
      exact ⟨by rw [splitFrom_cons_of_noCut noCut, ih.1], ih.2⟩

theorem splitUnnested_blanks_append (isSeparator : IsSeparator separator) {blanks : Text}
    (blank : ∀ character ∈ blanks, isBlank character = true) (text : Text) :
    splitUnnested separator (blanks ++ text) = splitUnnested separator text := by
  have noCut := NoCut.of_not_mem (isSeparator.not_mem_blanks blank) .start
  have back : Cursor.start.feedText blanks = .start := (isHarmless_of_isBlank blank).feedText
  rw [splitUnnested_eq, splitUnnested_eq, splitFrom_append_of_noCut noCut, back, List.map_cons,
    List.map_cons, Text.trim, Text.trimLeft_append_of_blank blank]
  rfl

theorem splitUnnested_append_blanks (isSeparator : IsSeparator separator) {blanks : Text}
    (blank : ∀ character ∈ blanks, isBlank character = true) (text : Text) :
    splitUnnested separator (text ++ blanks) = splitUnnested separator text := by
  have trimmed (first : Text) (others : List Text) :
      ((glue first others (blanks, [])).1 :: (glue first others (blanks, [])).2).map Text.trim =
        (first :: others).map Text.trim := by
    induction others generalizing first with
    | nil => rw [glue, List.map_cons, Text.trim_append_of_blank blank]; rfl
    | cons next others ih =>
        rw [glue, List.map_cons, ih]
        rfl
  have noCut (cursor : Cursor) : splitFrom separator cursor blanks = (blanks, []) := by
    have parts := splitFrom_append_of_noCut
      (NoCut.of_not_mem (isSeparator.not_mem_blanks blank) cursor) []
    rwa [List.append_nil, splitFrom, List.append_nil] at parts
  rw [splitUnnested_eq, splitUnnested_eq,
    splitFrom_append isSeparator.keeps (isSeparator.apart_blanks blank text), noCut, trimmed]

theorem splitUnnested_part (isSeparator : IsSeparator separator) {text part : Text}
    (member : part ∈ splitUnnested separator text) : splitUnnested separator part = [part] := by
  rw [splitUnnested_eq, List.mem_filter, List.mem_map] at member
  rcases member with ⟨⟨piece, isPiece, rfl⟩, nonempty⟩
  have whole : splitFrom separator .start piece = (piece, []) := by
    rcases List.mem_cons.mp isPiece with rfl | isOther
    · exact (splitFrom_part .start text).1
    · exact (splitFrom_part .start text).2 piece isOther
  have single : splitUnnested separator piece = [Text.trim piece] := by
    rw [splitUnnested_eq, whole]
    exact List.filter_cons_of_pos nonempty
  rcases Text.exists_trim piece with ⟨lead, trail, isPiece, blankLead, blankTrail⟩
  rwa [isPiece, splitUnnested_append_blanks isSeparator blankTrail,
    splitUnnested_blanks_append isSeparator blankLead, ← isPiece] at single

/-! ## Joining -/

theorem splitFrom_separator {rest : Text} (alone : separator = '+' -> rest.head? ≠ some '+') :
    splitFrom separator .start (separator :: rest) =
      ([], (splitFrom separator .start rest).1 :: (splitFrom separator .start rest).2) := by
  have isCut : separator = separator ∧ Cursor.start.isUnnested = true := ⟨rfl, rfl⟩
  cases rest with
  | nil => exact if_pos isCut
  | cons following rest =>
      have notIncrement : ¬ (separator = '+' ∧ following = '+') := by
        rintro ⟨isPlus, rfl⟩
        exact alone isPlus rfl
      rw [splitFrom, if_pos isCut, if_neg notIncrement]

/-- Behind a stretch that is not cut by itself but ends at a cut, the parts
are those of the rest. -/
theorem splitUnnested_append_cut (isSeparator : IsSeparator separator) (stretch : Text)
    {left rest : Text} (apart : forall behind, AreApart separator left (stretch ++ behind))
    (back : Cursor.start.feedText left = .start)
    (uncut : splitFrom separator .start stretch = (stretch, []))
    (isCut : splitFrom separator .start (stretch ++ separator :: rest) =
      (stretch, (splitFrom separator .start rest).1 :: (splitFrom separator .start rest).2)) :
    splitUnnested separator (left ++ stretch ++ separator :: rest) =
      splitUnnested separator (left ++ stretch) ++ splitUnnested separator rest := by
  have inFront := apart []
  rw [List.append_nil] at inFront
  rw [splitUnnested_eq, splitUnnested_eq, splitUnnested_eq, List.append_assoc,
    splitFrom_append isSeparator.keeps (apart _), splitFrom_append isSeparator.keeps inFront,
    back, isCut, uncut, glue_eq, ← List.cons_append, List.map_append, List.filter_append]

theorem splitUnnested_join (isSeparator : IsSeparator separator) {parts : List Text}
    (single : ∀ part ∈ parts, splitUnnested separator part = [part])
    (back : ∀ part ∈ parts, Cursor.start.feedText part = .start) :
    splitUnnested separator (Text.join [' ', separator, ' '] parts) = parts := by
  have blank : ∀ character ∈ [' '], isBlank character = true := List.forall_mem_singleton.mpr rfl
  induction parts with
  | nil => rfl
  | cons part parts ih =>
      have isPart := single part List.mem_cons_self
      cases parts with
      | nil => simpa [Text.join] using isPart
      | cons next parts =>
          have others := ih (fun other member => single other (List.mem_cons_of_mem part member))
            fun other member => back other (List.mem_cons_of_mem part member)
          generalize isRest : Text.join [' ', separator, ' '] (next :: parts) = rest at others
          have isJoin : Text.join [' ', separator, ' '] (part :: next :: parts) =
              part ++ [' '] ++ [] ++ separator :: ([' '] ++ rest) := by
            rw [← isRest]
            simp [Text.join]
          have apart : forall behind, AreApart separator (part ++ [' ']) ([] ++ behind) :=
            fun behind _ => .inl (by simp)
          have outside : Cursor.start.feedText (part ++ [' ']) = .start := by
            rw [Cursor.feedText_append, back part List.mem_cons_self]
            rfl
          have isCut : splitFrom separator .start ([] ++ separator :: ([' '] ++ rest)) = _ :=
            splitFrom_separator fun _ => by simp
          rw [isJoin, splitUnnested_append_cut isSeparator [] apart outside rfl isCut,
            List.append_nil, splitUnnested_append_blanks isSeparator blank,
            splitUnnested_blanks_append isSeparator blank, isPart, others, List.singleton_append]

/-! ## Runs of plus signs -/

/-- Pairs of plus signs are passed over. -/
theorem splitFrom_pairs (pairs : Nat) (text : Text) :
    splitFrom '+' .start (List.replicate (2 * pairs) '+' ++ text) =
      (List.replicate (2 * pairs) '+' ++ (splitFrom '+' .start text).1,
        (splitFrom '+' .start text).2) := by
  have isCut : '+' = '+' ∧ Cursor.start.isUnnested = true := ⟨rfl, rfl⟩
  induction pairs with
  | zero => rfl
  | succ pairs ih =>
      change splitFrom '+' .start ('+' :: '+' :: (List.replicate (2 * pairs) '+' ++ text)) = _
      rw [splitFrom, if_pos isCut, if_pos ⟨rfl, rfl⟩, ih]
      rfl

/-- The parts of a text with an odd run of plus signs, outside of everything,
are those in front of its last sign and those behind it. -/
theorem splitUnnested_oddRun {front rest : Text} (pairs : Nat)
    (begins : front.getLast? ≠ some '+') (ends : rest.head? ≠ some '+')
    (back : Cursor.start.feedText front = .start) :
    splitUnnested '+' (front ++ List.replicate (2 * pairs) '+' ++ '+' :: rest) =
      splitUnnested '+' (front ++ List.replicate (2 * pairs) '+') ++ splitUnnested '+' rest := by
  have uncut := splitFrom_pairs pairs []
  rw [splitFrom, List.append_nil] at uncut
  have isCut := splitFrom_pairs pairs ('+' :: rest)
  rw [splitFrom_separator fun _ => ends, List.append_nil] at isCut
  exact splitUnnested_append_cut (.inr rfl) _ (fun _ _ => .inl begins) back uncut isCut

theorem prefix_of_mem_cutFronts {text front : Text} (member : front ∈ cutFronts separator text) :
    front ++ [separator] <+: text := by
  have inside : forall {done first : Text} {others : List Text},
      front ∈ fronts separator done first others ->
      front ++ [separator] <+: done ++ [separator].intercalate (first :: others) := by
    intro done first others
    induction others generalizing done first with
    | nil => exact (nomatch ·)
    | cons next others ih =>
        intro isFront
        have whole : done ++ [separator].intercalate (first :: next :: others) =
            done ++ first ++ [separator] ++ [separator].intercalate (next :: others) := by
          simp [List.intercalate]
        rw [whole]
        rcases List.mem_cons.mp isFront with rfl | behind
        · exact List.prefix_append _ _
        · exact ih behind
  have isPrefix := inside member
  rwa [intercalate_splitFrom, List.nil_append] at isPrefix

/-- A longest run of plus signs outside of everything cuts at its last sign if
it is odd, and nowhere else. -/
theorem mem_cutFronts_run_iff {front rest : Text} {count index : Nat}
    (begins : front.getLast? ≠ some '+') (ends : rest.head? ≠ some '+')
    (back : Cursor.start.feedText front = .start) (within : index < count) :
    front ++ List.replicate index '+' ∈
        cutFronts '+' (front ++ List.replicate count '+' ++ rest) ↔
      count % 2 = 1 ∧ index + 1 = count := by
  have isLength : (front ++ List.replicate index '+').length = front.length + index := by simp
  have notInFront : front ++ List.replicate index '+' ∉ cutFronts '+' front := by
    intro member
    have short := (prefix_of_mem_cutFronts member).length_le
    rw [List.length_append, isLength, List.length_singleton] at short
    omega
  have apart : AreApart '+' front (List.replicate count '+' ++ rest) := fun _ => .inl begins
  rw [List.append_assoc, cutFronts_append (by decide) apart back, List.mem_append,
    or_iff_right notInFront]
  obtain ⟨pairs, rfl | rfl⟩ : ∃ pairs, count = 2 * pairs ∨ count = 2 * pairs + 1 :=
    ⟨count / 2, by omega⟩
  · rw [splitFrom_pairs]
    constructor
    · intro member
      have long := (prefix_of_mem_fronts member).length_le
      rw [isLength, List.length_append, List.length_append, List.length_replicate] at long
      omega
    · rintro ⟨isOdd, -⟩
      omega
  · rw [List.replicate_succ', List.append_assoc, splitFrom_pairs, List.singleton_append,
      splitFrom_separator fun _ => ends, fronts, List.mem_cons, List.append_nil]
    constructor
    · rintro (isFirst | behind)
      · have sameLength := congrArg List.length isFirst
        rw [isLength, List.length_append, List.length_replicate] at sameLength
        omega
      · have long := (prefix_of_mem_fronts behind).length_le
        rw [isLength] at long
        simp at long
        omega
    · rintro ⟨-, isLast⟩
      left
      rw [Nat.succ.inj isLast]

/-! ## The laws of splitting -/

/-- The parts are slices of the text, with only blanks and unnested separators
around them.  None of them is split again, and parts that are joined are
recovered.  A longest unnested run of plus signs cuts once, at its last sign,
if it is odd, and else not at all. -/
theorem splitUnnested_lossless (isSeparator : IsSeparator separator) :
    (∀ text, AreSlices separator [] text (splitUnnested separator text)) ∧
    (∀ text, ∀ part ∈ splitUnnested separator text, splitUnnested separator part = [part]) ∧
    (∀ parts : List Text,
      (∀ part ∈ parts, part ≠ [] ∧ Text.trim part = part ∧
        splitUnnested separator part = [part] ∧
        (Cursor.start.feed (Utf8.encode part)).isUnnested = true) ->
      splitUnnested separator (Text.join [' ', separator, ' '] parts) = parts) ∧
    (separator = '+' -> ∀ front rest count,
      front.getLast? ≠ some '+' -> rest.head? ≠ some '+' ->
      (Cursor.start.feed (Utf8.encode front)).isUnnested = true ->
      (∀ index < count,
        (front ++ List.replicate index '+' ∈
            cutFronts '+' (front ++ List.replicate count '+' ++ rest) ↔
          count % 2 = 1 ∧ index + 1 = count)) ∧
      (count % 2 = 1 ->
        splitUnnested '+' (front ++ List.replicate count '+' ++ rest) =
          splitUnnested '+' (front ++ List.replicate (count - 1) '+') ++
            splitUnnested '+' rest)) := by
  have outside : forall {text : Text},
      (Cursor.start.feed (Utf8.encode text)).isUnnested = true ->
        Cursor.start.feedText text = .start := by
    intro text unnested
    rw [← Cursor.feed_encode]
    exact Cursor.eq_start_of_isUnnested unnested
  refine ⟨areSlices_splitUnnested isSeparator.keeps rfl,
    fun text part => splitUnnested_part isSeparator, ?_, ?_⟩
  · intro parts arePieces
    exact splitUnnested_join isSeparator (fun part member => (arePieces part member).2.2.1)
      fun part member => outside (arePieces part member).2.2.2
  · rintro rfl front rest count begins ends unnested
    refine ⟨fun index within => mem_cutFronts_run_iff begins ends (outside unnested) within, ?_⟩
    intro isOdd
    obtain ⟨pairs, rfl⟩ : ∃ pairs, count = 2 * pairs + 1 := ⟨count / 2, by omega⟩
    rw [List.replicate_succ', Nat.add_sub_cancel, ← List.append_assoc, List.append_assoc _ ['+'],
      List.singleton_append]
    exact splitUnnested_oddRun pairs begins ends (outside unnested)

/-- Increments, literals and calls among the operands of a concatenation. -/
theorem splitUnnested_lossless_increments :
    IsSeparator '+' ∧
      (∀ part ∈ ["i++".toList, "f(\")+\" + x)".toList, "'+'".toList],
        part ≠ [] ∧ Text.trim part = part ∧ splitUnnested '+' part = [part] ∧
          (Cursor.start.feed (Utf8.encode part)).isUnnested = true) ∧
      splitUnnested '+' (Text.join " + ".toList
          ["i++".toList, "f(\")+\" + x)".toList, "'+'".toList]) =
        ["i++".toList, "f(\")+\" + x)".toList, "'+'".toList] ∧
      splitUnnested '+' "a +++b)".toList =
        splitUnnested '+' "a ++".toList ++ splitUnnested '+' "b)".toList := by
  have laws := splitUnnested_lossless (.inr rfl : IsSeparator '+')
  have arePieces : ∀ part ∈ ["i++".toList, "f(\")+\" + x)".toList, "'+'".toList],
      part ≠ [] ∧ Text.trim part = part ∧ splitUnnested '+' part = [part] ∧
        (Cursor.start.feed (Utf8.encode part)).isUnnested = true := by
    decide +kernel
  have isRun := laws.2.2.2 rfl "a ".toList "b)".toList 3 (by decide) (by decide) (by decide +kernel)
  exact ⟨.inr rfl, arePieces, laws.2.2.1 _ arePieces, isRun.2 rfl⟩

end FluentLog
