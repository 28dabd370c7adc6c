import FluentLog.Proofs.Message.Template

namespace FluentLog

/-!
# The message formatter

The pattern of a chain's message is read by the message formatter when the program
runs.  `Formatter.format` is that reading: each pair of braces takes the next value,
unless the backslash in front of it makes it stand for itself, and a second backslash
makes the first one stand for itself.  Once no values are left the rest of the pattern
is copied.

A pattern can also be printed with *expressions* in place of their values.  What is
printed is then a list of characters and expressions, and two such lists print alike
for all values of the expressions only if they are the same.
-/

namespace Formatter

/-! ## Printing -/

def cut? : Text -> Option (Text × Text)
  | '{' :: '}' :: rest => some ([], rest)
  | character :: rest => (cut? rest).map fun (front, behind) => (character :: front, behind)
  | [] => none

theorem length_of_cut? {pattern front behind : Text} (isCut : cut? pattern = some (front, behind)) :
    pattern.length = front.length + behind.length + 2 := by
  fun_induction cut? pattern generalizing front with
  | case1 rest =>
      cases isCut
      rw [List.length_cons, List.length_cons, List.length_nil]
      omega
  | case2 character rest notBraces ih =>
      rcases Option.map_eq_some_iff.mp isCut with ⟨⟨inner, _⟩, isInner, same⟩
      cases same
      rw [List.length_cons, List.length_cons, ih isInner]
      omega
  | case3 => cases isCut

/-- What the backslashes in front of braces mean.  The formatter looks at two
of them at most. -/
inductive Escaping where
  /-- There is none, so the braces take a value. -/
  | none
  /-- There is one, so the braces stand for themselves. -/
  | braces
  /-- There are two: one of them stands for itself, and the braces take a value. -/
  | backslash
  deriving DecidableEq, Repr

/-- What the end of a text means for the braces behind it. -/
def escaping (front : Text) : Escaping :=
  match front.reverse with
  | '\\' :: '\\' :: _ => .backslash
  | '\\' :: _ => .braces
  | _ => .none

/-- Prints a pattern with values in the places of its braces, and its
characters by `plain`.  With `plain` the printed characters can be told from
those of the values. -/
def formatWith {α : Type} (plain : Char -> α) (pattern : Text) : List (List α) -> List α
  | [] => pattern.map plain
  | value :: others =>
      match _isCut : cut? pattern with
      | none => pattern.map plain
      | some (front, behind) =>
          match escaping front with
          | .none => front.map plain ++ value ++ formatWith plain behind others
          | .backslash => front.dropLast.map plain ++ value ++ formatWith plain behind others
          | .braces =>
              (front.dropLast ++ ['{']).map plain ++
                formatWith plain ('}' :: behind) (value :: others)
termination_by pattern.length
decreasing_by all_goals grind [length_of_cut?]

/-- What the formatter prints for a pattern and values.  Braces that no value
is left for are printed as they are, and values that no braces are left for
are dropped. -/
def format (pattern : Text) (values : List Text) : Text :=
  formatWith id pattern values

theorem formatWith_of_not_cut {α : Type} {plain : Char -> α} {pattern : Text}
    (notCut : cut? pattern = none) (values : List (List α)) :
    formatWith plain pattern values = pattern.map plain := by
  cases values with
  | nil => rw [formatWith]
  | cons value others =>
      rw [formatWith]
      split
      · rfl
      · rename_i isCut
        rw [notCut] at isCut
        cases isCut

theorem formatWith_of_cut {α : Type} {plain : Char -> α} {pattern front behind : Text}
    (isCut : cut? pattern = some (front, behind)) (value : List α) (others : List (List α)) :
    formatWith plain pattern (value :: others) =
      match escaping front with
      | .none => front.map plain ++ value ++ formatWith plain behind others
      | .backslash => front.dropLast.map plain ++ value ++ formatWith plain behind others
      | .braces =>
          (front.dropLast ++ ['{']).map plain ++
            formatWith plain ('}' :: behind) (value :: others) := by
  rw [formatWith]
  split
  · rename_i notCut
    rw [notCut] at isCut
    cases isCut
  · rename_i found
    rw [found] at isCut
    cases isCut
    rfl

/-! ## The first braces of a text -/

theorem cut?_cons {character : Char} {rest : Text}
    (notBraces : ¬ (character = '{' ∧ rest.head? = some '}')) :
    cut? (character :: rest) = (cut? rest).map fun (front, behind) => (character :: front, behind) := by
  rw [cut?]
  rintro others rfl rfl
  exact notBraces ⟨rfl, rfl⟩

/-- Text without braces in front of a text that does not begin by closing
them. -/
theorem cut?_append {text rest : Text} (notCut : cut? text = none)
    (notClosing : rest.head? ≠ some '}') :
    cut? (text ++ rest) = (cut? rest).map fun (front, behind) => (text ++ front, behind) := by
  induction text with
  | nil =>
      rw [List.nil_append]
      cases cut? rest <;> rfl
  | cons character text ih =>
      have notBraces : ¬ (character = '{' ∧ text.head? = some '}') := by
        rintro ⟨rfl, isClosing⟩
        cases text with
        | nil => cases isClosing
        | cons closing text =>
            cases Option.some.inj isClosing
            cases notCut
      rw [cut?_cons notBraces, Option.map_eq_none_iff] at notCut
      have notBraces' : ¬ (character = '{' ∧ (text ++ rest).head? = some '}') := by
        rintro ⟨isOpen, isClosing⟩
        cases text with
        | nil => exact notClosing isClosing
        | cons closing text => exact notBraces ⟨isOpen, isClosing⟩
      rw [List.cons_append, cut?_cons notBraces', ih notCut, Option.map_map]
      rfl

theorem eq_of_cut? {text front behind : Text} (isCut : cut? text = some (front, behind)) :
    text = front ++ '{' :: '}' :: behind := by
  fun_induction cut? text generalizing front with
  | case1 rest =>
      cases isCut
      rfl
  | case2 character rest notBraces ih =>
      rcases Option.map_eq_some_iff.mp isCut with ⟨⟨inner, _⟩, isInner, same⟩
      cases same
      rw [ih isInner]
      rfl
  | case3 => cases isCut

theorem cut?_front {text front behind : Text} (isCut : cut? text = some (front, behind)) :
    cut? front = none := by
  fun_induction cut? text generalizing front with
  | case1 rest =>
      cases isCut
      rfl
  | case2 character rest notBraces ih =>
      rcases Option.map_eq_some_iff.mp isCut with ⟨⟨inner, _⟩, isInner, same⟩
      cases same
      have isRest := eq_of_cut? isInner
      rw [cut?_cons, ih isInner]
      · rfl
      · rintro ⟨rfl, isClosing⟩
        cases inner with
        | nil => cases isClosing
        | cons closing inner =>
            cases Option.some.inj isClosing
            exact notBraces _ rfl isRest
  | case3 => cases isCut

theorem exists_cut? (front behind : Text) :
    ∃ cut, cut? (front ++ '{' :: '}' :: behind) = some cut := by
  induction front with
  | nil => exact ⟨([], behind), rfl⟩
  | cons character front ih =>
      rcases ih with ⟨cut, isCut⟩
      by_cases braces :
          character = '{' ∧ (front ++ '{' :: '}' :: behind).head? = some '}'
      · rcases braces with ⟨rfl, isClosing⟩
        cases front with
        | nil => cases isClosing
        | cons closing front =>
            cases Option.some.inj isClosing
            exact ⟨([], front ++ '{' :: '}' :: behind), rfl⟩
      · rw [List.cons_append, cut?_cons braces, isCut]
        exact ⟨_, rfl⟩

theorem cut?_eq_none_iff {text : Text} : cut? text = none ↔ ¬ placeholderMark <:+: text := by
  constructor
  · rintro notCut ⟨front, behind, rfl⟩
    rcases exists_cut? front behind with ⟨cut, isCut⟩
    rw [placeholderMark, List.append_assoc] at notCut
    cases notCut.symm.trans isCut
  · intro noMark
    cases isCut : cut? text with
    | none => rfl
    | some cut =>
        refine absurd ⟨cut.1, cut.2, ?_⟩ noMark
        rw [eq_of_cut? isCut, placeholderMark, List.append_assoc]
        rfl

/-! ## Texts of a template -/

theorem escaping_of_getLast? {front : Text} (plain : front.getLast? ≠ some '\\') :
    escaping front = .none := by
  rcases List.eq_nil_or_concat' front with rfl | ⟨others, last, rfl⟩
  · rfl
  · rw [List.getLast?_concat] at plain
    have notBackslash : last ≠ '\\' := fun isLast => plain (congrArg some isLast)
    rw [escaping, List.reverse_concat]
    split
    · rename_i same
      exact absurd (List.cons.inj same).1 notBackslash
    · rename_i same
      exact absurd (List.cons.inj same).1 notBackslash
    · rfl

theorem escaping_backslash {front : Text} (plain : front.getLast? ≠ some '\\') :
    escaping (front ++ ['\\']) = .braces := by
  rcases List.eq_nil_or_concat' front with rfl | ⟨others, last, rfl⟩
  · rfl
  · rw [List.getLast?_concat] at plain
    have notBackslash : last ≠ '\\' := fun isLast => plain (congrArg some isLast)
    rw [escaping, List.reverse_concat, List.reverse_concat]
    split
    · rename_i same
      exact absurd (List.cons.inj (List.cons.inj same).2).1 notBackslash
    · rfl
    · rename_i notSingle
      exact absurd rfl (notSingle _)

theorem escaping_two_backslashes {front : Text} (backslash : front.getLast? = some '\\') :
    escaping (front ++ ['\\']) = .backslash := by
  rcases List.getLast?_eq_some_iff.mp backslash with ⟨others, rfl⟩
  rw [escaping, List.reverse_concat, List.reverse_concat]
  rfl

theorem escapeBraces_of_not_cut {text : Text} (notCut : cut? text = none) :
    Template.escapeBraces text = text := by
  fun_induction cut? text with
  | case1 rest => cases notCut
  | case2 character rest notBraces ih =>
      rw [Template.escapeBraces, ih (Option.map_eq_none_iff.mp notCut)]
      exact notBraces
  | case3 => rfl

theorem escapeBraces_of_cut {text front behind : Text}
    (isCut : cut? text = some (front, behind)) :
    Template.escapeBraces text =
      front ++ '\\' :: '{' :: '}' :: Template.escapeBraces behind := by
  fun_induction cut? text generalizing front with
  | case1 rest =>
      cases isCut
      rfl
  | case2 character rest notBraces ih =>
      rcases Option.map_eq_some_iff.mp isCut with ⟨⟨inner, _⟩, isInner, same⟩
      cases same
      rw [Template.escapeBraces, ih isInner]
      · rfl
      · exact notBraces
  | case3 => cases isCut

theorem hasEscapedBraces_split {front behind : Text}
    (none : Template.hasEscapedBraces (front ++ '{' :: '}' :: behind) = false) :
    front.getLast? ≠ some '\\' ∧ Template.hasEscapedBraces ('}' :: behind) = false := by
  induction front with
  | nil =>
      refine ⟨by simp, ?_⟩
      simp only [List.nil_append, Template.hasEscapedBraces, Bool.or_eq_false_iff] at none ⊢
      exact ⟨rfl, none.2.2⟩
  | cons character front ih =>
      rw [List.cons_append, Template.hasEscapedBraces, Bool.or_eq_false_iff] at none
      rcases ih none.2 with ⟨notLast, behindFree⟩
      refine ⟨?_, behindFree⟩
      cases front with
      | nil =>
          intro isLast
          cases Option.some.inj isLast
          cases none.1
      | cons following front => exact notLast

/-- The backslash that a text in front of a placeholder is written with behind
it. -/
theorem literalPattern?_eq_some {text written : Text}
    (isWritten : Template.literalPattern? text = some written) :
    Template.hasEscapedBraces text = false ∧
      written = Template.escapeBraces text ++
        if text.getLast? = some '\\' then ['\\'] else [] := by
  rw [Template.literalPattern?] at isWritten
  split at isWritten
  · cases isWritten
  · rename_i notEscaped
    exact ⟨Bool.eq_false_iff.mpr notEscaped, (Option.some.inj isWritten).symm⟩

theorem formatWith_escapeBraces {α : Type} (plain : Char -> α) {text : Text}
    (free : Template.hasEscapedBraces text = false) (following : Text) (value : List α)
    (others : List (List α)) :
    formatWith plain (Template.escapeBraces text ++
        (if text.getLast? = some '\\' then ['\\'] else []) ++ '{' :: '}' :: following)
        (value :: others) =
      text.map plain ++ (value ++ formatWith plain following others) := by
  induction size : text.length using Nat.strong_induction_on generalizing text with
  | _ size ih =>
      cases isCut : cut? text with
      | none =>
          rw [escapeBraces_of_not_cut isCut]
          by_cases backslash : text.getLast? = some '\\'
          · rw [if_pos backslash, List.append_assoc]
            have found : cut? (text ++ (['\\'] ++ '{' :: '}' :: following)) =
                some (text ++ ['\\'], following) :=
              cut?_append isCut (by simp)
            rw [formatWith_of_cut found, escaping_two_backslashes backslash]
            simp only [List.dropLast_concat, List.append_assoc]
          · rw [if_neg backslash, List.append_nil]
            have found : cut? (text ++ '{' :: '}' :: following) = some (text ++ [], following) :=
              cut?_append isCut (by simp)
            rw [List.append_nil] at found
            rw [formatWith_of_cut found, escaping_of_getLast? backslash]
            simp only [List.append_assoc]
      | some cut =>
          rcases cut with ⟨front, behind⟩
          have isText := eq_of_cut? isCut
          have length := length_of_cut? isCut
          rw [isText] at free
          rcases hasEscapedBraces_split free with ⟨notLast, behindFree⟩
          have sameLast : text.getLast? = ('}' :: behind).getLast? := by
            rw [isText, List.getLast?_append_of_ne_nil _ (by simp), List.getLast?_cons_cons]
          have later := ih ('}' :: behind).length (by rw [List.length_cons]; omega) behindFree rfl
          have unchanged : Template.escapeBraces ('}' :: behind) =
              '}' :: Template.escapeBraces behind := rfl
          rw [← sameLast, unchanged] at later
          have found : cut? (front ++ '\\' :: '{' :: '}' :: (Template.escapeBraces behind ++
              (if text.getLast? = some '\\' then ['\\'] else []) ++ '{' :: '}' :: following)) =
              some (front ++ ['\\'], Template.escapeBraces behind ++
                (if text.getLast? = some '\\' then ['\\'] else []) ++
                  '{' :: '}' :: following) :=
            cut?_append (cut?_front isCut) (by simp)
          have whole : Template.escapeBraces text ++
              (if text.getLast? = some '\\' then ['\\'] else []) ++ '{' :: '}' :: following =
              front ++ '\\' :: '{' :: '}' :: (Template.escapeBraces behind ++
                (if text.getLast? = some '\\' then ['\\'] else []) ++
                  '{' :: '}' :: following) := by
            rw [escapeBraces_of_cut isCut]
            simp only [List.append_assoc, List.cons_append]
          rw [whole, formatWith_of_cut found, escaping_backslash notLast]
          simp only [List.dropLast_concat]
          rw [← List.cons_append, ← List.cons_append, later, isText]
          simp only [List.map_append, List.map_cons, List.map_nil, List.append_assoc,
            List.cons_append, List.nil_append]

theorem formatWith_mark {α : Type} (plain : Char -> α) (following : Text) (value : List α)
    (others : List (List α)) :
    formatWith plain (placeholderMark ++ following) (value :: others) =
      value ++ formatWith plain following others := by
  have found : cut? (placeholderMark ++ following) = some ([], following) := rfl
  rw [formatWith_of_cut found]
  rfl

end Formatter

/-! ## Templates -/

namespace Template

/-- The segments with a value in the place of each placeholder, and characters
printed by `plain`. -/
def fillWith {α : Type} (plain : Char -> α) : List Segment -> List (List α) -> List α
  | [], _ => []
  | .literal text :: rest, values => text.map plain ++ fillWith plain rest values
  | .placeholder :: rest, [] => fillWith plain rest []
  | .placeholder :: rest, value :: values => value ++ fillWith plain rest values

/-- What a template stands for: its texts as they are, and the values in the
places of its placeholders, in order. -/
def fill (template : Template) (values : List Text) : Text :=
  fillWith id template.segments values

theorem fillWith_append {α : Type} (plain : Char -> α) {segments : List Segment}
    {values : List (List α)} (enough : segments.countP Segment.isPlaceholder ≤ values.length)
    (more : List (List α)) :
    fillWith plain segments (values ++ more) = fillWith plain segments values := by
  induction segments generalizing values with
  | nil => rfl
  | cons segment rest ih =>
      cases segment with
      | literal text =>
          rw [List.countP_cons_of_neg (by simp [Segment.isPlaceholder])] at enough
          rw [fillWith, fillWith, ih enough]
      | placeholder =>
          rw [List.countP_cons_of_pos rfl] at enough
          cases values with
          | nil => exact absurd enough (by simp)
          | cons value values =>
              rw [List.cons_append, fillWith, fillWith, ih (Nat.le_of_succ_le_succ enough)]

/-- The text behind the last placeholder of a sequence of segments. -/
def textBehind : List Segment -> Text
  | [] => []
  | .placeholder :: rest => textBehind rest
  | .literal text :: rest =>
      if rest.any Segment.isPlaceholder then textBehind rest else text ++ textBehind rest

def trailing (template : Template) : Text :=
  textBehind template.segments

private theorem exists_placeholder_of_any {text : Text} {rest : List Segment}
    (apart : (Segment.literal text :: rest).IsChain MayFollow)
    (more : rest.any Segment.isPlaceholder = true) :
    ∃ others, rest = .placeholder :: others := by
  cases rest with
  | nil => cases more
  | cons segment others =>
      rcases (List.isChain_cons_cons.mp apart).1 with isPlaceholder | isPlaceholder
      · cases isPlaceholder
      · cases segment with
        | literal _ => cases isPlaceholder
        | placeholder => exact ⟨others, rfl⟩

private theorem eq_nil_of_no_placeholder {text : Text} {rest : List Segment}
    (apart : (Segment.literal text :: rest).IsChain MayFollow)
    (none : rest.any Segment.isPlaceholder = false) : rest = [] := by
  cases rest with
  | nil => rfl
  | cons segment others =>
      rw [List.any_cons, Bool.or_eq_false_iff] at none
      rcases (List.isChain_cons_cons.mp apart).1 with isPlaceholder | isPlaceholder
      · cases isPlaceholder
      · rw [none.1] at isPlaceholder
        cases isPlaceholder

/-- Whether the formatter prints segments as they are filled, up to their last
placeholder, and goes on with the text behind it and the values that are left. -/
def PrintsAs {α : Type} (plain : Char -> α) (pattern : Text) (segments : List Segment)
    (values : List (List α)) : Prop :=
  ∃ printed, Formatter.formatWith plain pattern values =
      printed ++ Formatter.formatWith plain (textBehind segments)
        (values.drop (segments.countP Segment.isPlaceholder)) ∧
    fillWith plain segments values = printed ++ (textBehind segments).map plain

theorem PrintsAs.placeholder {α : Type} {plain : Char -> α} {following : Text}
    {rest : List Segment} {value : List α} {values : List (List α)}
    (prints : PrintsAs plain following rest values) :
    PrintsAs plain (placeholderMark ++ following) (.placeholder :: rest) (value :: values) := by
  rcases prints with ⟨printed, isFormat, isFill⟩
  refine ⟨value ++ printed, ?_, ?_⟩
  · rw [List.countP_cons_of_pos rfl, Formatter.formatWith_mark, isFormat, textBehind,
      List.drop_succ_cons, List.append_assoc]
  · rw [fillWith, isFill, textBehind, List.append_assoc]

theorem PrintsAs.literal {α : Type} {plain : Char -> α} {text written following : Text}
    {rest : List Segment} {value : List α} {values : List (List α)}
    (isWritten : literalPattern? text = some written)
    (prints : PrintsAs plain (placeholderMark ++ following) (.placeholder :: rest)
      (value :: values)) :
    PrintsAs plain (written ++ (placeholderMark ++ following))
      (.literal text :: .placeholder :: rest) (value :: values) := by
  rcases Formatter.literalPattern?_eq_some isWritten with ⟨free, rfl⟩
  rcases prints with ⟨printed, isFormat, isFill⟩
  have behind : textBehind (.literal text :: .placeholder :: rest) =
      textBehind (.placeholder :: rest) := if_pos rfl
  refine ⟨text.map plain ++ printed, ?_, ?_⟩
  · have escaped := Formatter.formatWith_escapeBraces plain free following value values
    rw [← Formatter.formatWith_mark, isFormat] at escaped
    rw [List.countP_cons_of_neg (by simp [Segment.isPlaceholder]), behind,
      List.append_assoc (text.map plain)]
    exact escaped
  · rw [fillWith, isFill, behind, List.append_assoc]

/-- Up to its last placeholder a template prints what it stands for, and the
formatter goes on with the text behind it and the values that are left. -/
theorem formatWith_patternOf? {α : Type} (plain : Char -> α) {segments : List Segment}
    (apart : segments.IsChain MayFollow) {pattern : Text}
    (isPattern : patternOf? segments = some pattern) {values : List (List α)}
    (enough : segments.countP Segment.isPlaceholder ≤ values.length) :
    PrintsAs plain pattern segments values := by
  induction segments generalizing pattern values with
  | nil =>
      cases isPattern
      exact ⟨[], rfl, rfl⟩
  | cons segment rest ih =>
      cases segment with
      | placeholder =>
          rcases Option.map_eq_some_iff.mp isPattern with ⟨following, isFollowing, rfl⟩
          rw [List.countP_cons_of_pos rfl] at enough
          cases values with
          | nil => exact absurd enough (by simp)
          | cons value values =>
              exact (ih apart.tail isFollowing (Nat.le_of_succ_le_succ enough)).placeholder
      | literal text =>
          rw [patternOf?] at isPattern
          rw [List.countP_cons_of_neg (by simp [Segment.isPlaceholder])] at enough
          split at isPattern
          · rename_i more
            rcases Option.bind_eq_some_iff.mp isPattern with ⟨written, isWritten, remains⟩
            rcases Option.bind_eq_some_iff.mp remains with ⟨following, isFollowing, isWhole⟩
            cases isWhole
            have prints := ih apart.tail isFollowing enough
            -- No two texts are neighbours, so the next segment is a placeholder.
            rcases exists_placeholder_of_any apart more with ⟨others, rfl⟩
            rcases Option.map_eq_some_iff.mp isFollowing with ⟨behind, -, rfl⟩
            cases values with
            | nil => exact absurd enough (by simp [Segment.isPlaceholder])
            | cons value values => exact prints.literal isWritten
          · rename_i noMore
            have isLast := eq_nil_of_no_placeholder apart (Bool.eq_false_iff.mpr noMore)
            subst isLast
            rcases Option.map_eq_some_iff.mp isPattern with ⟨following, isFollowing, rfl⟩
            cases isFollowing
            refine ⟨[], rfl, ?_⟩
            rw [List.nil_append, textBehind, if_neg noMore, fillWith, fillWith, List.map_append]
            rfl

/-- With one value for each placeholder a pattern prints what its template
stands for. -/
theorem format_eq_fill {template : Template} (normal : template.IsNormal) {pattern : Text}
    (isPattern : template.pattern? = some pattern) {values : List Text}
    (count : values.length = template.placeholderCount) :
    Formatter.format pattern values = template.fill values := by
  have enough : template.segments.countP Segment.isPlaceholder ≤ values.length :=
    Nat.le_of_eq count.symm
  rcases formatWith_patternOf? id normal.apart isPattern enough with ⟨printed, isFormat, isFill⟩
  have noneLeft : values.drop (template.segments.countP Segment.isPlaceholder) = [] :=
    List.drop_of_length_le (Nat.le_of_eq count)
  unfold Formatter.format fill
  rw [isFormat, isFill, noneLeft, Formatter.formatWith]

end Template

/-! ## Expressions in the place of values -/

namespace Formatter

/-- What is printed before the values of its expressions are known. -/
abbrev Printout := List (Char ⊕ Text)

def symbol (expression : Text) : Printout := [.inr expression]

def evaluate (value : Text -> Text) (printout : Printout) : Text :=
  printout.flatMap (Sum.elim (fun character => [character]) value)

theorem formatWith_flatMap {α β : Type} {plain : Char -> α} {plain' : Char -> β}
    {substitute : α -> List β}
    (keeps : forall character, substitute (plain character) = [plain' character])
    (pattern : Text) (values : List (List α)) :
    (formatWith plain pattern values).flatMap substitute =
      formatWith plain' pattern (values.map (List.flatMap substitute)) := by
  have kept : forall text : Text, (text.map plain).flatMap substitute = text.map plain' := by
    intro text
    induction text with
    | nil => rfl
    | cons character text ih => rw [List.map_cons, List.flatMap_cons, keeps, ih]; rfl
  fun_induction formatWith plain pattern values with
  | case1 pattern => rw [kept, List.map_nil, formatWith]
  | case2 pattern value others notCut => rw [kept, formatWith_of_not_cut notCut]
  | case3 pattern value others front behind isCut escaped ih =>
      rw [List.map_cons, formatWith_of_cut isCut, escaped]
      simp only [List.flatMap_append, kept, ih]
  | case4 pattern value others front behind isCut escaped ih =>
      rw [List.map_cons, formatWith_of_cut isCut, escaped]
      simp only [List.flatMap_append, kept, ih]
  | case5 pattern value others front behind isCut escaped ih =>
      rw [List.map_cons, formatWith_of_cut isCut, escaped]
      simp only [List.flatMap_append, kept, ih, List.map_cons]

theorem format_map (pattern : Text) (expressions : List Text) (value : Text -> Text) :
    format pattern (expressions.map value) =
      evaluate value (formatWith .inl pattern (expressions.map symbol)) := by
  have keeps : forall character,
      Sum.elim (fun character => [character]) value (.inl character) = [id character] :=
    fun _ => rfl
  rw [evaluate, formatWith_flatMap keeps, List.map_map, format]
  congr 1
  apply List.map_congr_left
  intro expression _
  exact (List.append_nil (value expression)).symm

theorem fill_map (template : Template) (expressions : List Text) (value : Text -> Text) :
    template.fill (expressions.map value) =
      evaluate value (Template.fillWith .inl template.segments (expressions.map symbol)) := by
  rw [Template.fill]
  generalize template.segments = segments
  induction segments generalizing expressions with
  | nil => rfl
  | cons segment rest ih =>
      cases segment with
      | literal text =>
          rw [Template.fillWith, Template.fillWith, evaluate, List.flatMap_append, ih]
          congr 1
          induction text with
          | nil => rfl
          | cons character text ihText => exact congrArg (character :: ·) ihText
      | placeholder =>
          cases expressions with
          | nil => exact ih []
          | cons expression expressions =>
              rw [List.map_cons, List.map_cons, Template.fillWith, Template.fillWith, evaluate,
                List.flatMap_append, ih]
              congr 1
              exact (List.append_nil (value expression)).symm

private theorem exists_ne_character (character : Char) : ∃ another : Char, another ≠ character := by
  by_cases isZero : character = '0'
  · exact ⟨'1', by rw [isZero]; decide⟩
  · exact ⟨'0', fun same => isZero same.symm⟩

/-- Printouts that print alike for all values of their expressions are the
same. -/
theorem eq_of_forall_evaluate {first second : Printout}
    (alike : forall value, evaluate value first = evaluate value second) : first = second := by
  induction first generalizing second with
  | nil =>
      cases second with
      | nil => rfl
      | cons printed second =>
          have nonempty := alike fun _ => ['0']
          cases printed <;> cases nonempty
  | cons printed first ih =>
      cases second with
      | nil =>
          have nonempty := alike fun _ => ['0']
          cases printed <;> cases nonempty
      | cons other second =>
          have same : printed = other := by
            cases printed with
            | inl character =>
                cases other with
                | inl otherCharacter =>
                    have heads := alike fun _ => []
                    exact congrArg Sum.inl (List.cons.inj heads).1
                | inr expression =>
                    rcases exists_ne_character character with ⟨another, isOther⟩
                    have heads := alike fun _ => [another]
                    exact absurd (List.cons.inj heads).1.symm isOther
            | inr expression =>
                cases other with
                | inl otherCharacter =>
                    rcases exists_ne_character otherCharacter with ⟨another, isOther⟩
                    have heads := alike fun _ => [another]
                    exact absurd (List.cons.inj heads).1 isOther
                | inr otherExpression =>
                    by_cases isSame : expression = otherExpression
                    · rw [isSame]
                    · have heads := alike fun text => if text = expression then ['0'] else ['1']
                      simp only [evaluate, List.flatMap_cons, Sum.elim_inr,
                        if_neg (Ne.symm isSame)] at heads
                      cases (List.cons.inj heads).1
          subst same
          have rests : forall value, evaluate value first = evaluate value second := by
            intro value
            have whole := alike value
            rw [evaluate, evaluate, List.flatMap_cons, List.flatMap_cons] at whole
            exact List.append_cancel_left whole
          rw [ih rests]

def expressions (printout : Printout) : List Text :=
  printout.filterMap Sum.getRight?

def characterCount (printout : Printout) : Nat :=
  printout.countP Sum.isLeft

theorem expressions_append (first second : Printout) :
    expressions (first ++ second) = expressions first ++ expressions second :=
  List.filterMap_append

theorem expressions_map_inl (text : Text) : expressions (text.map .inl) = [] := by
  induction text with
  | nil => rfl
  | cons character text ih => exact ih

theorem characterCount_map_inl (text : Text) : characterCount (text.map .inl) = text.length := by
  rw [characterCount, List.countP_map, List.countP_eq_length]
  exact fun _ _ => rfl

theorem characterCount_append (first second : Printout) :
    characterCount (first ++ second) = characterCount first + characterCount second :=
  List.countP_append

theorem characterCount_symbol (expression : Text) : characterCount (symbol expression) = 0 := rfl

/-- The formatter prints the first of its values, in order, and no more
characters than the pattern has. -/
theorem formatWith_symbols (pattern : Text) (arguments : List Text) :
    (∃ used, expressions (formatWith .inl pattern (arguments.map symbol)) =
      arguments.take used) ∧
    characterCount (formatWith .inl pattern (arguments.map symbol)) ≤ pattern.length := by
  generalize isValues : arguments.map symbol = values
  generalize isPlain : (Sum.inl : Char -> Char ⊕ Text) = plain
  fun_induction formatWith plain pattern values generalizing arguments with
  | case1 pattern =>
      subst isPlain
      rw [expressions_map_inl, characterCount_map_inl]
      exact ⟨⟨0, rfl⟩, Nat.le_refl _⟩
  | case2 pattern value others notCut =>
      subst isPlain
      rw [expressions_map_inl, characterCount_map_inl]
      exact ⟨⟨0, rfl⟩, Nat.le_refl _⟩
  | case3 pattern value others front behind isCut escaped ih =>
      subst isPlain
      rcases List.map_eq_cons_iff.mp isValues with ⟨argument, arguments, rfl, rfl, rfl⟩
      rcases ih arguments rfl with ⟨⟨used, isUsed⟩, fewer⟩
      have length := length_of_cut? isCut
      constructor
      · refine ⟨used + 1, ?_⟩
        rw [expressions_append, expressions_append, isUsed, expressions_map_inl]
        rfl
      · rw [characterCount_append, characterCount_append, characterCount_map_inl,
          characterCount_symbol]
        omega
  | case4 pattern value others front behind isCut escaped ih =>
      subst isPlain
      rcases List.map_eq_cons_iff.mp isValues with ⟨argument, arguments, rfl, rfl, rfl⟩
      rcases ih arguments rfl with ⟨⟨used, isUsed⟩, fewer⟩
      have length := length_of_cut? isCut
      constructor
      · refine ⟨used + 1, ?_⟩
        rw [expressions_append, expressions_append, isUsed, expressions_map_inl]
        rfl
      · rw [characterCount_append, characterCount_append, characterCount_map_inl,
          characterCount_symbol, List.length_dropLast]
        omega
  | case5 pattern value others front behind isCut escaped ih =>
      subst isPlain
      rcases ih arguments isValues with ⟨⟨used, isUsed⟩, fewer⟩
      have length := length_of_cut? isCut
      rw [List.length_cons] at fewer
      constructor
      · refine ⟨used, ?_⟩
        rw [expressions_append, isUsed, expressions_map_inl]
        rfl
      · rw [characterCount_append, characterCount_map_inl, List.length_append,
          List.length_dropLast, List.length_singleton]
        omega

/-- Where there are braces and a value for them, the formatter drops
characters. -/
theorem characterCount_lt {pattern : Text} (cut : cut? pattern ≠ none) (argument : Text)
    (arguments : List Text) :
    characterCount (formatWith .inl pattern ((argument :: arguments).map symbol)) <
      pattern.length := by
  rcases Option.ne_none_iff_exists'.mp cut with ⟨⟨front, behind⟩, isCut⟩
  have length := length_of_cut? isCut
  have fewer := (formatWith_symbols behind arguments).2
  rw [List.map_cons, formatWith_of_cut isCut]
  split
  · rw [characterCount_append, characterCount_append, characterCount_map_inl,
      characterCount_symbol]
    omega
  · rw [characterCount_append, characterCount_append, characterCount_map_inl,
      characterCount_symbol, List.length_dropLast]
    omega
  · rename_i escaped
    have nonempty : front ≠ [] := by
      rintro rfl
      cases escaped
    have fewer := (formatWith_symbols ('}' :: behind) (argument :: arguments)).2
    have positive := List.length_pos_of_ne_nil nonempty
    rw [List.map_cons, List.length_cons] at fewer
    rw [characterCount_append, characterCount_map_inl, List.length_append,
      List.length_dropLast, List.length_singleton]
    omega

theorem expressions_fillWith {segments : List Segment} {arguments : List Text}
    (enough : segments.countP Segment.isPlaceholder ≤ arguments.length) :
    expressions (Template.fillWith .inl segments (arguments.map symbol)) =
      arguments.take (segments.countP Segment.isPlaceholder) := by
  induction segments generalizing arguments with
  | nil => rfl
  | cons segment rest ih =>
      cases segment with
      | literal text =>
          rw [List.countP_cons_of_neg (by simp [Segment.isPlaceholder])] at enough ⊢
          rw [Template.fillWith, expressions_append, expressions_map_inl, ih enough]
          rfl
      | placeholder =>
          rw [List.countP_cons_of_pos rfl] at enough ⊢
          cases arguments with
          | nil => exact absurd enough (by simp)
          | cons argument arguments =>
              rw [List.map_cons, Template.fillWith, expressions_append,
                ih (Nat.le_of_succ_le_succ enough)]
              rfl

/-- What the formatter prints for a pattern and a template's arguments with
more behind them, against what the template stands for. -/
private theorem exists_printed {template : Template} {pattern : Text}
    (normal : template.IsNormal) (isPattern : template.pattern? = some pattern)
    {arguments : List Text} (count : template.placeholderCount = arguments.length)
    (extra : List Text) :
    ∃ printed, formatWith .inl pattern ((arguments ++ extra).map symbol) =
        printed ++ formatWith .inl template.trailing (extra.map symbol) ∧
      Template.fillWith .inl template.segments (arguments.map symbol) =
        printed ++ template.trailing.map .inl := by
  have enough : template.segments.countP Segment.isPlaceholder ≤
      ((arguments ++ extra).map symbol).length := by
    rw [Template.placeholderCount] at count
    rw [List.length_map, List.length_append]
    omega
  rcases Template.formatWith_patternOf? .inl normal.apart isPattern enough with
    ⟨printed, isFormat, isFill⟩
  have dropped : ((arguments ++ extra).map symbol).drop
      (template.segments.countP Segment.isPlaceholder) = extra.map symbol := by
    rw [List.map_append]
    apply List.drop_left'
    rw [List.length_map]
    exact count.symm
  rw [dropped] at isFormat
  have within : template.segments.countP Segment.isPlaceholder ≤ (arguments.map symbol).length := by
    rw [List.length_map]
    exact Nat.le_of_eq count
  rw [List.map_append, Template.fillWith_append .inl within] at isFill
  exact ⟨printed, isFormat, isFill⟩

/-- A pattern prints its template exactly if the formatter gets the template's
arguments and, where it gets more, finds no braces to take them. -/
theorem forall_format_eq_fill_iff {template : Template} {pattern : Text}
    (normal : template.IsNormal) (isPattern : template.pattern? = some pattern)
    {arguments : List Text} (count : template.placeholderCount = arguments.length)
    (given : List Text) :
    (forall value : Text -> Text,
      format pattern (given.map value) = template.fill (arguments.map value)) ↔
      given.take arguments.length = arguments ∧
        (given.length = arguments.length ∨ ¬ placeholderMark <:+: template.trailing) := by
  simp only [format_map, fill_map]
  constructor
  · intro alike
    have same := eq_of_forall_evaluate alike
    have filled : expressions (Template.fillWith .inl template.segments (arguments.map symbol)) =
        arguments := by
      rw [expressions_fillWith (Nat.le_of_eq count)]
      exact List.take_of_length_le (Nat.le_of_eq count.symm)
    rcases (formatWith_symbols pattern given).1 with ⟨used, isUsed⟩
    rw [same, filled] at isUsed
    have taken : given.take arguments.length = arguments := by
      have isPrefix : arguments <+: given := by
        rw [isUsed]
        exact List.take_prefix used given
      exact (List.prefix_iff_eq_take.mp isPrefix).symm
    refine ⟨taken, ?_⟩
    have split := (List.take_append_drop arguments.length given).symm
    rw [taken] at split
    rcases exists_printed normal isPattern count (given.drop arguments.length) with
      ⟨printed, isFormat, isFill⟩
    rw [← split, same, isFill] at isFormat
    have behind := List.append_cancel_left isFormat
    cases extra : given.drop arguments.length with
    | nil =>
        left
        rw [split, extra, List.append_nil]
    | cons first others =>
        right
        apply cut?_eq_none_iff.mp
        by_contra cut
        have fewer := characterCount_lt cut first others
        rw [← extra, ← behind, characterCount_map_inl] at fewer
        exact absurd fewer (Nat.lt_irrefl _)
  · rintro ⟨taken, enough⟩ value
    have split := (List.take_append_drop arguments.length given).symm
    rw [taken] at split
    rcases exists_printed normal isPattern count (given.drop arguments.length) with
      ⟨printed, isFormat, isFill⟩
    rw [split, isFormat, isFill]
    congr 1
    congr 1
    rcases enough with sameLength | noBraces
    · rw [List.drop_of_length_le (Nat.le_of_eq sameLength), List.map_nil, formatWith]
    · exact formatWith_of_not_cut (cut?_eq_none_iff.mpr noBraces) _

end Formatter
end FluentLog
