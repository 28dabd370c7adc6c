import FluentLog.Proofs.Yaml.Scalar.Plain
import FluentLog.Yaml.Printer
import Mathlib.Data.List.TakeWhile
import Mathlib.Tactic.SplitIfs

namespace FluentLog
namespace Yaml

/-!
# Literal blocks are read back

A literal block keeps every line of its text and the end of each.  Only where a text ends can
the header and the line ends disagree, and that is what the mark in the header is for.  So the
reader is followed line by line, and the last line decides.
-/

/-! ## Lines of a text -/

/-- A text has no line, or a last line without an end, or a line with an end
before the others. -/
theorem line_induction {motive : Text -> Prop} (nil : motive [])
    (last : ∀ content, content ≠ [] -> (∀ character ∈ content, isBreak character = false) ->
      motive content)
    (line : ∀ content lineEnd rest, (∀ character ∈ content, isBreak character = false) ->
      isBreak lineEnd = true -> motive rest -> motive (content ++ lineEnd :: rest))
    (text : Text) : motive text := by
  have within : ∀ text content : Text, (∀ character ∈ content, isBreak character = false) ->
      motive (content ++ text) := by
    intro text
    induction text with
    | nil =>
        intro content noBreak
        rw [List.append_nil]
        cases content with
        | nil => exact nil
        | cons character content => exact last _ (by simp) noBreak
    | cons character text ih =>
        intro content noBreak
        cases ends : isBreak character with
        | true => exact line content character text noBreak ends (ih [] (by simp))
        | false =>
            have more := ih (content ++ [character]) (by
              intro other member
              rcases List.mem_append.mp member with inContent | isCharacter
              · exact noBreak other inContent
              · rw [List.mem_singleton.mp isCharacter, ends])
            rwa [List.append_assoc, List.singleton_append] at more
  exact within text [] (by simp)

theorem splitLines_of_noBreak {content : Text} (nonempty : content ≠ [])
    (noBreak : ∀ character ∈ content, isBreak character = false) :
    splitLines content = [⟨content, none⟩] := by
  induction content with
  | nil => exact absurd rfl nonempty
  | cons character content ih =>
      rcases List.forall_mem_cons.mp noBreak with ⟨noBreakFirst, noBreak⟩
      rw [splitLines, if_neg (by simp [noBreakFirst])]
      cases content with
      | nil => rfl
      | cons next content => rw [ih (by simp) noBreak]

theorem splitLines_line {content : Text}
    (noBreak : ∀ character ∈ content, isBreak character = false) {lineEnd : Char}
    (ends : isBreak lineEnd = true) (rest : Text) :
    splitLines (content ++ lineEnd :: rest) = ⟨content, some lineEnd⟩ :: splitLines rest := by
  induction content with
  | nil => rw [List.nil_append, splitLines, if_pos ends]
  | cons character content ih =>
      rcases List.forall_mem_cons.mp noBreak with ⟨noBreakFirst, noBreak⟩
      rw [List.cons_append, splitLines, if_neg (by simp [noBreakFirst]), ih noBreak]

theorem flatMap_text_splitLines (text : Text) : (splitLines text).flatMap Line.text = text := by
  induction text using line_induction with
  | nil => rfl
  | last content nonempty noBreak =>
      rw [splitLines_of_noBreak nonempty noBreak]
      simp [Line.text]
  | line content lineEnd rest noBreak ends ih =>
      rw [splitLines_line noBreak ends, List.flatMap_cons, ih]
      simp [Line.text]

/-! ## Printed lines -/

theorem literalLines_append (indent : Nat) {content : Text}
    (noBreak : ∀ character ∈ content, isBreak character = false) (rest : Text) :
    literalLines indent false (content ++ rest) = content ++ literalLines indent false rest := by
  induction content with
  | nil => rfl
  | cons character content ih =>
      rcases List.forall_mem_cons.mp noBreak with ⟨noBreakFirst, noBreak⟩
      rw [List.cons_append, literalLines, if_neg (by simp [noBreakFirst]), ih noBreak]
      rfl

theorem literalLines_line (indent : Nat) {content : Text} (nonempty : content ≠ [])
    (noBreak : ∀ character ∈ content, isBreak character = false) (rest : Text) :
    literalLines indent true (content ++ rest) =
      List.replicate indent ' ' ++ content ++ literalLines indent false rest := by
  cases content with
  | nil => exact absurd rfl nonempty
  | cons character content =>
      rcases List.forall_mem_cons.mp noBreak with ⟨noBreakFirst, noBreak⟩
      rw [List.cons_append, literalLines, if_neg (by simp [noBreakFirst]),
        literalLines_append indent noBreak, if_pos rfl, List.append_assoc, List.cons_append]

/-- A line as it stands in a literal block: with spaces in front of it unless
it is empty, and always with an end. -/
def Line.indented (column : Nat) (line : Line) : Line where
  content := if line.content = [] then [] else List.replicate column ' ' ++ line.content
  lineEnd := some (line.lineEnd.getD '\n')

theorem splitLines_literalLines (column : Nat) (text rest : Text) :
    splitLines (literalLines column true text ++ rest) =
      (splitLines text).map (Line.indented column) ++ splitLines rest := by
  have noBreakIndented : forall {content : Text},
      (∀ character ∈ content, isBreak character = false) ->
      ∀ character ∈ List.replicate column ' ' ++ content, isBreak character = false := by
    intro content noBreak character member
    rcases List.mem_append.mp member with inSpaces | inContent
    · rw [List.eq_of_mem_replicate inSpaces]
      rfl
    · exact noBreak character inContent
  induction text using line_induction with
  | nil => rfl
  | last content nonempty noBreak =>
      have printed := literalLines_line column nonempty noBreak []
      rw [List.append_nil] at printed
      rw [printed, literalLines, if_neg (by decide), List.append_assoc _ ['\n'],
        List.singleton_append, splitLines_line (noBreakIndented noBreak) (by decide),
        splitLines_of_noBreak nonempty noBreak]
      simp [Line.indented, nonempty]
  | line content lineEnd others noBreak ends ih =>
      rw [splitLines_line noBreak ends, List.map_cons, List.cons_append, ← ih]
      by_cases nonempty : content = []
      · subst nonempty
        rw [List.nil_append, literalLines, if_pos ends, List.cons_append]
        exact splitLines_line noBreak ends _
      · rw [literalLines_line column nonempty noBreak, literalLines, if_pos ends,
          List.append_assoc _ (_ :: _), List.cons_append,
          splitLines_line (noBreakIndented noBreak) ends]
        simp [Line.indented, nonempty]

/-! ## Reading the lines -/

/-- Adds a line of a text to what has been read of a literal block. -/
def Block.add (block : Block) (line : Line) : Block :=
  if line.content = [] then block.addEmpty (line.indented 0)
  else block.addLine false line.content (line.indented 0).lineEnd

theorem spaces_indented (column : Nat) (line : Line) (nonempty : line.content ≠ []) :
    column ≤ (line.indented column).spaces := by
  rw [Line.spaces, Line.indented, if_neg nonempty, List.takeWhile_append_of_pos (by simp)]
  simp

theorem readBlockLines_indented (column : Nat) (block : Block) (lines others : List Line) :
    readBlockLines false column block (lines.map (Line.indented column) ++ others) =
      readBlockLines false column (lines.foldl Block.add block) others := by
  induction lines generalizing block with
  | nil => rfl
  | cons line lines ih =>
      rw [List.map_cons, List.cons_append, List.foldl_cons, readBlockLines]
      by_cases isEmpty : line.content = []
      · have content : (line.indented column).content = [] := if_pos isEmpty
        have noSpaces : (line.indented column).spaces = 0 := by rw [Line.spaces, content]; rfl
        rw [if_neg (by simp [Line.hasStrayTab, content]), if_pos, ih, Block.add, if_pos isEmpty]
        · rfl
        · rw [Line.isBlank, content, noSpaces]
          simp [Line.indented]
      · have content : (line.indented column).content = List.replicate column ' ' ++ line.content :=
          if_neg isEmpty
        have spaces := spaces_indented column line isEmpty
        have longer : column < (line.indented column).content.length := by
          have positive := List.length_pos_iff.mpr isEmpty
          rw [content, List.length_append, List.length_replicate]
          omega
        rw [if_neg, if_neg, if_neg, ih, Block.add, if_neg isEmpty, content,
          List.drop_left' List.length_replicate]
        · rfl
        · simp only [Bool.or_eq_true, decide_eq_true_eq]
          omega
        · simp only [Bool.and_eq_true, Line.isBlank, decide_eq_true_eq]
          rintro ⟨⟨-, allSpaces⟩, few⟩
          rw [Line.spaces, List.takeWhile_eq_self_iff.mpr] at few
          · omega
          · simpa using allSpaces
        · simp only [Line.hasStrayTab, Bool.and_eq_true, decide_eq_true_eq]
          omega

/-- What the header says about the end of a text. -/
def chompingOf (text : Text) : Chomping :=
  match chompingMark text with
  | '-' :: _ => .strip
  | '+' :: _ => .keep
  | _ => .clip

theorem chompingOf_of_noBreak {content : Text}
    (noBreak : ∀ character ∈ content, isBreak character = false) :
    chompingOf content = .strip := by
  have isMark : chompingMark content = ['-'] := by
    rw [chompingMark]
    split
    · rfl
    · rename_i last before isReverse
      rw [if_pos]
      simp [noBreak last (List.mem_reverse.mp (isReverse ▸ List.mem_cons_self))]
  rw [chompingOf, isMark]
  rfl

theorem chompingOf_line {content : Text}
    (noBreak : ∀ character ∈ content, isBreak character = false) {lineEnd : Char}
    (ends : isBreak lineEnd = true) :
    chompingOf (content ++ [lineEnd]) = if content = [] then .keep else .clip := by
  have isMark : chompingMark (content ++ [lineEnd]) = if content = [] then ['+'] else [] := by
    rw [chompingMark, List.reverse_append, List.reverse_singleton, List.singleton_append]
    simp only [ends, Bool.not_true, Bool.false_eq_true, if_false]
    cases isReverse : content.reverse with
    | nil => rw [if_pos (List.reverse_eq_nil_iff.mp isReverse)]
    | cons last before =>
        have member : last ∈ content := List.mem_reverse.mp (isReverse ▸ List.mem_cons_self)
        rw [if_neg (List.ne_nil_of_mem member)]
        simp [noBreak last member]
  rw [chompingOf, isMark]
  split_ifs <;> rfl

theorem chompingOf_append {content rest : Text} {lineEnd : Char} (ends : isBreak lineEnd = true)
    (nonempty : rest ≠ []) : chompingOf (content ++ lineEnd :: rest) = chompingOf rest := by
  have sameMark : chompingMark (content ++ lineEnd :: rest) = chompingMark rest := by
    rw [chompingMark, chompingMark, List.reverse_append, List.reverse_cons]
    cases isReverse : rest.reverse with
    | nil => exact absurd (List.reverse_eq_nil_iff.mp isReverse) nonempty
    | cons last before =>
        cases before with
        | nil => simp [ends]
        | cons other before => simp
  rw [chompingOf, chompingOf, sameMark]

/-- With the mark that is printed for a text, its lines are read as the text.
The empty lines at the end are those that the mark decides about. -/
theorem finish_foldl_add {text : Text} (nonempty : text ≠ []) (block : Block) :
    ((splitLines text).foldl Block.add block).finish (chompingOf text) =
      block.finish .keep ++ text := by
  induction text using line_induction generalizing block with
  | nil => exact absurd rfl nonempty
  | last content _ noBreak =>
      rw [splitLines_of_noBreak nonempty noBreak, chompingOf_of_noBreak noBreak]
      simp [Block.add, nonempty, Block.addLine, Block.finish]
  | line content lineEnd rest noBreak ends ih =>
      have added : (block.add ⟨content, some lineEnd⟩).finish .keep =
          block.finish .keep ++ (content ++ [lineEnd]) := by
        rw [Block.add]
        split_ifs with isEmpty
        · simp only at isEmpty
          simp [isEmpty, Block.addEmpty, Block.finish, Line.indented]
        · simp [Block.addLine, Block.finish, Line.indented]
      rw [splitLines_line noBreak ends, List.foldl_cons]
      by_cases atEnd : rest = []
      · subst atEnd
        rw [chompingOf_line noBreak ends, ← added]
        split_ifs with isEmpty
        · rfl
        · simp [splitLines, Block.add, isEmpty, Block.addLine, Block.finish]
      · rw [chompingOf_append ends atEnd, ih atEnd, added]
        simp

/-! ## The end of a block -/

variable {least : Nat} {following : Following}

theorem exists_splitLines_spaces (count : Nat) {character : Char}
    (noBreak : isBreak character = false) (text : Text) :
    ∃ content lineEnd others, splitLines (List.replicate count ' ' ++ character :: text) =
      ⟨List.replicate count ' ' ++ character :: content, lineEnd⟩ :: others := by
  induction count with
  | zero =>
      rw [List.replicate_zero, List.nil_append, splitLines, if_neg (by simp [noBreak])]
      cases splitLines text with
      | nil => exact ⟨[], none, [], rfl⟩
      | cons line lines => exact ⟨line.content, line.lineEnd, lines, rfl⟩
  | succ count ih =>
      rcases ih with ⟨content, lineEnd, others, lines⟩
      refine ⟨content, lineEnd, others, ?_⟩
      rw [List.replicate_succ, List.cons_append, splitLines, if_neg (by decide), lines]
      rfl

theorem spaces_of_content {line : Line} {count : Nat} {character : Char} {content : Text}
    (isContent : line.content = List.replicate count ' ' ++ character :: content)
    (notSpace : character ≠ ' ') :
    line.spaces = count ∧ line.content.drop line.spaces = character :: content ∧
      line.isBlank = false := by
  have isSpaces : line.spaces = count := by
    rw [Line.spaces, isContent, List.takeWhile_append_of_pos (by simp),
      List.takeWhile_cons_of_neg (by simp [notSpace])]
    simp
  refine ⟨isSpaces, ?_, ?_⟩
  · rw [isSpaces, isContent, List.drop_left' List.length_replicate]
  · rw [Line.isBlank, isContent]
    simp [notSpace]

theorem readBlockLines_following (isProper : following.IsProper least) {column : Nat}
    (inside : least ≤ column) (block : Block) :
    readBlockLines false column block (splitLines following.text) =
      some (block, splitLines following.text) := by
  rcases isProper.further with isNothing | ⟨nonempty, further⟩
  · rw [isNothing]
    rfl
  · cases isRest : following.rest with
    | nil => exact absurd isRest nonempty
    | cons character rest =>
        rcases isProper.other character (by rw [isRest]; rfl) with ⟨noBreak, notBlank, -⟩
        simp only [isBlank, Bool.or_eq_false_iff, decide_eq_false_iff_not] at notBlank
        rcases exists_splitLines_spaces following.column noBreak rest with
          ⟨content, lineEnd, others, lines⟩
        rw [Following.text, isRest, lines, readBlockLines]
        generalize isLine : (⟨List.replicate following.column ' ' ++ character :: content,
          lineEnd⟩ : Line) = line
        have isContent := congrArg Line.content isLine.symm
        rcases spaces_of_content isContent notBlank.1 with ⟨spaces, dropped, notEmpty⟩
        rw [if_neg, if_neg, if_pos]
        · simp only [Bool.or_eq_true, decide_eq_true_eq]
          omega
        · simp [notEmpty]
        · simp [Line.hasStrayTab, dropped, notBlank.2]

/-! ## The whole block -/

/-- What the header says about the beginning of a text. -/
def hintOf : Text -> Option Nat
  | [] => none
  | character :: _ => if character = ' ' || isBreak character then some 2 else none

theorem chompingMark_mem (text : Text) : chompingMark text ∈ [['-'], ['+'], []] := by
  rw [chompingMark]
  split
  · decide
  · split_ifs
    · decide
    · split
      · decide
      · split_ifs <;> decide

theorem readHeader_literal (text rest : Text) :
    readHeader false ((if (hintOf text).isSome then ['2'] else []) ++ chompingMark text ++
      '\n' :: rest) = some (⟨false, chompingOf text, hintOf text⟩, rest) := by
  have isMark := chompingMark_mem text
  have isHint : hintOf text = some 2 ∨ hintOf text = none := by
    cases text with
    | nil => exact .inr rfl
    | cons character text => exact (ite_eq_or_eq _ _ _)
  simp only [List.mem_cons, List.not_mem_nil, or_false] at isMark
  rw [chompingOf]
  rcases isHint with isHint | isHint
  all_goals
    rw [isHint]
    rcases isMark with isMark | isMark | isMark
    all_goals
      rw [isMark]
      rfl

theorem literal_eq (indent : Nat) (text : Text) :
    literal indent text = '|' :: ((if (hintOf text).isSome then ['2'] else []) ++
      chompingMark text ++ '\n' :: literalLines indent true text) := by
  cases text with
  | nil => rfl
  | cons character text =>
      change '|' :: (if character = ' ' || isBreak character then ['2'] else []) ++ _ ++ _ = _
      rw [hintOf]
      by_cases isHint : (decide (character = ' ') || isBreak character) = true
      · rw [if_pos isHint, if_pos isHint]
        rfl
      · rw [if_neg isHint, if_neg isHint]
        rfl

theorem blockColumn_of_hintOf {text : Text} (nonempty : text ≠ []) (noTab : text.head? ≠ some '\t')
    (noHint : hintOf text = none) (least : Nat) (rest : Text) :
    let lines := splitLines (literalLines (least + 1) true text ++ rest)
    blockColumn least lines = least + 1 ∧ hasLeadingTab lines = false := by
  cases text with
  | nil => exact absurd rfl nonempty
  | cons character text =>
      rw [hintOf, ite_eq_right_iff] at noHint
      have plain : character ≠ ' ' ∧ isBreak character = false := by
        by_contra isHint
        refine absurd (noHint ?_) (by simp)
        simpa [imp_iff_not_or] using isHint
      rcases exists_splitLines_spaces (least + 1) plain.2
        (literalLines (least + 1) false text ++ rest) with ⟨content, lineEnd, others, lines⟩
      rw [literalLines, if_neg (by simp [plain.2]), if_pos rfl, List.append_assoc,
        List.cons_append, lines]
      generalize isLine : (⟨List.replicate (least + 1) ' ' ++ character :: content,
        lineEnd⟩ : Line) = line
      have isContent := congrArg Line.content isLine.symm
      rcases spaces_of_content isContent plain.1 with ⟨spaces, dropped, notEmpty⟩
      constructor
      · rw [blockColumn, if_neg (by simp [notEmpty]), spaces]
        omega
      · rw [hasLeadingTab, if_neg (by simp [notEmpty]), dropped]
        simpa using noTab

theorem readBlock_literal (isProper : following.IsProper least) (positive : 0 < least)
    {text : Text} (nonempty : text ≠ []) (noTab : text.head? ≠ some '\t') :
    readBlock false least (((if (hintOf text).isSome then ['2'] else []) ++ chompingMark text ++
        '\n' :: literalLines (least + 1) true text) ++ following.text) =
      some (text, following.text) := by
  rw [List.append_assoc, List.cons_append, readBlock, readHeader_literal]
  have read := readBlockLines_indented (least + 1) {} (splitLines text) (splitLines following.text)
  rw [← splitLines_literalLines, readBlockLines_following isProper (by omega)] at read
  have finished := finish_foldl_add nonempty {}
  cases hint : hintOf text with
  | none =>
      rcases blockColumn_of_hintOf nonempty noTab hint least following.text with ⟨column, noTab⟩
      simp only [column, noTab, read, finished, flatMap_text_splitLines]
      rfl
  | some indentation =>
      have isTwo : indentation = 2 := by
        unfold hintOf at hint
        split at hint
        · cases hint
        · split_ifs at hint
          exact (Option.some.inj hint).symm
      have column : least - 1 + indentation = least + 1 := by omega
      simp only [column, read, finished, flatMap_text_splitLines]
      rfl

end Yaml
end FluentLog
