import FluentLog.Proofs.Text.Digits
import FluentLog.Proofs.Yaml.Head
import FluentLog.Yaml.Printer

namespace FluentLog
namespace Yaml

/-!
# Plain scalars are read to their end

A plain scalar is read word by word, with the spaces between two words as the gap before the
second.  Where a text allows it, no word begins a comment and no colon ends one, so only the end
of the line ends the scalar.  A key ends at its colon.
-/

variable {least column : Nat} {following : Following}

/-! ## One character -/

theorem readPlain_space (spaces text : Text) :
    readPlain false least (.blanks spaces) column (' ' :: text) =
      readPlain false least (.blanks (' ' :: spaces)) (column + 1) text := by
  rw [readPlain, if_neg (by decide), if_pos (by decide)]
  rfl

/-- Whether a plain scalar goes on with a character in front of a text.  What
does not go on ends the scalar or is a blank. -/
structure GoesOn (gap : Gap) (column : Nat) (character : Char) (text : Text) : Prop where
  noBreak : isBreak character = false
  notBlank : isBlank character = false
  notComment : gap = .nothing ∨ character ≠ '#' ∧ column ≠ 0
  notColon : character ≠ ':' ∨ endsWord text = false

theorem readPlain_of_goesOn {spaces : Text} {character : Char} {text : Text}
    (goesOn : GoesOn (.blanks spaces) column character text) :
    readPlain false least (.blanks spaces) column (character :: text) =
      (readPlain false least .nothing (column + 1) text).map fun read =>
        (spaces.reverse ++ character :: read.1, read.2) := by
  have notEnd : endsPlain false (character :: text) = false := by
    unfold endsPlain
    split
    · rename_i same
      cases same
    · rename_i same
      cases same
      exact goesOn.notColon.resolve_left (by decide)
    · rfl
  have inScalar : (((.blanks spaces : Gap) != .nothing) &&
      (((.blanks spaces : Gap).isBroken && !false && decide (column < least)) ||
        (decide (column = 0) && marksDocument (character :: text)) ||
        decide (character = '#'))) = false := by
    rcases goesOn.notComment with isNothing | ⟨notComment, notMargin⟩
    · rw [isNothing]
      simp
    · simp [Gap.isBroken, notComment, notMargin]
  rw [readPlain, if_neg (by simp [goesOn.noBreak]), if_neg (by simp [goesOn.notBlank])]
  simp only [inScalar, notEnd, Bool.false_eq_true, if_false, Bool.false_and]
  cases readPlain false least .nothing (column + 1) text <;> rfl

/-! ## The end of a line -/

theorem readPlain_spaces_of_broken (breaks : Text) (count : Nat) (text : Text) :
    readPlain false least (.breaks breaks) column (List.replicate count ' ' ++ text) =
      readPlain false least (.breaks breaks) (column + count) text := by
  induction count generalizing column with
  | zero => rfl
  | succ count ih =>
      rw [List.replicate_succ, List.cons_append, readPlain, if_neg (by decide),
        if_pos (by decide), if_neg (by simp)]
      change readPlain false least (.breaks breaks) (column + 1) _ = _
      rw [ih, Nat.add_right_comm, Nat.add_assoc]

/-- The end of a line ends the scalar, if what follows stands further out. -/
theorem readPlain_line (isProper : following.IsProper least) (column : Nat) :
    readPlain false least .nothing column ('\n' :: following.text) =
      some ([], true, following.rest) := by
  rw [readPlain, if_pos (by decide), Following.text]
  change readPlain false least (.breaks ['\n']) 0 _ = _
  rw [readPlain_spaces_of_broken, Nat.zero_add]
  cases isRest : following.rest with
  | nil => rfl
  | cons character rest =>
      have isHead : character ∈ following.rest.head? := by
        rw [isRest, List.head?_cons, Option.mem_some_iff]
      rcases isProper.other character isHead with ⟨noBreak, notBlank, -⟩
      have further : following.column < least := by
        rcases isProper.further with isNothing | ⟨-, further⟩
        · rw [isNothing] at isRest
          cases isRest
        · exact further
      rw [readPlain, if_neg (by simp [noBreak]), if_neg (by simp [notBlank])]
      simp [Gap.isBroken, Gap.nothing, further]

/-! ## Texts that plain scalars allow -/

/-- Whether no character of a text ends a plain scalar.  It may still be taken
for something else than a text. -/
def IsPlain (text : Text) : Prop :=
  (∀ character ∈ text, isPrintable character = true ∧ isBreak character = false) ∧
    holdsIndicator text = false

theorem holdsIndicator_cons {character : Char} {text : Text}
    (holdsNone : holdsIndicator (character :: text) = false) :
    holdsIndicator text = false ∧ (character = ':' -> endsWord text = false) ∧
      (character = ' ' -> text.head? ≠ some '#') := by
  unfold holdsIndicator at holdsNone
  split at holdsNone
  · rename_i same
    cases same
  · rename_i same
    cases same
    rw [Bool.or_eq_false_iff] at holdsNone
    exact ⟨holdsNone.2, fun _ => holdsNone.1, fun same => absurd same (by decide)⟩
  · rename_i notColon same
    cases same
    rw [Bool.or_eq_false_iff, Bool.and_eq_false_iff] at holdsNone
    refine ⟨holdsNone.2, fun same => absurd same notColon, ?_⟩
    rintro rfl
    simpa [isBlank] using holdsNone.1

theorem eq_space_of_isBlank {character : Char} (printable : isPrintable character = true)
    (blank : isBlank character = true) : character = ' ' := by
  simp only [isBlank, Bool.or_eq_true, decide_eq_true_eq] at blank
  rcases blank with isSpace | rfl
  · exact isSpace
  · cases printable

theorem endsWord_append {text : Text} (goesOn : endsWord text = false) (rest : Text) :
    endsWord (text ++ rest) = false := by
  cases text with
  | nil => cases goesOn
  | cons character text => exact goesOn

/-- A text that allows it is read to the end of its line.  Spaces are kept
back as a gap until a word follows them. -/
theorem readPlain_text (isProper : following.IsProper least) {text spaces : Text}
    (isPlain : IsPlain text) (notMargin : spaces = [] ∨ column ≠ 0)
    (notComment : spaces = [] ∨ text.head? ≠ some '#') (noGap : text = [] -> spaces = [])
    (lastWord : text.getLast? ≠ some ' ') :
    readPlain false least (.blanks spaces) column (text ++ '\n' :: following.text) =
      some (spaces.reverse ++ text, true, following.rest) := by
  induction text generalizing spaces column with
  | nil =>
      rw [noGap rfl]
      exact readPlain_line isProper column
  | cons character text ih =>
      rcases isPlain with ⟨allPlain, holdsNone⟩
      rcases List.forall_mem_cons.mp allPlain with ⟨⟨printable, noBreak⟩, othersPlain⟩
      rcases holdsIndicator_cons holdsNone with ⟨othersHoldNone, notColon, noComment⟩
      have lastOfOthers : text.getLast? ≠ some ' ' := by
        cases text with
        | nil => simp
        | cons next text => rwa [List.getLast?_cons_cons] at lastWord
      cases blank : isBlank character with
      | true =>
          have isSpace := eq_space_of_isBlank printable blank
          subst isSpace
          rw [List.cons_append, readPlain_space, ih ⟨othersPlain, othersHoldNone⟩
            (.inr (Nat.succ_ne_zero column)) (.inr (noComment rfl))
            (fun same => absurd (same ▸ lastWord) (by simp)) lastOfOthers]
          simp
      | false =>
          have goesOn : GoesOn (.blanks spaces) column character (text ++ '\n' :: following.text) := by
            refine ⟨noBreak, blank, ?_, ?_⟩
            · rcases notMargin with rfl | notMargin
              · exact .inl rfl
              · rcases notComment with rfl | notComment
                · exact .inl rfl
                · exact .inr ⟨fun same => notComment (same ▸ rfl), notMargin⟩
            · by_cases isColon : character = ':'
              · exact .inr (endsWord_append (notColon isColon) _)
              · exact .inl isColon
          rw [List.cons_append, readPlain_of_goesOn goesOn]
          change (readPlain false least (.blanks []) _ _).map _ = _
          rw [ih ⟨othersPlain, othersHoldNone⟩ (.inl rfl) (.inl rfl) (fun _ => rfl) lastOfOthers]
          rfl

/-! ## Which texts are written plainly -/

/-- What a text has to begin with to be read as a plain scalar. -/
structure BeginsPlain (character : Char) (text : Text) : Prop where
  noBreak : isBreak character = false
  notBlank : isBlank character = false
  notIndicator : isIndicator character = false
  notAlone : character ∈ ['?', ':', '-'] -> endsWord text = false

theorem BeginsPlain.startsPlain {character : Char} {text : Text}
    (begins : BeginsPlain character text) : startsPlain false (character :: text) = true := by
  unfold Yaml.startsPlain
  split
  · rename_i same
    cases same
  · rename_i same
    cases same
    have notAlone := begins.notAlone
    simp only [List.mem_cons, List.not_mem_nil, or_false] at notAlone
    split
    · rename_i isDash
      have goesOn := notAlone (.inr (.inr isDash))
      split
      · rw [endsWord, Bool.or_eq_false_iff] at goesOn
        simp [goesOn.1]
      · rfl
    · split
      · rename_i isMark
        simp only [Bool.or_eq_true, decide_eq_true_eq] at isMark
        simp [notAlone (isMark.imp_right .inl)]
      · simp [begins.noBreak, begins.notBlank, begins.notIndicator]

theorem BeginsPlain.append {character : Char} {text : Text} (begins : BeginsPlain character text)
    (rest : Text) : BeginsPlain character (text ++ rest) :=
  ⟨begins.noBreak, begins.notBlank, begins.notIndicator,
    fun isMark => endsWord_append (begins.notAlone isMark) rest⟩

theorem isPlain_of_allowsPlain {text : Text} (allows : allowsPlain text = true) :
    IsPlain text ∧ text.getLast? ≠ some ' ' := by
  simp only [allowsPlain, Bool.and_eq_true, List.all_eq_true, Bool.not_eq_true',
    List.any_eq_false, bne_iff_ne] at allows
  rcases allows with ⟨⟨⟨⟨⟨printable, noBreaks⟩, -⟩, lastWord⟩, -⟩, holdsNone⟩
  exact ⟨⟨fun character member =>
    ⟨printable character member, Bool.eq_false_iff.mpr (noBreaks character member)⟩, holdsNone⟩,
    lastWord⟩

theorem beginsPlain_of_allowsPlain {character : Char} {text : Text}
    (allows : allowsPlain (character :: text) = true) : BeginsPlain character text := by
  rcases (isPlain_of_allowsPlain allows).1.1 character List.mem_cons_self with
    ⟨printable, noBreak⟩
  simp only [allowsPlain, Bool.and_eq_true, Bool.not_eq_true', bne_iff_ne] at allows
  rcases allows with ⟨⟨⟨⟨-, notSpace⟩, -⟩, beginsNone⟩, -⟩
  have notBlank : isBlank character = false := by
    rw [Bool.eq_false_iff]
    intro blank
    exact notSpace (by rw [eq_space_of_isBlank printable blank, List.head?_cons])
  unfold beginsIndicator at beginsNone
  split at beginsNone
  any_goals cases beginsNone
  all_goals
    rename_i same
    cases same
  rw [Bool.or_eq_false_iff, Bool.and_eq_false_iff] at beginsNone
  refine ⟨noBreak, notBlank, beginsNone.1, fun isMark => ?_⟩
  refine beginsNone.2.resolve_left ?_
  simp only [List.mem_cons, List.not_mem_nil, or_false] at isMark
  rcases isMark with rfl | rfl | rfl <;> decide

theorem holdsIndicator_of_word {word : Text}
    (isWord : ∀ character ∈ word, isWordCharacter character = true) :
    holdsIndicator word = false := by
  induction word with
  | nil => rfl
  | cons character word ih =>
      rcases List.forall_mem_cons.mp isWord with ⟨isCharacter, isWord⟩
      rcases other_of_isWordCharacter isCharacter with ⟨-, noBreak, notBlank, -, other⟩
      rw [holdsIndicator]
      · simp [noBreak, notBlank, ih isWord]
      · rintro rfl
        exact other (by decide)

theorem allowsPlain_of_word {word : Text}
    (isWord : ∀ character ∈ word, isWordCharacter character = true) : allowsPlain word = true := by
  have others := fun character member => other_of_isWordCharacter (isWord character member)
  have noSpace : ' ' ∉ word := fun member => absurd (isWord ' ' member) (by decide)
  have beginsNone : beginsIndicator word = false := by
    cases word with
    | nil => rfl
    | cons character word =>
        rcases others character List.mem_cons_self with ⟨-, -, -, notIndicator, other⟩
        simp only [List.mem_cons, List.not_mem_nil, or_false, not_or] at other
        unfold beginsIndicator
        split <;> simp_all
  have noBreaks : word.any isBreak = false :=
    List.any_eq_false.mpr fun character member => by simp [(others character member).2.1]
  have printable : word.all isPrintable = true :=
    List.all_eq_true.mpr fun character member => (others character member).1
  have first : word.head? ≠ some ' ' := fun isHead => noSpace (List.mem_of_mem_head? isHead)
  have last : word.getLast? ≠ some ' ' := fun isLast => noSpace (List.mem_of_mem_getLast? isLast)
  simp [allowsPlain, printable, noBreaks, first, last, beginsNone, holdsIndicator_of_word isWord]

theorem readPlain_key {name : Text} (isName : ∀ character ∈ name, isWordCharacter character = true)
    {text : Text} (ends : endsWord text = true) :
    readPlain false least .nothing column (name ++ ':' :: text) =
      some (name, false, ':' :: text) := by
  induction name generalizing column with
  | nil =>
      rw [List.nil_append, readPlain, if_neg (by decide), if_neg (by decide)]
      simp [endsPlain, ends, Gap.isBroken, Gap.nothing]
  | cons character name ih =>
      rcases List.forall_mem_cons.mp isName with ⟨isWord, isName⟩
      rcases other_of_isWordCharacter isWord with ⟨-, noBreak, notBlank, -, other⟩
      have goesOn : GoesOn .nothing column character (name ++ ':' :: text) := by
        refine ⟨noBreak, notBlank, .inl rfl, .inl ?_⟩
        rintro rfl
        exact other (by decide)
      rw [List.cons_append]
      change readPlain false least (.blanks []) column _ = _
      rw [readPlain_of_goesOn goesOn, ih isName]
      rfl

end Yaml
end FluentLog
