import FluentLog.Proofs.Text.Digits
import FluentLog.Proofs.Yaml.Scalar.Plain
import FluentLog.Yaml.Printer

namespace FluentLog
namespace Yaml

/-!
# Quoted scalars are read back

Between double quotes every line end is escaped, so all of a text stands in one line.  Between
single quotes stand only texts whose lines neither begin nor end with a space, since the reader
drops such spaces, and none that holds a line feed, since the reader folds it.
-/

/-! ## Double quotes -/

/-- Whether a form of a character is read as the character between double
quotes. -/
def ReadsAs (form : Text) (character : Char) : Prop :=
  ∀ (gap : Gap) (rest : Text), readDoubleQuoted gap false (form ++ rest) =
    (readDoubleQuoted .nothing false rest).map fun read => (gap.text ++ character :: read.1, read.2)

theorem readsAs_self {character : Char} (noBreak : isBreak character = false)
    (notBlank : isBlank character = false) (notQuote : character ≠ '"')
    (notBackslash : character ≠ '\\') : ReadsAs [character] character := by
  intro gap rest
  rw [List.singleton_append, readDoubleQuoted]
  · simp [noBreak, notBlank]
  all_goals simp_all

theorem readsAs_mark {mark character : Char} (unescaped : unescape? mark = some character)
    (noBreak : isBreak mark = false) : ReadsAs ['\\', mark] character := by
  intro gap rest
  rw [List.cons_append, List.singleton_append, readDoubleQuoted]
  · rw [if_neg (by simp [noBreak]), unescaped]
    cases readDoubleQuoted .nothing false rest <;> rfl
  all_goals
    intros
    rename_i isCode _
    rw [isCode] at unescaped
    cases unescaped

theorem ofCode?_hexDigits {width : Nat} {character : Char}
    (enough : character.toNat < Nat.pow 16 width) :
    ofCode? (hexDigits 'A' width character.toNat) = some character := by
  rw [ofCode?, IsFirstLetter.ofDigits?_hexDigits (.inr rfl) enough]
  simp only [Char.ofNat_toNat]
  exact if_pos character.valid

theorem readsAs_code {mark character : Char} {width : Nat}
    (isMark : (mark, width) ∈ [('x', 2), ('u', 4), ('U', 8)])
    (enough : character.toNat < Nat.pow 16 width) :
    ReadsAs ('\\' :: mark :: hexDigits 'A' width character.toNat) character := by
  intro gap rest
  have isCode := ofCode?_hexDigits enough
  have length := length_hexDigits 'A' width character.toNat
  simp only [List.mem_cons, List.not_mem_nil, or_false, Prod.mk.injEq] at isMark
  rcases isMark with ⟨rfl, rfl⟩ | ⟨rfl, rfl⟩ | ⟨rfl, rfl⟩
  · match digits : hexDigits 'A' 2 character.toNat, length with
    | [_, _], _ =>
        rw [digits] at isCode
        simp only [List.cons_append, List.nil_append, readDoubleQuoted, isCode]
        cases readDoubleQuoted .nothing false rest <;> rfl
  · match digits : hexDigits 'A' 4 character.toNat, length with
    | [_, _, _, _], _ =>
        rw [digits] at isCode
        simp only [List.cons_append, List.nil_append, readDoubleQuoted, isCode]
        cases readDoubleQuoted .nothing false rest <;> rfl
  · match digits : hexDigits 'A' 8 character.toNat, length with
    | [_, _, _, _, _, _, _, _], _ =>
        rw [digits] at isCode
        simp only [List.cons_append, List.nil_append, readDoubleQuoted, isCode]
        cases readDoubleQuoted .nothing false rest <;> rfl

/-- Every character but a space is read back from its form between double
quotes. -/
theorem readsAs_escape {character : Char} (notSpace : character ≠ ' ') :
    ReadsAs (escape character) character := by
  unfold escape
  split
  · rename_i stays
    simp only [Bool.and_eq_true, Bool.not_eq_true', bne_iff_ne] at stays
    rcases stays with ⟨⟨⟨printable, noBreak⟩, notQuote⟩, notBackslash⟩
    have notBlank : isBlank character = false := by
      rw [Bool.eq_false_iff]
      exact fun blank => notSpace (eq_space_of_isBlank printable blank)
    exact readsAs_self noBreak notBlank notQuote notBackslash
  · split
    any_goals exact readsAs_mark rfl (by decide)
    simp only
    split
    · rename_i small
      exact readsAs_code (by decide) (Nat.lt_succ_of_le small)
    · split
      · rename_i small
        exact readsAs_code (by decide) (Nat.lt_succ_of_le small)
      · exact readsAs_code (by decide) character.val.toNat_lt

theorem readDoubleQuoted_text (text spaces rest : Text) :
    readDoubleQuoted (.blanks spaces) false (text.flatMap escape ++ '"' :: rest) =
      some (spaces.reverse ++ text, rest) := by
  induction text generalizing spaces with
  | nil =>
      rw [List.append_nil]
      rfl
  | cons character text ih =>
      rw [List.flatMap_cons, List.append_assoc]
      by_cases isSpace : character = ' '
      · subst isSpace
        change readDoubleQuoted (.blanks (' ' :: spaces)) false (text.flatMap escape ++ _) = _
        rw [ih]
        simp
      · rw [readsAs_escape isSpace]
        change (readDoubleQuoted (.blanks []) false (text.flatMap escape ++ _)).map _ = _
        rw [ih]
        rfl

/-! ## Single quotes -/

theorem readSingleQuoted_blank {gap : Gap} {atMargin : Bool} {blank : Char}
    (isBlank : blank = ' ') (text : Text) :
    readSingleQuoted gap atMargin (blank :: text) =
      readSingleQuoted (gap.addBlank ' ') false text := by
  subst isBlank
  rw [readSingleQuoted, if_neg (by decide), if_pos (by decide)]
  · simp
  · simp

theorem readSingleQuoted_indent (breaks : Text) (count : Nat) (text : Text) :
    readSingleQuoted (.breaks breaks) true (List.replicate (count + 1) ' ' ++ text) =
      readSingleQuoted (.breaks breaks) false text := by
  have within : readSingleQuoted (.breaks breaks) false (List.replicate count ' ' ++ text) =
      readSingleQuoted (.breaks breaks) false text := by
    induction count with
    | zero => rfl
    | succ count ih =>
        rw [List.replicate_succ, List.cons_append, readSingleQuoted_blank rfl]
        exact ih
  rw [List.replicate_succ, List.cons_append, readSingleQuoted_blank rfl]
  exact within

theorem readSingleQuoted_break {character : Char} (ends : isBreak character = true) (gap : Gap)
    (atMargin : Bool) (text : Text) :
    readSingleQuoted gap atMargin (character :: text) =
      readSingleQuoted (gap.addBreak character) true text := by
  have notQuote : character ≠ '\'' := by
    rintro rfl
    cases ends
  rw [readSingleQuoted, if_pos ends]
  · exact fun _ same => absurd same notQuote
  · exact notQuote

theorem readSingleQuoted_character {character : Char} (noBreak : isBreak character = false)
    (notBlank : isBlank character = false) (gap : Gap) (text : Text) :
    readSingleQuoted gap false
        ((if character = '\'' then ['\'', '\''] else [character]) ++ text) =
      (readSingleQuoted .nothing false text).map fun read =>
        (gap.text ++ character :: read.1, read.2) := by
  by_cases isQuote : character = '\''
  · rw [if_pos isQuote, List.cons_append, List.singleton_append, readSingleQuoted, isQuote]
  · rw [if_neg isQuote, List.singleton_append, readSingleQuoted]
    · simp [noBreak, notBlank]
    · exact fun _ same => absurd same isQuote
    · exact isQuote

/-- Whether the reader gives back the gap before a text between single quotes
as it is.  Line feeds would be folded, and spaces around line ends would be
lost. -/
inductive Fits : Gap -> Text -> Prop where
  | blanks (spaces text : Text)
      (noBreak : spaces = [] ∨ ∀ character ∈ text.head?, isBreak character = false) :
      Fits (.blanks spaces) text
  | breaks (breaks text : Text) (unfolded : '\n' ∉ breaks) (noSpace : text.head? ≠ some ' ') :
      Fits (.breaks breaks) text

/-- Whether the reader gives back a text between single quotes as it is. -/
structure IsUnfolded (text : Text) : Prop where
  printable : ∀ character ∈ text, isPrintable character = true
  noLineFeed : '\n' ∉ text
  noSpaceBefore : hasSpaceBeforeBreak text = false
  noSpaceAfter : hasSpaceAfterBreak text = false

theorem hasPair_cons (first second : Char -> Bool) (character : Char) (text : Text) :
    hasPair first second (character :: text) =
      (first character && text.head?.any second || hasPair first second text) := by
  cases text with
  | nil => simp [hasPair]
  | cons next text => simp [hasPair]

theorem IsUnfolded.tail {character : Char} {text : Text}
    (isUnfolded : IsUnfolded (character :: text)) : IsUnfolded text ∧
      (character = ' ' -> ∀ next ∈ text.head?, isBreak next = false) ∧
      (isBreak character = true -> text.head? ≠ some ' ') := by
  rcases isUnfolded with ⟨printable, noLineFeed, noSpaceBefore, noSpaceAfter⟩
  rw [hasSpaceBeforeBreak, hasPair_cons, Bool.or_eq_false_iff, Bool.and_eq_false_iff]
    at noSpaceBefore
  rw [hasSpaceAfterBreak, hasPair_cons, Bool.or_eq_false_iff, Bool.and_eq_false_iff]
    at noSpaceAfter
  refine ⟨⟨(List.forall_mem_cons.mp printable).2, fun member =>
    noLineFeed (List.mem_cons_of_mem _ member), noSpaceBefore.2, noSpaceAfter.2⟩, ?_, ?_⟩
  · rintro rfl next isNext
    have notBreak := noSpaceBefore.1.resolve_left (by decide)
    rw [isNext] at notBreak
    exact notBreak
  · intro ends isSpace
    have notSpace := noSpaceAfter.1.resolve_left (by simp [ends])
    rw [isSpace] at notSpace
    cases notSpace

theorem text_of_unfolded {breaks : Text} (unfolded : '\n' ∉ breaks) :
    (Gap.breaks breaks).text = breaks.reverse := by
  rw [Gap.text]
  split
  · rename_i same
    exact absurd (List.mem_reverse.mp (same ▸ List.mem_cons_self)) unfolded
  · rename_i same
    exact absurd (List.mem_reverse.mp (same ▸ List.mem_cons_self)) unfolded
  · rfl

namespace Fits

/-- A line end becomes part of the gap, and nothing is folded. -/
theorem addBreak {gap : Gap} {character : Char} {text : Text} (fits : Fits gap (character :: text))
    (ends : isBreak character = true) (notLineFeed : character ≠ '\n')
    (noSpaceNext : text.head? ≠ some ' ') :
    Fits (gap.addBreak character) text ∧ (gap.addBreak character).text = gap.text ++ [character] := by
  cases fits with
  | blanks spaces _ noBreak =>
      have noSpaces : spaces = [] :=
        noBreak.resolve_right fun noBreak => by simp [noBreak character rfl] at ends
      subst noSpaces
      have unfolded : '\n' ∉ [character] := by simpa using notLineFeed.symm
      exact ⟨.breaks [character] text unfolded noSpaceNext, text_of_unfolded unfolded⟩
  | breaks breaks _ unfolded _ =>
      have stillUnfolded : '\n' ∉ character :: breaks := by simp [unfolded, notLineFeed.symm]
      refine ⟨.breaks (character :: breaks) text stillUnfolded noSpaceNext, ?_⟩
      rw [text_of_unfolded unfolded, ← List.reverse_cons]
      exact text_of_unfolded stillUnfolded

/-- A space becomes part of the gap, which holds no line end. -/
theorem addBlank {gap : Gap} {text : Text} (fits : Fits gap (' ' :: text))
    (noBreakNext : ∀ next ∈ text.head?, isBreak next = false) :
    Fits (gap.addBlank ' ') text ∧ (gap.addBlank ' ').text = gap.text ++ [' '] ∧
      (gap.addBlank ' ').isBroken = false := by
  cases fits with
  | blanks spaces => exact ⟨.blanks (' ' :: spaces) text (.inr noBreakNext), List.reverse_cons, rfl⟩
  | breaks breaks _ _ noSpace => exact absurd rfl noSpace

/-- The spaces that are printed before a line do not count. -/
theorem readSingleQuoted_line {gap : Gap} {text : Text} (fits : Fits gap text)
    (noBreak : ∀ character ∈ text.head?, isBreak character = false) (indent : Nat) (rest : Text) :
    readSingleQuoted gap gap.isBroken
        (singleQuotedFrom (indent + 1) gap.isBroken text ++ rest) =
      readSingleQuoted gap false (singleQuotedFrom (indent + 1) false text ++ rest) := by
  cases fits with
  | blanks spaces => rfl
  | breaks breaks =>
      cases text with
      | nil => exact readSingleQuoted_indent breaks indent rest
      | cons character text =>
          have noBreak := noBreak character rfl
          simp only [singleQuotedFrom, noBreak, Bool.false_eq_true, if_false, Gap.isBroken,
            if_true, List.append_assoc]
          exact readSingleQuoted_indent breaks indent _

end Fits

theorem Gap.isBroken_addBreak (gap : Gap) (lineEnd : Char) :
    (gap.addBreak lineEnd).isBroken = true := by
  cases gap <;> rfl

theorem readSingleQuoted_close {rest : Text} (noQuote : rest.head? ≠ some '\'') (gap : Gap) :
    readSingleQuoted gap false ('\'' :: rest) = some (gap.text, rest) := by
  rw [readSingleQuoted]
  intro behind same
  exact noQuote (by rw [same, List.head?_cons])

theorem readSingleQuoted_text {indent : Nat} (indented : 0 < indent) {gap : Gap} {text : Text}
    (isUnfolded : IsUnfolded text) (fits : Fits gap text) (rest : Text)
    (noQuote : rest.head? ≠ some '\'') :
    readSingleQuoted gap gap.isBroken
        (singleQuotedFrom indent gap.isBroken text ++ '\'' :: rest) =
      some (gap.text ++ text, rest) := by
  rcases Nat.exists_eq_succ_of_ne_zero (Nat.ne_of_gt indented) with ⟨indent, rfl⟩
  induction text generalizing gap with
  | nil =>
      rw [fits.readSingleQuoted_line (by simp), List.append_nil]
      exact readSingleQuoted_close noQuote gap
  | cons character text ih =>
      rcases isUnfolded.tail with ⟨isUnfoldedTail, noBreakNext, noSpaceNext⟩
      cases ends : isBreak character with
      | true =>
          have notLineFeed : character ≠ '\n' :=
            fun same => isUnfolded.noLineFeed (same ▸ List.mem_cons_self)
          rcases fits.addBreak ends notLineFeed (noSpaceNext ends) with ⟨fitsNext, sameText⟩
          have read := ih isUnfoldedTail fitsNext
          rw [gap.isBroken_addBreak, sameText, List.append_assoc] at read
          rw [singleQuotedFrom, if_pos ends, List.cons_append, readSingleQuoted_break ends]
          exact read
      | false =>
          rw [fits.readSingleQuoted_line (by simpa using ends), singleQuotedFrom,
            if_neg (by simp [ends]), if_neg (by simp), List.nil_append, List.append_assoc]
          cases blank : isBlank character with
          | true =>
              have printable := isUnfolded.printable character List.mem_cons_self
              have isSpace := eq_space_of_isBlank printable blank
              subst isSpace
              rcases fits.addBlank (noBreakNext rfl) with ⟨fitsNext, sameText, unbroken⟩
              have read := ih isUnfoldedTail fitsNext
              rw [unbroken, sameText, List.append_assoc] at read
              rw [if_neg (by decide), List.singleton_append, readSingleQuoted_blank rfl]
              exact read
          | false =>
              have read := ih isUnfoldedTail (.blanks [] text (.inl rfl))
              rw [readSingleQuoted_character ends blank]
              exact congrArg (Option.map fun read => (gap.text ++ character :: read.1, read.2)) read

end Yaml
end FluentLog
