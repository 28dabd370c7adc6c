import FluentLog.Text
import Mathlib.Data.List.TakeWhile

namespace FluentLog
namespace Text

/-!
# Trimming

A text that neither begins nor ends with a blank is trimmed to itself, and blanks
around it do not matter.
-/

theorem trimLeft_cons_of_not_blank {character : Char} (notBlank : isBlank character = false)
    (text : Text) : trimLeft (character :: text) = character :: text := by
  rw [trimLeft, List.dropWhile_cons_of_neg (by simp [notBlank])]

theorem trimLeft_append_of_blank {blanks : Text} (blank : ∀ character ∈ blanks, isBlank character)
    (text : Text) : trimLeft (blanks ++ text) = trimLeft text :=
  List.dropWhile_append_of_pos blank

theorem trimLeft_append_cons {character : Char} (notBlank : isBlank character = false)
    (front rest : Text) :
    trimLeft (front ++ character :: rest) = trimLeft front ++ character :: rest := by
  induction front with
  | nil => exact trimLeft_cons_of_not_blank notBlank rest
  | cons first front ih =>
      unfold trimLeft at ih ⊢
      rw [List.cons_append, List.dropWhile_cons, List.dropWhile_cons]
      split
      · exact ih
      · rfl

theorem trimRight_append_of_blank {blanks : Text} (blank : ∀ character ∈ blanks, isBlank character)
    (text : Text) : trimRight (text ++ blanks) = trimRight text := by
  rw [trimRight, List.reverse_append, List.dropWhile_append_of_pos, trimRight]
  intro character member
  exact blank character (List.mem_reverse.mp member)

theorem trimRight_append_of_not_blank {character : Char} (notBlank : isBlank character = false)
    (text : Text) : trimRight (text ++ [character]) = text ++ [character] := by
  rw [trimRight, List.reverse_append, List.reverse_singleton, List.singleton_append,
    List.dropWhile_cons_of_neg (by simp [notBlank]), List.reverse_cons, List.reverse_reverse]

theorem trimRight_cons_of_not_blank {character : Char} (notBlank : isBlank character = false)
    (text : Text) : trimRight (character :: text) = character :: trimRight text := by
  rw [trimRight, List.reverse_cons, List.dropWhile_append]
  split
  · rename_i allBlank
    rw [List.dropWhile_cons_of_neg (by simp [notBlank]), trimRight, List.isEmpty_iff.mp allBlank]
    rfl
  · rw [List.reverse_append, trimRight]
    rfl

theorem trim_append_of_blank {blanks : Text} (blank : ∀ character ∈ blanks, isBlank character)
    (text : Text) : trim (text ++ blanks) = trim text := by
  rw [trim, trim, trimLeft, trimLeft, List.dropWhile_append]
  split
  · rename_i allBlank
    rw [List.isEmpty_iff.mp allBlank, List.dropWhile_eq_nil_iff.mpr blank]
  · exact trimRight_append_of_blank blank _

/-- Whether a text neither begins nor ends with a blank and is not empty. -/
structure IsTight (text : Text) : Prop where
  head : ∃ first rest, text = first :: rest ∧ isBlank first = false
  last : ∃ front final, text = front ++ [final] ∧ isBlank final = false

theorem isTight_of_forall {text : Text} (nonempty : text ≠ [])
    (notBlank : ∀ character ∈ text, isBlank character = false) : IsTight text := by
  constructor
  · cases text with
    | nil => exact absurd rfl nonempty
    | cons first rest => exact ⟨first, rest, rfl, notBlank first List.mem_cons_self⟩
  · rcases List.eq_nil_or_concat text with isNil | ⟨front, final, isText⟩
    · exact absurd isNil nonempty
    · rw [List.concat_eq_append] at isText
      subst isText
      exact ⟨front, final, rfl, notBlank final (List.mem_append_right _ (List.mem_singleton_self _))⟩

theorem IsTight.between {first second : Text} (isFirst : IsTight first) (isSecond : IsTight second)
    (middle : Text) : IsTight (first ++ middle ++ second) := by
  rcases isFirst.head with ⟨character, rest, rfl, notBlank⟩
  rcases isSecond.last with ⟨front, final, rfl, notBlankFinal⟩
  refine ⟨⟨character, rest ++ middle ++ (front ++ [final]), ?_, notBlank⟩,
    ⟨character :: rest ++ middle ++ front, final, ?_, notBlankFinal⟩⟩ <;> simp

theorem IsTight.trim_eq {text lead trail : Text} (tight : IsTight text)
    (blankLead : ∀ character ∈ lead, isBlank character)
    (blankTrail : ∀ character ∈ trail, isBlank character) : trim (lead ++ text ++ trail) = text := by
  rcases tight.head with ⟨first, rest, isText, notBlank⟩
  have trimmedLeft : trimLeft (lead ++ text ++ trail) = text ++ trail := by
    rw [List.append_assoc, trimLeft_append_of_blank blankLead, isText, List.cons_append,
      trimLeft_cons_of_not_blank notBlank]
  rcases tight.last with ⟨front, final, rfl, notBlankFinal⟩
  rw [trim, trimmedLeft, trimRight_append_of_blank blankTrail,
    trimRight_append_of_not_blank notBlankFinal]

theorem IsTight.trim_self {text : Text} (tight : IsTight text) : trim text = text := by
  have noBlanks : ∀ character ∈ ([] : Text), isBlank character :=
    fun _ member => absurd member List.not_mem_nil
  have trimmed := tight.trim_eq noBlanks noBlanks
  rwa [List.nil_append, List.append_nil] at trimmed

/-- Trimming leaves nothing, or a text with no blanks at its ends. -/
theorem trim_eq_nil_or_isTight (text : Text) : trim text = [] ∨ IsTight (trim text) := by
  cases isLeft : trimLeft text with
  | nil =>
      rw [trim, isLeft]
      exact .inl rfl
  | cons first rest =>
      have notBlank : isBlank first = false := by
        have head := List.head?_dropWhile_not isBlank text
        rw [← trimLeft, isLeft] at head
        simpa using head
      have isTrim : trim text = first :: trimRight rest := by
        rw [trim, isLeft, trimRight_cons_of_not_blank notBlank]
      refine .inr ⟨⟨first, trimRight rest, isTrim, notBlank⟩, ?_⟩
      cases isRight : (trimLeft text).reverse.dropWhile isBlank with
      | nil =>
          rw [trim, trimRight, isRight] at isTrim
          cases isTrim
      | cons final others =>
          have finalNotBlank : isBlank final = false := by
            have head := List.head?_dropWhile_not isBlank (trimLeft text).reverse
            rw [isRight] at head
            simpa using head
          refine ⟨others.reverse, final, ?_, finalNotBlank⟩
          rw [trim, trimRight, isRight, List.reverse_cons]

theorem trim_trim (text : Text) : trim (trim text) = trim text := by
  rcases trim_eq_nil_or_isTight text with isNil | tight
  · rw [isNil]
    rfl
  · exact tight.trim_self

/-- What trimming takes away is blank. -/
theorem exists_trim (text : Text) :
    ∃ lead trail, text = lead ++ trim text ++ trail ∧
      (∀ character ∈ lead, isBlank character = true) ∧
        ∀ character ∈ trail, isBlank character = true := by
  have right : trimLeft text =
      trim text ++ ((trimLeft text).reverse.takeWhile isBlank).reverse := by
    rw [trim, trimRight, ← List.reverse_append, List.takeWhile_append_dropWhile,
      List.reverse_reverse]
  have whole : text = text.takeWhile isBlank ++ trimLeft text :=
    List.takeWhile_append_dropWhile.symm
  refine ⟨text.takeWhile isBlank, ((trimLeft text).reverse.takeWhile isBlank).reverse, ?_, ?_, ?_⟩
  · rw [List.append_assoc, ← right]
    exact whole
  · exact List.all_eq_true.mp List.all_takeWhile
  · intro character member
    exact List.all_eq_true.mp List.all_takeWhile character (List.mem_reverse.mp member)

theorem trim_ne_nil {text : Text} {character : Char} (member : character ∈ text)
    (notBlank : isBlank character = false) : trim text ≠ [] := by
  intro isNil
  rcases exists_trim text with ⟨lead, trail, whole, blankLead, blankTrail⟩
  rw [whole, isNil, List.append_nil] at member
  rcases List.mem_append.mp member with inLead | inTrail
  · rw [blankLead character inLead] at notBlank
    cases notBlank
  · rw [blankTrail character inTrail] at notBlank
    cases notBlank

end Text
end FluentLog
