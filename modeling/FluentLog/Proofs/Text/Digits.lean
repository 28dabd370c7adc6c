import FluentLog.Text
import Mathlib.Data.Nat.Digits.Defs

namespace FluentLog

/-!
# Numbers are read back from their digits

A number is written in decimal without a needless zero in front, and with a fixed number of
hexadecimal digits where that many are enough for it.  Either way it is read back.
-/

/-! ## Decimal digits -/

theorem decimal_eq_toDigits (number : Nat) : decimal number = Nat.toDigits 10 number :=
  Nat.toList_repr

theorem decimal_ne_nil (number : Nat) : decimal number ≠ [] := by
  rw [decimal_eq_toDigits]
  exact Nat.toDigits_ne_nil

theorem isDigit_of_mem_decimal {number : Nat} {digit : Char} (member : digit ∈ decimal number) :
    digit.isDigit = true := by
  rw [decimal_eq_toDigits] at member
  exact Nat.isDigit_of_mem_toDigits (by decide) (by decide) member

@[simp] theorem ofDecimal_decimal (number : Nat) : ofDecimal (decimal number) = number := by
  have sameStep : (fun (number : Nat) (digit : Char) => number * 10 + (digit.toNat - '0'.toNat)) =
      fun number digit => 10 * number + (digit.toNat - '0'.toNat) := by
    funext number digit
    rw [Nat.mul_comm]
  rw [ofDecimal, sameStep, ← Nat.ofDigitChars_eq_foldl, decimal_eq_toDigits,
    Nat.ofDigitChars_ten_toDigits]

theorem decimal_of_ten_le {number : Nat} (large : 10 ≤ number) :
    decimal number = decimal (number / 10) ++ [(number % 10).digitChar] := by
  rw [decimal_eq_toDigits, decimal_eq_toDigits, Nat.toDigits_of_base_le (by decide) large]

theorem decimal_of_lt_ten {number : Nat} (small : number < 10) :
    decimal number = [number.digitChar] := by
  rw [decimal_eq_toDigits, Nat.toDigits_of_lt_base small]

/-- Only the number zero begins with a zero. -/
theorem head?_decimal_of_pos {number : Nat} (positive : 0 < number) :
    (decimal number).head? ≠ some '0' := by
  induction number using Nat.strongRecOn with
  | ind number ih =>
      by_cases small : number < 10
      · rw [decimal_of_lt_ten small, List.head?_cons, ne_eq, Option.some_inj,
          Nat.digitChar_eq_zero]
        omega
      · have front := ih (number / 10) (by omega) (by omega)
        cases digits : decimal (number / 10) with
        | nil => exact absurd digits (decimal_ne_nil (number / 10))
        | cons first rest =>
            rw [digits] at front
            rw [decimal_of_ten_le (by omega), digits]
            exact front

/-! ## Digits of other bases -/

theorem ofDigits?_append (base : Nat) (left right : Text) :
    ofDigits? base (left ++ right) =
      (ofDigits? base left).bind fun number => right.foldlM (fun number character =>
        (hexDigit? character).bind fun digit =>
          if digit < base then some (number * base + digit) else none) number :=
  List.foldlM_append

theorem ofDigits?_concat {base number digit : Nat} {digits : Text} {character : Char}
    (read : ofDigits? base digits = some number) (isDigit : hexDigit? character = some digit)
    (small : digit < base) :
    ofDigits? base (digits ++ [character]) = some (number * base + digit) := by
  rw [ofDigits?_append, read, Option.bind_some, List.foldlM_cons, isDigit, Option.bind_some,
    if_pos small]
  rfl

theorem isSome_hexDigit?_of_mem {base number : Nat} {digits : Text} {digit : Char}
    (read : ofDigits? base digits = some number) (member : digit ∈ digits) :
    (hexDigit? digit).isSome := by
  obtain ⟨front, rest, rfl⟩ := List.append_of_mem member
  rw [ofDigits?_append, Option.bind_eq_some_iff] at read
  obtain ⟨frontNumber, -, read⟩ := read
  rw [List.foldlM_cons] at read
  cases isDigit : hexDigit? digit with
  | none =>
      rw [isDigit] at read
      cases read
  | some _ => rfl

theorem hexDigit?_digitChar : ∀ digit < 10, hexDigit? digit.digitChar = some digit := by
  decide

theorem ofDigits?_decimal (number : Nat) : ofDigits? 10 (decimal number) = some number := by
  induction number using Nat.strongRecOn with
  | ind number ih =>
      by_cases small : number < 10
      · rw [decimal_of_lt_ten small]
        have noDigits : ofDigits? 10 [] = some 0 := rfl
        have read := ofDigits?_concat noDigits (hexDigit?_digitChar number small) small
        rw [Nat.zero_mul, Nat.zero_add] at read
        exact read
      · have last : number % 10 < 10 := Nat.mod_lt number (by decide)
        rw [decimal_of_ten_le (by omega), ofDigits?_concat (ih (number / 10) (by omega))
          (hexDigit?_digitChar _ last) last, Nat.div_add_mod']

/-- Whether a letter is the first one of the hexadecimal digits, in either
case. -/
def IsFirstLetter (letter : Char) : Prop :=
  letter = 'a' ∨ letter = 'A'

variable {letter : Char}

theorem IsFirstLetter.hexDigit?_hexDigit (isFirst : IsFirstLetter letter) {digit : Nat}
    (small : digit < 16) : hexDigit? (hexDigit letter digit) = some digit := by
  have lower : ∀ digit < 16, hexDigit? (hexDigit 'a' digit) = some digit := by decide
  have upper : ∀ digit < 16, hexDigit? (hexDigit 'A' digit) = some digit := by decide
  rcases isFirst with rfl | rfl
  · exact lower digit small
  · exact upper digit small

@[simp] theorem length_hexDigits (letter : Char) (width number : Nat) :
    (hexDigits letter width number).length = width := by
  induction width generalizing number with
  | zero => rfl
  | succ width ih => rw [hexDigits, List.length_append, ih, List.length_singleton]

theorem IsFirstLetter.ofDigits?_hexDigits (isFirst : IsFirstLetter letter) {width number : Nat}
    (enough : number < 16 ^ width) :
    ofDigits? 16 (hexDigits letter width number) = some number := by
  induction width generalizing number with
  | zero =>
      rw [Nat.pow_zero, Nat.lt_one_iff] at enough
      rw [enough]
      rfl
  | succ width ih =>
      have last : number % 16 < 16 := Nat.mod_lt number (by decide)
      have front : number / 16 < 16 ^ width := by
        rw [Nat.pow_succ] at enough
        exact Nat.div_lt_of_lt_mul (by rwa [Nat.mul_comm])
      rw [hexDigits, ofDigits?_concat (ih front) (isFirst.hexDigit?_hexDigit last) last,
        Nat.div_add_mod']

end FluentLog
