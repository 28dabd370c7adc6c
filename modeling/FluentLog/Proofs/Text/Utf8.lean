import FluentLog.Text
import Mathlib.Data.List.Basic
import Mathlib.Tactic.SplitIfs

namespace FluentLog

/-!
# Texts and their bytes

What is cut out of a text by bytes has to begin and end between two characters.  The encoding
tells where that is, and positions are found by marks that stand nowhere else.
-/

section

/-!
## Where something stands in a text

The proofs about searches know a text in two ways: by a byte or a character that stands
somewhere in it, and by the parts it is made of.  The element stands in one of the parts,
and so in the other one if one of them does not hold it.  Texts are lists here, of bytes
or of characters.
-/

variable {α : Type} {front behind left right : List α} {element first : α}

/-- An element of two concatenated texts stands in one of them. -/
theorem split_at (same : front ++ element :: behind = left ++ right) :
    (∃ middle, front = left ++ middle ∧ right = middle ++ element :: behind) ∨
      ∃ middle, left = front ++ element :: middle ∧ behind = middle ++ right := by
  rcases List.append_eq_append_iff.mp same with
    ⟨middle, isLeft, isRest⟩ | ⟨middle, isFront, isRight⟩
  · cases middle with
    | nil =>
        left
        rw [List.append_nil] at isLeft
        exact ⟨[], by rw [isLeft, List.append_nil], isRest.symm⟩
    | cons next others =>
        right
        rcases List.cons.inj isRest with ⟨rfl, sameBehind⟩
        exact ⟨others, isLeft, sameBehind⟩
  · exact .inl ⟨middle, isFront, isRight⟩

/-- What the first text does not hold stands in the second one. -/
theorem split_behind (notMem : element ∉ left)
    (same : front ++ element :: behind = left ++ right) :
    ∃ middle, front = left ++ middle ∧ right = middle ++ element :: behind := by
  rcases split_at same with found | ⟨middle, rfl, -⟩
  · exact found
  · exact absurd (List.mem_append_right front List.mem_cons_self) notMem

/-- What the second text does not hold stands in the first one. -/
theorem split_before (notMem : element ∉ right)
    (same : front ++ element :: behind = left ++ right) :
    ∃ middle, left = front ++ element :: middle ∧ behind = middle ++ right := by
  rcases split_at same with ⟨middle, -, rfl⟩ | found
  · exact absurd (List.mem_append_right middle List.mem_cons_self) notMem
  · exact found

/-- What the first text does not hold, and the second one does not begin with,
stands behind the beginning of the second one. -/
theorem split_behind_cons (notMem : element ∉ left) (differ : element ≠ first)
    (same : front ++ element :: behind = left ++ first :: right) :
    ∃ middle, front = left ++ first :: middle ∧ right = middle ++ element :: behind := by
  rcases split_behind notMem same with ⟨middle, rfl, isRight⟩
  cases middle with
  | nil => exact absurd (List.cons.inj isRight).1.symm differ
  | cons next middle =>
      rcases List.cons.inj isRight with ⟨rfl, sameRight⟩
      exact ⟨middle, rfl, sameRight⟩

theorem behind_only_unique (notBefore : element ∉ front) (notBehind : element ∉ behind)
    (same : front ++ element :: behind = left ++ element :: right) : behind = right := by
  rcases split_behind notBefore same.symm with ⟨middle, -, isBehind⟩
  cases middle with
  | nil => exact (List.cons.inj isBehind).2
  | cons next middle =>
      have inBehind : behind = middle ++ element :: right := (List.cons.inj isBehind).2
      exact absurd (inBehind ▸ List.mem_append_right middle List.mem_cons_self) notBehind

theorem behind_last_unique (notBehind : element ∉ behind) (notRight : element ∉ right)
    (same : front ++ element :: behind = left ++ element :: right) : behind = right := by
  rcases split_at same with ⟨middle, -, isRight⟩ | ⟨middle, -, isBehind⟩
  · cases middle with
    | nil => exact (List.cons.inj isRight).2.symm
    | cons next middle =>
        have inRight : right = middle ++ element :: behind := (List.cons.inj isRight).2
        exact absurd (inRight ▸ List.mem_append_right middle List.mem_cons_self) notRight
  · exact absurd (isBehind ▸ List.mem_append_right middle List.mem_cons_self) notBehind

end

/-!
## Decoding what was encoded

Reading the bytes of a text gives the text back, whatever follows it.  The proof goes
by the number of bytes of a character: the first byte says how many are to come and
within which bounds the second one lies, and every further byte adds six bits.
-/

namespace Utf8

theorem decodeFrom_cons (pending : Pending) (byte : UInt8) (rest : Bytes) :
    decodeFrom pending (byte :: rest) =
      (advance pending byte).1 ++ decodeFrom (advance pending byte).2 rest := by
  cases pending <;> rfl

theorem toNat_ofNat {number : Nat} (small : number < 256) :
    (UInt8.ofNat number).toNat = number :=
  UInt8.toNat_ofNat_of_lt' small

/-! ### First bytes -/

theorem begin_one {byte : UInt8} (small : byte.toNat < 0x80) :
    begin byte = ([Char.ofNat byte.toNat], .nothing) := by
  rw [begin, if_pos (UInt8.lt_iff_toNat_lt.mpr small)]

theorem begin_two {byte : UInt8} (least : 0xC2 ≤ byte.toNat) (most : byte.toNat < 0xE0) :
    begin byte = ([], .some 0 (byte.toNat - 0xC0) 0x80 0xBF) := by
  simp only [begin, UInt8.lt_iff_toNat_lt, ← UInt8.toNat_inj, UInt8.reduceToNat]
  split_ifs <;> first | rfl | omega

theorem begin_three {byte : UInt8} (least : 0xE0 ≤ byte.toNat) (most : byte.toNat < 0xF0) :
    begin byte = ([], .some 1 (byte.toNat - 0xE0) (if byte.toNat = 0xE0 then 0xA0 else 0x80)
      (if byte.toNat = 0xED then 0x9F else 0xBF)) := by
  simp only [begin, UInt8.lt_iff_toNat_lt, ← UInt8.toNat_inj, UInt8.reduceToNat]
  split_ifs <;> first | omega | simp_all

theorem begin_four {byte : UInt8} (least : 0xF0 ≤ byte.toNat) (most : byte.toNat ≤ 0xF4) :
    begin byte = ([], .some 2 (byte.toNat - 0xF0) (if byte.toNat = 0xF0 then 0x90 else 0x80)
      (if byte.toNat = 0xF4 then 0x8F else 0xBF)) := by
  simp only [begin, UInt8.lt_iff_toNat_lt, ← UInt8.toNat_inj, UInt8.reduceToNat]
  split_ifs <;> first | omega | simp_all

/-! ### Further bytes -/

/-- A byte that holds six bits. -/
theorem toNat_continuation (number : Nat) :
    (UInt8.ofNat (number % 0x40 + 0x80)).toNat = number % 0x40 + 0x80 :=
  toNat_ofNat (by omega)

/-- The second of more than two bytes, which may have narrower bounds. -/
theorem advance_second {missing value number : Nat} {low high : UInt8}
    (least : low.toNat ≤ number % 0x40 + 0x80) (most : number % 0x40 + 0x80 ≤ high.toNat) :
    advance (.some (missing + 1) value low high) (UInt8.ofNat (number % 0x40 + 0x80)) =
      ([], .some missing (value * 64 + number % 0x40) 0x80 0xBF) := by
  rw [← toNat_continuation] at least most
  rw [advance, if_pos ⟨UInt8.le_iff_toNat_le.mpr least, UInt8.le_iff_toNat_le.mpr most⟩,
    toNat_continuation, Nat.add_sub_cancel]

theorem advance_further (missing value number : Nat) :
    advance (.some (missing + 1) value 0x80 0xBF) (UInt8.ofNat (number % 0x40 + 0x80)) =
      ([], .some missing (value * 64 + number % 0x40) 0x80 0xBF) := by
  apply advance_second <;> simp only [UInt8.reduceToNat] <;> omega

theorem advance_last (value number : Nat) :
    advance (.some 0 value 0x80 0xBF) (UInt8.ofNat (number % 0x40 + 0x80)) =
      ([Char.ofNat (value * 64 + number % 0x40)], .nothing) := by
  have inBounds : (0x80 : UInt8) ≤ UInt8.ofNat (number % 0x40 + 0x80) ∧
      UInt8.ofNat (number % 0x40 + 0x80) ≤ 0xBF := by
    simp only [UInt8.le_iff_toNat_le, toNat_continuation, UInt8.reduceToNat]
    omega
  rw [advance, if_pos inBounds, toNat_continuation, Nat.add_sub_cancel]

/-! ### Characters by the number of their bytes -/

theorem decodeFrom_one {number : Nat} (most : number ≤ 0x7F) (rest : Bytes) :
    decodeFrom .nothing (UInt8.ofNat number :: rest) =
      Char.ofNat number :: decodeFrom .nothing rest := by
  have only : (UInt8.ofNat number).toNat = number := toNat_ofNat (by omega)
  rw [decodeFrom_cons, advance, begin_one (by omega), only]
  rfl

theorem decodeFrom_two {number : Nat} (least : 0x7F < number) (most : number ≤ 0x7FF)
    (rest : Bytes) :
    decodeFrom .nothing (UInt8.ofNat (number / 64 % 0x20 + 0xC0) ::
        UInt8.ofNat (number % 0x40 + 0x80) :: rest) =
      Char.ofNat number :: decodeFrom .nothing rest := by
  have first : (UInt8.ofNat (number / 64 % 0x20 + 0xC0)).toNat = number / 64 % 0x20 + 0xC0 :=
    toNat_ofNat (by omega)
  have sum : (number / 64 % 0x20 + 0xC0 - 0xC0) * 64 + number % 0x40 = number := by omega
  rw [decodeFrom_cons, advance, begin_two (by omega) (by omega), first, decodeFrom_cons,
    advance_last, sum]
  rfl

theorem decodeFrom_three {number : Nat} (least : 0x7FF < number) (most : number ≤ 0xFFFF)
    (valid : number < 0xD800 ∨ 0xDFFF < number) (rest : Bytes) :
    decodeFrom .nothing (UInt8.ofNat (number / 4096 % 0x10 + 0xE0) ::
        UInt8.ofNat (number / 64 % 0x40 + 0x80) :: UInt8.ofNat (number % 0x40 + 0x80) :: rest) =
      Char.ofNat number :: decodeFrom .nothing rest := by
  have first : (UInt8.ofNat (number / 4096 % 0x10 + 0xE0)).toNat = number / 4096 % 0x10 + 0xE0 :=
    toNat_ofNat (by omega)
  have secondLeast : (if number / 4096 % 0x10 + 0xE0 = 0xE0 then 0xA0 else 0x80 : UInt8).toNat ≤
      number / 64 % 0x40 + 0x80 := by
    split <;> simp only [UInt8.reduceToNat] <;> omega
  have secondMost : number / 64 % 0x40 + 0x80 ≤
      (if number / 4096 % 0x10 + 0xE0 = 0xED then 0x9F else 0xBF : UInt8).toNat := by
    split <;> simp only [UInt8.reduceToNat] <;> omega
  have sum : ((number / 4096 % 0x10 + 0xE0 - 0xE0) * 64 + number / 64 % 0x40) * 64 +
      number % 0x40 = number := by
    omega
  rw [decodeFrom_cons, advance, begin_three (by omega) (by omega), first, decodeFrom_cons,
    advance_second secondLeast secondMost, decodeFrom_cons, advance_last, sum]
  rfl

theorem decodeFrom_four {number : Nat} (least : 0xFFFF < number) (most : number < 0x110000)
    (rest : Bytes) :
    decodeFrom .nothing (UInt8.ofNat (number / 262144 % 0x08 + 0xF0) ::
        UInt8.ofNat (number / 4096 % 0x40 + 0x80) :: UInt8.ofNat (number / 64 % 0x40 + 0x80) ::
        UInt8.ofNat (number % 0x40 + 0x80) :: rest) =
      Char.ofNat number :: decodeFrom .nothing rest := by
  have first : (UInt8.ofNat (number / 262144 % 0x08 + 0xF0)).toNat =
      number / 262144 % 0x08 + 0xF0 :=
    toNat_ofNat (by omega)
  have secondLeast : (if number / 262144 % 0x08 + 0xF0 = 0xF0 then 0x90 else 0x80 : UInt8).toNat ≤
      number / 4096 % 0x40 + 0x80 := by
    split <;> simp only [UInt8.reduceToNat] <;> omega
  have secondMost : number / 4096 % 0x40 + 0x80 ≤
      (if number / 262144 % 0x08 + 0xF0 = 0xF4 then 0x8F else 0xBF : UInt8).toNat := by
    split <;> simp only [UInt8.reduceToNat] <;> omega
  have sum : (((number / 262144 % 0x08 + 0xF0 - 0xF0) * 64 + number / 4096 % 0x40) * 64 +
      number / 64 % 0x40) * 64 + number % 0x40 = number := by
    omega
  rw [decodeFrom_cons, advance, begin_four (by omega) (by omega), first, decodeFrom_cons,
    advance_second secondLeast secondMost, decodeFrom_cons, advance_further, decodeFrom_cons,
    advance_last, sum]
  rfl

/-! ### The round trip -/

theorem decodeFrom_encodeChar (character : Char) (rest : Bytes) :
    decodeFrom .nothing (String.utf8EncodeChar character ++ rest) =
      character :: decodeFrom .nothing rest := by
  -- The numbers of characters leave out the surrogates and end at U+10FFFF.
  have valid : character.val.toNat < 0xD800 ∨
      0xDFFF < character.val.toNat ∧ character.val.toNat < 0x110000 := character.valid
  have isCharacter : Char.ofNat character.val.toNat = character := Char.ofNat_toNat character
  rw [String.utf8EncodeChar]
  generalize character.val.toNat = number at valid isCharacter
  rw [← isCharacter]
  split_ifs with one two three
  · exact decodeFrom_one one rest
  · exact decodeFrom_two (by omega) two rest
  · exact decodeFrom_three (by omega) three (by omega) rest
  · exact decodeFrom_four (by omega) (by omega) rest

/-- The bytes of a text are read back as the text, in front of any other
bytes.  Each character is complete before the next one begins. -/
theorem decode_encode_append (text : Text) (rest : Bytes) :
    decode (encode text ++ rest) = text ++ decode rest := by
  induction text with
  | nil => rfl
  | cons character text ih =>
      rw [encode_cons, List.append_assoc, decode, decodeFrom_encodeChar, List.cons_append]
      exact congrArg (character :: ·) ih

/-- The bytes of a text are read back as the text. -/
@[simp] theorem decode_encode (text : Text) : decode (encode text) = text := by
  have read := decode_encode_append text []
  rw [List.append_nil] at read
  rw [read]
  exact List.append_nil text

theorem ofString_ne {left right : String} (different : left ≠ right) :
    ofString left ≠ ofString right := by
  intro same
  have sameText := congrArg decode same
  rw [ofString, ofString, decode_encode, decode_encode] at sameText
  exact different (String.toList_inj.mp sameText)

theorem encodeChar_ascii {character : Char} (ascii : character.toNat < 0x80) :
    String.utf8EncodeChar character = [UInt8.ofNat character.toNat] :=
  if_pos (Nat.le_of_lt_succ ascii)

theorem le_of_mem_encodeChar {character : Char} (notAscii : 0x80 ≤ character.toNat) :
    ∀ byte ∈ String.utf8EncodeChar character, 0x80 ≤ byte.toNat := by
  have further := toNat_continuation
  have first : forall {number base bound : Nat}, 0x80 ≤ base -> base + bound ≤ 0x100 ->
      0 < bound -> 0x80 ≤ (UInt8.ofNat (number % bound + base)).toNat := by
    intro number base bound least most positive
    have small := Nat.mod_lt number positive
    rw [toNat_ofNat (by omega)]
    omega
  have notOne : ¬ character.val.toNat ≤ 0x7F := Nat.not_le_of_lt notAscii
  intro byte member
  rw [String.utf8EncodeChar] at member
  simp only [notOne, if_false] at member
  split_ifs at member <;> simp only [List.mem_cons, List.not_mem_nil, or_false] at member
  · rcases member with rfl | rfl
    · exact first (by omega) (by omega) (by omega)
    · exact (further _).symm ▸ Nat.le_add_left _ _
  · rcases member with rfl | rfl | rfl
    · exact first (by omega) (by omega) (by omega)
    · exact (further _).symm ▸ Nat.le_add_left _ _
    · exact (further _).symm ▸ Nat.le_add_left _ _
  · rcases member with rfl | rfl | rfl | rfl
    · exact first (by omega) (by omega) (by omega)
    · exact (further _).symm ▸ Nat.le_add_left _ _
    · exact (further _).symm ▸ Nat.le_add_left _ _
    · exact (further _).symm ▸ Nat.le_add_left _ _

theorem not_mem_encodeChar {character : Char} {byte : UInt8} (ascii : byte.toNat < 0x80)
    (other : character ≠ Char.ofNat byte.toNat) : byte ∉ String.utf8EncodeChar character := by
  intro member
  by_cases small : character.toNat < 0x80
  · rw [encodeChar_ascii small, List.mem_singleton] at member
    rw [member, toNat_ofNat (by omega), Char.ofNat_toNat] at other
    exact other rfl
  · have large := le_of_mem_encodeChar (Nat.le_of_not_lt small) byte member
    omega

/-- A byte below 0x80 is a character of its own. -/
theorem decode_cons_ascii {byte : UInt8} (ascii : byte < 0x80) (rest : Bytes) :
    decode (byte :: rest) = Char.ofNat byte.toNat :: decode rest := by
  rw [decode, decodeFrom_cons, advance, begin_one (UInt8.lt_iff_toNat_lt.mp ascii)]
  rfl

theorem toNat_char_ofNat {byte : UInt8} (ascii : byte.toNat < 0x80) :
    (Char.ofNat byte.toNat).toNat = byte.toNat := by
  have valid : byte.toNat.isValidChar := .inl (by omega)
  rw [Char.ofNat, dif_pos valid]
  rfl

theorem ofNat_toNat_eq_iff {character : Char} (small : character.toNat < 0x80) {byte : UInt8}
    (ascii : byte.toNat < 0x80) :
    UInt8.ofNat character.toNat = byte ↔ character = Char.ofNat byte.toNat := by
  constructor
  · rintro rfl
    rw [toNat_ofNat (by omega), Char.ofNat_toNat]
  · rintro rfl
    rw [toNat_char_ofNat ascii, UInt8.ofNat_toNat]

theorem head?_encode_eq_some_iff {byte : UInt8} (ascii : byte.toNat < 0x80) {text : Text} :
    (encode text).head? = some byte ↔ text.head? = some (Char.ofNat byte.toNat) := by
  cases text with
  | nil => exact ⟨(nomatch ·), (nomatch ·)⟩
  | cons character text =>
      rw [encode_cons, List.head?_cons, Option.some_inj]
      by_cases small : character.toNat < 0x80
      · rw [encodeChar_ascii small, List.singleton_append, List.head?_cons, Option.some_inj,
          ofNat_toNat_eq_iff small ascii]
      · have notSame : character ≠ Char.ofNat byte.toNat := by
          rintro rfl
          rw [toNat_char_ofNat ascii] at small
          exact small ascii
        refine ⟨fun isHead => ?_, fun same => absurd same notSame⟩
        have large := le_of_mem_encodeChar (Nat.le_of_not_lt small)
        cases bytes : String.utf8EncodeChar character with
        | nil => exact absurd bytes (by simp)
        | cons first others =>
            rw [bytes] at isHead large
            have least := large first List.mem_cons_self
            rw [Option.some.inj isHead] at least
            omega

theorem exists_of_encode_eq {text : Text} {left right : Bytes} {byte : UInt8}
    (ascii : byte.toNat < 0x80) (same : encode text = left ++ byte :: right) :
    ∃ front rest, left = encode front ∧ right = encode rest ∧
      text = front ++ Char.ofNat byte.toNat :: rest := by
  induction text generalizing left with
  | nil => exact absurd same (by simp)
  | cons character text ih =>
      rw [encode_cons] at same
      by_cases isByte : character = Char.ofNat byte.toNat
      · have single : String.utf8EncodeChar character = [byte] := by
          rw [isByte, encodeChar_ascii (by rw [toNat_char_ofNat ascii]; exact ascii),
            toNat_char_ofNat ascii, UInt8.ofNat_toNat]
        rw [single] at same
        cases left with
        | nil => exact ⟨[], text, rfl, (List.cons.inj same).2.symm, by rw [isByte]; rfl⟩
        | cons other left =>
            rcases List.cons.inj same with ⟨rfl, sameText⟩
            rcases ih sameText with ⟨front, rest, rfl, rfl, rfl⟩
            refine ⟨character :: front, rest, ?_, rfl, rfl⟩
            rw [encode_cons, single]
            rfl
      · have notMember := not_mem_encodeChar ascii isByte
        rcases split_behind notMember same.symm with ⟨middle, rfl, isText⟩
        rcases ih isText with ⟨front, rest, rfl, rfl, rfl⟩
        exact ⟨character :: front, rest, rfl, rfl, rfl⟩

end Utf8

/-!
## Boundaries of characters

An offset in the bytes of a text is a boundary if it stands between two characters, or at an
end.  Only between boundaries can a text be cut.  A byte tells on which side of it there is
a boundary: in front of it there is one unless it goes on with a character, and behind it there
is one if it is an ASCII byte.  From one boundary to another leads any text that stands there.
-/

namespace Utf8

/-- Whether a byte goes on with a character, and begins none. -/
def isContinuation (byte : UInt8) : Bool :=
  0x80 ≤ byte && byte < 0xC0

theorem isContinuation_eq_false_of_ascii {byte : UInt8} (ascii : byte.toNat < 0x80) :
    isContinuation byte = false := by
  rw [isContinuation, Bool.and_eq_false_iff, decide_eq_false_iff_not, UInt8.le_iff_toNat_le]
  exact .inl (Nat.not_le.mpr ascii)

theorem exists_encodeChar (character : Char) :
    ∃ first others, String.utf8EncodeChar character = first :: others ∧
      isContinuation first = false ∧ ∀ byte ∈ others, isContinuation byte = true := by
  have goesOn : forall number, isContinuation (UInt8.ofNat (number % 0x40 + 0x80)) = true := by
    intro number
    rw [isContinuation, Bool.and_eq_true, decide_eq_true_eq, decide_eq_true_eq,
      UInt8.le_iff_toNat_le, UInt8.lt_iff_toNat_lt, toNat_continuation]
    simp only [UInt8.reduceToNat]
    omega
  have begins : forall {number base bound : Nat}, 0xC0 ≤ base -> base + bound ≤ 0x100 ->
      0 < bound -> isContinuation (UInt8.ofNat (number % bound + base)) = false := by
    intro number base bound least most positive
    have small := Nat.mod_lt number positive
    rw [isContinuation, Bool.and_eq_false_iff, decide_eq_false_iff_not, decide_eq_false_iff_not,
      UInt8.lt_iff_toNat_lt, toNat_ofNat (by omega)]
    simp only [UInt8.reduceToNat]
    omega
  rw [String.utf8EncodeChar]
  split_ifs with one
  · refine ⟨_, [], rfl, isContinuation_eq_false_of_ascii ?_, List.forall_mem_nil _⟩
    rw [toNat_ofNat (by omega)]
    omega
  all_goals
    refine ⟨_, _, rfl, begins (by omega) (by omega) (by omega), ?_⟩
    simp only [List.forall_mem_cons, goesOn, List.not_mem_nil, false_implies, implies_true,
      and_true]

/-! ### Boundaries -/

/-- Whether an offset in the bytes of a text stands between two characters, or
at an end. -/
def IsBoundary (text : Text) (offset : Nat) : Prop :=
  ∃ before after : Text, text = before ++ after ∧ (encode before).length = offset

theorem isBoundary_zero (text : Text) : IsBoundary text 0 :=
  ⟨[], text, rfl, rfl⟩

variable {text : Text}

/-- A boundary is no further away than the end of the text. -/
theorem IsBoundary.le_length {offset : Nat} (boundary : IsBoundary text offset) :
    offset ≤ (encode text).length := by
  rcases boundary with ⟨before, after, rfl, rfl⟩
  rw [encode_append, List.length_append]
  exact Nat.le_add_right _ _

theorem isBoundary_of_begins {left right : Bytes} {byte : UInt8}
    (begins : isContinuation byte = false) (same : encode text = left ++ byte :: right) :
    IsBoundary text left.length := by
  induction text generalizing left with
  | nil => exact absurd same (by simp)
  | cons character text ih =>
      rcases exists_encodeChar character with ⟨first, others, isCharacter, -, goOn⟩
      cases left with
      | nil => exact ⟨[], character :: text, rfl, rfl⟩
      | cons other left =>
          rw [encode_cons, isCharacter] at same
          rcases List.cons.inj same with ⟨rfl, sameOthers⟩
          have notInOthers : byte ∉ others := by
            intro member
            rw [goOn byte member] at begins
            cases begins
          rcases split_behind notInOthers sameOthers.symm with ⟨middle, rfl, isText⟩
          rcases ih isText with ⟨before, after, rfl, atMiddle⟩
          refine ⟨character :: before, after, rfl, ?_⟩
          rw [encode_cons, isCharacter, List.length_append, atMiddle, List.length_cons,
            List.length_cons, List.length_append]
          omega

theorem IsBoundary.append {left right : Bytes} (boundary : IsBoundary text left.length)
    {word : Text} (same : encode text = left ++ (encode word ++ right)) :
    IsBoundary text (left.length + (encode word).length) := by
  rcases boundary with ⟨before, after, rfl, sameLength⟩
  rw [encode_append] at same
  rcases List.append_inj same sameLength with ⟨isLeft, isAfter⟩
  have read := congrArg decode isAfter
  rw [decode_encode, decode_encode_append] at read
  refine ⟨before ++ word, decode right, ?_, ?_⟩
  · rw [read, List.append_assoc]
  · rw [encode_append, List.length_append, sameLength]

theorem isBoundary_of_append {left right : Bytes} {word : Text} (nonempty : word ≠ [])
    (same : encode text = left ++ (encode word ++ right)) : IsBoundary text left.length := by
  cases word with
  | nil => exact absurd rfl nonempty
  | cons character word =>
      rcases exists_encodeChar character with ⟨first, others, isCharacter, begins, -⟩
      rw [encode_cons, isCharacter, List.append_assoc] at same
      exact isBoundary_of_begins begins same

end Utf8

end FluentLog
