import FluentLog.Proofs.Expression.Literal

namespace FluentLog

/-!
# Literals in two passes

The language reads a source text in two passes.  The first replaces each Unicode escape by the
code unit that it writes, where a backslash counts only behind an even number of backslashes.
The second finds the literals and resolves their escape sequences.  `decode` does both in one
pass.  The outcome is the same for a literal in which no Unicode escape writes the closing quote
or a part of an escape sequence, and then it is the value of the literal.
-/

/-! ## Code units -/

def codeUnits (character : Char) : List Nat :=
  if character.toNat < 0x10000 then [character.toNat]
  else [0xD800 + (character.toNat - 0x10000) / 0x400, 0xDC00 + (character.toNat - 0x10000) % 0x400]

/-- Whether two code units are a high and a low surrogate, and the number of
the character that they make. -/
structure IsPairOf (high low number : Nat) : Prop where
  isHigh : 0xD800 ≤ high ∧ high < 0xDC00
  isLow : 0xDC00 ≤ low ∧ low < 0xE000
  eq_number : number = 0x10000 + (high - 0xD800) * 0x400 + (low - 0xDC00)

variable {character : Char} {code high low number : Nat} {odd : Bool} {digits form rest text : Text}
  {value : List Nat}

theorem IsPairOf.isSurrogate_high (isPair : IsPairOf high low number) : IsSurrogate high :=
  ⟨isPair.isHigh.1, by have := isPair.isHigh; omega⟩

theorem IsPairOf.isSurrogate_low (isPair : IsPairOf high low number) : IsSurrogate low :=
  ⟨by have := isPair.isLow; omega, isPair.isLow.2⟩

theorem codeUnits_cases (character : Char) :
    codeUnits character = [character.toNat] ∨
      ∃ high low, codeUnits character = [high, low] ∧ IsPairOf high low character.toNat := by
  by_cases small : character.toNat < 0x10000
  · exact .inl (if_pos small)
  · have bound : character.toNat < 0x110000 := by
      rcases character.valid with few | ⟨-, most⟩
      · exact Nat.lt_trans few (by decide)
      · exact most
    exact .inr ⟨_, _, if_neg small, ⟨by omega, by omega, by omega⟩⟩

theorem toNat_of_codeUnits (isCode : codeUnits character = [code]) : character.toNat = code := by
  rcases codeUnits_cases character with single | ⟨high, low, pair, -⟩
  · exact List.head_eq_of_cons_eq (single.symm.trans isCode)
  · rw [pair] at isCode
    exact absurd isCode (by simp)

theorem isPairOf_of_codeUnits (areCodes : codeUnits character = [high, low]) :
    IsPairOf high low character.toNat := by
  rcases codeUnits_cases character with single | ⟨left, right, pair, isPair⟩
  · rw [single] at areCodes
    exact absurd areCodes (by simp)
  · rw [pair, List.cons_eq_cons, List.cons_eq_cons] at areCodes
    rw [← areCodes.1, ← areCodes.2.1]
    exact isPair

/-! ## The first pass -/

/-- A code unit of a source text, and whether a Unicode escape writes it. -/
structure InputUnit where
  code : Nat
  escaped : Bool
  deriving DecidableEq

/-- The code units of a text behind an odd or an even number of backslashes.
A Unicode escape that lacks digits has none.  This is the first of two passes,
and it knows nothing of literals. -/
inductive Translates : Bool -> Text -> List InputUnit -> Prop
  | nil (odd : Bool) : Translates odd [] []
  | unicode {form rest : Text} {code : Nat} {units : List InputUnit}
      (isEscape : IsUnicodeEscape form code) (behind : Translates false rest units) :
      Translates false ('\\' :: (form ++ rest)) (⟨code, true⟩ :: units)
  | backslash {odd : Bool} {rest : Text} {units : List InputUnit}
      (noEscape : odd = true ∨ rest.head? ≠ some 'u') (behind : Translates (!odd) rest units) :
      Translates odd ('\\' :: rest) (⟨'\\'.toNat, false⟩ :: units)
  | single (odd : Bool) {character : Char} {code : Nat} {rest : Text} {units : List InputUnit}
      (notBackslash : character ≠ '\\') (isCode : codeUnits character = [code])
      (behind : Translates false rest units) :
      Translates odd (character :: rest) (⟨code, false⟩ :: units)
  | pair (odd : Bool) {character : Char} {high low : Nat} {rest : Text} {units : List InputUnit}
      (areCodes : codeUnits character = [high, low]) (behind : Translates false rest units) :
      Translates odd (character :: rest) (⟨high, false⟩ :: ⟨low, false⟩ :: units)

/-! ## The second pass -/

/-- The escape sequences of one character behind the backslash, and what they
stand for. -/
def shortSequences : List (Char × Char) :=
  [('b', '\x08'), ('t', '\t'), ('n', '\n'), ('f', '\x0c'), ('r', '\r'), ('s', ' '), ('"', '"'),
    ('\'', '\''), ('\\', '\\')]

/-- Whether digits make an octal escape sequence.  Three of them have to begin
with a digit up to 3. -/
structure IsOctalSequence (digits : Text) : Prop where
  nonempty : digits ≠ []
  octal : ∀ digit ∈ digits, '0' ≤ digit ∧ digit ≤ '7'
  short : digits.length ≤ 2 ∨ digits.length = 3 ∧ ∀ first ∈ digits.head?, first ≤ '3'

/-- The contents of a literal, up to its closing quote, and the code units
that they stand for.  In strict contents no Unicode escape writes the closing
quote or a part of an escape sequence.  This is the second pass. -/
inductive Spells (strict : Bool) : List InputUnit -> List Nat -> Prop
  | close {quote : InputUnit} (isQuote : quote.code = '"'.toNat)
      (raw : strict = true -> quote.escaped = false) : Spells strict [quote] []
  | plain {unit : InputUnit} {units : List InputUnit} {value : List Nat}
      (notSpecial : unit.code ∉ ['"', '\\', '\n', '\r'].map Char.toNat)
      (behind : Spells strict units value) : Spells strict (unit :: units) (unit.code :: value)
  | short {backslash letter : InputUnit} {units : List InputUnit} {value : List Nat}
      {name resolved : Char} (isBackslash : backslash.code = '\\'.toNat)
      (isLetter : letter.code = name.toNat) (isShort : (name, resolved) ∈ shortSequences)
      (raw : strict = true -> backslash.escaped = false ∧ letter.escaped = false)
      (behind : Spells strict units value) :
      Spells strict (backslash :: letter :: units) (resolved.toNat :: value)
  /-- The longest octal sequence that can be read. -/
  | octal {backslash : InputUnit} {written units : List InputUnit} {value : List Nat}
      {digits : Text} {resolved : Char} (isBackslash : backslash.code = '\\'.toNat)
      (areDigits : written.map InputUnit.code = digits.map Char.toNat)
      (isOctal : IsOctalSequence digits) (isCode : ofDigits? 8 digits = some resolved.toNat)
      (longest : ∀ unit ∈ units.head?, ∀ digit : Char, unit.code = digit.toNat ->
        ¬ IsOctalSequence (digits ++ [digit]))
      (raw : strict = true -> backslash.escaped = false ∧ ∀ unit ∈ written, unit.escaped = false)
      (behind : Spells strict units value) :
      Spells strict (backslash :: (written ++ units)) (resolved.toNat :: value)

/-- Whether a text is a double-quoted literal with the given value.  If it is
strict, the two passes cannot get in each other's way. -/
def IsLiteral (strict : Bool) (text value : Text) : Prop :=
  ∃ contents units, text = '"' :: contents ∧ Translates false contents units ∧
    Spells strict units (value.flatMap codeUnits)

/-! ## Octal digits -/

/-- The number of octal digits that can follow the first one. -/
def octalRoom (first : Char) : Nat :=
  if first ≤ '3' then 2 else 1

theorem isOctalSequence_cons {first : Char} {others : Text} :
    IsOctalSequence (first :: others) ↔
      (∀ digit ∈ first :: others, Literal.isOctalDigit digit = true) ∧
        others.length ≤ octalRoom first := by
  have isDigit : ∀ digit : Char,
      Literal.isOctalDigit digit = true ↔ '0' ≤ digit ∧ digit ≤ '7' := by
    intro digit
    rw [Literal.isOctalDigit, Bool.and_eq_true, decide_eq_true_eq, decide_eq_true_eq]
  constructor
  · intro isOctal
    refine ⟨fun digit member => (isDigit digit).mpr (isOctal.octal digit member), ?_⟩
    rcases isOctal.short with two | ⟨three, small⟩
    · rw [List.length_cons] at two
      rw [octalRoom]
      split <;> omega
    · rw [octalRoom, if_pos (small first rfl)]
      exact Nat.le_of_succ_le_succ (Nat.le_of_eq three)
  · rintro ⟨octal, room⟩
    refine ⟨List.cons_ne_nil _ _, fun digit member => (isDigit digit).mp (octal digit member), ?_⟩
    rw [octalRoom] at room
    rw [List.length_cons]
    split at room
    · rename_i small
      by_cases two : others.length + 1 ≤ 2
      · exact .inl two
      · refine .inr ⟨by omega, fun head isHead => ?_⟩
        rwa [← Option.some_inj.mp isHead]
    · exact .inl (by omega)

/-! ## One character at a time -/

inductive WrittenBefore (character : Char) : Text -> Text -> Prop
  | single {form rest : Text} (written : Literal.Written character form) :
      WrittenBefore character form rest
  | octal {digits rest : Text} (isOctal : IsOctalSequence digits)
      (isCode : ofDigits? 8 digits = some character.toNat)
      (longest : ∀ digit ∈ rest.head?, ¬ IsOctalSequence (digits ++ [digit])) :
      WrittenBefore character ('\\' :: digits) rest
  | unicode {form rest : Text} (isEscape : IsUnicodeEscape form character.toNat) :
      WrittenBefore character ('\\' :: form) rest
  | pair {high low : Nat} {form other rest : Text} (isPair : IsPairOf high low character.toNat)
      (isHigh : IsUnicodeEscape form high) (isLow : IsUnicodeEscape other low) :
      WrittenBefore character ('\\' :: (form ++ '\\' :: other)) rest

theorem WrittenBefore.of_append {more : Text}
    (written : WrittenBefore character form (rest ++ more)) :
    WrittenBefore character form rest := by
  cases written with
  | single written => exact .single written
  | octal isOctal isCode longest =>
      refine .octal isOctal isCode fun digit isHead => longest digit ?_
      cases rest with
      | nil => cases isHead
      | cons head rest => exact isHead
  | unicode isEscape => exact .unicode isEscape
  | pair isPair isHigh isLow => exact .pair isPair isHigh isLow

namespace Literal

theorem bodyBefore?_writtenBefore (written : WrittenBefore character form rest)
    (more : rest ≠ []) :
    bodyBefore? '"' (form ++ rest) = (bodyBefore? '"' rest).map (form ++ ·) := by
  cases written with
  | single written => exact bodyBefore?_written written more
  | @octal digits rest isOctal isCode longest =>
      have ordinary : ∀ digit ∈ digits, IsOrdinary digit := fun digit member =>
        (isOrdinary_of_hexDigit? (isSome_hexDigit?_of_mem isCode member)).1
      exact bodyBefore?_backslash ordinary isOctal.nonempty more
  | unicode isEscape => exact bodyBefore?_backslash isEscape.isOrdinary isEscape.ne_nil more
  | @pair high low form other rest isPair isHigh isLow =>
      have split : '\\' :: (form ++ '\\' :: other) ++ rest =
          '\\' :: form ++ ('\\' :: other ++ rest) := by
        simp only [List.cons_append, List.append_assoc]
      have otherMore : '\\' :: other ++ rest ≠ [] := List.cons_ne_nil _ _
      rw [split, bodyBefore?_backslash isHigh.isOrdinary isHigh.ne_nil otherMore,
        bodyBefore?_backslash isLow.isOrdinary isLow.ne_nil more, Option.map_map]
      simp only [Function.comp_def, List.cons_append, List.append_assoc]

/-! ### Octal sequences -/

theorem octal?_cons {first : Char} (isDigit : isOctalDigit first = true) (tail : Text) :
    octal? (first :: tail) =
      (ofDigits? 8 (first :: (tail.take (octalRoom first)).takeWhile isOctalDigit)).map
        fun number => (Char.ofNat number,
          (first :: (tail.take (octalRoom first)).takeWhile isOctalDigit).length) := by
  have one : ((tail.take 2).takeWhile isOctalDigit).take 1 =
      (tail.take 1).takeWhile isOctalDigit := by
    match tail with
    | [] => rfl
    | [second] => cases second? : isOctalDigit second <;> simp [second?]
    | second :: third :: rest => cases second? : isOctalDigit second <;> simp [second?]
  rw [octal?, List.take_succ_cons, List.takeWhile_cons_of_pos isDigit, octalRoom]
  by_cases small : first ≤ '3'
  · simp only [if_pos small]
  · simp only [if_neg small, one]

theorem octal?_eq (isOctal : IsOctalSequence digits)
    (isCode : ofDigits? 8 digits = some character.toNat)
    (longest : ∀ digit ∈ rest.head?, ¬ IsOctalSequence (digits ++ [digit])) :
    octal? (digits ++ rest) = some (character, digits.length) := by
  cases digits with
  | nil => exact absurd rfl isOctal.nonempty
  | cons first others =>
      obtain ⟨areDigits, room⟩ := isOctalSequence_cons.mp isOctal
      have noMore : (rest.take (octalRoom first - others.length)).takeWhile isOctalDigit = [] := by
        cases rest with
        | nil => simp
        | cons digit rest =>
            cases space : octalRoom first - others.length with
            | zero => rfl
            | succ space' =>
                have notDigit : ¬ isOctalDigit digit = true := by
                  intro isDigit
                  have isLonger : IsOctalSequence (first :: (others ++ [digit])) := by
                    refine isOctalSequence_cons.mpr ⟨?_, ?_⟩
                    · rw [← List.cons_append, List.forall_mem_append]
                      exact ⟨areDigits, List.forall_mem_singleton.mpr isDigit⟩
                    · rw [List.length_append, List.length_singleton]
                      omega
                  exact longest digit rfl isLonger
                exact List.takeWhile_cons_of_neg notDigit
      have read : ((others ++ rest).take (octalRoom first)).takeWhile isOctalDigit = others := by
        have othersAre := fun digit member => areDigits digit (List.mem_cons_of_mem first member)
        rw [List.take_append, List.take_of_length_le room, List.takeWhile_append_of_pos othersAre,
          noMore, List.append_nil]
      rw [List.cons_append, octal?_cons (areDigits first List.mem_cons_self), read, isCode,
        Option.map_some, Char.ofNat_toNat]

theorem shortEscape?_of_isOctalDigit (isDigit : isOctalDigit character = true) :
    shortEscape? character = none := by
  unfold shortEscape?
  split
  all_goals first | rfl | exact absurd isDigit (by decide)

theorem escape?_octal (isOctal : IsOctalSequence digits)
    (isCode : ofDigits? 8 digits = some character.toNat)
    (longest : ∀ digit ∈ rest.head?, ¬ IsOctalSequence (digits ++ [digit])) :
    escape? (digits ++ rest) = some (character, digits.length) := by
  have read := octal?_eq isOctal isCode longest
  cases digits with
  | nil => exact absurd rfl isOctal.nonempty
  | cons first others =>
      have notShort := shortEscape?_of_isOctalDigit
        ((isOctalSequence_cons.mp isOctal).1 first List.mem_cons_self)
      rw [List.cons_append] at read ⊢
      rw [escape?, notShort, read]
      rfl

/-! ### Pairs of escapes -/

theorem escape?_pair {other : Text} (isPair : IsPairOf high low character.toNat)
    (isHigh : IsUnicodeEscape form high) (isLow : IsUnicodeEscape other low) (rest : Text) :
    escape? (form ++ '\\' :: other ++ rest) =
      some (character, (form ++ '\\' :: other).length) := by
  have read : units? (form ++ '\\' :: other ++ rest) =
      some (character, (form ++ '\\' :: other).length) := by
    rw [List.append_assoc, units?, unit?_append isHigh]
    simp only [bind, Option.bind_some, if_pos isPair.isHigh, List.drop_left, List.cons_append,
      unit?_append isLow, if_pos isPair.isLow, ← isPair.eq_number, Char.ofNat_toNat,
      List.length_append, List.length_cons]
    rw [Nat.add_right_comm, Nat.add_assoc]
  obtain ⟨others, rfl⟩ := isHigh.exists_eq_cons
  exact escape?_of_units? read

theorem unescapeFrom_writtenBefore (written : WrittenBefore character form rest) :
    unescapeFrom 0 (form ++ rest) = character :: unescapeFrom 0 rest := by
  cases written with
  | single written => exact unescapeFrom_written written rest
  | octal isOctal isCode longest =>
      exact unescapeFrom_escape (escape?_octal isOctal isCode longest)
  | unicode isEscape => exact unescapeFrom_escape (escape?_unicode isEscape rest)
  | pair isPair isHigh isLow => exact unescapeFrom_escape (escape?_pair isPair isHigh isLow rest)

end Literal

/-! ## The forms behind the two passes -/

section

variable {first second : InputUnit} {units : List InputUnit}

/-- A code unit that no escape writes comes from its character. -/
theorem Translates.exists_eq_cons {name : Char} (translates : Translates odd text (first :: units))
    (raw : first.escaped = false) (isName : first.code = name.toNat) :
    ∃ rest, text = name :: rest ∧ Translates (name = '\\' && !odd) rest units := by
  cases translates with
  | unicode isEscape behind => cases raw
  | @backslash _ rest _ noEscape behind =>
      have same : '\\' = name := Char.toNat_inj.mp isName
      subst same
      exact ⟨rest, rfl, behind⟩
  | @single _ character _ rest _ notBackslash isCode behind =>
      have same : character = name := Char.toNat_inj.mp ((toNat_of_codeUnits isCode).trans isName)
      subst same
      rw [decide_eq_false notBackslash]
      exact ⟨rest, rfl, behind⟩
  | pair _ areCodes behind =>
      have isPair := isPairOf_of_codeUnits areCodes
      exact absurd (isName ▸ isPair.isSurrogate_high) (not_isSurrogate_toNat name)

theorem Translates.exists_eq_append {written : List InputUnit}
    (translates : Translates odd text (written ++ units))
    (areDigits : written.map InputUnit.code = digits.map Char.toNat)
    (raw : ∀ unit ∈ written, unit.escaped = false) (noBackslash : '\\' ∉ digits) :
    ∃ rest, text = digits ++ rest ∧ Translates (odd && digits.isEmpty) rest units := by
  induction digits generalizing odd text written with
  | nil =>
      rw [List.map_nil, List.map_eq_nil_iff] at areDigits
      subst areDigits
      exact ⟨text, rfl, by simpa using translates⟩
  | cons digit digits ih =>
      have isNot := List.ne_of_not_mem_cons noBackslash
      have noneBehind := List.not_mem_of_not_mem_cons noBackslash
      rw [List.map_cons, List.map_eq_cons_iff] at areDigits
      obtain ⟨first, others, rfl, isDigit, areDigits⟩ := areDigits
      obtain ⟨tail, rfl, behind⟩ := translates.exists_eq_cons (raw first List.mem_cons_self) isDigit
      rw [decide_eq_false (Ne.symm isNot)] at behind
      have othersRaw := fun unit member => raw unit (List.mem_cons_of_mem first member)
      obtain ⟨rest, rfl, translated⟩ := ih behind areDigits othersRaw noneBehind
      exact ⟨rest, rfl, by simpa using translated⟩

theorem Translates.exists_head {digit : Char} (translates : Translates odd (digit :: rest) units)
    (isOctal : '0' ≤ digit ∧ digit ≤ '7') : ∃ unit ∈ units.head?, unit.code = digit.toNat := by
  cases translates with
  | unicode isEscape behind => exact absurd isOctal (by decide)
  | backslash noEscape behind => exact absurd isOctal (by decide)
  | single _ notBackslash isCode behind => exact ⟨_, rfl, (toNat_of_codeUnits isCode).symm⟩
  | pair _ areCodes behind =>
      have number := (isPairOf_of_codeUnits areCodes).eq_number
      have small : digit.toNat ≤ '7'.toNat := isOctal.2
      have seven : '7'.toNat < 0x10000 := by decide
      omega

theorem Spells.of_isSurrogate {strict : Bool} (spells : Spells strict units (code :: value))
    (isSurrogate : IsSurrogate code) :
    ∃ first others, units = first :: others ∧ first.code = code ∧ Spells strict others value := by
  cases spells with
  | plain notSpecial behind => exact ⟨_, _, rfl, rfl, behind⟩
  | short _ _ _ _ _ => exact absurd isSurrogate (not_isSurrogate_toNat _)
  | octal _ _ _ _ _ _ _ => exact absurd isSurrogate (not_isSurrogate_toNat _)

/-- Whether a text begins with a character in one of the forms, and which code
units are behind. -/
def BeginsWith (character : Char) (text : Text) (units : List InputUnit) : Prop :=
  ∃ form rest, text = form ++ rest ∧ WrittenBefore character form rest ∧
    Translates false rest units

/-- A pair of surrogates comes from one character or from two escapes. -/
theorem Translates.beginsWith_of_isPairOf
    (translates : Translates false text (first :: second :: units))
    (isPair : IsPairOf first.code second.code character.toNat) :
    BeginsWith character text units := by
  cases translates with
  | @unicode form _ _ _ isHigh behind =>
      cases behind with
      | @unicode other rest _ _ isLow behind =>
          exact ⟨_, rest, by simp, .pair isPair isHigh isLow, behind⟩
      | backslash noEscape behind =>
          exact absurd isPair.isSurrogate_low (by unfold IsSurrogate; decide)
      | single _ notBackslash isCode behind =>
          exact absurd (toNat_of_codeUnits isCode ▸ isPair.isSurrogate_low)
            (not_isSurrogate_toNat _)
      | pair _ areCodes behind =>
          have isHigh' := (isPairOf_of_codeUnits areCodes).isHigh
          exact absurd (Nat.lt_of_lt_of_le isHigh'.2 isPair.isLow.1) (Nat.lt_irrefl _)
  | backslash noEscape behind =>
      exact absurd isPair.isSurrogate_high (by unfold IsSurrogate; decide)
  | single _ notBackslash isCode behind =>
      exact absurd (toNat_of_codeUnits isCode ▸ isPair.isSurrogate_high) (not_isSurrogate_toNat _)
  | @pair _ other _ _ rest _ areCodes behind =>
      have same : other = character := by
        apply Char.toNat_inj.mp
        rw [(isPairOf_of_codeUnits areCodes).eq_number, isPair.eq_number]
      subst same
      have large : 0x10000 ≤ other.toNat := by
        rw [isPair.eq_number, Nat.add_assoc]
        exact Nat.le_add_right _ _
      refine ⟨[other], rest, rfl, .single (.plain ?_ ?_ ?_), behind⟩
      all_goals
        rintro rfl
        exact absurd large (by decide)

/-- A code unit that stands for itself comes from its character or from an
escape. -/
theorem Translates.beginsWith_of_plain
    (translates : Translates false text (first :: units)) (isNumber : character.toNat = first.code)
    (notSpecial : first.code ∉ ['"', '\\', '\n', '\r'].map Char.toNat) :
    BeginsWith character text units := by
  cases translates with
  | @unicode form rest _ _ isEscape behind =>
      exact ⟨'\\' :: form, rest, rfl, .unicode (isNumber ▸ isEscape), behind⟩
  | backslash noEscape behind => exact absurd (by simp) notSpecial
  | @single _ other _ rest _ notBackslash isCode behind =>
      have same : character = other :=
        Char.toNat_inj.mp (isNumber.trans (toNat_of_codeUnits isCode).symm)
      subst same
      rw [← isNumber] at notSpecial
      refine ⟨[character], rest, rfl, .single (.plain notBackslash ?_ ?_), behind⟩
      all_goals
        rintro rfl
        exact notSpecial (by simp)
  | pair _ areCodes behind =>
      have isPair := isPairOf_of_codeUnits areCodes
      exact absurd (isNumber ▸ isPair.isSurrogate_high) (not_isSurrogate_toNat character)

theorem shortEscape?_of_mem_shortSequences : ∀ sequence ∈ shortSequences,
    Literal.shortEscape? sequence.1 = some sequence.2 ∧ sequence.1 ≠ '\n' := by
  decide

theorem Translates.beginsWith_of_short {name : Char}
    (translates : Translates false text (first :: second :: units))
    (isBackslash : first.code = '\\'.toNat) (isLetter : second.code = name.toNat)
    (isShort : (name, character) ∈ shortSequences)
    (raw : first.escaped = false ∧ second.escaped = false) :
    BeginsWith character text units := by
  obtain ⟨tail, rfl, fromLetter⟩ := translates.exists_eq_cons raw.1 isBackslash
  obtain ⟨rest, rfl, translated⟩ := fromLetter.exists_eq_cons raw.2 isLetter
  have isEscape := shortEscape?_of_mem_shortSequences _ isShort
  exact ⟨['\\', name], rest, rfl, .single (.short name isEscape.1 isEscape.2),
    by simpa using translated⟩

theorem Translates.beginsWith_of_octal {written : List InputUnit}
    (translates : Translates false text (first :: (written ++ units)))
    (isBackslash : first.code = '\\'.toNat)
    (areDigits : written.map InputUnit.code = digits.map Char.toNat)
    (isOctal : IsOctalSequence digits) (isCode : ofDigits? 8 digits = some character.toNat)
    (longest : ∀ unit ∈ units.head?, ∀ digit : Char, unit.code = digit.toNat ->
      ¬ IsOctalSequence (digits ++ [digit]))
    (raw : first.escaped = false ∧ ∀ unit ∈ written, unit.escaped = false) :
    BeginsWith character text units := by
  obtain ⟨tail, rfl, fromDigits⟩ := translates.exists_eq_cons raw.1 isBackslash
  have noBackslash : '\\' ∉ digits := fun member => absurd (isOctal.octal _ member) (by decide)
  obtain ⟨rest, rfl, translated⟩ := fromDigits.exists_eq_append areDigits raw.2 noBackslash
  rw [List.isEmpty_eq_false_iff.mpr isOctal.nonempty, Bool.and_false] at translated
  refine ⟨'\\' :: digits, rest, rfl, .octal isOctal isCode fun digit isHead isLonger => ?_,
    translated⟩
  obtain ⟨others, rfl⟩ := List.head?_eq_some_iff.mp isHead
  have isDigit := isLonger.octal digit (by simp)
  obtain ⟨unit, isUnit, isNumber⟩ := translated.exists_head isDigit
  exact longest unit isUnit digit isNumber isLonger

theorem Spells.exists_beginsWith (translates : Translates false text units)
    (spells : Spells true units (codeUnits character ++ value)) :
    ∃ others, BeginsWith character text others ∧ Spells true others value := by
  rcases codeUnits_cases character with single | ⟨high, low, pair, isPair⟩
  · rw [single, List.singleton_append] at spells
    generalize isNumber : character.toNat = number at spells
    cases spells with
    | plain notSpecial behind =>
        exact ⟨_, translates.beginsWith_of_plain isNumber notSpecial, behind⟩
    | @short _ _ _ _ _ resolved isBackslash isLetter isShort raw behind =>
        have same : character = resolved := Char.toNat_inj.mp isNumber
        subst same
        exact ⟨_, translates.beginsWith_of_short isBackslash isLetter isShort (raw rfl), behind⟩
    | @octal _ _ _ _ _ resolved isBackslash areDigits isOctal isCode longest raw behind =>
        have same : character = resolved := Char.toNat_inj.mp isNumber
        subst same
        have begins := translates.beginsWith_of_octal isBackslash areDigits isOctal isCode longest
          (raw rfl)
        exact ⟨_, begins, behind⟩
  · rw [pair] at spells
    obtain ⟨first, _, rfl, rfl, fromLow⟩ := spells.of_isSurrogate isPair.isSurrogate_high
    obtain ⟨second, others, rfl, rfl, behind⟩ := fromLow.of_isSurrogate isPair.isSurrogate_low
    exact ⟨others, translates.beginsWith_of_isPairOf isPair, behind⟩

end

/-! ## Decoding -/

namespace Literal

/-- What stands in front of the closing quote is read back as the value. -/
theorem exists_body_of_spells {units : List InputUnit} {value : Text}
    (translates : Translates false text units)
    (spells : Spells true units (value.flatMap codeUnits)) :
    ∃ body, text = body ++ ['"'] ∧ bodyBefore? '"' text = some body ∧
      unescapeFrom 0 body = value := by
  induction value generalizing text units with
  | nil =>
      cases spells with
      | close isQuote raw =>
          obtain ⟨rest, rfl, translated⟩ := translates.exists_eq_cons (raw rfl) isQuote
          cases translated
          exact ⟨[], rfl, rfl, rfl⟩
  | cons character value ih =>
      rw [List.flatMap_cons] at spells
      obtain ⟨others, ⟨form, rest, rfl, written, translated⟩, behind⟩ :=
        spells.exists_beginsWith translates
      obtain ⟨body, rfl, isBody, isValue⟩ := ih translated behind
      refine ⟨form ++ body, by rw [List.append_assoc], ?_, ?_⟩
      · rw [bodyBefore?_writtenBefore written (by simp), isBody]
        rfl
      · rw [unescapeFrom_writtenBefore written.of_append, isValue]

/-- A literal stands for its value if no Unicode escape writes the closing
quote or a part of an escape sequence. -/
theorem decode_of_isLiteral {text value : Text} (isLiteral : IsLiteral true text value) :
    decode text = some value := by
  obtain ⟨contents, units, rfl, translates, spells⟩ := isLiteral
  obtain ⟨body, rfl, isBody, isValue⟩ := exists_body_of_spells translates spells
  have isBody? : body? ('"' :: (body ++ ['"'])) = some body := by
    rw [body?, ← List.cons_append, trim_quoted]
    exact isBody
  rw [decode, isBody?, Option.map_some, unescape, isValue]

/-- An octal sequence, an escape with two letters `u` and one for each half of
a pair. -/
theorem decode_of_isLiteral_escapes :
    IsLiteral true "\"\\101\\uu0042\\ud83d\\uDE00\"".toList ['A', 'B', '😀'] ∧
      decode "\"\\101\\uu0042\\ud83d\\uDE00\"".toList = some ['A', 'B', '😀'] := by
  have translates : Translates false "\\101\\uu0042\\ud83d\\uDE00\"".toList
      [⟨0x5C, false⟩, ⟨0x31, false⟩, ⟨0x30, false⟩, ⟨0x31, false⟩, ⟨0x42, true⟩, ⟨0xD83D, true⟩,
        ⟨0xDE00, true⟩, ⟨0x22, false⟩] := by
    refine .backslash (.inr (by decide)) ?_
    refine .single _ (by decide) rfl (.single _ (by decide) rfl (.single _ (by decide) rfl ?_))
    refine @Translates.unicode "uu0042".toList _ _ _ ⟨1, "0042".toList, rfl, rfl, rfl⟩ ?_
    refine @Translates.unicode "ud83d".toList _ _ _ ⟨0, "d83d".toList, rfl, rfl, rfl⟩ ?_
    refine @Translates.unicode "uDE00".toList _ _ _ ⟨0, "DE00".toList, rfl, rfl, rfl⟩ ?_
    exact .single _ (by decide) rfl (.nil _)
  have isOctal : IsOctalSequence "101".toList := ⟨by simp, by simp, .inr (by simp)⟩
  have spells : Spells true
      [⟨0x5C, false⟩, ⟨0x31, false⟩, ⟨0x30, false⟩, ⟨0x31, false⟩, ⟨0x42, true⟩, ⟨0xD83D, true⟩,
        ⟨0xDE00, true⟩, ⟨0x22, false⟩] [0x41, 0x42, 0xD83D, 0xDE00] := by
    refine @Spells.octal true _ [⟨0x31, false⟩, ⟨0x30, false⟩, ⟨0x31, false⟩] _ _ _ 'A' rfl rfl
      isOctal rfl ?_ ?_ ?_
    · intro unit isUnit digit isDigit isLonger
      exact absurd isLonger.short (by simp)
    · exact fun _ => ⟨rfl, by decide⟩
    · exact .plain (by simp) (.plain (by simp) (.plain (by simp) (.close rfl fun _ => rfl)))
  have isLiteral : IsLiteral true "\"\\101\\uu0042\\ud83d\\uDE00\"".toList ['A', 'B', '😀'] :=
    ⟨_, _, rfl, translates, spells⟩
  exact ⟨isLiteral, decode_of_isLiteral isLiteral⟩

/-- A backslash that a Unicode escape writes begins no escape sequence here. -/
theorem not_decode_of_isLiteral :
    ¬ ∀ text value, IsLiteral false text value -> decode text = some value := by
  intro decoded
  have translates : Translates false "\\u005cn\"".toList
      [⟨0x5C, true⟩, ⟨0x6E, false⟩, ⟨0x22, false⟩] := by
    refine @Translates.unicode "u005c".toList _ _ _ ⟨0, "005c".toList, rfl, rfl, rfl⟩ ?_
    exact .single _ (by decide) rfl (.single _ (by decide) rfl (.nil _))
  have spells : Spells false [⟨0x5C, true⟩, ⟨0x6E, false⟩, ⟨0x22, false⟩] [0x0A] :=
    @Spells.short false _ _ _ _ 'n' '\n' rfl rfl (by decide) (by simp) (.close rfl (by simp))
  have isLineFeed := decoded "\"\\u005cn\"".toList ['\n'] ⟨_, _, rfl, translates, spells⟩
  exact absurd isLineFeed (by decide)

end Literal

end FluentLog
