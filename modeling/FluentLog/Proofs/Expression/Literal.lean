import FluentLog.Expression.Operand
import FluentLog.Proofs.Text.Blank
import FluentLog.Proofs.Text.Digits

namespace FluentLog

/-!
# Reading a quoted text back

`quote` writes each character as itself, as a backslash with one further character, or
as an escape with four digits.  Every theorem about quoted texts goes by these three
forms, which `Written` names.
-/

/-! ## Unicode escapes -/

/-- Whether a number is that of one half of a pair. -/
def IsSurrogate (code : Nat) : Prop :=
  0xD800 ≤ code ∧ code < 0xE000

theorem not_isSurrogate_toNat (character : Char) : ¬ IsSurrogate character.toNat := by
  rintro ⟨low, high⟩
  rcases character.valid with small | ⟨large, -⟩
  · have bound : character.toNat < 0xD800 := small
    omega
  · have bound : 0xDFFF < character.toNat := large
    omega

/-- Whether a character means nothing between quotes. -/
def IsOrdinary (character : Char) : Prop :=
  character ≠ '"' ∧ character ≠ '\\' ∧ character ≠ '\n'

theorem isOrdinary_of_hexDigit? {digit : Char} (isDigit : (hexDigit? digit).isSome) :
    IsOrdinary digit ∧ digit ≠ 'u' := by
  refine ⟨⟨?_, ?_, ?_⟩, ?_⟩
  all_goals
    rintro rfl
    exact absurd isDigit (by decide)

/-- Whether a text is a Unicode escape behind its backslash: one or more
letters and four digits. -/
def IsUnicodeEscape (form : Text) (code : Nat) : Prop :=
  ∃ letters digits, form = 'u' :: (List.replicate letters 'u' ++ digits) ∧ digits.length = 4 ∧
    ofDigits? 16 digits = some code

theorem isUnicodeEscape_hexDigits {code : Nat} (small : code < 16 ^ 4) :
    IsUnicodeEscape ('u' :: hexDigits 'a' 4 code) code :=
  ⟨0, _, rfl, length_hexDigits 'a' 4 code, IsFirstLetter.ofDigits?_hexDigits (.inl rfl) small⟩

namespace IsUnicodeEscape

variable {form : Text} {code : Nat}

theorem exists_eq_cons (isEscape : IsUnicodeEscape form code) : ∃ others, form = 'u' :: others := by
  obtain ⟨letters, digits, isForm, -, -⟩ := isEscape
  exact ⟨_, isForm⟩

theorem ne_nil (isEscape : IsUnicodeEscape form code) : form ≠ [] := by
  obtain ⟨others, rfl⟩ := isEscape.exists_eq_cons
  exact List.cons_ne_nil 'u' others

theorem isOrdinary (isEscape : IsUnicodeEscape form code) :
    ∀ character ∈ form, IsOrdinary character := by
  obtain ⟨letters, digits, rfl, -, isCode⟩ := isEscape
  have isOrdinary_u : IsOrdinary 'u' := ⟨by decide, by decide, by decide⟩
  intro character member
  rcases List.mem_cons.mp member with rfl | member
  · exact isOrdinary_u
  rcases List.mem_append.mp member with isLetter | isDigit
  · rw [List.eq_of_mem_replicate isLetter]
    exact isOrdinary_u
  · exact (isOrdinary_of_hexDigit? (isSome_hexDigit?_of_mem isCode isDigit)).1

end IsUnicodeEscape

namespace Literal

variable {form : Text} {code : Nat} {character : Char}

theorem unit?_append (isEscape : IsUnicodeEscape form code) (rest : Text) :
    unit? (form ++ rest) = some (code, form.length) := by
  obtain ⟨letters, digits, rfl, four, isCode⟩ := isEscape
  have noLetter : (digits ++ rest).takeWhile (· = 'u') = [] := by
    cases digits with
    | nil => cases four
    | cons digit digits =>
        have isDigit := isSome_hexDigit?_of_mem isCode List.mem_cons_self
        exact List.takeWhile_cons_of_neg (by simpa using (isOrdinary_of_hexDigit? isDigit).2)
  have letters_eq : ((List.replicate letters 'u' ++ (digits ++ rest)).takeWhile (· = 'u')).length =
      letters := by
    rw [List.takeWhile_append_of_pos (by simp), noLetter, List.append_nil, List.length_replicate]
  have digits_eq : (List.replicate letters 'u' ++ (digits ++ rest)).drop letters =
      digits ++ rest := by
    rw [List.drop_left' List.length_replicate]
  have read : fourHexDigits? (digits ++ rest) = some code := by
    rw [fourHexDigits?, List.take_left' four, if_pos four, isCode]
  rw [List.cons_append, List.append_assoc, unit?, letters_eq, digits_eq, read, Option.map_some,
    List.length_cons, List.length_append, List.length_replicate, four]

theorem escape?_of_units? {tail : Text} {read : Char × Nat}
    (isUnits : units? ('u' :: tail) = some read) : escape? ('u' :: tail) = some read := by
  have notShort : shortEscape? 'u' = none := rfl
  have notOctal : octal? ('u' :: tail) = none := by
    simp [octal?, isOctalDigit]
  rw [escape?, notShort, notOctal, isUnits]
  rfl

theorem escape?_unicode (isEscape : IsUnicodeEscape form character.toNat) (rest : Text) :
    escape? (form ++ rest) = some (character, form.length) := by
  have noPart := not_isSurrogate_toNat character
  rw [IsSurrogate] at noPart
  have notHigh : ¬ (0xD800 ≤ character.toNat ∧ character.toNat < 0xDC00) := by omega
  have notLow : ¬ (0xDC00 ≤ character.toNat ∧ character.toNat < 0xE000) := by omega
  have read : units? (form ++ rest) = some (character, form.length) := by
    rw [units?, unit?_append isEscape]
    simp only [bind, Option.bind_some, if_neg notHigh, if_neg notLow, Char.ofNat_toNat]
  obtain ⟨others, rfl⟩ := isEscape.exists_eq_cons
  exact escape?_of_units? read

/-! ## The forms -/

/-- The three forms in which a character is written.  Quoting picks one of
them, and reading knows all three. -/
inductive Written (character : Char) : Text -> Prop
  /-- A backslash and one further character. -/
  | short (letter : Char) (resolved : shortEscape? letter = some character)
      (notLineFeed : letter ≠ '\n') : Written character ['\\', letter]
  /-- A control character as four hexadecimal digits. -/
  | unit (small : character.toNat < 0xA0) : Written character (unitEscape character.toNat)
  /-- The character itself. -/
  | plain (notBackslash : character ≠ '\\') (notQuote : character ≠ '"')
      (notLineFeed : character ≠ '\n') : Written character [character]

theorem written_escapeChar (character : Char) : Written character (escapeChar character) := by
  by_cases backslash : character = '\\'
  · subst backslash
    exact .short '\\' rfl (by decide)
  by_cases quote : character = '"'
  · subst quote
    exact .short '"' rfl (by decide)
  by_cases lineFeed : character = '\n'
  · subst lineFeed
    exact .short 'n' rfl (by decide)
  by_cases return' : character = '\r'
  · subst return'
    exact .short 'r' rfl (by decide)
  by_cases tab : character = '\t'
  · subst tab
    exact .short 't' rfl (by decide)
  by_cases backspace : character = '\x08'
  · subst backspace
    exact .short 'b' rfl (by decide)
  by_cases formFeed : character = '\x0c'
  · subst formFeed
    exact .short 'f' rfl (by decide)
  by_cases control : isControl character = true
  · have small : character.toNat < 0xA0 := by
      simp only [isControl, Bool.or_eq_true, Bool.and_eq_true, decide_eq_true_eq] at control
      omega
    have asUnit : escapeChar character = unitEscape character.toNat := by
      simp only [escapeChar, backslash, quote, lineFeed, return', tab, backspace, formFeed, control,
        if_false, if_true]
    rw [asUnit]
    exact .unit small
  · have asItself : escapeChar character = [character] := by
      simp only [escapeChar, backslash, quote, lineFeed, return', tab, backspace, formFeed, control,
        if_false, Bool.false_eq_true]
    rw [asItself]
    exact .plain backslash quote lineFeed

/-! ## The round trip -/

theorem unescapeFrom_skip (front rest : Text) :
    unescapeFrom front.length (front ++ rest) = unescapeFrom 0 rest := by
  induction front with
  | nil => rfl
  | cons character front ih => exact ih

theorem unescapeFrom_escape {front rest : Text} {character : Char}
    (isEscape : escape? (front ++ rest) = some (character, front.length)) :
    unescapeFrom 0 ('\\' :: front ++ rest) = character :: unescapeFrom 0 rest := by
  rw [List.cons_append, unescapeFrom, if_pos rfl, isEscape]
  exact congrArg (character :: ·) (unescapeFrom_skip front rest)

theorem unescapeFrom_written {character : Char} {form : Text} (written : Written character form)
    (rest : Text) : unescapeFrom 0 (form ++ rest) = character :: unescapeFrom 0 rest := by
  cases written with
  | short letter resolved notLineFeed =>
      have isEscape : escape? ([letter] ++ rest) = some (character, [letter].length) := by
        rw [List.singleton_append, escape?, resolved]
        rfl
      exact unescapeFrom_escape isEscape
  | unit small =>
      have isEscape := isUnicodeEscape_hexDigits (Nat.lt_trans small (by decide))
      exact unescapeFrom_escape (escape?_unicode isEscape rest)
  | plain notBackslash notQuote notLineFeed =>
      rw [List.singleton_append, unescapeFrom, if_neg notBackslash]

theorem unescape_escape (text : Text) : unescape (escape text) = text := by
  rw [unescape]
  induction text with
  | nil => rfl
  | cons character text ih =>
      rw [escape, List.flatMap_cons, unescapeFrom_written (written_escapeChar character)]
      exact congrArg (character :: ·) ih

theorem bodyBefore?_plain {character : Char} (notQuote : character ≠ '"')
    (notBackslash : character ≠ '\\') {rest : Text} (more : rest ≠ []) :
    bodyBefore? '"' (character :: rest) = (bodyBefore? '"' rest).map (character :: ·) := by
  cases rest with
  | nil => exact absurd rfl more
  | cons following rest => rw [bodyBefore?, if_neg notQuote, if_neg notBackslash]

/-- Characters that mean nothing are a part of what stands between the quotes. -/
theorem bodyBefore?_isOrdinary {plain rest : Text}
    (ordinary : ∀ character ∈ plain, IsOrdinary character) (more : rest ≠ []) :
    bodyBefore? '"' (plain ++ rest) = (bodyBefore? '"' rest).map (plain ++ ·) := by
  induction plain with
  | nil => simp
  | cons character plain ih =>
      have here := ordinary character List.mem_cons_self
      have behind := ih fun other member => ordinary other (List.mem_cons_of_mem character member)
      rw [List.cons_append, bodyBefore?_plain here.1 here.2.1
        (List.append_ne_nil_of_right_ne_nil plain more), behind, Option.map_map]
      rfl

theorem bodyBefore?_backslash {plain rest : Text}
    (ordinary : ∀ character ∈ plain, IsOrdinary character) (nonempty : plain ≠ [])
    (more : rest ≠ []) :
    bodyBefore? '"' ('\\' :: plain ++ rest) =
      (bodyBefore? '"' rest).map ('\\' :: plain ++ ·) := by
  cases plain with
  | nil => exact absurd rfl nonempty
  | cons letter plain =>
      have here := ordinary letter List.mem_cons_self
      have behind := fun other member => ordinary other (List.mem_cons_of_mem letter member)
      have notQuote : '\\' ≠ '"' := by decide
      rw [List.cons_append, List.cons_append, bodyBefore?, if_neg notQuote, if_pos rfl,
        if_neg here.2.2, bodyBefore?_isOrdinary behind more, Option.map_map]
      rfl

theorem bodyBefore?_written {character : Char} {form : Text} (written : Written character form)
    {rest : Text} (more : rest ≠ []) :
    bodyBefore? '"' (form ++ rest) = (bodyBefore? '"' rest).map (form ++ ·) := by
  cases written with
  | short letter resolved notLineFeed =>
      have notQuote : ('\\' : Char) ≠ '"' := by decide
      rw [List.cons_append, List.cons_append, bodyBefore?, if_neg notQuote, if_pos rfl,
        if_neg notLineFeed]
      rfl
  | unit small =>
      have isEscape := isUnicodeEscape_hexDigits (Nat.lt_trans small (by decide))
      exact bodyBefore?_backslash isEscape.isOrdinary isEscape.ne_nil more
  | plain notBackslash notQuote notLineFeed => exact bodyBefore?_plain notQuote notBackslash more

theorem bodyBefore?_escape (text : Text) :
    bodyBefore? '"' (escape text ++ ['"']) = some (escape text) := by
  induction text with
  | nil => rfl
  | cons character text ih =>
      rw [escape, List.flatMap_cons, List.append_assoc,
        bodyBefore?_written (written_escapeChar character) (by simp)]
      rw [escape] at ih
      rw [ih]
      rfl

theorem trim_quoted (body : Text) : Text.trim ('"' :: body ++ ['"']) = '"' :: body ++ ['"'] := by
  have notBlank : isBlank '"' = false := by decide
  rw [Text.trim, List.cons_append, Text.trimLeft_cons_of_not_blank notBlank,
    ← List.cons_append, Text.trimRight_append_of_not_blank notBlank]

theorem decode_quote (text : Text) : decode (quote text) = some text := by
  have isBody : body? (quote text) = some (escape text) := by
    rw [body?, quote, trim_quoted]
    exact bodyBefore?_escape text
  rw [decode, isBody, Option.map_some, unescape_escape]

end Literal
end FluentLog
