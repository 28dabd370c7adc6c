namespace FluentLog

/-!
# Texts

A source text is a list of characters, and it is scanned as UTF-8 bytes.  This is the encoding,
with the two notions of a blank character and the numerals of settings files.
-/

/-!
## Texts and their bytes

A source text is a list of characters, and the chains in it are found on its
UTF-8 bytes, because every delimiter of the language is a single ASCII byte and
every offset this library reports counts bytes.  `Utf8.encode` is the
standard encoding.  `Utf8.decode` reads any list of bytes at all: a part that
cannot begin or continue a character is replaced by U+FFFD, one replacement for
each longest part that might have begun a character.  On the bytes of a text it
gives the text back.
-/

/-- A text, as the list of its characters.  Scans and proofs go through it
character by character, so no index into it is ever out of range. -/
abbrev Text := List Char

/-- A sequence of bytes, usually the UTF-8 form of a `Text`.  Offsets and
extents count bytes and not characters. -/
abbrev Bytes := List UInt8

namespace Utf8

def encode (text : Text) : Bytes :=
  text.flatMap String.utf8EncodeChar

@[simp] theorem encode_nil : encode [] = [] := rfl

@[simp] theorem encode_cons (character : Char) (text : Text) :
    encode (character :: text) = String.utf8EncodeChar character ++ encode text := rfl

@[simp] theorem encode_append (left right : Text) :
    encode (left ++ right) = encode left ++ encode right :=
  List.flatMap_append

def ofString (text : String) : Bytes :=
  encode text.toList

/-- The character that stands for bytes which form no character. -/
def replacement : Char := '\uFFFD'

/-- What the decoder knows between two bytes: either it stands between two
characters, or it has read the first bytes of one.  Then `missing` more bytes
are owed after the next one, `value` holds the bits read so far, and the next
byte has to lie between `low` and `high`.  The narrower bounds after some
first bytes exclude overlong forms, surrogates and numbers above U+10FFFF. -/
inductive Pending where
  | nothing
  | some (missing value : Nat) (low high : UInt8)
  deriving DecidableEq, Repr

/-- Reads a byte that stands where a character begins: the characters that are
complete with it, and what is pending after it. -/
def begin (byte : UInt8) : Text × Pending :=
  if byte < 0x80 then ([Char.ofNat byte.toNat], .nothing)
  else if byte < 0xC2 then ([replacement], .nothing)
  else if byte < 0xE0 then ([], .some 0 (byte.toNat - 0xC0) 0x80 0xBF)
  else if byte = 0xE0 then ([], .some 1 0 0xA0 0xBF)
  else if byte = 0xED then ([], .some 1 0xD 0x80 0x9F)
  else if byte < 0xF0 then ([], .some 1 (byte.toNat - 0xE0) 0x80 0xBF)
  else if byte = 0xF0 then ([], .some 2 0 0x90 0xBF)
  else if byte < 0xF4 then ([], .some 2 (byte.toNat - 0xF0) 0x80 0xBF)
  else if byte = 0xF4 then ([], .some 2 4 0x80 0x8F)
  else ([replacement], .nothing)

/-- Reads one byte.  A byte that does not continue the pending character ends
it as one replacement and is read again as the first byte of the next. -/
def advance : Pending -> UInt8 -> Text × Pending
  | .nothing, byte => begin byte
  | .some missing value low high, byte =>
      if low ≤ byte ∧ byte ≤ high then
        let value := value * 64 + (byte.toNat - 0x80)
        match missing with
        | 0 => ([Char.ofNat value], .nothing)
        | missing + 1 => ([], .some missing value 0x80 0xBF)
      else
        (replacement :: (begin byte).1, (begin byte).2)

def decodeFrom : Pending -> Bytes -> Text
  | .nothing, [] => []
  | .some .., [] => [replacement]
  | pending, byte :: rest =>
      (advance pending byte).1 ++ decodeFrom (advance pending byte).2 rest

/-- The text that a sequence of bytes stands for.  No bytes are refused: what
forms no character is replaced, so that decoding and encoding again need not
give the same bytes. -/
def decode (bytes : Bytes) : Text :=
  decodeFrom .nothing bytes

/-- Whether the bytes are the encoding of a text.  Decoding such bytes loses
nothing, and only they may be a settings file. -/
def isValid (bytes : Bytes) : Bool :=
  encode (decode bytes) = bytes

end Utf8

/-!
## Blank characters

The blank characters are those with the Unicode property `White_Space`.  Code
is trimmed of them and its runs of them are collapsed.  The matchers of chain
calls use the narrower `isBlankByte`, the ASCII blanks without the vertical tab.
-/

/-- The Unicode property `White_Space`.  These are the characters that are
trimmed around parts of expressions and collapsed between their words. -/
def isBlank (character : Char) : Bool :=
  let code := character.toNat
  (0x9 ≤ code && code ≤ 0xD) || code == 0x20 || code == 0x85 || code == 0xA0 ||
    code == 0x1680 || (0x2000 ≤ code && code ≤ 0x200A) || code == 0x2028 ||
    code == 0x2029 || code == 0x202F || code == 0x205F || code == 0x3000

/-- The control characters: U+0000 to U+001F and U+007F to U+009F.  A literal
that is written back has an escape for each of them. -/
def isControl (character : Char) : Bool :=
  let code := character.toNat
  code < 0x20 || (0x7F ≤ code && code ≤ 0x9F)

/-- The blanks allowed between the tokens of a chain call: tab, line feed,
form feed, carriage return and space.  The vertical tab is blank as a
character but not here. -/
def isBlankByte (byte : UInt8) : Bool :=
  byte = 0x9 || byte = 0xA || byte = 0xC || byte = 0xD || byte = 0x20

namespace Text

/-- The text without its leading blanks. -/
def trimLeft (text : Text) : Text :=
  text.dropWhile isBlank

/-- The text without its trailing blanks. -/
def trimRight (text : Text) : Text :=
  (text.reverse.dropWhile isBlank).reverse

/-- The text without its outer blanks. -/
def trim (text : Text) : Text :=
  trimRight (trimLeft text)

def join (glue : Text) (parts : List Text) : Text :=
  (parts.intersperse glue).flatten

end Text

/-!
## Digits

Numbers in settings files are written with decimal digits or with digits of another
base.  `ofDecimal` reads what `decimal` writes.
-/

def decimal (number : Nat) : Text :=
  (Nat.repr number).toList

def ofDecimal (digits : Text) : Nat :=
  digits.foldl (fun number digit => number * 10 + (digit.toNat - '0'.toNat)) 0

/-- The value of a hexadecimal digit, in either case. -/
def hexDigit? (character : Char) : Option Nat :=
  if '0' ≤ character ∧ character ≤ '9' then some (character.toNat - '0'.toNat)
  else if 'a' ≤ character ∧ character ≤ 'f' then some (character.toNat - 'a'.toNat + 10)
  else if 'A' ≤ character ∧ character ≤ 'F' then some (character.toNat - 'A'.toNat + 10)
  else none

/-- The number that digits of a base up to sixteen stand for, or nothing if
one of them is no digit of the base.  No digits at all stand for zero. -/
def ofDigits? (base : Nat) (digits : Text) : Option Nat :=
  digits.foldlM (fun number character =>
    (hexDigit? character).bind fun digit =>
      if digit < base then some (number * base + digit) else none) 0

/-- Takes decimal digits from the beginning of a text.  There has to be one. -/
def takeDigits? (text : Text) : Option (Text × Text) :=
  let (digits, rest) := text.span Char.isDigit
  if digits.isEmpty then none else some (digits, rest)

/-- The hexadecimal digit of a value, with letters from the given one on. -/
def hexDigit (firstLetter : Char) (value : Nat) : Char :=
  if value < 10 then Char.ofNat ('0'.toNat + value)
  else Char.ofNat (firstLetter.toNat + (value - 10))

/-- A number as that many hexadecimal digits, with letters from the given one
on. -/
def hexDigits (firstLetter : Char) : Nat -> Nat -> Text
  | 0, _ => []
  | width + 1, value =>
      hexDigits firstLetter width (value / 16) ++ [hexDigit firstLetter (value % 16)]

end FluentLog
