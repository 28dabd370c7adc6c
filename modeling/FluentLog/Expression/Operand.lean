import FluentLog.Code.Comment
import FluentLog.Text

namespace FluentLog

/-!
# Expressions

What stands between the parentheses of an argument call is taken apart by its characters: the
body of a closure, the operands of its concatenation, and among these the literals.
-/

/-!
## Splitting at the top level

Argument lists are split at commas and concatenations at plus signs, both only
where the cursor is at the top level.  The parts are trimmed, and empty parts are
dropped.

Plus signs are read as the language reads them: two in a row are an increment,
taken from the left.  So of a run of plus signs only an odd one out, the last,
separates, and `i++`, `++i` and `a+++b` keep their increments.
-/

/-- The part of the text before the first cut and the parts after it,
untrimmed.  A pair of plus signs is taken into the part without feeding it to
the cursor, which it would not move. -/
def splitFrom (separator : Char) (cursor : Cursor) : Text -> Text × List Text
  | [] => ([], [])
  | [character] =>
      if character = separator ∧ cursor.isUnnested then ([], [[]]) else ([character], [])
  | character :: following :: rest =>
      if character = separator ∧ cursor.isUnnested then
        if separator = '+' ∧ following = '+' then
          let (first, others) := splitFrom separator cursor rest
          (character :: following :: first, others)
        else
          let (first, others) := splitFrom separator cursor (following :: rest)
          ([], first :: others)
      else
        let (first, others) := splitFrom separator (cursor.feedChar character) (following :: rest)
        (character :: first, others)

/-- The parts of a text between top-level separators, in order, trimmed and
without the empty ones.  The cursor is not told about line ends, so a literal
that is open at one stays open behind it. -/
def splitUnnested (separator : Char) (text : Text) : List Text :=
  let (first, others) := splitFrom separator .start text
  ((first :: others).map Text.trim).filter (!·.isEmpty)

/-!
## Suppliers

A supplier is a closure without parameters, `() -> body`.  The body may be an
expression or a block; a block that only returns an expression stands for that
expression, and any other body stands for itself.
-/

namespace Supplier

/-- What follows `() ->` at the very start of a text, with blanks allowed
between its tokens.  Parameters between the parentheses rule it out. -/
def afterArrow? (text : Text) : Option Text := do
  let opened <- ['('].isPrefixOf? text
  let closed <- [')'].isPrefixOf? (Text.trimLeft opened)
  ['-', '>'].isPrefixOf? (Text.trimLeft closed)

/-- The trimmed body of a supplier, or nothing for any other argument.
Whether the body is an expression or a block does not matter here. -/
def body? (argument : Text) : Option Text :=
  (afterArrow? (Text.trimLeft argument)).map Text.trim

def isSupplier (argument : Text) : Bool :=
  (body? argument).isSome

/-- What comes before the semicolon that ends the statement `… ; }`: the first
semicolon with only a closing brace and blanks after it.  A block of several
statements therefore gives all of them but the last semicolon. -/
def beforeLastSemicolon? : Text -> Option Text
  | [] => none
  | character :: rest =>
      if character = ';' ∧ Text.trim rest = ['}'] then some []
      else (beforeLastSemicolon? rest).map (character :: ·)

/-- The expression of a block `{ return expression; }`.  A blank has to stand
behind the word, so neither `returned` nor `return(x)` is taken for it. -/
def returned? (body : Text) : Option Text := do
  let opened <- ['{'].isPrefixOf? (Text.trimLeft body)
  let after <- "return".toList.isPrefixOf? (Text.trimLeft opened)
  if after.head?.any isBlank then beforeLastSemicolon? (Text.trimLeft after) else none

/-- The expression that a supplier's body stands for, trimmed.  A block that
does anything else than return one is kept as it is written. -/
def normalize (body : Text) : Text :=
  Text.trim ((returned? body).getD body)

end Supplier

/-!
## String and character literals

A literal is a text between two equal quotes, single or double, in which the quote
stands only behind a backslash, every backslash is followed by a character, and no
backslash by a line feed.  Blanks around it are allowed.

`decode` resolves the escapes: the short ones, octal numbers of up to three digits
that fit one byte, and `u` with four hexadecimal digits, where a pair of surrogates
makes one character.  What is no escape is kept as it stands.

`quote` writes any text as a double-quoted literal, with escapes for quotes,
backslashes and control characters.
-/

namespace Literal

/-! ### The grammar -/

/-- What stands between a literal's quotes, for the text behind the opening
one.  There is nothing if the quote comes before the end of the text or not at
all, so a literal is always the whole of a text. -/
def bodyBefore? (quote : Char) : Text -> Option Text
  | [] => none
  | [character] => if character = quote then some [] else none
  | character :: following :: rest =>
      if character = quote then none
      else if character = '\\' then
        if following = '\n' then none
        else (bodyBefore? quote rest).map fun body => character :: following :: body
      else (bodyBefore? quote (following :: rest)).map (character :: ·)

/-- What stands between the quotes of a literal, escapes and all.  The quotes
may be single or double, as long as both are the same. -/
def body? (text : Text) : Option Text :=
  match Text.trim text with
  | '"' :: rest => bodyBefore? '"' rest
  | '\'' :: rest => bodyBefore? '\'' rest
  | _ => none

def isStringLiteral (text : Text) : Bool :=
  (body? text).isSome

/-! ### Escapes -/

def isOctalDigit (character : Char) : Bool :=
  '0' ≤ character && character ≤ '7'

/-- The character that a backslash with one further character stands for. -/
def shortEscape? : Char -> Option Char
  | 'b' => some '\x08'
  | 't' => some '\t'
  | 'n' => some '\n'
  | 'f' => some '\x0c'
  | 'r' => some '\r'
  | 's' => some ' '
  | '"' => some '"'
  | '\'' => some '\''
  | '\\' => some '\\'
  | _ => none

/-- Reads an octal escape: up to three digits if the first is at most 3,
otherwise up to two, so that its value fits one byte.  The answer holds the
character and the number of digits. -/
def octal? (text : Text) : Option (Char × Nat) :=
  match (text.take 3).takeWhile isOctalDigit with
  | [] => none
  | first :: others =>
      let digits := first :: if first ≤ '3' then others else others.take 1
      (ofDigits? 8 digits).map fun value => (Char.ofNat value, digits.length)

def fourHexDigits? (text : Text) : Option Nat :=
  let digits := text.take 4
  if digits.length = 4 then ofDigits? 16 digits else none

/-- Reads one or more letters `u` with four hexadecimal digits behind them:
the number they write and how many characters they are.  The number may be
half of a surrogate pair. -/
def unit? (text : Text) : Option (Nat × Nat) :=
  match text with
  | 'u' :: rest =>
      let letters := (rest.takeWhile (· = 'u')).length
      (fourHexDigits? (rest.drop letters)).map fun value => (value, letters + 5)
  | _ => none

/-- Reads the rest of a Unicode escape behind its backslash.  A high surrogate
needs the escape of a low one right behind it, and a low one alone is no
escape.  The answer holds the character and how many characters write it. -/
def units? (text : Text) : Option (Char × Nat) := do
  let (high, count) <- unit? text
  if 0xD800 ≤ high ∧ high < 0xDC00 then
    let '\\' :: rest := text.drop count | none
    let (low, lowCount) <- unit? rest
    if 0xDC00 ≤ low ∧ low < 0xE000 then
      some (Char.ofNat (0x10000 + (high - 0xD800) * 0x400 + (low - 0xDC00)), count + 1 + lowCount)
    else none
  else if 0xDC00 ≤ high ∧ high < 0xE000 then none
  else some (Char.ofNat high, count)

/-- Reads the rest of an escape behind its backslash: the character it stands
for and how many characters write it.  The short escapes are tried first, then
the octal ones, then the Unicode ones. -/
def escape? (text : Text) : Option (Char × Nat) :=
  match text with
  | [] => none
  | character :: _ =>
      match shortEscape? character with
      | some resolved => some (resolved, 1)
      | none => (octal? text).or (units? text)

/-- The text with its escapes resolved, after leaving out `skip` characters
that belong to an escape already read.  What an escape stands for is not read
again. -/
def unescapeFrom : Nat -> Text -> Text
  | _, [] => []
  | skip + 1, _ :: rest => unescapeFrom skip rest
  | 0, character :: rest =>
      if character = '\\' then
        match escape? rest with
        | some (resolved, count) => resolved :: unescapeFrom count rest
        | none => character :: unescapeFrom 0 rest
      else character :: unescapeFrom 0 rest

/-- The text with its escapes resolved.  A backslash that begins no escape is
kept, with what stands behind it. -/
def unescape (body : Text) : Text :=
  unescapeFrom 0 body

/-- The text that a literal stands for, or nothing if the text is no literal.
A character between single quotes counts as a text of its own. -/
def decode (text : Text) : Option Text :=
  (body? text).map unescape

/-! ### Writing -/

/-- A code point below 0x10000 as an escape with four digits. -/
def unitEscape (code : Nat) : Text :=
  '\\' :: 'u' :: hexDigits 'a' 4 code

/-- How one character is written inside a double-quoted literal.  Only what
would end the literal, begin an escape or not be visible gets an escape;
letters of other alphabets stay. -/
def escapeChar (character : Char) : Text :=
  if character = '\\' then ['\\', '\\']
  else if character = '"' then ['\\', '"']
  else if character = '\n' then ['\\', 'n']
  else if character = '\r' then ['\\', 'r']
  else if character = '\t' then ['\\', 't']
  else if character = '\x08' then ['\\', 'b']
  else if character = '\x0c' then ['\\', 'f']
  else if isControl character then unitEscape character.toNat
  else [character]

/-- A text as it is written inside a double-quoted literal.  To read it gives
the text back, whatever the text is. -/
def escape (text : Text) : Text :=
  text.flatMap escapeChar

/-- A text as a double-quoted literal.  It stands on one line, since line ends
have escapes. -/
def quote (text : Text) : Text :=
  '"' :: escape text ++ ['"']

end Literal

/-!
## Operands

A concatenation is split at its top-level plus signs into operands.  An operand is
either a literal, which stands for its text, or an expression, whose code blanks
are collapsed so that it fits on one line.
-/

/-- One operand of a concatenation.  Nothing else is known of an expression
than its code. -/
inductive Operand where
  /-- A literal, with the text it stands for. -/
  | literal (content : Text)
  /-- Any other operand, with runs of blanks outside literals as single spaces. -/
  | expression (code : Text)
  deriving DecidableEq, Repr

/-- The code after the cursor with each run of blanks outside literals
replaced by a space.  A run is `pending` until the character behind it, so a
run at the end is dropped. -/
def collapseBlanksFrom (cursor : Cursor) (pending : Bool) : Text -> Text
  | [] => []
  | character :: rest =>
      if isBlank character ∧ !cursor.isInLiteral then
        collapseBlanksFrom cursor true rest
      else
        (if pending then [' '] else []) ++
          character :: collapseBlanksFrom (cursor.feedChar character) false rest

/-- A character that is no blank is kept, behind the space of a pending run. -/
theorem collapseBlanksFrom_cons {character : Char} (notBlank : isBlank character = false)
    (cursor : Cursor) (pending : Bool) (rest : Text) :
    collapseBlanksFrom cursor pending (character :: rest) = (if pending then [' '] else []) ++
      character :: collapseBlanksFrom (cursor.feedChar character) false rest := by
  rw [collapseBlanksFrom, notBlank, if_neg fun blank => Bool.false_ne_true blank.1]

/-- The code with each run of blanks outside literals replaced by a space, and
without such a run at its end. -/
def collapseBlanks (code : Text) : Text :=
  collapseBlanksFrom .start false code

namespace Operand

/-- Tells literals from other operands.  A literal in parentheses is an
expression. -/
def ofText (operand : Text) : Operand :=
  match Literal.decode operand with
  | some content => .literal content
  | none => .expression (collapseBlanks (Text.trim operand))

/-- The operands of a concatenation, in order.  It is not asked whether the
plus signs add numbers. -/
def ofConcatenation (expression : Text) : List Operand :=
  (splitUnnested '+' expression).map ofText

end Operand

end FluentLog
