import FluentLog.Text

namespace FluentLog
namespace Yaml

/-!
# The scalars of YAML

A scalar is written in one of five styles.  Each of them has a reader of its own, and they share
the folding of line ends and the characters of the language.
-/

/-!
## The characters of YAML

Lines end at a carriage return, a line feed, both together, U+0085, U+2028 or U+2029.
The reader sees the first four as one line feed, while the last two stand for
themselves wherever they end a line of a text.
-/

/-- The characters that end a line.  Some of them are read as a line feed, as
`unifyBreaks` says. -/
def isBreak (character : Char) : Bool :=
  character = '\n' || character = '\r' || character = '\x85' || character = '\u2028' ||
    character = '\u2029'

/-- The blanks within a line. -/
def isBlank (character : Char) : Bool :=
  character = ' ' || character = '\t'

/-- Whether a text is at its end, at the end of a line or at a blank. -/
def endsWord : Text -> Bool
  | [] => true
  | character :: _ => isBlank character || isBreak character

/-- The indicators that no plain scalar may begin with.  A dash, a colon and a
question mark are indicators only before a blank. -/
def isIndicator (character : Char) : Bool :=
  ['#', ',', '[', ']', '\x7b', '\x7d', '&', '*', '!', '|', '>', '\'', '"', '%', '@',
    '\x60'].contains character

/-- The characters that may stand in a YAML text.  A text with another one is
rejected before anything is read. -/
def isAllowed (character : Char) : Bool :=
  let code := character.toNat
  code == 0x9 || code == 0xA || code == 0xD || (0x20 ≤ code && code ≤ 0x7E) || code == 0x85 ||
    (0xA0 ≤ code && code ≤ 0xFFFD) || 0x10000 ≤ code

/-- The characters that are written as they are.  All others are escaped,
which takes double quotes. -/
def isPrintable (character : Char) : Bool :=
  let code := character.toNat
  code == 0xA || (0x20 ≤ code && code ≤ 0x7E) ||
    (0xA0 ≤ code && code ≤ 0xFFFD && code != 0xFEFF)

/-- The text with every end of a line written as a line feed, U+2028 and
U+2029 excepted.  Scalars are read from such texts only. -/
def unifyBreaks : Text -> Text
  | [] => []
  | '\r' :: '\n' :: rest => '\n' :: unifyBreaks rest
  | '\r' :: rest => '\n' :: unifyBreaks rest
  | '\x85' :: rest => '\n' :: unifyBreaks rest
  | character :: rest => character :: unifyBreaks rest

/-- Whether a text begins with three dashes that mark the start of a document.
A word that begins with three dashes is no mark. -/
def startsDocument : Text -> Bool
  | '-' :: '-' :: '-' :: rest => endsWord rest
  | _ => false

/-- Whether a text begins with three dots that mark the end of a document. -/
def endsDocument : Text -> Bool
  | '.' :: '.' :: '.' :: rest => endsWord rest
  | _ => false

/-- Whether a text, taken from the beginning of a line, begins with a mark of
a document.  No scalar may hold such a mark unless it is indented. -/
def marksDocument (text : Text) : Bool :=
  startsDocument text || endsDocument text

/-!
## What plain scalars are taken for

A plain scalar is only a text if it is not taken for the null value, a truth value or a
number.  Whole numbers are written in decimal, or in a base with one of the marks `0x`,
`0o` and `0b`; a decimal with needless leading zeros is a text.  Whole numbers have 128
bits.  Fractional numbers are those that fit the range of 64-bit floating point numbers.
-/

def isNull (scalar : Text) : Bool :=
  ["", "null", "Null", "NULL", "~"].contains (String.ofList scalar)

def isBoolean (scalar : Text) : Bool :=
  ["true", "True", "TRUE", "false", "False", "FALSE"].contains (String.ofList scalar)

/-- The number that digits of a base stand for.  There has to be one. -/
def whole? (base : Nat) (digits : Text) : Option Nat :=
  if digits.isEmpty then none else ofDigits? base digits

def dropSign : Text -> Text
  | '-' :: rest => rest
  | '+' :: rest => rest
  | scalar => scalar

/-- Whether a scalar would be a decimal number if it had no leading zeros.  It
is no number, but it is quoted when it is written. -/
def hasLeadingZero (scalar : Text) : Bool :=
  match dropSign scalar with
  | '0' :: digit :: digits => (digit :: digits).all Char.isDigit
  | _ => false

/-- The number of an unsigned scalar, in any of the bases.  Digits may not be
grouped, and a mark without digits behind it makes no number. -/
def magnitude? (scalar : Text) : Option Nat :=
  let marked : Option Nat := match scalar with
    | '0' :: 'x' :: digits => whole? 16 digits
    | '0' :: 'o' :: digits => whole? 8 digits
    | '0' :: 'b' :: digits => whole? 2 digits
    | _ => none
  match marked with
  | some number => some number
  | none => if hasLeadingZero scalar then none else whole? 10 scalar

/-- The natural number that a plain scalar stands for.  It may have a plus
sign. -/
def natural? : Text -> Option Nat
  | '+' :: scalar => magnitude? scalar
  | scalar => magnitude? scalar

/-- Whether a scalar is taken for a whole number.  A negative one may be as
low as the least number of 128 bits. -/
def isWhole (scalar : Text) : Bool :=
  match scalar with
  | '-' :: scalar => (magnitude? scalar).any (· ≤ Nat.pow 2 127)
  | scalar => (natural? scalar).any (· < Nat.pow 2 128)

/-! ### Fractional numbers -/

/-- The digits of a fractional number without their point, how many of them
stand behind it, and the rest of the text.  There has to be a digit. -/
def significand? (text : Text) : Option (Text × Nat × Text) :=
  let (whole, rest) := text.span Char.isDigit
  let (fraction, rest) : Text × Text := match rest with
    | '.' :: rest => rest.span Char.isDigit
    | _ => ([], rest)
  if whole.isEmpty && fraction.isEmpty then none
  else some (whole ++ fraction, fraction.length, rest)

/-- The exponent of a fractional number, which ends it.  A number without an
exponent has the exponent zero. -/
def exponent? : Text -> Option Int
  | [] => some 0
  | mark :: rest =>
      if mark = 'e' ∨ mark = 'E' then
        let digits := dropSign rest
        if digits.isEmpty || !digits.all Char.isDigit then none
        else if rest.head? = some '-' then some (-(ofDecimal digits : Int))
        else some (ofDecimal digits : Int)
      else none

/-- The numbers from this one on round to an infinite floating point number.
It lies halfway between the greatest finite number and the next power of two. -/
def infinityBound : Nat := Nat.pow 2 1024 - Nat.pow 2 970

/-- Whether a number times a power of ten rounds to a finite floating point
number.  The digits are counted first, so that no huge power is computed where
they decide. -/
def isFinite (number : Nat) (exponent : Int) : Bool :=
  let digits := (Nat.repr number).length
  if number = 0 then true
  else if exponent < 0 then
    let places := exponent.natAbs
    digits ≤ places || number < infinityBound * Nat.pow 10 places
  else
    let zeros := exponent.natAbs
    digits + zeros ≤ 310 && number * Nat.pow 10 zeros < infinityBound

/-- Whether an unsigned scalar is taken for a fractional number. -/
def isFractionalMagnitude (scalar : Text) : Bool :=
  match significand? scalar with
  | none => false
  | some (digits, places, rest) =>
      match exponent? rest with
      | none => false
      | some exponent => isFinite (ofDecimal digits) (exponent - places)

/-- Whether a scalar is taken for a fractional number, for infinity or for no
number. -/
def isFractional (scalar : Text) : Bool :=
  [".inf", ".Inf", ".INF", "+.inf", "+.Inf", "+.INF", "-.inf", "-.Inf", "-.INF", ".nan",
      ".NaN", ".NAN"].contains (String.ofList scalar) ||
    isFractionalMagnitude (dropSign scalar)

/-- Whether a plain scalar is taken for a text.  Quoted scalars and blocks are
texts whatever they hold. -/
def isText (scalar : Text) : Bool :=
  !isNull scalar && !isBoolean scalar && !isWhole scalar && !hasLeadingZero scalar &&
    !isFractional scalar

/-!
## Folded line ends

Plain and quoted scalars may continue on further lines.  The line end between two lines
is then folded: together with the blanks around it, it becomes one space, or the empty
lines behind it.  A line end behind a backslash becomes nothing.

The readers of scalars work on texts in which every line end but U+2028 and U+2029 is a
line feed.
-/

/-- What stands between two words of a scalar: blanks within a line, line
ends, or line ends behind an escaped one.  The last character comes first. -/
inductive Gap where
  | blanks (characters : Text)
  | breaks (characters : Text)
  | escaped (characters : Text)
  deriving DecidableEq, Repr

namespace Gap

def nothing : Gap := .blanks []

def isBroken : Gap -> Bool
  | .blanks _ => false
  | _ => true

/-- Adds a blank.  Blanks around line ends do not count. -/
def addBlank (gap : Gap) (blank : Char) : Gap :=
  match gap with
  | .blanks characters => .blanks (blank :: characters)
  | _ => gap

def addBreak (gap : Gap) (lineEnd : Char) : Gap :=
  match gap with
  | .blanks _ => .breaks [lineEnd]
  | .breaks characters => .breaks (lineEnd :: characters)
  | .escaped characters => .escaped (lineEnd :: characters)

def text : Gap -> Text
  | .blanks characters => characters.reverse
  | .breaks characters =>
      match characters.reverse with
      | ['\n'] => [' ']
      | '\n' :: more => more
      | lineEnds => lineEnds
  | .escaped characters => characters.reverse

end Gap

/-!
## Plain scalars

A plain scalar ends before a colon that a blank follows, before a comment, before a line
that stands too far out, and inside flow collections before the signs that separate their
parts.
-/

def isFlowIndicator (character : Char) : Bool :=
  [',', '[', ']', '\x7b', '\x7d'].contains character

/-- Whether a plain scalar can begin at a text.  A dash, a question mark or a
colon begins one only if something that is no blank follows it. -/
def startsPlain (inFlow : Bool) : Text -> Bool
  | [] => false
  | character :: rest =>
      if character = '-' then
        match rest with
        | next :: _ => !isBlank next
        | [] => true
      else if character = '?' || character = ':' then !inFlow && !endsWord rest
      else
        !isBlank character && !isBreak character && !isIndicator character

/-- Whether a plain scalar ends before the text, which does not begin with a
blank.  A comment ends it as well, but only behind a gap. -/
def endsPlain (inFlow : Bool) : Text -> Bool
  | [] => true
  | ':' :: rest => endsWord rest
  | character :: _ => inFlow && isFlowIndicator character

/-- Whether a colon stands before an indicator of a flow collection. -/
def hasStrayColon : Text -> Bool
  | ':' :: next :: _ => next = '?' || isFlowIndicator next
  | _ => false

/-- Reads the rest of a plain scalar with the blanks and line ends behind it,
and tells whether there are line ends among them.  Lines that continue the
scalar begin at column `least` or behind it; `column` is that of the first
character, and the gap stands before it. -/
def readPlain (inFlow : Bool) (least : Nat) (gap : Gap) (column : Nat) :
    Text -> Option (Text × Bool × Text)
  | [] => some ([], gap.isBroken, [])
  | character :: rest =>
      if isBreak character then
        readPlain inFlow least (gap.addBreak character) 0 rest
      else if isBlank character then
        if gap.isBroken && character = '\t' && column < least then none
        else readPlain inFlow least (gap.addBlank character) (column + 1) rest
      else
        let text := character :: rest
        let startsWord := gap != .nothing
        if startsWord && ((gap.isBroken && !inFlow && column < least) ||
            (column = 0 && marksDocument text) || character = '#') then
          some ([], gap.isBroken, text)
        else if inFlow && hasStrayColon text then none
        else if endsPlain inFlow text then some ([], gap.isBroken, text)
        else
          match readPlain inFlow least .nothing (column + 1) rest with
          | none => none
          | some (content, isBroken, rest) =>
              some (gap.text ++ character :: content, isBroken, rest)

/-!
## Quoted scalars

Between single quotes a quote is written twice, and nothing else is special.  Between
double quotes a backslash begins an escape: of one character, or of a code point with two,
four or eight hexadecimal digits.  Neither may hold the mark of a document.
-/

/-- Reads the rest of a scalar between single quotes, the closing quote
included.  The flag tells whether the text begins at the beginning of a line,
where no mark of a document may stand. -/
def readSingleQuoted (gap : Gap) (atMargin : Bool) : Text -> Option (Text × Text)
  | [] => none
  | '\'' :: '\'' :: rest =>
      (readSingleQuoted .nothing false rest).map fun (content, rest) =>
        (gap.text ++ '\'' :: content, rest)
  | '\'' :: rest => some (gap.text, rest)
  | character :: rest =>
      if isBreak character then readSingleQuoted (gap.addBreak character) true rest
      else if isBlank character then readSingleQuoted (gap.addBlank character) false rest
      else if atMargin && marksDocument (character :: rest) then none
      else
        (readSingleQuoted .nothing false rest).map fun (content, rest) =>
          (gap.text ++ character :: content, rest)

/-- The character that stands for itself behind a backslash, or for another
one.  Line ends and code points are not among them. -/
def unescape? : Char -> Option Char
  | '0' => some '\x00'
  | 'a' => some '\x07'
  | 'b' => some '\x08'
  | 't' => some '\t'
  | '\t' => some '\t'
  | 'n' => some '\n'
  | 'v' => some '\x0b'
  | 'f' => some '\x0c'
  | 'r' => some '\r'
  | 'e' => some '\x1b'
  | ' ' => some ' '
  | '"' => some '"'
  | '/' => some '/'
  | '\\' => some '\\'
  | 'N' => some '\x85'
  | '_' => some '\xa0'
  | 'L' => some '\u2028'
  | 'P' => some '\u2029'
  | _ => none

/-- The character with the number that hexadecimal digits stand for.  Halves
of surrogate pairs are no characters. -/
def ofCode? (digits : Text) : Option Char :=
  match ofDigits? 16 digits with
  | none => none
  | some code => if code.isValidChar then some (Char.ofNat code) else none

/-- Reads the rest of a scalar between double quotes, the closing quote
included.  The flag tells whether the text begins at the beginning of a line,
where no mark of a document may stand. -/
def readDoubleQuoted (gap : Gap) (atMargin : Bool) : Text -> Option (Text × Text)
  | [] => none
  | '"' :: rest => some (gap.text, rest)
  | '\\' :: 'x' :: a :: b :: rest =>
      match ofCode? [a, b], readDoubleQuoted .nothing false rest with
      | some character, some (content, rest) => some (gap.text ++ character :: content, rest)
      | _, _ => none
  | '\\' :: 'u' :: a :: b :: c :: d :: rest =>
      match ofCode? [a, b, c, d], readDoubleQuoted .nothing false rest with
      | some character, some (content, rest) => some (gap.text ++ character :: content, rest)
      | _, _ => none
  | '\\' :: 'U' :: a :: b :: c :: d :: e :: f :: g :: h :: rest =>
      match ofCode? [a, b, c, d, e, f, g, h], readDoubleQuoted .nothing false rest with
      | some character, some (content, rest) => some (gap.text ++ character :: content, rest)
      | _, _ => none
  | '\\' :: escaped :: rest =>
      if isBreak escaped then
        (readDoubleQuoted (.escaped []) true rest).map fun (content, rest) =>
          (gap.text ++ content, rest)
      else
        match unescape? escaped, readDoubleQuoted .nothing false rest with
        | some character, some (content, rest) => some (gap.text ++ character :: content, rest)
        | _, _ => none
  | character :: rest =>
      if isBreak character then readDoubleQuoted (gap.addBreak character) true rest
      else if isBlank character then readDoubleQuoted (gap.addBlank character) false rest
      else if atMargin && marksDocument (character :: rest) then none
      else
        (readDoubleQuoted .nothing false rest).map fun (content, rest) =>
          (gap.text ++ character :: content, rest)

/-!
## Block scalars

A block scalar consists of lines that stand further in than what is around it.  It is
literal, or folded: then the end of a line becomes a space, unless a line beside it begins
with a blank or is empty.  Its header may say how much further in the lines stand, and
what becomes of the line ends at its end.
-/

/-- A line of a text and the character that ends it.  The last line has none,
unless the text ends with a line end. -/
structure Line where
  content : Text
  lineEnd : Option Char
  deriving DecidableEq, Repr

def Line.text (line : Line) : Text :=
  line.content ++ line.lineEnd.toList

def splitLines : Text -> List Line
  | [] => []
  | character :: rest =>
      if isBreak character then ⟨[], some character⟩ :: splitLines rest
      else
        match splitLines rest with
        | [] => [⟨[character], none⟩]
        | line :: lines => ⟨character :: line.content, line.lineEnd⟩ :: lines

/-- What becomes of the line ends at the end of a block scalar: none of them
stays, or the first one, or all. -/
inductive Chomping where
  | strip
  | clip
  | keep
  deriving DecidableEq, Repr

/-- What the first line of a block scalar says.  The lines below it are read
as the header tells. -/
structure BlockHeader where
  isFolded : Bool
  chomping : Chomping
  /-- How much further in the lines stand, if it is said. -/
  indentation : Option Nat
  deriving DecidableEq, Repr

/-- Reads an indicator of what becomes of line ends. -/
def readChomping : Text -> Option (Chomping × Text)
  | '-' :: rest => some (.strip, rest)
  | '+' :: rest => some (.keep, rest)
  | _ => none

/-- Reads a digit that says how much further in the lines stand.  It is not
zero. -/
def readIndentation : Text -> Option (Nat × Text)
  | digit :: rest =>
      if '1' ≤ digit ∧ digit ≤ '9' then some (digit.toNat - '0'.toNat, rest) else none
  | [] => none

/-- Reads the first line of a block scalar, the line end included.  Its two
indicators come in either order, and a comment may follow. -/
def readHeader (isFolded : Bool) (text : Text) : Option (BlockHeader × Text) :=
  let (chomping, indentation, rest) : Chomping × Option Nat × Text :=
    match readChomping text with
    | some (chomping, rest) =>
        match readIndentation rest with
        | some (indentation, rest) => (chomping, some indentation, rest)
        | none => (chomping, none, rest)
    | none =>
        match readIndentation text with
        | none => (.clip, none, text)
        | some (indentation, rest) =>
            match readChomping rest with
            | some (chomping, rest) => (chomping, some indentation, rest)
            | none => (.clip, some indentation, rest)
  let header : BlockHeader := ⟨isFolded, chomping, indentation⟩
  let rest := rest.dropWhile isBlank
  let rest := if rest.head? = some '#' then rest.dropWhile fun c => !isBreak c else rest
  match rest with
  | [] => some (header, [])
  | lineEnd :: rest => if isBreak lineEnd then some (header, rest) else none

def Line.spaces (line : Line) : Nat :=
  (line.content.takeWhile (· = ' ')).length

/-- Whether a line holds nothing but spaces and ends. -/
def Line.isBlank (line : Line) : Bool :=
  line.lineEnd.isSome && line.content.all (· = ' ')

/-- The column at which the lines of a block scalar begin if its header does
not say it: the greatest number of spaces before the first line with a text in
it, and at least `least`.  Blank lines before it count as well. -/
def blockColumn (least : Nat) : List Line -> Nat
  | [] => max least 1
  | line :: lines =>
      if line.isBlank then max line.spaces (blockColumn least lines)
      else max line.spaces (max least 1)

/-- Whether a tab stands where a line of a block scalar needs spaces. -/
def Line.hasStrayTab (line : Line) (column : Nat) : Bool :=
  line.spaces < column && (line.content.drop line.spaces).head? = some '\t'

/-- What has been read of a block scalar: its text, the end of the last line,
the empty lines behind it, and whether the last line began with a blank.
Empty lines are kept apart until it is known whether a line follows them. -/
structure Block where
  text : Text := []
  lineEnd : Text := []
  emptyLines : Text := []
  beganBlank : Bool := false
  deriving DecidableEq, Repr

namespace Block

def addEmpty (block : Block) (line : Line) : Block :=
  { block with emptyLines := block.emptyLines ++ line.lineEnd.toList }

/-- Adds a line with a text.  A line end between two lines is folded if
neither begins with a blank. -/
def addLine (isFolded : Bool) (block : Block) (content : Text) (lineEnd : Option Char) :
    Block :=
  let beginsBlank := content.head?.any Yaml.isBlank
  let folds := isFolded && block.lineEnd = ['\n'] && !block.beganBlank && !beginsBlank
  let between : Text :=
    if folds then (if block.emptyLines.isEmpty then [' '] else []) else block.lineEnd
  { text := block.text ++ between ++ block.emptyLines ++ content
    lineEnd := lineEnd.toList
    emptyLines := []
    beganBlank := beginsBlank }

def finish (block : Block) : Chomping -> Text
  | .strip => block.text
  | .clip => block.text ++ block.lineEnd
  | .keep => block.text ++ block.lineEnd ++ block.emptyLines

end Block

/-- Reads the lines of a block scalar that begin at a column.  The lines that
are left begin with the first one that stands further out. -/
def readBlockLines (isFolded : Bool) (column : Nat) (block : Block) :
    List Line -> Option (Block × List Line)
  | [] => some (block, [])
  | line :: lines =>
      if line.hasStrayTab column then none
      else if line.isBlank && line.spaces ≤ column then
        readBlockLines isFolded column (block.addEmpty line) lines
      else if line.spaces < column || line.content.length ≤ column then
        some (block, line :: lines)
      else
        readBlockLines isFolded column
          (block.addLine isFolded (line.content.drop column) line.lineEnd) lines

/-- Whether a tab stands among the spaces before the first line with a text,
so that the column of a block scalar cannot be told. -/
def hasLeadingTab : List Line -> Bool
  | [] => false
  | line :: lines =>
      if line.isBlank then hasLeadingTab lines
      else (line.content.drop line.spaces).head? = some '\t'

/-- Reads a block scalar behind its first character.  Its lines stand further
in than those around it, which have column `least` or less.  The first line
that stands further out is left unread. -/
def readBlock (isFolded : Bool) (least : Nat) (text : Text) : Option (Text × Text) :=
  match readHeader isFolded text with
  | none => none
  | some (header, rest) =>
      let lines := splitLines rest
      let column := match header.indentation with
        | some indentation => least - 1 + indentation
        | none => blockColumn least lines
      if header.indentation.isNone && hasLeadingTab lines then none
      else
        match readBlockLines header.isFolded column {} lines with
        | none => none
        | some (block, lines) =>
            some (block.finish header.chomping, lines.flatMap Line.text)

end Yaml
end FluentLog
