import FluentLog.Document
import FluentLog.Yaml.Scalar

namespace FluentLog
namespace Yaml

/-!
# Writing YAML

A document is written as block mappings and block sequences, and each of its texts in the plainest
style that reads as the same text.
-/

/-!
## How a text is written as a scalar

A text is written plainly where that reads as the same text.  With a line feed in it, it
becomes a literal block.  Where a plain scalar would be taken for something else or
would not be read to its end, single quotes surround it.  Double quotes with escapes are
left for texts that neither a literal block nor single quotes can hold: those with
characters that are not printable, or with blanks next to line ends in the wrong order.
-/

/-- The four ways to write a scalar.  Folded blocks are read but never
written. -/
inductive Style where
  | plain
  | singleQuoted
  | doubleQuoted
  | literal
  deriving DecidableEq, Repr

/-- Whether the beginning of a text would be read as an indicator or as a mark
of a document.  Three dashes or dots count even if a word goes on behind them. -/
def beginsIndicator (text : Text) : Bool :=
  match text with
  | [] => false
  | '-' :: '-' :: '-' :: _ => true
  | '.' :: '.' :: '.' :: _ => true
  | character :: rest =>
      isIndicator character ||
        ((character = '?' || character = ':' || character = '-') && endsWord rest)

/-- Whether a plain scalar would end before the end of the text: at a colon
before a blank, or at a comment after one. -/
def holdsIndicator : Text -> Bool
  | [] => false
  | ':' :: rest => endsWord rest || holdsIndicator rest
  | character :: rest =>
      ((isBlank character || isBreak character) && rest.head? = some '#') || holdsIndicator rest

/-- Whether a character that passes the first test stands before one that
passes the second. -/
def hasPair (first second : Char -> Bool) (text : Text) : Bool :=
  (text.zip (text.drop 1)).any fun pair => first pair.1 && second pair.2

/-- Whether a text has a space right before the end of a line. -/
def hasSpaceBeforeBreak (text : Text) : Bool :=
  hasPair (· = ' ') isBreak text

/-- Whether a text has a line that begins with a space, the first line
excepted. -/
def hasSpaceAfterBreak (text : Text) : Bool :=
  hasPair isBreak (· = ' ') text

/-- Whether only double quotes can hold a text.  A space before a line end
would be lost in any other style. -/
def needsEscapes (text : Text) : Bool :=
  !text.all isPrintable || hasSpaceBeforeBreak text

/-- Whether a text can be written as a literal block.  A space at its end
would not be told from the blanks behind the block. -/
def allowsLiteral (text : Text) : Bool :=
  !text.isEmpty && !needsEscapes text && text.getLast? != some ' '

def allowsSingleQuotes (text : Text) : Bool :=
  !needsEscapes text && !hasSpaceAfterBreak text

/-- Whether a text would be read to its end as a plain scalar. -/
def allowsPlain (text : Text) : Bool :=
  text.all isPrintable && !text.any isBreak && text.head? != some ' ' &&
    text.getLast? != some ' ' && !beginsIndicator text && !holdsIndicator text

def Style.of (text : Text) : Style :=
  if text.contains '\n' then
    if allowsLiteral text then .literal else .doubleQuoted
  else if isText text && allowsPlain text then .plain
  else if allowsSingleQuotes text then .singleQuoted
  else .doubleQuoted

/-!
## Printing YAML

A record is printed with one field a line.  The items of a list stand below its key and
not further in; the fields of a record inside another stand two spaces further in, and so
do the lines of a scalar that needs several.  Empty lists are written as two brackets.
-/

/-! ### Quoted scalars -/

/-- The lines of a scalar that continue between single quotes begin with
`indent` spaces.  Quotes are doubled. -/
def singleQuotedFrom (indent : Nat) (afterBreak : Bool) : Text -> Text
  | [] => if afterBreak then List.replicate indent ' ' else []
  | character :: rest =>
      if isBreak character then character :: singleQuotedFrom indent true rest
      else
        (if afterBreak then List.replicate indent ' ' else []) ++
          (if character = '\'' then ['\'', '\''] else [character]) ++
          singleQuotedFrom indent false rest

def singleQuoted (indent : Nat) (text : Text) : Text :=
  '\'' :: singleQuotedFrom indent false text ++ ['\'']

/-- A character as it stands between double quotes.  The shortest escape is
taken, and printable characters need none. -/
def escape (character : Char) : Text :=
  if isPrintable character && !isBreak character && character != '"' && character != '\\' then
    [character]
  else
    match character with
    | '\x00' => ['\\', '0']
    | '\x07' => ['\\', 'a']
    | '\x08' => ['\\', 'b']
    | '\t' => ['\\', 't']
    | '\n' => ['\\', 'n']
    | '\x0b' => ['\\', 'v']
    | '\x0c' => ['\\', 'f']
    | '\r' => ['\\', 'r']
    | '\x1b' => ['\\', 'e']
    | '"' => ['\\', '"']
    | '\\' => ['\\', '\\']
    | '\x85' => ['\\', 'N']
    | '\u2028' => ['\\', 'L']
    | '\u2029' => ['\\', 'P']
    | _ =>
        let code := character.toNat
        if code ≤ 0xFF then '\\' :: 'x' :: hexDigits 'A' 2 code
        else if code ≤ 0xFFFF then '\\' :: 'u' :: hexDigits 'A' 4 code
        else '\\' :: 'U' :: hexDigits 'A' 8 code

def doubleQuoted (text : Text) : Text :=
  '"' :: text.flatMap escape ++ ['"']

/-! ### Literal blocks -/

/-- The lines of a literal block, each with `indent` spaces before it unless
it is empty.  The last one gets a line end if it has none. -/
def literalLines (indent : Nat) (afterBreak : Bool) : Text -> Text
  | [] => if afterBreak then [] else ['\n']
  | character :: rest =>
      if isBreak character then character :: literalLines indent true rest
      else
        (if afterBreak then List.replicate indent ' ' else []) ++
          character :: literalLines indent false rest

/-- What the header of a literal block says about the end of the text: it has
no line end there, or one, which is not said, or more. -/
def chompingMark (text : Text) : Text :=
  match text.reverse with
  | [] => ['-']
  | last :: before =>
      if !isBreak last then ['-']
      else
        match before with
        | [] => ['+']
        | character :: _ => if isBreak character then ['+'] else []

/-- A text as a literal block.  Where its first line begins with a space or is
empty, the header says that lines stand two spaces further in. -/
def literal (indent : Nat) (text : Text) : Text :=
  let hint : Text := match text with
    | character :: _ => if character = ' ' || isBreak character then ['2'] else []
    | [] => []
  '|' :: hint ++ chompingMark text ++ '\n' :: literalLines indent true text

/-! ### Documents -/

/-- A text as a scalar, up to the end of its last line.  Lines that continue
it begin with `indent` spaces. -/
def scalar (indent : Nat) (text : Text) : Text :=
  match Style.of text with
  | .plain => text ++ ['\n']
  | .singleQuoted => singleQuoted indent text ++ ['\n']
  | .doubleQuoted => doubleQuoted text ++ ['\n']
  | .literal => literal indent text

mutual

/-- What stands behind the colon of a field whose key has `indent` spaces
before it.  Items and fields begin on the next line. -/
def printValue (indent : Nat) : Document -> Text
  | .text content => ' ' :: scalar (indent + 2) content.toList
  | .natural value => ' ' :: decimal value ++ ['\n']
  | .texts [] => [' ', '[', ']', '\n']
  | .texts items =>
      '\n' :: items.flatMap fun item =>
        List.replicate indent ' ' ++ '-' :: ' ' :: scalar (indent + 2) item.toList
  | .record [] => [' ', '\x7b', '\x7d', '\n']
  | .record fields => '\n' :: printFields (indent + 2) fields

def printFields (indent : Nat) : List (String × Document) -> Text
  | [] => []
  | (name, value) :: fields =>
      List.replicate indent ' ' ++ name.toList ++ ':' :: printValue indent value ++
        printFields indent fields

end

def print : Document -> Text
  | .text content => scalar 2 content.toList
  | .natural value => decimal value ++ ['\n']
  | .texts [] => ['[', ']', '\n']
  | .texts items => items.flatMap fun item => '-' :: ' ' :: scalar 2 item.toList
  | .record [] => ['\x7b', '\x7d', '\n']
  | .record fields => printFields 0 fields

end Yaml
end FluentLog
