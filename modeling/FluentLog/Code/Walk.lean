import FluentLog.Code.Comment

namespace FluentLog

/-!
# Walking the code of a text

A `Scanner` is a cursor that also knows comments.  Outside literals two slashes
open a comment that runs to the end of the line, and a slash with an asterisk
opens one that runs to the next asterisk with a slash, both after the opener.
A comment that is never closed runs to the end of the text.  Bytes of comments do
not reach the cursor.

The scanner reads one byte at a time and looks one byte ahead, so a walk is a
recursion over the bytes.  It reports the *code bytes*: those that belong to no
literal and no comment and are no line feed, each with its offset and the depth
of parentheses in front of it.

A `Walk` is the same thing taken in steps.  It can be stopped at a bound, beyond
which no byte is reported, and it can jump to another offset without feeding the
bytes between to the cursor.
-/

/-- Where the scanner stands: in code (or a literal), on the second byte of a
comment's opener, inside a comment, or on the slash that closes one.  The
opener and the closer have states of their own because the asterisk of `/*/`
does not close the comment that it opens. -/
inductive Region where
  | code
  | opener (comment : Comment)
  | inside (comment : Comment)
  | closer
  deriving DecidableEq, Repr

/-- A cursor that also knows comments.  In a comment the cursor stays as it
was in front of it. -/
structure Scanner where
  cursor : Cursor
  region : Region
  deriving DecidableEq, Repr

/-- A byte of code, with its offset and the depth of parentheses in front of
it.  A closing parenthesis therefore has the depth of what it encloses. -/
structure CodeByte where
  offset : Nat
  byte : UInt8
  depth : Nat
  deriving DecidableEq, Repr

namespace Scanner

def start : Scanner := ⟨.start, .code⟩

/-- The comment that begins at a byte, given the byte after it. -/
def opened? (scanner : Scanner) (byte : UInt8) (ahead : Option UInt8) : Option Comment :=
  if scanner.cursor.isInLiteral then none else Comment.opened? byte ahead

/-- Reads one byte.  For a code byte the answer holds the depth in front of
it, and for all others nothing.  The byte ahead is looked at to tell a slash
from the opener of a comment. -/
def step (scanner : Scanner) (byte : UInt8) (ahead : Option UInt8) : Option Nat × Scanner :=
  match scanner.region with
  | .code =>
      match scanner.opened? byte ahead with
      | some comment => (none, { scanner with region := .opener comment })
      | none =>
          if byte = Byte.lineFeed then
            (none, { scanner with cursor := scanner.cursor.endLine })
          else
            let next := { scanner with cursor := scanner.cursor.next byte }
            if (scanner.cursor.step byte).1 = .literal then (none, next)
            else (some scanner.cursor.depth, next)
  | .opener comment => (none, { scanner with region := .inside comment })
  | .inside .line =>
      if byte = Byte.lineFeed then (none, { scanner with region := .code })
      else (none, scanner)
  | .inside .block =>
      if byte = Byte.asterisk ∧ ahead = some Byte.slash then
        (none, { scanner with region := .closer })
      else (none, scanner)
  | .closer => (none, { scanner with region := .code })

/-- The code bytes of a text that begins at `offset`, read by a scanner.  Line
feeds are not among them, and neither are the quotes of a literal. -/
def codeBytes (scanner : Scanner) (offset : Nat) : Bytes -> List CodeByte
  | [] => []
  | byte :: rest =>
      match scanner.step byte rest.head? with
      | (some depth, next) => ⟨offset, byte, depth⟩ :: codeBytes next (offset + 1) rest
      | (none, next) => codeBytes next (offset + 1) rest

/-- The first code byte that passes a test, in a text that begins at `offset`.
It is the first one of `codeBytes` that passes, but the text behind it is not
read. -/
def find? (test : CodeByte -> Bool) (scanner : Scanner) (offset : Nat) :
    Bytes -> Option CodeByte
  | [] => none
  | byte :: rest =>
      match scanner.step byte rest.head? with
      | (some depth, next) =>
          if test ⟨offset, byte, depth⟩ then some ⟨offset, byte, depth⟩
          else find? test next (offset + 1) rest
      | (none, next) => find? test next (offset + 1) rest

theorem find?_eq_find?_codeBytes (test : CodeByte -> Bool) (scanner : Scanner) (offset : Nat)
    (text : Bytes) :
    scanner.find? test offset text = (scanner.codeBytes offset text).find? test := by
  induction text generalizing scanner offset with
  | nil => rfl
  | cons byte rest ih =>
      rw [find?, codeBytes]
      split
      · rw [List.find?_cons, ih]
        split <;> simp_all
      · rw [ih]

/-- The scanner after a text, where `ahead` is the byte that follows it.  The
last byte of the text may be the slash of an opener, so the scanner depends on
what follows. -/
def run (scanner : Scanner) (ahead : Option UInt8) : Bytes -> Scanner
  | [] => scanner
  | byte :: rest => run (scanner.step byte (rest.head?.or ahead)).2 ahead rest

end Scanner

/-- The code bytes of a whole text, which starts outside of literals, comments
and parentheses. -/
def codeBytes (text : Bytes) : List CodeByte :=
  Scanner.start.codeBytes 0 text

/-- The offset of the parenthesis that closes one already opened.  The text
starts just after the opening parenthesis; parentheses in literals and
comments do not count.  There is none if the text ends first. -/
def closingParen? (text : Bytes) : Option Nat :=
  (Scanner.start.find? (fun point => point.byte = Byte.closeParen && point.depth = 0) 0 text).map
    CodeByte.offset

/-! ## Walks in steps -/

/-- A walk over `text` that has come to `offset`, with `rest` to go.  Bytes at
or after `bound` are not reported, and the walk ends there. -/
structure Walk where
  text : Bytes
  bound : Nat
  scanner : Scanner
  offset : Nat
  rest : Bytes
  deriving DecidableEq, Repr

namespace Walk

/-- A walk that starts at an offset, which has to be outside literals and
comments.  The depth is counted from there, so a parenthesis opened before has
no part in it. -/
def start (text : Bytes) (offset : Nat) : Walk :=
  ⟨text, text.length, .start, offset, text.drop offset⟩

/-- The walk, stopped at an offset.  A bound behind the end of the text is the
end of the text. -/
def bounded (walk : Walk) (bound : Nat) : Walk :=
  { walk with bound := min bound walk.text.length }

/-- Moves the walk to an offset and keeps its cursor.  The bytes between are
not read, so they should leave the cursor where it was: what is skipped has to
be balanced, and no literal may be open at its end. -/
def moveTo (walk : Walk) (offset : Nat) : Walk :=
  { walk with
    scanner := { walk.scanner with region := .code }
    offset := offset
    rest := walk.text.drop offset }

/-- The next code byte in front of the bound, with a scanner at `offset`, and
the walk behind it.  The bound is looked at only between elements: a comment
that is open there is read to its end. -/
def seek (walk : Walk) (scanner : Scanner) (offset : Nat) : Bytes -> Option CodeByte × Walk
  | [] => (none, { walk with scanner, offset, rest := [] })
  | byte :: rest =>
      if scanner.region = .code ∧ walk.bound ≤ offset then
        (none, { walk with scanner, offset, rest := byte :: rest })
      else
        match scanner.step byte rest.head? with
        | (some depth, next) =>
            (some ⟨offset, byte, depth⟩,
              { walk with scanner := next, offset := offset + 1, rest })
        | (none, next) => seek walk next (offset + 1) rest

/-- The next code byte in front of the bound, and the walk behind it.  A
comment that begins in front of the bound is passed over even where it runs
beyond. -/
def next (walk : Walk) : Option CodeByte × Walk :=
  walk.seek walk.scanner walk.offset walk.rest

def take : Nat -> Walk -> List CodeByte × Walk
  | 0, walk => ([], walk)
  | count + 1, walk =>
      match walk.next with
      | (some point, walk) =>
          let (points, walk) := take count walk
          (point :: points, walk)
      | (none, walk) => ([], walk)

/-- All code bytes that remain, and the walk at its end.  Each of them
shortens the rest of the text, so there are no more of them than it has bytes. -/
def remaining (walk : Walk) : List CodeByte × Walk :=
  take walk.rest.length walk

end Walk
end FluentLog
