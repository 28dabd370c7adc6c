import FluentLog.Text

namespace FluentLog

/-!
# Literals, nesting and comments

Code is read byte by byte.  What a byte means depends on the literals and the parentheses in
front of it, which the cursor keeps, and on the comments, which it does not know.
-/

/-!
## The cursor

Every scan of code feeds its bytes through one small machine, so that quotes,
escapes and parentheses mean the same everywhere.  The cursor knows the depth of
open parentheses and whether it stands inside a string or character literal, and
there whether the last byte was an unescaped backslash.  A closing parenthesis
with none open leaves the depth at zero.

A literal cannot contain a raw line end.  The cursor is told about a line break
by `endLine`, which drops a literal that is still open: the quote that opened
it was not a literal's.
-/

/-! ### The bytes that scans of code look for -/

namespace Byte

def lineFeed : UInt8 := 0x0A
def doubleQuote : UInt8 := 0x22
def singleQuote : UInt8 := 0x27
def openParen : UInt8 := 0x28
def closeParen : UInt8 := 0x29
def asterisk : UInt8 := 0x2A
def plus : UInt8 := 0x2B
def comma : UInt8 := 0x2C
def dot : UInt8 := 0x2E
def slash : UInt8 := 0x2F
def semicolon : UInt8 := 0x3B
def backslash : UInt8 := 0x5C
def openBrace : UInt8 := 0x7B
def closeBrace : UInt8 := 0x7D

end Byte

/-! ### The machine -/

/-- How the cursor understands one byte. -/
inductive Reading where
  /-- Part of a literal, its quotes included. -/
  | literal
  /-- An opening parenthesis. -/
  | opening
  /-- A closing parenthesis. -/
  | closing
  /-- Any other byte outside a literal. -/
  | code
  deriving DecidableEq, Repr

/-- Whether the cursor stands in code or inside a literal.  The literal keeps
the quote that opened it, the only one that closes it, so that a single quote
between double quotes means nothing. -/
inductive Quoting where
  | none
  | within (quote : UInt8) (escaped : Bool)
  deriving DecidableEq, Repr

/-- The depth of open parentheses and the literal around the cursor.  Comments
are not part of it: who reads code with comments in it holds them back from
the cursor. -/
structure Cursor where
  depth : Nat
  quoting : Quoting
  deriving DecidableEq, Repr

namespace Cursor

def start : Cursor := ⟨0, .none⟩

def isInLiteral (cursor : Cursor) : Bool :=
  cursor.quoting != .none

/-- Whether the cursor is neither inside a literal nor inside parentheses.
Only there do commas and plus signs separate. -/
def isUnnested (cursor : Cursor) : Bool :=
  cursor.depth == 0 && !cursor.isInLiteral

/-- Reads one byte, and says how it is understood.  Inside a literal only a
backslash and the literal's own quote mean anything.  Outside, a closing
parenthesis with none open leaves the depth at zero. -/
def step (cursor : Cursor) (byte : UInt8) : Reading × Cursor :=
  match cursor.quoting with
  | .within quote escaped =>
      let quoting : Quoting :=
        if escaped then .within quote false
        else if byte = Byte.backslash then .within quote true
        else if byte = quote then .none
        else .within quote false
      (.literal, { cursor with quoting })
  | .none =>
      if byte = Byte.doubleQuote ∨ byte = Byte.singleQuote then
        (.literal, { cursor with quoting := .within byte false })
      else if byte = Byte.openParen then
        (.opening, { cursor with depth := cursor.depth + 1 })
      else if byte = Byte.closeParen then
        (.closing, { cursor with depth := cursor.depth - 1 })
      else
        (.code, cursor)

def next (cursor : Cursor) (byte : UInt8) : Cursor :=
  (cursor.step byte).2

/-- Drops a literal that is still open at the end of a line, since no literal
holds a line end.  The depth of parentheses stays as it is. -/
def endLine (cursor : Cursor) : Cursor :=
  { cursor with quoting := .none }

def feed (cursor : Cursor) (bytes : Bytes) : Cursor :=
  bytes.foldl next cursor

/-- The cursor after the bytes of one character.  The bytes of a character
outside ASCII are no delimiters, so to feed characters is the same as to feed
bytes. -/
def feedChar (cursor : Cursor) (character : Char) : Cursor :=
  cursor.feed (String.utf8EncodeChar character)

/-- How each byte of a sequence is understood. -/
def readings (cursor : Cursor) : Bytes -> List Reading
  | [] => []
  | byte :: rest => (cursor.step byte).1 :: readings (cursor.next byte) rest

@[simp] theorem feed_nil (cursor : Cursor) : cursor.feed [] = cursor := rfl

@[simp] theorem feed_cons (cursor : Cursor) (byte : UInt8) (rest : Bytes) :
    cursor.feed (byte :: rest) = (cursor.next byte).feed rest := rfl

@[simp] theorem feed_append (cursor : Cursor) (left right : Bytes) :
    cursor.feed (left ++ right) = (cursor.feed left).feed right :=
  List.foldl_append

end Cursor

/-!
## Recognising comments

`hasComment` says whether a text holds a comment outside literals.  It is a
question about argument lists: their parts are joined onto one line when they are
written back, so a list with a comment is left alone.
-/

inductive Comment where
  | line
  | block
  deriving DecidableEq, Repr

/-- The comment that two bytes open: two slashes, or a slash with an asterisk.
Whether the bytes stand in a literal is for the caller to see to. -/
def Comment.opened? (first : UInt8) (second : Option UInt8) : Option Comment :=
  if first = Byte.slash then
    if second = some Byte.slash then some .line
    else if second = some Byte.asterisk then some .block
    else none
  else none

/-- Whether a comment opens in the text after the cursor.  The cursor is told
about line ends, because an apostrophe in a broken literal must not hide what
stands on the next line. -/
def containsCommentFrom (cursor : Cursor) : Bytes -> Bool
  | [] => false
  | byte :: rest =>
      if byte = Byte.lineFeed then
        containsCommentFrom cursor.endLine rest
      else if !cursor.isInLiteral && (Comment.opened? byte rest.head?).isSome then
        true
      else
        containsCommentFrom (cursor.next byte) rest

/-- Whether a text contains a comment outside literals.  The content of the
comment is never looked at, since the first opener decides. -/
def hasComment (text : Bytes) : Bool :=
  containsCommentFrom .start text

end FluentLog
