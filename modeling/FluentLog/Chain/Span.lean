import FluentLog.Code.Comment
import FluentLog.Code.Walk
import FluentLog.Text

namespace FluentLog

/-!
# The chains of a source text

A chain is a sequence of calls in the vocabulary of a dialect.  Its calls are matched one by one,
and the chains of a text are located by a search over its code.
-/

/-!
## Dialects of logging chains

A dialect is the vocabulary of a fluent logging interface.  The default is

```text
log.atInfo().setMessage("{}").addArgument(() -> ...).log();
```
-/

/-- The names that make up a chain, and the bound on its length in bytes.
They can be any strings; that they are identifiers, and different from each
other, is a hypothesis of the theorems that need it. -/
structure Dialect where
  /-- The identifiers a chain may start with. -/
  receivers : List String := ["log", "LOGGER", "logger"]
  /-- The severities that may follow `levelPrefix` in the first call. -/
  levels : List String := ["Trace", "Debug", "Info", "Warn", "Error"]
  /-- What the name of the first call begins with. -/
  levelPrefix : String := "at"
  /-- The call that sets the message. -/
  messageMethod : String := "setMessage"
  /-- The call that adds an argument. -/
  argumentMethod : String := "addArgument"
  /-- The call without arguments that ends a chain. -/
  terminalMethod : String := "log"
  /-- Bytes at this distance from a chain's start, or further, are not searched for
  the calls of the chain. -/
  maxChainLength : Nat := 65536
  deriving DecidableEq, Repr

namespace Dialect

def addReceiver (dialect : Dialect) (name : String) : Dialect :=
  { dialect with receivers := dialect.receivers ++ [name] }

/-- What inlining does to chains of the dialect, in one line. -/
def describe (dialect : Dialect) : String :=
  "Inline supplier arguments of " ++ "|".intercalate dialect.receivers ++ "." ++
    dialect.levelPrefix ++ "\x7b" ++ "|".intercalate dialect.levels ++ "\x7d() chains into " ++
    dialect.messageMethod ++ "(\"\x7b\x7d\")"

end Dialect

/-!
## The calls of a chain

Each matcher says whether one call of the chain's grammar stands at a place of the
text, and where it ends.  Blanks, line ends included, are allowed between all
tokens, but comments are not.
-/

/-- A stretch of a text, from `start` up to but not including `stop`.  Nothing
keeps the two in order. -/
structure Extent where
  start : Nat
  stop : Nat
  deriving DecidableEq, Repr

/-- A place in a text: its offset, and the text from there on.  A matcher
moves from place to place, so its offsets count from the beginning of the
source text. -/
structure Place where
  offset : Nat
  rest : Bytes
  deriving DecidableEq, Repr

/-- Whether a byte can continue an identifier.  All bytes outside ASCII can,
so that a name is not found inside a word of other letters. -/
def isIdentifierByte (byte : UInt8) : Bool :=
  (0x30 ≤ byte && byte ≤ 0x39) || (0x41 ≤ byte && byte ≤ 0x5A) ||
    (0x61 ≤ byte && byte ≤ 0x7A) || byte = 0x5F || byte = 0x24 || 0x80 ≤ byte

namespace Place

def skipBlanks (place : Place) : Place :=
  ⟨place.offset + (place.rest.takeWhile isBlankByte).length, place.rest.dropWhile isBlankByte⟩

def eat (token : Bytes) (place : Place) : Option Place :=
  (token.isPrefixOf? place.rest).map fun rest => ⟨place.offset + token.length, rest⟩

def eatByte (byte : UInt8) (place : Place) : Option Place :=
  place.eat [byte]

/-- The place behind a word that stands here and does not go on as an
identifier.  What stands in front of the word is not looked at. -/
def eatWord (word : String) (place : Place) : Option Place := do
  let after <- place.eat (Utf8.ofString word)
  if after.rest.head?.any isIdentifierByte then none else some after

/-- The place behind a pair of parentheses with nothing between them.  Blanks
may stand between the tokens, and also in front of the first one. -/
def eatEmptyParens (place : Place) : Option Place := do
  let opened <- place.skipBlanks.eatByte Byte.openParen
  opened.skipBlanks.eatByte Byte.closeParen

end Place

namespace Call

/-- The first call of a chain, with the receiver and the level it names. -/
structure Initial where
  receiver : String
  level : String
  stop : Nat
  deriving DecidableEq, Repr

/-- Matches `receiver . atLevel ( )`.  That no identifier runs into the
receiver from the left is for the caller to see to.  Of several names that
fit, the first listed one with which the whole call matches is taken. -/
def initial? (dialect : Dialect) (place : Place) : Option Initial :=
  dialect.receivers.findSome? fun receiver => do
    let named <- place.eatWord receiver
    let dotted <- named.skipBlanks.eatByte Byte.dot
    let levelled <- dotted.skipBlanks.eat (Utf8.ofString dialect.levelPrefix)
    dialect.levels.findSome? fun level => do
      let after <- levelled.eatWord level
      let closed <- after.eatEmptyParens
      some ⟨receiver, level, closed.offset⟩

/-- A call that sets the message, with all that stands between its
parentheses. -/
structure Message where
  argument : Extent
  stop : Nat
  deriving DecidableEq, Repr

/-- Matches `setMessage ( "{}" )` behind a dot.  Blanks are allowed between
the quotes and the braces, but no other text: a call with any other message
does not qualify. -/
def message? (dialect : Dialect) (place : Place) : Option Message := do
  let named <- place.skipBlanks.eatWord dialect.messageMethod
  let opened <- named.skipBlanks.eatByte Byte.openParen
  let quoted <- opened.skipBlanks.eatByte Byte.doubleQuote
  let braced <- quoted.skipBlanks.eat [Byte.openBrace, Byte.closeBrace]
  let unquoted <- braced.skipBlanks.eatByte Byte.doubleQuote
  let ended := unquoted.skipBlanks
  let closed <- ended.eatByte Byte.closeParen
  some ⟨⟨opened.offset, ended.offset⟩, closed.offset⟩

/-- Matches `log ( )` behind a dot, and gives the offset behind it.  A call of
that name with an argument is not the end of a chain. -/
def terminal? (dialect : Dialect) (place : Place) : Option Nat := do
  let named <- place.skipBlanks.eatWord dialect.terminalMethod
  let closed <- named.eatEmptyParens
  some closed.offset

/-- Matches `addArgument (` behind a dot, and gives the place behind the
parenthesis.  The rest of the call is found by its parentheses. -/
def argument? (dialect : Dialect) (place : Place) : Option Place := do
  let named <- place.skipBlanks.eatWord dialect.argumentMethod
  named.skipBlanks.eatByte Byte.openParen

end Call

/-!
## Locating chains

A chain begins with an initial call `receiver.atLevel()` on a word boundary in code.
From there on the code bytes outside all parentheses decide: the first qualifying
message call has to come before any terminal call, and the terminal call behind it
ends the chain.  A candidate is dropped where its expression ends, at a semicolon, a
comma, a brace or a closing parenthesis of its surroundings, and when a terminal call
comes first.  It is also given up at the dialect's bound.

The search goes on behind a chain that was found, and right behind the initial call
of a candidate that was not, each time with a fresh scanner.
-/

/-- A chain in a source text, from the first byte of its receiver to the
parenthesis that closes its terminal call. -/
structure Span where
  /-- Where the chain begins. -/
  start : Nat
  /-- The chain itself. -/
  text : Bytes
  receiver : String
  level : String
  /-- What stands between the parentheses of the message call, as offsets in the
  source text. -/
  message : Extent
  deriving DecidableEq, Repr

namespace Span

def stop (span : Span) : Nat :=
  span.start + span.text.length

/-- The line of the source text on which the chain begins, counted from one.
Only line feeds end a line. -/
def line (span : Span) (source : Bytes) : Nat :=
  (source.take span.start).count Byte.lineFeed + 1

end Span

/-- What a candidate still lacks: its message call, or behind that one its
terminal call. -/
inductive Stage where
  | beforeMessage
  | afterMessage (message : Extent)
  deriving DecidableEq, Repr

/-- How the search for the rest of a chain ends.  A candidate that is dropped
can never be completed, while one that is exhausted might have been by a
longer text or under a wider bound. -/
inductive Completion where
  /-- The chain ends at `stop`. -/
  | found (message : Extent) (stop : Nat)
  /-- The expression ended, or the chain has no qualifying message. -/
  | dropped
  /-- The text or the bound was reached first. -/
  | exhausted
  deriving DecidableEq, Repr

/-- Whether a byte outside parentheses ends the expression of a chain.
Operators are not among these bytes, so an expression may go on behind one. -/
def endsExpression (byte : UInt8) : Bool :=
  byte = Byte.semicolon || byte = Byte.comma || byte = Byte.closeParen ||
    byte = Byte.openBrace || byte = Byte.closeBrace

/-- Searches for the rest of a chain in the text at `offset`.  No byte at or
after `limit` is looked at, though a call that begins in front of it may end
behind it.  Behind a message call the search goes on without having read what
stands between its parentheses. -/
def complete (dialect : Dialect) (limit : Nat) (stage : Stage) (scanner : Scanner)
    (offset : Nat) : Bytes -> Completion
  | [] => .exhausted
  | byte :: rest =>
      if scanner.region = .code ∧ limit ≤ offset then .exhausted
      else
        match scanner.step byte rest.head? with
        | (some 0, next) =>
            if endsExpression byte then .dropped
            else if byte = Byte.dot then
              match stage with
              | .beforeMessage =>
                  match Call.message? dialect ⟨offset + 1, rest⟩ with
                  | some call =>
                      complete dialect limit (.afterMessage call.argument) next
                        call.stop (rest.drop (call.stop - (offset + 1)))
                  | none =>
                      if (Call.terminal? dialect ⟨offset + 1, rest⟩).isSome then .dropped
                      else complete dialect limit stage next (offset + 1) rest
              | .afterMessage message =>
                  match Call.terminal? dialect ⟨offset + 1, rest⟩ with
                  | some stop => .found message stop
                  | none => complete dialect limit stage next (offset + 1) rest
            else complete dialect limit stage next (offset + 1) rest
        | (_, next) => complete dialect limit stage next (offset + 1) rest
termination_by text => text.length
decreasing_by all_goals grind

/-- What the search through a source text meets.  Dropped candidates leave no
trace. -/
inductive Sighting where
  /-- A chain. -/
  | chain (span : Span)
  /-- A candidate that was given up at the bound, with text left behind it. -/
  | tooLong (start : Nat)
  deriving DecidableEq, Repr

/-- Searches the text at `offset`, where `before` is the byte in front of it
and `length` that of the whole source text.  A call ends with a parenthesis,
so that is the byte in front of a text where the search is taken up again.
Behind a chain nothing of it is searched, behind a candidate that was no chain
everything but its initial call. -/
def sightingsFrom (dialect : Dialect) (length : Nat) (scanner : Scanner)
    (before : Option UInt8) (offset : Nat) : Bytes -> List Sighting
  | [] => []
  | byte :: rest =>
      let call? := if before.any isIdentifierByte then none
        else Call.initial? dialect ⟨offset, byte :: rest⟩
      match scanner.step byte rest.head?, call? with
      | (some _, _), some call =>
          let behind (stop : Nat) : Bytes := rest.drop (stop - (offset + 1))
          let limit := offset + dialect.maxChainLength
          match complete dialect limit .beforeMessage .start call.stop (behind call.stop) with
          | .found message stop =>
              .chain
                { start := offset, text := (byte :: rest).take (stop - offset)
                  receiver := call.receiver, level := call.level, message } ::
                sightingsFrom dialect length .start (some Byte.closeParen) stop (behind stop)
          | .dropped =>
              sightingsFrom dialect length .start (some Byte.closeParen) call.stop
                (behind call.stop)
          | .exhausted =>
              let later := sightingsFrom dialect length .start (some Byte.closeParen) call.stop
                (behind call.stop)
              if limit < length then .tooLong offset :: later else later
      | (_, next), _ => sightingsFrom dialect length next (some byte) (offset + 1) rest
termination_by text => text.length
decreasing_by all_goals grind

/-- The chains of a source text and the candidates given up at the bound, in
order. -/
def sightings (dialect : Dialect) (source : Bytes) : List Sighting :=
  sightingsFrom dialect source.length .start none 0 source

/-- The chains of a source text, in order.  No two of them overlap, and a
chain that stands in an argument of another one is not among them. -/
def locate (dialect : Dialect) (source : Bytes) : List Span :=
  (sightings dialect source).filterMap fun
    | .chain span => some span
    | .tooLong _ => none

end FluentLog
