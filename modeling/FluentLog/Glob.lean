import FluentLog.Text

namespace FluentLog
namespace Glob

/-!
# Globs

A glob is a pattern for relative paths.  It is read into tokens, which stand for a pattern over
bytes, and that is matched against the whole of a path.
-/

/-!
## Byte patterns

What a glob stands for is a pattern over bytes: single bytes of a set, runs of any
bytes, sequences and alternatives.  A pattern is matched against a whole text.
-/

/-- A set of bytes: some ranges, or everything but them.  A character of
several bytes puts each of them into the set. -/
structure ByteSet where
  negated : Bool
  ranges : List (UInt8 × UInt8)
  deriving DecidableEq, Repr

def ByteSet.contains (set : ByteSet) (byte : UInt8) : Bool :=
  set.negated != set.ranges.any fun (low, high) => low ≤ byte && byte ≤ high

inductive Pattern where
  /-- The empty text. -/
  | nothing
  /-- One byte of a set. -/
  | oneOf (set : ByteSet)
  /-- Any bytes at all. -/
  | run
  | sequence (first second : Pattern)
  | either (first second : Pattern)
  deriving DecidableEq, Repr

namespace Pattern

/-- Whether some rest of a text passes a test.  The text itself is tried first
and the empty rest last. -/
def anyRest (accepts : Bytes -> Bool) : Bytes -> Bool
  | [] => accepts []
  | byte :: rest => accepts (byte :: rest) || anyRest accepts rest

/-- Whether the pattern matches the beginning of a text such that the rest
passes a test.  The test is what follows the pattern, so alternatives and runs
are tried until the whole fits. -/
def matchesThen : Pattern -> Bytes -> (Bytes -> Bool) -> Bool
  | .nothing, text, accepts => accepts text
  | .oneOf _, [], _ => false
  | .oneOf set, byte :: rest, accepts => set.contains byte && accepts rest
  | .run, text, accepts => anyRest accepts text
  | .sequence first second, text, accepts =>
      first.matchesThen text fun rest => second.matchesThen rest accepts
  | .either first second, text, accepts =>
      first.matchesThen text accepts || second.matchesThen text accepts

def matchesAll (pattern : Pattern) (text : Bytes) : Bool :=
  pattern.matchesThen text List.isEmpty

def exactly (byte : UInt8) : Pattern :=
  .oneOf ⟨false, [(byte, byte)]⟩

def literal (text : Bytes) : Pattern :=
  text.foldr (fun byte pattern => .sequence (exactly byte) pattern) .nothing

def any : Pattern :=
  .oneOf ⟨true, []⟩

end Pattern

/-!
## The tokens of a glob

A question mark stands for one byte and a star for any bytes; both also match slashes.
Brackets hold a set of characters, braces hold alternatives, and a backslash takes away
the meaning of the next character.

Two stars between slashes stand for any directories, none included.  At the beginning
they stand for nothing or for directories with a slash, in the middle for a slash or for
directories between two, and at the end for a slash with anything behind it.  Anywhere
else they are two single stars.
-/

/-- A piece of a glob.  Two stars between slashes are one token with the
slashes that they take in. -/
inductive Token where
  | literal (character : Char)
  /-- A question mark. -/
  | anyByte
  /-- A single star. -/
  | anyBytes
  /-- Two stars at the beginning. -/
  | leadingDirectories
  /-- Two stars between slashes, the slashes included. -/
  | innerDirectories
  /-- Two stars at the end, with the slash before them. -/
  | trailingDirectories
  /-- A set of characters, as ranges. -/
  | set (negated : Bool) (ranges : List (Char × Char))
  | alternatives (branches : List (List Token))

/-- Why a text is no glob.  A set or a group may be left open, a group may be
closed without being open, and a backslash may have nothing behind it. -/
inductive Cause where
  | unclosedSet
  | invalidRange (low high : Char)
  | unopenedAlternatives
  | unclosedAlternatives
  | danglingBackslash
  deriving DecidableEq, Repr

def Cause.message : Cause -> String
  | .unclosedSet => "unclosed character class; missing ']'"
  | .invalidRange low high =>
      "invalid range; '" ++ String.ofList [low] ++ "' > '" ++ String.ofList [high] ++ "'"
  | .unopenedAlternatives =>
      "unopened alternate group; missing '\x7b' (maybe escape '\x7d' with '[\x7d]'?)"
  | .unclosedAlternatives =>
      "unclosed alternate group; missing '\x7d' (maybe escape '\x7b' with '[\x7b]'?)"
  | .danglingBackslash => "dangling '\\'"

/-! ### Sets of characters -/

/-- A set whose closing bracket has not been read yet.  The flags tell what
the next character means, since an exclamation mark, a bracket and a dash are
special only at some places. -/
structure OpenSet where
  negated : Bool := false
  /-- The ranges read so far, the last one first. -/
  ranges : List (Char × Char) := []
  /-- Whether nothing but the bracket has been read. -/
  isBare : Bool := true
  /-- Whether no character of the set has been read. -/
  isFresh : Bool := true
  /-- Whether a dash has been read that may join two characters to a range. -/
  inRange : Bool := false

namespace OpenSet

/-- Extends the last range up to a character.  The range must not descend. -/
def extend (set : OpenSet) (high : Char) : Except Cause OpenSet :=
  match set.ranges with
  | [] => .ok { set with ranges := [(high, high)], inRange := false }
  | (low, _) :: others =>
      if high < low then .error (.invalidRange low high)
      else .ok { set with ranges := (low, high) :: others, inRange := false }

def add (set : OpenSet) (character : Char) : OpenSet :=
  { set with
    ranges := (character, character) :: set.ranges
    isBare := false
    isFresh := false
    inRange := false }

/-- Reads a character that does not close the set.  An exclamation mark or a
caret behind the bracket negates the set.  A dash joins two characters, unless
it comes first. -/
def step (set : OpenSet) (character : Char) : Except Cause OpenSet :=
  if set.isBare ∧ (character = '!' ∨ character = '^') then
    .ok { set with negated := true, isBare := false }
  else if set.inRange then set.extend character
  else if character = '-' ∧ !set.isFresh then .ok { set with inRange := true }
  else .ok (set.add character)

/-- The token of a set that is closed.  A dash that came last stands for
itself. -/
def token (set : OpenSet) : Token :=
  .set set.negated (if set.inRange then ('-', '-') :: set.ranges else set.ranges)

end OpenSet

/-! ### Reading -/

/-- A group of alternatives that is still open: what stands before it, and the
branches that are complete, the last one first. -/
structure OpenGroup where
  before : List Token
  branches : List (List Token)

/-- What the last characters have begun.  It is completed by the next
character, or by the end of the glob. -/
inductive Pending where
  | nothing
  /-- A backslash. -/
  | backslash
  /-- A star, with the character before it. -/
  | star (previous : Option Char)
  /-- Two stars, with the character before them. -/
  | twoStars (previous : Option Char)
  | set (set : OpenSet)

/-- What has been read: the tokens of the current branch, the last one first,
the groups around it, the innermost first, the last character, and what is not
complete yet. -/
structure Reader where
  tokens : List Token := []
  groups : List OpenGroup := []
  previous : Option Char := none
  pending : Pending := .nothing

namespace Reader

def push (reader : Reader) (token : Token) : Reader :=
  { reader with tokens := token :: reader.tokens, pending := .nothing }

/-- Leaves something to be completed by the next characters. -/
def await (reader : Reader) (pending : Pending) : Reader :=
  { reader with pending := pending }

def openGroup (reader : Reader) : Reader :=
  { reader with
    tokens := []
    groups := ⟨reader.tokens, []⟩ :: reader.groups
    pending := .nothing }

/-- Reads a comma, which begins a new branch inside a group.  Elsewhere it
stands for itself. -/
def comma (reader : Reader) : Reader :=
  match reader.groups with
  | [] => reader.push (.literal ',')
  | group :: groups =>
      { reader with
        tokens := []
        groups := { group with branches := reader.tokens.reverse :: group.branches } :: groups
        pending := .nothing }

def closeGroup (reader : Reader) : Except Cause Reader :=
  match reader.groups with
  | [] => .error .unopenedAlternatives
  | group :: groups =>
      let branches := (reader.tokens.reverse :: group.branches).reverse
      .ok { reader with
        tokens := .alternatives branches :: group.before
        groups := groups
        pending := .nothing }

/-- Reads two stars with `previous` before them and `next` behind them.  The
answer says whether the slash behind them belongs to the token.  Two stars
behind a token for directories merge with it. -/
def stars (reader : Reader) (previous next : Option Char) : Reader × Bool :=
  let plain := ((reader.push .anyBytes).push .anyBytes, false)
  match reader.tokens with
  | [] =>
      if next.isNone ∨ next = some '/' then (reader.push .leadingDirectories, next.isSome)
      else plain
  | last :: tokens =>
      let inGroup := !reader.groups.isEmpty
      let isBound := previous = some '/' ||
        (inGroup && (previous = some ',' || previous = some '\x7b'))
      let endsHere := next.isNone || (inGroup && (next = some ',' || next = some '\x7d'))
      if isBound ∧ (endsHere ∨ next = some '/') then
        let merged : Token := match last with
          | .leadingDirectories => .leadingDirectories
          | .trailingDirectories => .trailingDirectories
          | _ => if endsHere then .trailingDirectories else .innerDirectories
        ({ reader with tokens := merged :: tokens, pending := .nothing }, next = some '/')
      else plain

/-- Reads a character while nothing is pending.  The special ones open or
close a group, or wait for what follows them. -/
def begin (reader : Reader) (character : Char) : Except Cause Reader :=
  match character with
  | '?' => .ok (reader.push .anyByte)
  | '[' => .ok (reader.await (.set {}))
  | '\x7b' => .ok reader.openGroup
  | '\x7d' => reader.closeGroup
  | ',' => .ok reader.comma
  | '\\' => .ok (reader.await .backslash)
  | '*' => .ok (reader.await (.star reader.previous))
  | _ => .ok (reader.push (.literal character))

def read (reader : Reader) (character : Char) : Except Cause Reader :=
  match reader.pending with
  | .nothing => reader.begin character
  | .backslash => .ok (reader.push (.literal character))
  | .star previous =>
      if character = '*' then .ok (reader.await (.twoStars previous))
      else (reader.push .anyBytes).begin character
  | .twoStars previous =>
      match reader.stars previous (some character) with
      | (reader, true) => .ok reader
      | (reader, false) => reader.begin character
  | .set set =>
      if character = ']' ∧ !set.isFresh then .ok (reader.push set.token)
      else (set.step character).map fun set => reader.await (.set set)

def step (reader : Reader) (character : Char) : Except Cause Reader :=
  (reader.read character).map fun reader => { reader with previous := some character }

/-- Completes what is pending at the end.  A star or two are complete; a set
or a backslash is not. -/
def settle (reader : Reader) : Except Cause Reader :=
  match reader.pending with
  | .nothing => .ok reader
  | .backslash => .error .danglingBackslash
  | .star _ => .ok (reader.push .anyBytes)
  | .twoStars previous => .ok (reader.stars previous none).1
  | .set _ => .error .unclosedSet

/-- The tokens of the whole glob, once everything is read. -/
def finish (reader : Reader) : Except Cause (List Token) :=
  match reader.settle with
  | .error cause => .error cause
  | .ok reader =>
      match reader.groups with
      | [] => .ok reader.tokens.reverse
      | _ => .error .unclosedAlternatives

end Reader

def tokens (glob : String) : Except Cause (List Token) :=
  match glob.toList.foldlM Reader.step {} with
  | .error cause => .error cause
  | .ok reader => reader.finish

/-!
## Globs

A glob is read into tokens, and the tokens stand for a pattern over the bytes of a
relative path.  A branch of a group that stands for nothing is left out, and so is a
group without branches.  A set holds the bytes of its characters, and a range all bytes
from the last one of its lower end to the first one of its upper end.

A glob of two stars alone matches everything.
-/

def byteRanges (range : Char × Char) : List (UInt8 × UInt8) :=
  let single (byte : UInt8) : UInt8 × UInt8 := (byte, byte)
  let low := String.utf8EncodeChar range.1
  if range.1 = range.2 then low.map single
  else
    let high := String.utf8EncodeChar range.2
    match low.getLast?, high with
    | some first, last :: others =>
        low.dropLast.map single ++ (first, last) :: others.map single
    | _, _ => []

def slash : Pattern := Pattern.literal (Utf8.ofString "/")

/-- Puts patterns behind each other.  The pattern for nothing disappears, so a
branch that stands for nothing can be told from the others. -/
def andThen : Pattern -> Pattern -> Pattern
  | .nothing, second => second
  | first, .nothing => first
  | first, second => .sequence first second

/-- The alternatives that stand for something, as one pattern.  If none does,
the group stands for nothing. -/
def oneOfBranches (branches : List Pattern) : Pattern :=
  match branches.filter (· != .nothing) with
  | [] => .nothing
  | first :: others => others.foldl .either first

mutual

def patternOfToken : Token -> Pattern
  | .literal character => (String.utf8EncodeChar character).foldr
      (fun byte pattern => andThen (Pattern.exactly byte) pattern) .nothing
  | .anyByte => Pattern.any
  | .anyBytes => .run
  | .leadingDirectories => .either .nothing (.either slash (.sequence .run slash))
  | .innerDirectories => .either slash (.sequence slash (.sequence .run slash))
  | .trailingDirectories => .sequence slash .run
  | .set negated ranges => .oneOf ⟨negated, ranges.flatMap byteRanges⟩
  | .alternatives branches => oneOfBranches (patternsOfBranches branches)

def patternOfTokens : List Token -> Pattern
  | [] => .nothing
  | token :: tokens => andThen (patternOfToken token) (patternOfTokens tokens)

def patternsOfBranches : List (List Token) -> List Pattern
  | [] => []
  | branch :: branches => patternOfTokens branch :: patternsOfBranches branches

end

/-- Why a glob cannot be used.  The message quotes the glob as it was given. -/
structure Problem where
  glob : String
  cause : Cause
  deriving DecidableEq, Repr

def Problem.message (problem : Problem) : String :=
  "error parsing glob '" ++ problem.glob ++ "': " ++ problem.cause.message

def pattern (glob : String) : Except Problem Pattern :=
  match tokens glob with
  | .error cause => .error ⟨glob, cause⟩
  | .ok [.leadingDirectories] => .ok .run
  | .ok tokens => .ok (patternOfTokens tokens)

/-- The patterns of several globs, or the first problem.  Later globs are not
looked at then. -/
def patterns : List String -> Except Problem (List Pattern)
  | [] => .ok []
  | glob :: globs =>
      match pattern glob with
      | .error problem => .error problem
      | .ok first =>
          match patterns globs with
          | .error problem => .error problem
          | .ok others => .ok (first :: others)

end Glob
end FluentLog
