import FluentLog.Diff.Script
import FluentLog.Text

namespace FluentLog

/-!
# Showing what changed

A script is shown as the hunks of a unified diff, and what all diffs of a run show is counted in
a summary.
-/

/-!
## Hunks

For printing, a script is read as *stretches*: equal lines on the one hand, and on the
other everything between two of them, where all deleted lines come before all inserted
ones.  A hunk is a run of stretches with at most three equal lines at its ends.  Equal
lines between two changes stay inside one hunk as long as there are at most six.
-/

/-- A part of a script between two neighbouring fates of lines.  In a change
the order of deletions and insertions is forgotten. -/
inductive Stretch (Line : Type) where
  | equal (lines : List Line)
  | change (deleted inserted : List Line)
  deriving DecidableEq, Repr

namespace Stretch

/-- Puts a block in front of the stretches behind it.  It becomes part of the
first one where that is of its kind. -/
def prepend (block : Block Line) (stretches : List (Stretch Line)) : List (Stretch Line) :=
  match block.kind, stretches with
  | .equal, .equal lines :: rest => .equal (block.lines ++ lines) :: rest
  | .equal, rest => .equal block.lines :: rest
  | .delete, .change deleted inserted :: rest => .change (block.lines ++ deleted) inserted :: rest
  | .delete, rest => .change block.lines [] :: rest
  | .insert, .change deleted inserted :: rest => .change deleted (block.lines ++ inserted) :: rest
  | .insert, rest => .change [] block.lines :: rest

def ofScript (script : Script Line) : List (Stretch Line) :=
  script.foldr prepend []

def deleted : Stretch Line -> List Line
  | .equal _ => []
  | .change deleted _ => deleted

def inserted : Stretch Line -> List Line
  | .equal _ => []
  | .change _ inserted => inserted

end Stretch

/-- The stretches from one list of lines to another.  Summaries count the
lines in them, and diffs show them, so the two cannot disagree. -/
def stretches [DecidableEq Line] (old new : List Line) : List (Stretch Line) :=
  Stretch.ofScript (compareLines old new).compact

/-- The number of equal lines kept around a change. -/
def contextLength : Nat := 3

/-- A run of stretches that are printed together. -/
abbrev Hunk (Line : Type) := List (Stretch Line)

namespace Hunk

/-- Shortens equal lines at the very beginning to the context of what follows. -/
def trimFirst : List (Stretch Line) -> List (Stretch Line)
  | .equal lines :: rest => .equal (lines.drop (lines.length - contextLength)) :: rest
  | stretches => stretches

/-- Shortens equal lines at the very end to the context of what precedes. -/
def trimLast : List (Stretch Line) -> List (Stretch Line)
  | [] => []
  | [.equal lines] => [.equal (lines.take contextLength)]
  | stretch :: rest => stretch :: trimLast rest

/-- The hunk that the stretches begin with and the hunks behind it.  They are
cut apart in equal lines of more than twice the context, which keep the
context at both ends. -/
def split : List (Stretch Line) -> Hunk Line × List (Hunk Line)
  | [] => ([], [])
  | .equal lines :: rest =>
      let (hunk, others) := split rest
      if 2 * contextLength < lines.length then
        ([.equal (lines.take contextLength)],
          (.equal (lines.drop (lines.length - contextLength)) :: hunk) :: others)
      else (.equal lines :: hunk, others)
  | stretch :: rest =>
      let (hunk, others) := split rest
      (stretch :: hunk, others)

/-- Whether a hunk has nothing to show.  A single run of equal lines is no
hunk. -/
def isIdle : Hunk Line -> Bool
  | [] => true
  | [.equal _] => true
  | _ => false

/-- The hunks without the last one, if that has nothing to show. -/
def dropIdleLast : List (Hunk Line) -> List (Hunk Line)
  | [] => []
  | [hunk] => if isIdle hunk then [] else [hunk]
  | hunk :: hunks => hunk :: dropIdleLast hunks

/-- The hunks of a list of stretches.  Equal lines at its ends are shortened
to the context first. -/
def ofStretches (stretches : List (Stretch Line)) : List (Hunk Line) :=
  let (hunk, others) := split (trimLast (trimFirst stretches))
  dropIdleLast (hunk :: others)

end Hunk

def hunks [DecidableEq Line] (old new : List Line) : List (Hunk Line) :=
  Hunk.ofStretches (stretches old new)

/-!
## Unified diffs

A diff of two texts shows the hunks of their lines, each line behind a sign: a minus
if it is deleted, a plus if it is inserted, a space if it is equal.  A line that has no
line end, as the last one of a text may, gets one.  Plain hunks are separated by an
empty line; a coloured diff paints its lines and leaves no space between hunks.
-/

/-- The lines of a text, with their ends: a line feed, a carriage return, or a
carriage return with a line feed.  Only the last line may be without an end,
and no line is empty. -/
def splitLines (text : Text) : List Text :=
  match text with
  | [] => []
  | '\r' :: '\n' :: rest => ['\r', '\n'] :: splitLines rest
  | character :: rest =>
      if character = '\n' ∨ character = '\r' then [character] :: splitLines rest
      else
        match splitLines rest with
        | [] => [[character]]
        | line :: lines => (character :: line) :: lines

def hasLineEnd (line : Text) : Bool :=
  line.getLast? = some '\n' || line.getLast? = some '\r'

/-- How a diff is shown. -/
inductive Colouring where
  | plain
  /-- With the colours of a terminal. -/
  | coloured
  deriving DecidableEq, Repr

namespace Colouring

def red : String := "\x1b[31m"
def green : String := "\x1b[32m"
def cyan : String := "\x1b[36m"
def reset : String := "\x1b[0m"

/-- What is written around a piece of text to paint it.  A line end in the
text is painted with it, and one that is missing is added behind the colour. -/
def tint (style : Colouring) (colour : String) (text : Text) : Text :=
  match style with
  | .plain => text
  | .coloured => colour.toList ++ text ++ reset.toList

end Colouring

namespace Diff

def signed (sign : Char) (line : Text) : Text :=
  sign :: line

/-- The line end that a line lacks, so that the next line of the diff begins
on a line of its own.  Nothing marks such a line. -/
def missingEnd (line : Text) : Text :=
  if hasLineEnd line then [] else ['\n']

def renderStretch (style : Colouring) : Stretch Text -> Text
  | .equal lines => lines.flatMap fun line => signed ' ' line ++ missingEnd line
  | .change deleted inserted =>
      (deleted.flatMap fun line =>
        style.tint Colouring.red (signed '-' line) ++ missingEnd line) ++
      inserted.flatMap fun line =>
        style.tint Colouring.green (signed '+' line) ++ missingEnd line

def renderHunk (style : Colouring) (hunk : Hunk Text) : Text :=
  hunk.flatMap (renderStretch style)

/-- The two lines that name the file.  They are there even if no hunk follows. -/
def header (style : Colouring) (path : String) : Text :=
  style.tint Colouring.cyan ("--- a/" ++ path).toList ++ '\n' ::
    style.tint Colouring.cyan ("+++ b/" ++ path).toList ++ ['\n']

/-- The diff of two texts: the header and the hunks of their lines.  Equal
texts have a diff without hunks. -/
def unified (style : Colouring) (path : String) (before after : Text) : Text :=
  let separator : Text := if style = .plain then ['\n'] else []
  let shown := (hunks (splitLines before) (splitLines after)).map (renderHunk style)
  header style path ++ (shown.intersperse separator).flatten

end Diff

/-!
## Summaries

A summary counts what a run changed: files, chains, inserted lines and deleted lines.
-/

structure Summary where
  filesChanged : Nat := 0
  chainsInlined : Nat := 0
  insertions : Nat := 0
  deletions : Nat := 0
  deriving DecidableEq, Repr

namespace Summary

/-- The counts for one file, in which `chains` chains were replaced.  The file
counts as changed if a line was inserted or deleted, whether chains were
replaced or not. -/
def ofTexts (before after : Text) (chains : Nat) : Summary :=
  let parts := stretches (splitLines before) (splitLines after)
  let insertions := (parts.flatMap fun part => part.inserted).length
  let deletions := (parts.flatMap fun part => part.deleted).length
  { filesChanged := if 0 < insertions + deletions then 1 else 0
    chainsInlined := chains, insertions, deletions }

/-- The counts of two runs together.  The run over no files is neutral. -/
def merge (first second : Summary) : Summary where
  filesChanged := first.filesChanged + second.filesChanged
  chainsInlined := first.chainsInlined + second.chainsInlined
  insertions := first.insertions + second.insertions
  deletions := first.deletions + second.deletions

def display (summary : Summary) : String :=
  toString summary.filesChanged ++ " file(s) changed, " ++
    toString summary.chainsInlined ++ " chain(s) rewritten, " ++
    toString summary.insertions ++ " insertions(+), " ++
    toString summary.deletions ++ " deletions(-)"

end Summary

end FluentLog
