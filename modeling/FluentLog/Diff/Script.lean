namespace FluentLog

/-!
# Comparing two lists of lines

Two texts are compared by their lines.  The result is a script that makes the one of the other,
with as few deleted and inserted lines as the search finds, and it is compacted afterwards.
-/

/-!
## Edit scripts

A script describes how one list of lines becomes another.  It is a list of blocks:
lines both have, lines only the old one has, and lines only the new one has.
`Script.old` and `Script.new` read the two lists off it.
-/

/-- What happens to the lines of a block. -/
inductive BlockKind where
  | equal
  | delete
  | insert
  deriving DecidableEq, Repr

/-- Lines that are next to each other and have the same fate.  A comparison
makes no blocks without lines, but compacting may. -/
structure Block (Line : Type) where
  kind : BlockKind
  lines : List Line
  deriving DecidableEq, Repr

/-- How one list of lines becomes another, block by block.  Neighbouring
blocks may be of one kind. -/
abbrev Script (Line : Type) := List (Block Line)

namespace Block

def old (block : Block Line) : List Line :=
  match block.kind with
  | .insert => []
  | _ => block.lines

def new (block : Block Line) : List Line :=
  match block.kind with
  | .delete => []
  | _ => block.lines

/-- The block as a script.  A block without lines is left out. -/
def script (block : Block Line) : Script Line :=
  if block.lines.isEmpty then [] else [block]

end Block

namespace Script

def old (script : Script Line) : List Line :=
  script.flatMap Block.old

def new (script : Script Line) : List Line :=
  script.flatMap Block.new

end Script

/-! ### What two lists have in common -/

/-- The lines that both lists begin with, as many as there are.  They are
never part of a change. -/
def commonPrefix [DecidableEq Line] : List Line -> List Line -> List Line
  | first :: old, second :: new => if first = second then first :: commonPrefix old new else []
  | _, _ => []

def commonSuffix [DecidableEq Line] (old new : List Line) : List Line :=
  (commonPrefix old.reverse new.reverse).reverse

/-!
## Where to cut a comparison in two

Two lists are compared by a path that goes from their beginnings to their ends.  A
step along the path drops a line of the old list or of the new one, or passes over a
line that both have.  The path with the fewest drops is searched from both ends at
once.  After `d` rounds a *frontier* holds, for each diagonal `d, d - 2, …, -d`, how
many old lines can be passed with `d` drops; a diagonal is the number of old lines
less the number of new lines passed.

The two searches meet when their frontiers overlap on a diagonal.  The point where
the last stretch of common lines began is where the comparison is cut.
-/

namespace Frontier

/-- Where all diagonals but the first begin in the next round, below a
diagonal of the last one that came as far as `above`. -/
def startsBelow (above : Nat) : List Nat -> List Nat
  | [] => [above]
  | below :: rest => (if below < above then above else below + 1) :: startsBelow below rest

/-- Where the frontier begins in the next round, before common lines are
passed.  The outermost diagonals come from one neighbour only; between two
neighbours the one that has come further is taken, and of equal ones the one
that drops an old line. -/
def starts : List Nat -> List Nat
  | [] => [0]
  | first :: rest => (first + 1) :: startsBelow first rest

/-- The diagonals of a round, in falling order. -/
def diagonals (round : Nat) : List Int :=
  (List.range (round + 1)).map fun (index : Nat) => (round : Int) - 2 * (index : Int)

/-- Passes over common lines from a point of a diagonal.  A point in front of
the first new line, which a diagonal may begin with, stays where it is. -/
def advance [DecidableEq Line] (old new : List Line) (diagonal : Int) (passed : Nat) : Nat :=
  if diagonal ≤ passed then
    passed +
      (commonPrefix (old.drop passed) (new.drop ((passed : Int) - diagonal).toNat)).length
  else passed

/-- The next frontier: the diagonals with their points before and behind the
common lines.  Both points are kept, since the cut is made before the last of
these lines. -/
def extend [DecidableEq Line] (old new : List Line) (round : Nat) (previous : List Nat) :
    List (Int × Nat × Nat) :=
  (diagonals round).zipWith (fun diagonal passed =>
    (diagonal, passed, advance old new diagonal passed)) (starts previous)

/-- Whether a point of a diagonal lies on or beyond the frontier that comes
from the other side, whose diagonals are counted from there.  `length` is that
of the old list. -/
def meets (length round : Nat) (frontier : List Nat) (diagonal : Int) (passed : Nat) : Bool :=
  diagonal ≤ round &&
    (frontier[(((round : Int) - diagonal) / 2).toNat]?).any fun other => length ≤ passed + other

end Frontier

/-- Searches for the cut, with `rounds` rounds left.  `front` and `back` are
the frontiers from the beginnings and from the ends after the rounds before
`round`.  When the difference of the lengths is odd the frontiers meet in the
search from the beginnings, otherwise in the one from the ends.  The answer
says how many lines of either list lie in front of the cut. -/
def searchCut [DecidableEq Line] (old new : List Line) (round : Nat) (front back : List Nat) :
    Nat -> Option (Int × Int)
  | 0 => none
  | rounds + 1 =>
      let difference : Int := (old.length : Int) - new.length
      let forward := Frontier.extend old new round front
      let front := forward.map fun (_, _, passed) => passed
      let backward := Frontier.extend old.reverse new.reverse round back
      let fromFront := forward.findSome? fun (diagonal, start, passed) =>
        if difference % 2 = 1 ∧ (diagonal - difference).natAbs < round ∧
            Frontier.meets old.length (round - 1) back (difference - diagonal) passed then
          some ((start : Int), (start : Int) - diagonal)
        else none
      let fromBack := backward.findSome? fun (diagonal, _, passed) =>
        if difference % 2 = 0 ∧ (diagonal - difference).natAbs ≤ round ∧
            Frontier.meets old.length round front (difference - diagonal) passed then
          some ((old.length : Int) - passed, (new.length : Int) - (passed - diagonal))
        else none
      match fromFront.or fromBack with
      | some cut => some cut
      | none =>
          searchCut old new (round + 1) front (backward.map fun (_, _, passed) => passed) rounds

/-- Where a comparison of two lists is cut in two: how many lines of either
list lie in front of the cut.  Only a cut that leaves less to compare on both
sides counts. -/
def cut? [DecidableEq Line] (old new : List Line) : Option (Nat × Nat) := do
  let (left, right) <-
    searchCut old new 0 [] [] ((old.length + new.length + 1) / 2 + 1)
  if 0 ≤ left ∧ left ≤ old.length ∧ 0 ≤ right ∧ right ≤ new.length ∧
      0 < left + right ∧ left + right < old.length + new.length then
    some (left.toNat, right.toNat)
  else none

theorem cut?_bounds [DecidableEq Line] {old new : List Line} {cut : Nat × Nat}
    (found : cut? old new = some cut) :
    cut.1 ≤ old.length ∧ cut.2 ≤ new.length ∧ 0 < cut.1 + cut.2 ∧
      cut.1 + cut.2 < old.length + new.length := by
  simp only [cut?, Option.bind_eq_bind, Option.bind_eq_some_iff] at found
  obtain ⟨⟨left, right⟩, _, found⟩ := found
  split at found
  · cases found
    omega
  · cases found

/-!
## Comparing two lists of lines

What both lists begin and end with is equal.  What is left of one of them, when
nothing is left of the other, is deleted or inserted.  Otherwise the comparison is cut
in two, and the parts are compared on their own.
-/

/-- A script from one list to another.  Its blocks are those of the cuts, and
blocks of one kind may be neighbours.  If no cut is found, all that is left of
the old list is deleted and all that is left of the new one inserted. -/
def compareLines [DecidableEq Line] (old new : List Line) : Script Line :=
  let head := commonPrefix old new
  let oldRest := old.drop head.length
  let newRest := new.drop head.length
  let tail := commonSuffix oldRest newRest
  let oldCore := oldRest.take (oldRest.length - tail.length)
  let newCore := newRest.take (newRest.length - tail.length)
  let core : Script Line :=
    if newCore.isEmpty then Block.script ⟨.delete, oldCore⟩
    else if oldCore.isEmpty then Block.script ⟨.insert, newCore⟩
    else
      match _found : cut? oldCore newCore with
      | some (left, right) =>
          compareLines (oldCore.take left) (newCore.take right) ++
            compareLines (oldCore.drop left) (newCore.drop right)
      | none => [⟨.delete, oldCore⟩, ⟨.insert, newCore⟩]
  Block.script ⟨.equal, head⟩ ++ core ++ Block.script ⟨.equal, tail⟩
termination_by old.length + new.length
decreasing_by
  all_goals
    have bounds := cut?_bounds _found
    have oldLength : oldCore.length ≤ old.length := by
      simp only [oldCore, oldRest, List.length_take, List.length_drop]; omega
    have newLength : newCore.length ≤ new.length := by
      simp only [newCore, newRest, List.length_take, List.length_drop]; omega
    simp only [List.length_take, List.length_drop]
    omega

/-!
## Compacting a script

A deletion or an insertion can be moved past its neighbours without changing what the
script does, so that blocks of one kind come together.  First every deletion is moved
up as far as it goes and then down as far as it goes, then every insertion.

Two neighbours of one kind merge, and a deletion and an insertion change places.  An
insertion moves past equal lines as far as they are the lines it inserts: inserting
`b s` behind `a s` does the same as inserting `s b` behind `a`, with `s` equal behind
it.  A deletion never moves past equal lines.
-/

/-- A script with one of its blocks in focus.  The blocks before it are in
reverse, so that the block moves by one step on either list. -/
structure Focus (Line : Type) where
  before : Script Line
  block : Block Line
  after : Script Line

namespace Script

def size : Script Line -> Nat
  | [] => 0
  | block :: script => block.lines.length + 1 + size script

@[simp] theorem size_cons (block : Block Line) (script : Script Line) :
    size (block :: script) = block.lines.length + 1 + size script := rfl

def prependEqual (lines : List Line) : Script Line -> Script Line
  | ⟨.equal, following⟩ :: script => ⟨.equal, lines ++ following⟩ :: script
  | script => ⟨.equal, lines⟩ :: script

/-- The reversed script with equal lines put at the end of what it stands for. -/
def appendEqualReversed (lines : List Line) : Script Line -> Script Line
  | ⟨.equal, preceding⟩ :: script => ⟨.equal, preceding ++ lines⟩ :: script
  | script => ⟨.equal, lines⟩ :: script

end Script

namespace Focus

/-- How many lines at the end of equal lines the block can be moved in front
of.  A deletion does not move past equal lines at all. -/
def movableUp [DecidableEq Line] (block : Block Line) (lines : List Line) : Nat :=
  if block.kind = .insert then (commonSuffix lines block.lines).length else 0

/-- How many lines at the beginning of equal lines the block can be moved
behind. -/
def movableDown [DecidableEq Line] (block : Block Line) (lines : List Line) : Nat :=
  if block.kind = .insert then (commonPrefix lines block.lines).length else 0

/-- Moves the block in focus up as far as it goes.  The lines that it is moved
past become equal lines behind it, and blocks of its own kind that it meets
become part of it. -/
def up [DecidableEq Line] (block : Block Line) (after : Script Line) :
    Script Line -> Focus Line
  | [] => ⟨[], block, after⟩
  | previous :: before =>
      if previous.kind = block.kind then
        up ⟨block.kind, previous.lines ++ block.lines⟩ after before
      else if previous.kind ≠ .equal then
        up block (previous :: after) before
      else
        let count := movableUp block previous.lines
        if previous.lines.length ≤ count then
          up ⟨block.kind, previous.lines ++ block.lines.take (block.lines.length - count)⟩
            (if previous.lines.isEmpty then after else Script.prependEqual previous.lines after)
            before
        else if count = 0 then ⟨previous :: before, block, after⟩
        else
          let kept := previous.lines.take (previous.lines.length - count)
          let moved := previous.lines.drop (previous.lines.length - count)
          up ⟨block.kind, moved ++ block.lines.take (block.lines.length - count)⟩
            (Script.prependEqual moved after) (⟨.equal, kept⟩ :: before)
termination_by before => Script.size before
decreasing_by all_goals (simp only [Script.size_cons, List.length_take]; omega)

/-- Moves the block in focus down as far as it goes, as `up` does in the other
direction. -/
def down [DecidableEq Line] (before : Script Line) (block : Block Line) :
    Script Line -> Focus Line
  | [] => ⟨before, block, []⟩
  | following :: after =>
      if following.kind = block.kind then
        down before ⟨block.kind, block.lines ++ following.lines⟩ after
      else if following.kind ≠ .equal then
        down (following :: before) block after
      else
        let count := movableDown block following.lines
        if following.lines.length ≤ count then
          down
            (if following.lines.isEmpty then before
              else Script.appendEqualReversed following.lines before)
            ⟨block.kind, block.lines.drop count ++ following.lines⟩ after
        else if count = 0 then ⟨before, block, following :: after⟩
        else
          let moved := following.lines.take count
          down (Script.appendEqualReversed moved before)
            ⟨block.kind, block.lines.drop count ++ moved⟩
            (⟨.equal, following.lines.drop count⟩ :: after)
termination_by after => Script.size after
decreasing_by all_goals (simp only [Script.size_cons, List.length_drop]; omega)

end Focus

namespace Script

/-- Moves every block of one kind, from the first to the last.  `before` holds
the blocks that are done with, in reverse.  A block that was moved leaves no
more behind it than there was, so `steps` need not exceed the size of the
script. -/
def compactFrom [DecidableEq Line] (kind : BlockKind) (before : Script Line) :
    Nat -> Script Line -> Script Line
  | 0, after => before.reverse ++ after
  | _, [] => before.reverse
  | steps + 1, block :: after =>
      if block.kind = kind then
        let raised := Focus.up block after before
        let lowered := Focus.down raised.before raised.block raised.after
        compactFrom kind (lowered.block :: lowered.before) steps lowered.after
      else compactFrom kind (block :: before) steps after

def compactKind [DecidableEq Line] (kind : BlockKind) (script : Script Line) : Script Line :=
  compactFrom kind [] script.size script

/-- The script with all deletions and then all insertions moved.  It stands
for the same two lists as before. -/
def compact [DecidableEq Line] (script : Script Line) : Script Line :=
  compactKind .insert (compactKind .delete script)

end Script

end FluentLog
