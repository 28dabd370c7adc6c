import FluentLog.Proofs.Code.CodeBytes
import FluentLog.Proofs.Code.Tidy

namespace FluentLog

/-!
# Comments that a walk skips

The search for a comment is a cursor of its own, which looks one byte ahead and is told about
line ends.  A walk has the same two rules.  So they agree: the search finds a comment exactly
if a walk to the end of the text skips one.  Where there is none, such a cursor is all that
there is to a scanner, and the walk reports the bytes that the cursor takes for code.
-/

/-! ## A cursor that is told about line ends -/

namespace Cursor

variable {cursor : Cursor}

/-- The cursor behind a byte, told about it if it ends a line. -/
def nextInLine (cursor : Cursor) (byte : UInt8) : Cursor :=
  if byte = Byte.lineFeed then cursor.endLine else cursor.next byte

/-- The cursor behind a text, told about its line ends. -/
def feedLines (cursor : Cursor) (text : Bytes) : Cursor :=
  text.foldl nextInLine cursor

/-- Where no comment opens, a scanner in code moves its cursor by lines, and
reports a byte that is no line feed and no part of a literal. -/
theorem step_of_opensNone {byte : UInt8} {ahead : Option UInt8}
    (opensNone : Scanner.opened? ⟨cursor, .code⟩ byte ahead = none) :
    Scanner.step ⟨cursor, .code⟩ byte ahead =
      (if byte = Byte.lineFeed ∨ (cursor.step byte).1 = .literal then none else some cursor.depth,
        ⟨cursor.nextInLine byte, .code⟩) := by
  unfold nextInLine
  simp only [Scanner.step, opensNone]
  split_ifs <;> simp_all

theorem containsCommentFrom_cons (byte : UInt8) (rest : Bytes) :
    containsCommentFrom cursor (byte :: rest) =
      ((Scanner.opened? ⟨cursor, .code⟩ byte rest.head?).isSome ||
        containsCommentFrom (cursor.nextInLine byte) rest) := by
  have opened : (Scanner.opened? ⟨cursor, .code⟩ byte rest.head?).isSome =
      (!cursor.isInLiteral && (Comment.opened? byte rest.head?).isSome) := by
    rw [Scanner.opened?]
    cases cursor.isInLiteral <;> rfl
  rw [opened, containsCommentFrom, nextInLine]
  by_cases isLineFeed : byte = Byte.lineFeed
  · have opensNone : (Comment.opened? byte rest.head?).isSome = false := by
      rw [isLineFeed]
      rfl
    rw [if_pos isLineFeed, if_pos isLineFeed, opensNone, Bool.and_false, Bool.false_or]
  · rw [if_neg isLineFeed, if_neg isLineFeed]
    split
    · rename_i opens
      rw [opens, Bool.true_or]
    · rename_i opensNone
      rw [Bool.eq_false_iff.mpr opensNone, Bool.false_or]

theorem step_of_noComment {byte : UInt8} {rest : Bytes}
    (noComment : containsCommentFrom cursor (byte :: rest) = false) :
    Scanner.step ⟨cursor, .code⟩ byte rest.head? =
        (if byte = Byte.lineFeed ∨ (cursor.step byte).1 = .literal then none
          else some cursor.depth, ⟨cursor.nextInLine byte, .code⟩) ∧
      containsCommentFrom (cursor.nextInLine byte) rest = false := by
  rw [containsCommentFrom_cons, Bool.or_eq_false_iff, Option.isSome_eq_false_iff,
    Option.isNone_iff_eq_none] at noComment
  exact ⟨step_of_opensNone noComment.1, noComment.2⟩

theorem run_of_noComment {front rest : Bytes}
    (noComment : containsCommentFrom cursor (front ++ rest) = false) :
    Scanner.run ⟨cursor, .code⟩ rest.head? front = ⟨cursor.feedLines front, .code⟩ := by
  induction front generalizing cursor with
  | nil => rfl
  | cons byte front ih =>
      have read := @step_of_noComment cursor byte (front ++ rest) noComment
      rw [Scanner.run_cons, ← List.head?_append, read.1]
      exact ih read.2

/-- With no literal open at a line end, line ends make no difference. -/
theorem feedLines_of_keepsLines {front rest : Bytes}
    (noComment : containsCommentFrom cursor (front ++ rest) = false)
    (keeps : Scanner.KeepsLines ⟨cursor, .code⟩ (front ++ rest)) :
    cursor.feedLines front = cursor.feed front := by
  induction front generalizing cursor with
  | nil => rfl
  | cons byte front ih =>
      have read := @step_of_noComment cursor byte (front ++ rest) noComment
      have here : byte = Byte.lineFeed -> cursor.isInLiteral = false :=
        (Scanner.keepsLines_cons.mp keeps).1
      have behind := (Scanner.keepsLines_cons.mp keeps).2
      rw [List.append_eq, read.1] at behind
      have same : cursor.nextInLine byte = cursor.next byte := by
        unfold nextInLine
        split
        · rename_i isLineFeed
          rw [eq_of_outside (here isLineFeed), isLineFeed]
          rfl
        · rfl
      rw [same] at read behind
      rw [feed_cons, ← ih read.2 behind, ← same]
      rfl

end Cursor

/-! ## Comments -/

/-- The offsets of the comments that a scanner comes to in a text that begins
at `offset`. -/
def Scanner.comments (scanner : Scanner) (offset : Nat) : Bytes -> List Nat
  | [] => []
  | byte :: rest =>
      let later := comments (scanner.step byte rest.head?).2 (offset + 1) rest
      if scanner.region = .code ∧ (scanner.opened? byte rest.head?).isSome then offset :: later
      else later

/-- The offsets of the comments that a walk skips on the way to its end.  It
skips none that begins at or behind its bound. -/
def Walk.comments (walk : Walk) : List Nat :=
  (walk.scanner.comments walk.offset walk.rest).filter (· < walk.bound)

theorem Scanner.lt_of_mem_comments {scanner : Scanner} {offset start : Nat} {text : Bytes}
    (member : start ∈ scanner.comments offset text) : start < offset + text.length := by
  induction text generalizing scanner offset with
  | nil => cases member
  | cons byte rest ih =>
      rw [comments] at member
      rw [List.length_cons]
      split at member
      · rcases List.mem_cons.mp member with rfl | isLater
        · omega
        · have behind := ih isLater
          omega
      · have behind := ih member
        omega

theorem Walk.comments_start (text : Bytes) :
    (start text 0).comments = Scanner.start.comments 0 text := by
  apply List.filter_eq_self.mpr
  intro offset member
  have within : offset < 0 + text.length := Scanner.lt_of_mem_comments member
  rw [Nat.zero_add] at within
  exact decide_eq_true within

/-- The search finds a comment exactly if a scanner in code comes to one. -/
theorem containsCommentFrom_iff (cursor : Cursor) (offset : Nat) (text : Bytes) :
    containsCommentFrom cursor text = true ↔
      Scanner.comments ⟨cursor, .code⟩ offset text ≠ [] := by
  induction text generalizing cursor offset with
  | nil => exact ⟨fun found => absurd found Bool.false_ne_true, fun some => absurd rfl some⟩
  | cons byte rest ih =>
      rw [Cursor.containsCommentFrom_cons, Scanner.comments]
      cases opened : Scanner.opened? ⟨cursor, .code⟩ byte rest.head? with
      | none =>
          simp only [Cursor.step_of_opensNone opened]
          exact ih (cursor.nextInLine byte) (offset + 1)
      | some comment => exact iff_of_true rfl (List.cons_ne_nil _ _)

/-! ## Code without comments -/

/-- The bytes other than line feeds that a cursor, told about line ends, takes
for no part of a literal, in a text that begins at `offset`. -/
def Cursor.codeBytes (cursor : Cursor) (offset : Nat) : Bytes -> List CodeByte
  | [] => []
  | byte :: rest =>
      let later := codeBytes (cursor.nextInLine byte) (offset + 1) rest
      if byte = Byte.lineFeed ∨ (cursor.step byte).1 = .literal then later
      else ⟨offset, byte, cursor.depth⟩ :: later

theorem codeBytes_of_noComment {cursor : Cursor} {text : Bytes}
    (noComment : containsCommentFrom cursor text = false) (offset : Nat) :
    Scanner.codeBytes ⟨cursor, .code⟩ offset text = cursor.codeBytes offset text := by
  induction text generalizing cursor offset with
  | nil => rfl
  | cons byte rest ih =>
      rcases Cursor.step_of_noComment noComment with ⟨read, noneBehind⟩
      rw [Scanner.codeBytes_cons, read, ih noneBehind, Cursor.codeBytes]
      split <;> rfl

/-- A text has a comment exactly if a walk over it skips one, and the walk
over a text without comments reports what a cursor, told about line ends,
takes for code. -/
theorem hasComment_agrees_with_walk (text : Bytes) :
    (hasComment text = true ↔ (Walk.start text 0).comments ≠ []) ∧
      (hasComment text = false ->
        (Walk.start text 0).remaining.1 = Cursor.start.codeBytes 0 text) := by
  constructor
  · rw [Walk.comments_start]
    exact containsCommentFrom_iff .start 0 text
  · intro noComment
    rw [Walk.remaining_start, List.drop_zero]
    exact codeBytes_of_noComment noComment 0

/-- Slashes in literals and in front of an asterisk that a stray quote hides
are no comment, and one opens at the very end of a text behind a line end that
drops a stray quote. -/
theorem hasComment_agrees_with_walk_strayQuote :
    let hidden := Utf8.ofString "f(\"//\\\"/*\", a / b) ' /*\n)"
    let atEnd := Utf8.ofString "'\n/*"
    hasComment hidden = false ∧
      (Walk.start hidden 0).remaining.1 = Cursor.start.codeBytes 0 hidden ∧
      hasComment atEnd = true ∧ (Walk.start atEnd 0).comments ≠ [] := by
  intro hidden atEnd
  have noComment : hasComment hidden = false := by decide +kernel
  have isFound : hasComment atEnd = true := by decide +kernel
  exact ⟨noComment, (hasComment_agrees_with_walk hidden).2 noComment, isFound,
    (hasComment_agrees_with_walk atEnd).1.mp isFound⟩

end FluentLog
