import FluentLog.Proofs.Code.Tidy
import Mathlib.Data.List.Count

namespace FluentLog

/-!
# Counting arrows

Inlining a supplier call takes an arrow `->` away and brings none of its own, so a text
that was rewritten should differ from the one before.  The arrows of the whole text do not
show it, because literals are moved out of the code and behind a comment, or behind a line
end that breaks a literal, two texts may be read in quite different ways.  But line ends
are never brought in either.  So the measure of a text has two parts: the number of its
line ends, and the number of arrow heads outside literals in front of the first line end,
and of the first slash that may open a comment.  As far as there, literals are all that
has to be known.

`Sheds` says that a text has less of this measure than another, in such a way that texts
that stand side by side can be compared one by one.
-/

namespace Byte

def greater : UInt8 := 0x3E

end Byte

namespace Quoting

/-! ## Reading the first stretch of a text -/

/-- The literal around the reader after one byte.  Parentheses do not matter
to it. -/
def next (quoting : Quoting) (byte : UInt8) : Quoting :=
  (Cursor.next ⟨0, quoting⟩ byte).quoting

/-- Whether the first stretch of a text ends at a byte: at a line end, and
outside literals at a slash. -/
def endsAt (quoting : Quoting) (byte : UInt8) : Bool :=
  byte == Byte.lineFeed || (byte == Byte.slash && quoting == .none)

/-- The literal around the reader behind a text, if the first stretch does not
end in it.  Comments begin with a slash, so there are none in the stretch. -/
def behind? (quoting : Quoting) : Bytes -> Option Quoting
  | [] => some quoting
  | byte :: rest => if quoting.endsAt byte then .none else (quoting.next byte).behind? rest

/-- The number of arrow heads outside literals in the first stretch of a text. -/
def heads (quoting : Quoting) : Bytes -> Nat
  | [] => 0
  | byte :: rest =>
      if quoting.endsAt byte then 0
      else (if byte = Byte.greater ∧ quoting = .none then 1 else 0) + (quoting.next byte).heads rest

/-- Whether a text ends outside literals, if its first stretch reaches that
far. -/
def Settles (quoting : Quoting) (text : Bytes) : Prop :=
  ∀ behind ∈ quoting.behind? text, behind = .none

variable {quoting : Quoting}

theorem behind?_append (left right : Bytes) :
    quoting.behind? (left ++ right) = (quoting.behind? left).bind (behind? · right) := by
  induction left generalizing quoting with
  | nil => rfl
  | cons byte left ih =>
      rw [List.cons_append, behind?, behind?]
      split
      · rfl
      · exact ih

theorem heads_append (left right : Bytes) :
    quoting.heads (left ++ right) =
      quoting.heads left + ((quoting.behind? left).map (heads · right)).getD 0 := by
  induction left generalizing quoting with
  | nil => exact (Nat.zero_add _).symm
  | cons byte left ih =>
      rw [List.cons_append, heads, heads, behind?]
      split
      · rfl
      · rw [ih, Nat.add_assoc]

theorem behind?_eq_none_of_lineFeed {text : Bytes} (member : Byte.lineFeed ∈ text) :
    quoting.behind? text = .none := by
  induction text generalizing quoting with
  | nil => exact absurd member List.not_mem_nil
  | cons byte rest ih =>
      rw [behind?]
      rcases List.mem_cons.mp member with rfl | inRest
      · exact if_pos rfl
      · split
        · rfl
        · exact ih inRest

theorem settles_of_lineFeed {text : Bytes} (member : Byte.lineFeed ∈ text) :
    quoting.Settles text := by
  intro behind isBehind
  rw [behind?_eq_none_of_lineFeed member] at isBehind
  cases isBehind

/-! ## Scanners and cursors in the first stretch -/

theorem next_eq (cursor : Cursor) (byte : UInt8) :
    (cursor.next byte).quoting = cursor.quoting.next byte := by
  rcases cursor with ⟨depth, quoting⟩
  cases quoting with
  | none =>
      simp only [next, Cursor.next, Cursor.step]
      split
      · rfl
      · split
        · rfl
        · split <;> rfl
  | within quote escaped => rfl

/-- At a byte that does not end the first stretch only the cursor of a scanner
moves. -/
theorem step_of_not_endsAt {cursor : Cursor} {byte : UInt8}
    (goesOn : cursor.quoting.endsAt byte = false) (ahead : Option UInt8) :
    (Scanner.step ⟨cursor, .code⟩ byte ahead).2 = ⟨cursor.next byte, .code⟩ := by
  have notEnd : byte ≠ Byte.lineFeed ∧ ¬ (byte = Byte.slash ∧ cursor.quoting = .none) := by
    simpa [endsAt] using goesOn
  refine (Cursor.step_code (fun _ => notEnd.1) fun outside => ?_).1
  rw [Comment.opened?, if_neg]
  intro isSlash
  exact notEnd.2 ⟨isSlash, by simpa [Cursor.isInLiteral] using outside⟩

theorem run_of_behind? (cursor : Cursor) {text : Bytes} {behind : Quoting}
    (isBehind : cursor.quoting.behind? text = some behind) (ahead : Option UInt8) :
    Scanner.run ⟨cursor, .code⟩ ahead text = ⟨cursor.feed text, .code⟩ ∧
      (cursor.feed text).quoting = behind := by
  induction text generalizing cursor with
  | nil => exact ⟨rfl, Option.some.inj isBehind⟩
  | cons byte rest ih =>
      rw [behind?] at isBehind
      split at isBehind
      · cases isBehind
      · rename_i goesOn
        have step := step_of_not_endsAt (Bool.eq_false_iff.mpr goesOn) (rest.head?.or ahead)
        rw [← next_eq] at isBehind
        rw [Scanner.run_cons, step]
        exact ih _ isBehind

theorem settles_of_run {depth behind : Nat} {text : Bytes} {ahead : Option UInt8}
    (run : (Scanner.atRest depth).run ahead text = Scanner.atRest behind) :
    Quoting.none.Settles text := by
  intro quoting isBehind
  rcases run_of_behind? ⟨depth, .none⟩ isBehind ahead with ⟨read, same⟩
  rw [← same]
  have cursors := congrArg Scanner.cursor (read.symm.trans run)
  exact congrArg Cursor.quoting cursors

theorem settles_of_feed {text : Text} (back : Cursor.start.feedText text = .start) :
    Quoting.none.Settles (Utf8.encode text) := by
  intro quoting isBehind
  have read := (run_of_behind? .start isBehind .none).2
  rw [Cursor.feed_encode, back] at read
  exact read.symm

/-! ## Texts that are neither quoted nor commented -/

/-- Bytes that are no quotes, no slashes and no line ends leave the reader
outside literals. -/
theorem behind?_of_forall {text : Bytes} (harmless : ∀ byte ∈ text, byte ≠ Byte.doubleQuote ∧
      byte ≠ Byte.singleQuote ∧ byte ≠ Byte.slash ∧ byte ≠ Byte.lineFeed) :
    Quoting.none.behind? text = some .none ∧
      Quoting.none.heads text = text.count Byte.greater := by
  induction text with
  | nil => exact ⟨rfl, rfl⟩
  | cons byte rest ih =>
      rcases harmless byte List.mem_cons_self with ⟨notDouble, notSingle, notSlash, notLineFeed⟩
      rcases ih fun other member => harmless other (List.mem_cons_of_mem byte member) with
        ⟨behind, count⟩
      have goesOn : Quoting.none.endsAt byte = false := by simp [endsAt, notLineFeed, notSlash]
      have stays : Quoting.none.next byte = .none := by
        simp only [next, Cursor.next, Cursor.step, notDouble, notSingle, or_self, if_false]
        split
        · rfl
        · split <;> rfl
      rw [behind?, heads, goesOn, stays, List.count_cons]
      refine ⟨behind, ?_⟩
      simp only [Bool.false_eq_true, if_false, and_true, count, beq_iff_eq]
      exact Nat.add_comm _ _

/-- Whatever the literal around them, the first stretch does not end in bytes
without line ends and slashes. -/
theorem isSome_behind? {text : Bytes} (noLineFeed : Byte.lineFeed ∉ text)
    (noSlash : Byte.slash ∉ text) (quoting : Quoting) :
    (quoting.behind? text).isSome = true := by
  induction text generalizing quoting with
  | nil => rfl
  | cons byte rest ih =>
      rw [List.mem_cons, not_or] at noLineFeed noSlash
      have goesOn : quoting.endsAt byte = false := by
        simp [endsAt, Ne.symm noLineFeed.1, Ne.symm noSlash.1]
      rw [behind?, goesOn]
      exact ih noLineFeed.2 noSlash.2 _

/-- Bytes that are no quotes leave the reader inside a literal. -/
theorem behind?_ne_none_of_forall {text : Bytes} {quote : UInt8} {escaped : Bool}
    (notQuote : quote ∉ text) {behind : Quoting}
    (isBehind : (Quoting.within quote escaped).behind? text = some behind) : behind ≠ .none := by
  induction text generalizing escaped with
  | nil =>
      rw [← Option.some.inj isBehind]
      exact fun same => by cases same
  | cons byte rest ih =>
      rw [List.mem_cons, not_or] at notQuote
      rw [behind?] at isBehind
      split at isBehind
      · cases isBehind
      · have within : ∃ nowEscaped, (Quoting.within quote escaped).next byte =
            .within quote nowEscaped := by
          simp only [next, Cursor.next, Cursor.step, Ne.symm notQuote.1, if_false]
          split
          · exact ⟨_, rfl⟩
          · split <;> exact ⟨_, rfl⟩
        rcases within with ⟨nowEscaped, same⟩
        rw [same] at isBehind
        exact ih notQuote.2 isBehind

/-! ## Texts with fewer arrow heads -/

/-- Whether a text has so many arrow heads less than another in its first
stretch, and ends this stretch, or ends outside literals, where the other one
does. -/
structure Loses (quoting : Quoting) (count : Nat) (old new : Bytes) : Prop where
  heads : quoting.heads new + count ≤ quoting.heads old
  ends : quoting.behind? old = .none -> quoting.behind? new = .none
  settles : quoting.Settles old -> quoting.Settles new

namespace Loses

variable {count : Nat} {old new : Bytes}

theorem refl (quoting : Quoting) (text : Bytes) : quoting.Loses 0 text text :=
  ⟨Nat.le_refl _, id, id⟩

theorem trans {other : Nat} {newer : Bytes} (first : quoting.Loses count old new)
    (second : quoting.Loses other new newer) : quoting.Loses (count + other) old newer := by
  refine ⟨?_, fun ends => second.ends (first.ends ends),
    fun settles => second.settles (first.settles settles)⟩
  have less := first.heads
  have lesser := second.heads
  omega

theorem cons {byte : UInt8} (rest : (quoting.next byte).Loses count old new)
    (goesOn : quoting.endsAt byte = false) :
    quoting.Loses count (byte :: old) (byte :: new) := by
  have less := rest.heads
  have ends := rest.ends
  have settles := rest.settles
  constructor
  · simp only [Quoting.heads, goesOn, Bool.false_eq_true, if_false]
    omega
  · simpa only [behind?, goesOn, Bool.false_eq_true, if_false] using ends
  · simpa only [Settles, behind?, goesOn, Bool.false_eq_true, if_false] using settles

theorem of_endsAt {byte : UInt8} (ends : quoting.endsAt byte = true) :
    quoting.Loses 0 (byte :: old) (byte :: new) := by
  have stops : forall rest, quoting.behind? (byte :: rest) = .none ∧
      quoting.heads (byte :: rest) = 0 := fun rest => ⟨if_pos ends, if_pos ends⟩
  refine ⟨?_, fun _ => (stops new).1, fun _ behind isBehind => ?_⟩
  · exact Nat.le_of_eq ((stops new).2.trans (stops old).2.symm)
  · rw [(stops new).1] at isBehind
    cases isBehind

/-- Texts that stand side by side, where the first one ends outside literals. -/
theorem append {rest newRest : Bytes} (settled : quoting.Settles old)
    (left : quoting.Loses count old new) (right : Quoting.none.Loses 0 rest newRest) :
    quoting.Loses count (old ++ rest) (new ++ newRest) := by
  have less := left.heads
  have lessBehind := right.heads
  have settledNew := left.settles settled
  cases isBehind : quoting.behind? old with
  | none =>
      have endsNew := left.ends isBehind
      refine ⟨?_, fun _ => ?_, fun _ behind => ?_⟩
      · rw [heads_append, heads_append, isBehind, endsNew]
        simpa using less
      · rw [behind?_append, endsNew]
        rfl
      · rw [behind?_append, endsNew]
        exact fun member => by cases member
  | some behind =>
      have outside : behind = .none := settled behind isBehind
      subst outside
      cases isNew : quoting.behind? new with
      | none =>
          refine ⟨?_, fun _ => ?_, fun _ behind => ?_⟩
          · rw [heads_append, heads_append, isBehind, isNew]
            simp only [Option.map_none, Option.getD_none, Option.map_some, Option.getD_some]
            omega
          · rw [behind?_append, isNew]
            rfl
          · rw [behind?_append, isNew]
            exact fun member => by cases member
      | some behind =>
          have outside : behind = .none := settledNew behind isNew
          subst outside
          refine ⟨?_, ?_, ?_⟩
          · rw [heads_append, heads_append, isBehind, isNew]
            simp only [Option.map_some, Option.getD_some]
            omega
          · rw [behind?_append, behind?_append, isBehind, isNew]
            exact right.ends
          · rw [Settles, Settles, behind?_append, behind?_append, isBehind, isNew]
            exact right.settles

end Loses
end Quoting

/-- Whether a text has no more line ends than another, and if it has as many,
so many arrow heads less in its first stretch.  A text that sheds an arrow is
another text. -/
def Sheds (count : Nat) (old new : Bytes) : Prop :=
  new.count Byte.lineFeed ≤ old.count Byte.lineFeed ∧
    (new.count Byte.lineFeed = old.count Byte.lineFeed -> Quoting.none.Loses count old new)

namespace Sheds

variable {count : Nat} {old new rest newRest : Bytes}

theorem refl (text : Bytes) : Sheds 0 text text :=
  ⟨Nat.le_refl _, fun _ => .refl .none text⟩

theorem trans {other : Nat} {newer : Bytes} (first : Sheds count old new)
    (second : Sheds other new newer) : Sheds (count + other) old newer := by
  rcases first with ⟨fewer, loses⟩
  rcases second with ⟨fewerStill, losesMore⟩
  refine ⟨Nat.le_trans fewerStill fewer, fun same => ?_⟩
  exact (loses (by omega)).trans (losesMore (by omega))

/-- Texts that stand side by side, where the first one ends outside literals. -/
theorem append (settled : Quoting.none.Settles old) (left : Sheds count old new)
    (right : Sheds 0 rest newRest) : Sheds count (old ++ rest) (new ++ newRest) := by
  rcases left with ⟨fewer, loses⟩
  rcases right with ⟨fewerBehind, losesBehind⟩
  rw [Sheds, List.count_append, List.count_append]
  refine ⟨Nat.add_le_add fewer fewerBehind, fun same => ?_⟩
  exact .append settled (loses (by omega)) (losesBehind (by omega))

theorem mono (sheds : Sheds count old new) : Sheds 0 old new := by
  refine ⟨sheds.1, fun same => ?_⟩
  rcases sheds.2 same with ⟨less, ends, settles⟩
  exact ⟨by omega, ends, settles⟩

theorem ne (sheds : Sheds (count + 1) old new) : new ≠ old := by
  rintro rfl
  have less := (sheds.2 rfl).heads
  omega

end Sheds

/-! ## What is left out and what is put around a text -/

/-- Whether bytes hold no quotes and no slashes, so that they neither open nor
close a literal or a comment. -/
def IsLoose (text : Bytes) : Prop :=
  ∀ byte ∈ text, byte ≠ Byte.doubleQuote ∧ byte ≠ Byte.singleQuote ∧ byte ≠ Byte.slash

theorem IsLoose.append {left right : Bytes} (first : IsLoose left) (second : IsLoose right) :
    IsLoose (left ++ right) := by
  intro byte member
  rcases List.mem_append.mp member with inLeft | inRight
  · exact first byte inLeft
  · exact second byte inRight

theorem isLoose_encode {text : Text} (loose : ∀ character ∈ text, character ∉ ['"', '\'', '/']) :
    IsLoose (Utf8.encode text) := by
  intro byte member
  rcases List.mem_flatMap.mp member with ⟨character, isCharacter, inBytes⟩
  have notSpecial := loose character isCharacter
  simp only [List.mem_cons, List.not_mem_nil, or_false, not_or] at notSpecial
  refine ⟨?_, ?_, ?_⟩
  · rintro rfl
    exact Utf8.not_mem_encodeChar (by decide) notSpecial.1 inBytes
  · rintro rfl
    exact Utf8.not_mem_encodeChar (by decide) notSpecial.2.1 inBytes
  · rintro rfl
    exact Utf8.not_mem_encodeChar (by decide) notSpecial.2.2 inBytes

namespace IsLoose

variable {text loose : Bytes}

theorem behind?_none (isLoose : IsLoose loose) (noLineFeed : Byte.lineFeed ∉ loose) :
    Quoting.none.behind? loose = some .none ∧
      Quoting.none.heads loose = loose.count Byte.greater := by
  apply Quoting.behind?_of_forall
  intro byte member
  rcases isLoose byte member with ⟨notDouble, notSingle, notSlash⟩
  exact ⟨notDouble, notSingle, notSlash, fun same => noLineFeed (same ▸ member)⟩

theorem sheds_left (isLoose : IsLoose loose) {count : Nat}
    (enough : count ≤ loose.count Byte.greater) (text : Bytes) :
    Sheds count (loose ++ text) text := by
  rw [Sheds, List.count_append]
  refine ⟨Nat.le_add_left _ _, fun same => ?_⟩
  have noLineFeed : Byte.lineFeed ∉ loose := by
    rw [← List.count_eq_zero]
    omega
  rcases isLoose.behind?_none noLineFeed with ⟨behind, heads⟩
  refine ⟨?_, ?_, ?_⟩
  · rw [Quoting.heads_append, behind, heads, Option.map_some, Option.getD_some]
    omega
  · rw [Quoting.behind?_append, behind]
    exact id
  · rw [Quoting.Settles, Quoting.Settles, Quoting.behind?_append, behind]
    exact id

theorem sheds_right (isLoose : IsLoose loose) (text : Bytes) : Sheds 0 (text ++ loose) text := by
  rw [Sheds, List.count_append]
  refine ⟨Nat.le_add_right _ _, fun same => ?_⟩
  have noLineFeed : Byte.lineFeed ∉ loose := by
    rw [← List.count_eq_zero]
    omega
  have noSlash : Byte.slash ∉ loose := fun member => (isLoose _ member).2.2 rfl
  have reaches := Quoting.isSome_behind? noLineFeed noSlash
  refine ⟨?_, ?_, ?_⟩
  · rw [Quoting.heads_append]
    exact Nat.le_add_right _ _
  · rw [Quoting.behind?_append]
    intro ends
    cases isBehind : Quoting.none.behind? text with
    | none => rfl
    | some behind =>
        have reached := reaches behind
        rw [isBehind] at ends
        rw [show behind.behind? loose = none from ends] at reached
        cases reached
  · intro settled behind isBehind
    cases behind with
    | none => rfl
    | within quote escaped =>
        rcases Option.isSome_iff_exists.mp (reaches (.within quote escaped)) with
          ⟨reached, isReached⟩
        have whole : Quoting.none.behind? (text ++ loose) = some reached := by
          rw [Quoting.behind?_append, show Quoting.none.behind? text = _ from isBehind]
          exact isReached
        have outside := settled reached whole
        have read := (Quoting.run_of_behind? .start isBehind none).2
        have notQuote : quote ∉ loose := by
          intro member
          have notSpecial := isLoose quote member
          rcases Cursor.isProper_start.feed text quote escaped read with rfl | rfl
          · exact notSpecial.1 rfl
          · exact notSpecial.2.1 rfl
        exact absurd outside (Quoting.behind?_ne_none_of_forall notQuote isReached)

/-- Loose bytes that are no arrow heads may be put around a text. -/
theorem sheds_around {front back : Bytes} (isFront : IsLoose front) (isBack : IsLoose back)
    (noFront : Byte.lineFeed ∉ front ∧ Byte.greater ∉ front)
    (noBack : Byte.lineFeed ∉ back ∧ Byte.greater ∉ back) (text : Bytes) :
    Sheds 0 text (front ++ text ++ back) := by
  have noHeads : forall {text : Bytes} (quoting : Quoting), Byte.greater ∉ text ->
      quoting.heads text = 0 := by
    intro text
    induction text with
    | nil => exact fun _ _ => rfl
    | cons byte rest ih =>
        intro quoting noGreater
        rw [List.mem_cons, not_or] at noGreater
        have notHead : ¬ (byte = Byte.greater ∧ quoting = .none) :=
          fun isHead => noGreater.1 isHead.1.symm
        rw [Quoting.heads, ih _ noGreater.2, if_neg notHead]
        exact ite_self 0
  rcases isFront.behind?_none noFront.1 with ⟨behind, -⟩
  have sameBehind : Quoting.none.behind? (front ++ text ++ back) =
      (Quoting.none.behind? text).bind (Quoting.behind? · back) := by
    rw [Quoting.behind?_append, Quoting.behind?_append, behind, Option.bind_some]
  have sameHeads : Quoting.none.heads (front ++ text ++ back) = Quoting.none.heads text := by
    rw [Quoting.heads_append, Quoting.heads_append, noHeads _ noFront.2, behind, Option.map_some,
      Option.getD_some, Nat.zero_add]
    cases Quoting.none.behind? (front ++ text) with
    | none => rfl
    | some quoting =>
        rw [Option.map_some, Option.getD_some, noHeads quoting noBack.2]
        rfl
  refine ⟨?_, fun _ => ⟨Nat.le_of_eq sameHeads, ?_, ?_⟩⟩
  · rw [List.count_append, List.count_append, List.count_eq_zero.mpr noFront.1,
      List.count_eq_zero.mpr noBack.1]
    omega
  · intro ends
    rw [sameBehind, ends]
    rfl
  · intro settled quoting isBehind
    rw [sameBehind] at isBehind
    rcases Option.bind_eq_some_iff.mp isBehind with ⟨middle, isMiddle, reached⟩
    rw [settled middle isMiddle, (isBack.behind?_none noBack.1).1] at reached
    exact (Option.some.inj reached).symm

end IsLoose
end FluentLog
