import FluentLog.Code.Walk
import Mathlib.Tactic.SplitIfs

namespace FluentLog

/-!
# How a scanner passes over a stretch of code

A scanner that stands in code, outside literals and comments, is *at rest*.  All
that it remembers there is the depth of open parentheses.  Scans of the same text
are often started at rest at different depths, so the theorems here say what does
not depend on the depth: two scanners that agree but for it read the same bytes as
code, and a scan that closes only parentheses of its own is the same at any depth.

`closingParen?` is the scan behind an opening parenthesis.  What it passes over
closes only parentheses of its own, and the scanner is at rest in front of the
parenthesis that it finds.
-/

namespace Scanner

/-! ## Runs -/

@[simp] theorem run_nil (scanner : Scanner) (ahead : Option UInt8) :
    scanner.run ahead [] = scanner := rfl

theorem run_cons (scanner : Scanner) (ahead : Option UInt8) (byte : UInt8) (rest : Bytes) :
    scanner.run ahead (byte :: rest) =
      (scanner.step byte (rest.head?.or ahead)).2.run ahead rest := rfl

theorem run_append (scanner : Scanner) (ahead : Option UInt8) (left right : Bytes) :
    scanner.run ahead (left ++ right) =
      (scanner.run (right.head?.or ahead) left).run ahead right := by
  induction left generalizing scanner with
  | nil => rfl
  | cons byte rest ih =>
      rw [List.cons_append, run_cons, run_cons, ih, List.head?_append, Option.or_assoc]

/-! ## Scanners at rest -/

/-- The scanner in code, outside literals and comments, at a depth of open
parentheses. -/
def atRest (depth : Nat) : Scanner := ⟨⟨depth, .none⟩, .code⟩

theorem start_eq_atRest : start = atRest 0 := rfl

@[simp] theorem atRest_depth (depth : Nat) : (atRest depth).cursor.depth = depth := rfl

theorem step_code_none (depth : Nat) (byte : UInt8) (ahead : Option UInt8) :
    step ⟨⟨depth, .none⟩, .code⟩ byte ahead =
      match Comment.opened? byte ahead with
      | some comment => (none, ⟨⟨depth, .none⟩, .opener comment⟩)
      | none =>
          if byte = Byte.lineFeed then (none, atRest depth)
          else if byte = Byte.doubleQuote ∨ byte = Byte.singleQuote then
            (none, ⟨⟨depth, .within byte false⟩, .code⟩)
          else if byte = Byte.openParen then (some depth, atRest (depth + 1))
          else if byte = Byte.closeParen then (some depth, atRest (depth - 1))
          else (some depth, atRest depth) := by
  have noLiteral : (⟨⟨depth, .none⟩, .code⟩ : Scanner).opened? byte ahead =
      Comment.opened? byte ahead := rfl
  simp only [step, noLiteral, Cursor.next, Cursor.step]
  cases Comment.opened? byte ahead with
  | some comment => rfl
  | none =>
      simp only
      split_ifs <;> first | rfl | contradiction

/-- One byte inside a literal, which is never reported. -/
theorem step_code_within (depth : Nat) (quote : UInt8) (escaped : Bool) (byte : UInt8)
    (ahead : Option UInt8) :
    step ⟨⟨depth, .within quote escaped⟩, .code⟩ byte ahead =
      if byte = Byte.lineFeed then (none, atRest depth)
      else (none, ⟨(Cursor.next ⟨depth, .within quote escaped⟩ byte), .code⟩) := by
  have noComment : (⟨⟨depth, .within quote escaped⟩, .code⟩ : Scanner).opened? byte ahead =
      none := rfl
  simp only [step, noComment]
  split_ifs <;> first | rfl | contradiction

theorem eq_atRest_of_step {scanner : Scanner} {byte : UInt8} {ahead : Option UInt8}
    {depth : Nat} (reported : (scanner.step byte ahead).1 = some depth) :
    scanner = atRest depth := by
  rcases scanner with ⟨⟨openCount, quoting⟩, region⟩
  cases region with
  | code =>
      cases quoting with
      | none =>
          rw [step_code_none] at reported
          cases opened : Comment.opened? byte ahead with
          | some comment =>
              rw [opened] at reported
              cases reported
          | none =>
              simp only [opened] at reported
              split_ifs at reported <;> cases reported <;> rfl
      | within quote escaped =>
          rw [step_code_within] at reported
          split at reported <;> cases reported
  | opener comment => cases reported
  | inside comment =>
      cases comment <;> simp only [step] at reported <;> split at reported <;> cases reported
  | closer => cases reported

/-- A byte that is not reported opens and closes no parenthesis. -/
theorem depth_step_of_eq_none {scanner : Scanner} {byte : UInt8} {ahead : Option UInt8}
    (notReported : (scanner.step byte ahead).1 = none) :
    (scanner.step byte ahead).2.cursor.depth = scanner.cursor.depth := by
  rcases scanner with ⟨⟨depth, quoting⟩, region⟩
  cases region with
  | code =>
      cases quoting with
      | none =>
          rw [step_code_none] at notReported ⊢
          cases opened : Comment.opened? byte ahead with
          | some comment => rfl
          | none =>
              simp only [opened] at notReported ⊢
              split_ifs at notReported ⊢ <;> rfl
      | within quote escaped =>
          rw [step_code_within]
          split <;> rfl
  | opener comment => rfl
  | inside comment => cases comment <;> simp only [step] <;> split <;> rfl
  | closer => rfl

/-- A byte that is reported is counted if it is a parenthesis.  Where none is
open, none is closed. -/
theorem depth_step_of_eq_some {scanner : Scanner} {byte : UInt8} {ahead : Option UInt8}
    {depth : Nat} (reported : (scanner.step byte ahead).1 = some depth) :
    scanner.cursor.depth = depth ∧
      (scanner.step byte ahead).2.cursor.depth =
        if byte = Byte.openParen then depth + 1
        else if byte = Byte.closeParen then depth - 1
        else depth := by
  have isAtRest := eq_atRest_of_step reported
  subst isAtRest
  refine ⟨rfl, ?_⟩
  rw [atRest, step_code_none] at reported ⊢
  cases opened : Comment.opened? byte ahead with
  | some comment =>
      rw [opened] at reported
      cases reported
  | none =>
      simp only [opened] at reported ⊢
      split_ifs at reported ⊢ <;> rfl

/-- Whether a byte means nothing to a scanner at rest: it opens no literal and
no comment, and it is no parenthesis. -/
def isPlainByte (byte : UInt8) : Bool :=
  byte != Byte.doubleQuote && byte != Byte.singleQuote && byte != Byte.slash &&
    byte != Byte.openParen && byte != Byte.closeParen

theorem step_atRest_plain {byte : UInt8} (plain : isPlainByte byte = true) (depth : Nat)
    (ahead : Option UInt8) :
    (atRest depth).step byte ahead =
      (if byte = Byte.lineFeed then none else some depth, atRest depth) := by
  simp only [isPlainByte, Bool.and_eq_true, bne_iff_ne, ne_eq] at plain
  rcases plain with ⟨⟨⟨⟨notDouble, notSingle⟩, notSlash⟩, notOpen⟩, notClose⟩
  have noComment : Comment.opened? byte ahead = none := by
    simp [Comment.opened?, notSlash]
  rw [atRest, step_code_none, noComment]
  simp only [notDouble, notSingle, notOpen, notClose, or_self, if_false]
  split <;> rfl

theorem eq_atRest_of_dot {scanner next : Scanner} {ahead : Option UInt8} {depth : Nat}
    (read : scanner.step Byte.dot ahead = (some depth, next)) :
    scanner = atRest depth ∧ next = atRest depth := by
  have isAtRest := eq_atRest_of_step (congrArg Prod.fst read)
  rw [isAtRest, step_atRest_plain rfl] at read
  exact ⟨isAtRest, (congrArg Prod.snd read).symm⟩

theorem step_atRest_open (depth : Nat) (ahead : Option UInt8) :
    (atRest depth).step Byte.openParen ahead = (some depth, atRest (depth + 1)) := by
  rfl

theorem step_atRest_close (depth : Nat) (ahead : Option UInt8) :
    (atRest depth).step Byte.closeParen ahead = (some depth, atRest (depth - 1)) := by
  rfl

/-- Bytes that mean nothing leave a scanner at rest as it is. -/
theorem run_atRest_plain {bytes : Bytes} (plain : ∀ byte ∈ bytes, isPlainByte byte = true)
    (depth : Nat) (ahead : Option UInt8) : (atRest depth).run ahead bytes = atRest depth := by
  induction bytes with
  | nil => rfl
  | cons byte rest ih =>
      rw [run_cons, step_atRest_plain (plain byte List.mem_cons_self)]
      exact ih fun other member => plain other (List.mem_cons_of_mem byte member)

theorem step_ahead {byte : UInt8} (notSlash : byte ≠ Byte.slash) (notAsterisk : byte ≠ Byte.asterisk)
    (scanner : Scanner) (ahead other : Option UInt8) :
    scanner.step byte ahead = scanner.step byte other := by
  have noComment : forall ahead, scanner.opened? byte ahead = none := by
    intro ahead
    rw [opened?, Comment.opened?, if_neg notSlash, ite_self]
  rw [step, step, noComment ahead, noComment other]
  simp only [notAsterisk, false_and, if_false]

/-! ## Scanners that differ in depth only -/

/-- Whether two scanners stand in the same region and the same literal,
whatever the depth of parentheses around them.  They report the same bytes,
but at other depths. -/
def Agree (first second : Scanner) : Prop :=
  first.region = second.region ∧ first.cursor.quoting = second.cursor.quoting

theorem Agree.refl (scanner : Scanner) : Agree scanner scanner := ⟨rfl, rfl⟩

theorem Agree.symm {first second : Scanner} (agree : Agree first second) :
    Agree second first := ⟨agree.1.symm, agree.2.symm⟩

theorem Agree.trans {first second third : Scanner} (left : Agree first second)
    (right : Agree second third) : Agree first third :=
  ⟨left.1.trans right.1, left.2.trans right.2⟩

theorem agree_atRest (first second : Nat) : Agree (atRest first) (atRest second) := ⟨rfl, rfl⟩

theorem Agree.eq_atRest {scanner : Scanner} {depth : Nat} (agree : Agree scanner (atRest depth)) :
    scanner = atRest scanner.cursor.depth := by
  rcases scanner with ⟨⟨openCount, quoting⟩, region⟩
  rcases agree with ⟨sameRegion, sameQuoting⟩
  cases sameRegion
  cases sameQuoting
  rfl

theorem Agree.step {first second : Scanner} (agree : Agree first second) (byte : UInt8)
    (ahead : Option UInt8) :
    (first.step byte ahead).1.isSome = (second.step byte ahead).1.isSome ∧
      Agree (first.step byte ahead).2 (second.step byte ahead).2 := by
  rcases first with ⟨⟨firstDepth, quoting⟩, region⟩
  rcases second with ⟨⟨secondDepth, secondQuoting⟩, secondRegion⟩
  rcases agree with ⟨sameRegion, sameQuoting⟩
  cases sameRegion
  cases sameQuoting
  cases region with
  | code =>
      cases quoting with
      | none =>
          rw [step_code_none, step_code_none]
          cases Comment.opened? byte ahead with
          | some comment => exact ⟨rfl, rfl, rfl⟩
          | none =>
              simp only
              split_ifs <;> exact ⟨rfl, rfl, rfl⟩
      | within quote escaped =>
          rw [step_code_within, step_code_within]
          split <;> exact ⟨rfl, rfl, rfl⟩
  | opener comment => exact ⟨rfl, rfl, rfl⟩
  | inside comment =>
      cases comment <;> simp only [Scanner.step] <;> split <;> exact ⟨rfl, rfl, rfl⟩
  | closer => exact ⟨rfl, rfl, rfl⟩

theorem Agree.run {first second : Scanner} (agree : Agree first second) (ahead : Option UInt8)
    (bytes : Bytes) : Agree (first.run ahead bytes) (second.run ahead bytes) := by
  induction bytes generalizing first second with
  | nil => exact agree
  | cons byte rest ih => exact ih (agree.step byte (rest.head?.or ahead)).2

/-- The same scanner with more parentheses open around it.  Up to the first
parenthesis that closes one of these it reads the same. -/
def deepen (extra : Nat) (scanner : Scanner) : Scanner :=
  { scanner with cursor := { scanner.cursor with depth := scanner.cursor.depth + extra } }

@[simp] theorem deepen_depth (extra : Nat) (scanner : Scanner) :
    (scanner.deepen extra).cursor.depth = scanner.cursor.depth + extra := rfl

@[simp] theorem deepen_atRest (extra depth : Nat) :
    (atRest depth).deepen extra = atRest (depth + extra) := rfl

/-- Only a closing parenthesis that none of the scanner's own opens can tell a
scanner from a deeper one, because the depth does not go below zero. -/
theorem step_deepen {scanner : Scanner} {byte : UInt8} {ahead : Option UInt8}
    (own : ¬ (byte = Byte.closeParen ∧ (scanner.step byte ahead).1 = some 0)) (extra : Nat) :
    (scanner.deepen extra).step byte ahead =
      ((scanner.step byte ahead).1.map (· + extra), (scanner.step byte ahead).2.deepen extra) := by
  rcases scanner with ⟨⟨depth, quoting⟩, region⟩
  cases region with
  | code =>
      cases quoting with
      | none =>
          simp only [deepen] at own ⊢
          rw [step_code_none] at own ⊢
          rw [step_code_none]
          cases opened : Comment.opened? byte ahead with
          | some comment => rfl
          | none =>
              simp only [opened] at own ⊢
              by_cases closes : byte = Byte.closeParen
              · subst closes
                cases depth with
                | zero => exact absurd ⟨rfl, rfl⟩ own
                | succ depth =>
                    have sameDepth : depth + 1 + extra - 1 = depth + 1 - 1 + extra := by omega
                    simp [Byte.closeParen, Byte.doubleQuote, Byte.singleQuote, Byte.openParen,
                      Byte.lineFeed, atRest, sameDepth]
              · by_cases opens : byte = Byte.openParen
                · subst opens
                  have sameDepth : depth + extra + 1 = depth + 1 + extra := by omega
                  simp [Byte.doubleQuote, Byte.singleQuote, Byte.openParen, Byte.lineFeed,
                    atRest, sameDepth]
                · split_ifs <;> rfl
      | within quote escaped =>
          simp only [deepen]
          rw [step_code_within, step_code_within]
          split <;> rfl
  | opener comment => rfl
  | inside comment => cases comment <;> simp only [step, deepen] <;> split <;> rfl
  | closer => rfl

/-! ## Stretches that close only their own parentheses -/

/-- Whether every parenthesis that closes in the text is one that opens there.
A parenthesis that is left open at the end does not matter. -/
def ClosesOwn (scanner : Scanner) (ahead : Option UInt8) : Bytes -> Prop
  | [] => True
  | byte :: rest =>
      ¬ (byte = Byte.closeParen ∧ (scanner.step byte (rest.head?.or ahead)).1 = some 0) ∧
        ClosesOwn (scanner.step byte (rest.head?.or ahead)).2 ahead rest

instance decidableClosesOwn (scanner : Scanner) (ahead : Option UInt8) :
    (bytes : Bytes) -> Decidable (scanner.ClosesOwn ahead bytes)
  | [] => .isTrue True.intro
  | byte :: rest =>
      @instDecidableAnd _ _ _
        (decidableClosesOwn (scanner.step byte (rest.head?.or ahead)).2 ahead rest)

theorem ClosesOwn.append_left {scanner : Scanner} {ahead : Option UInt8} {left right : Bytes}
    (own : scanner.ClosesOwn ahead (left ++ right)) :
    scanner.ClosesOwn (right.head?.or ahead) left := by
  induction left generalizing scanner with
  | nil => exact True.intro
  | cons byte rest ih =>
      rw [List.cons_append, ClosesOwn, List.head?_append, Option.or_assoc] at own
      exact ⟨own.1, ih own.2⟩

theorem ClosesOwn.append_right {scanner : Scanner} {ahead : Option UInt8} {left right : Bytes}
    (own : scanner.ClosesOwn ahead (left ++ right)) :
    (scanner.run (right.head?.or ahead) left).ClosesOwn ahead right := by
  induction left generalizing scanner with
  | nil => exact own
  | cons byte rest ih =>
      rw [List.cons_append, ClosesOwn, List.head?_append, Option.or_assoc] at own
      exact ih own.2

theorem ClosesOwn.append {scanner : Scanner} {ahead : Option UInt8} {left right : Bytes}
    (ownLeft : scanner.ClosesOwn (right.head?.or ahead) left)
    (ownRight : (scanner.run (right.head?.or ahead) left).ClosesOwn ahead right) :
    scanner.ClosesOwn ahead (left ++ right) := by
  induction left generalizing scanner with
  | nil => exact ownRight
  | cons byte rest ih =>
      rw [List.cons_append, ClosesOwn, List.head?_append, Option.or_assoc]
      exact ⟨ownLeft.1, ih ownLeft.2 ownRight⟩

theorem closesOwn_plain {bytes : Bytes} (plain : ∀ byte ∈ bytes, isPlainByte byte = true)
    (depth : Nat) (ahead : Option UInt8) : (atRest depth).ClosesOwn ahead bytes := by
  induction bytes with
  | nil => exact True.intro
  | cons byte rest ih =>
      have isPlain := plain byte List.mem_cons_self
      rw [ClosesOwn, step_atRest_plain isPlain]
      refine ⟨?_, ih fun other member => plain other (List.mem_cons_of_mem byte member)⟩
      rintro ⟨rfl, -⟩
      exact absurd isPlain (by decide)

/-- A stretch that closes only its own parentheses is read alike at any depth. -/
theorem run_deepen {scanner : Scanner} {ahead : Option UInt8} {bytes : Bytes}
    (own : scanner.ClosesOwn ahead bytes) (extra : Nat) :
    (scanner.deepen extra).run ahead bytes = (scanner.run ahead bytes).deepen extra := by
  induction bytes generalizing scanner with
  | nil => rfl
  | cons byte rest ih =>
      rw [run_cons, run_cons, step_deepen own.1]
      exact ih own.2

/-- What a scan behind an opening parenthesis looks for. -/
def isUnmatched (point : CodeByte) : Bool :=
  point.byte = Byte.closeParen && point.depth = 0

theorem find?_isUnmatched_eq_some {scanner : Scanner} {offset : Nat} {text : Bytes}
    {point : CodeByte} (found : scanner.find? isUnmatched offset text = some point) :
    ∃ inside after, text = inside ++ Byte.closeParen :: after ∧
      point.offset = offset + inside.length ∧
      scanner.ClosesOwn (some Byte.closeParen) inside ∧
      scanner.run (some Byte.closeParen) inside = atRest 0 := by
  induction text generalizing scanner offset with
  | nil => cases found
  | cons byte rest ih =>
      have later : ¬ (byte = Byte.closeParen ∧ (scanner.step byte rest.head?).1 = some 0) ->
          (scanner.step byte rest.head?).2.find? isUnmatched (offset + 1) rest = some point ->
          ∃ inside after, byte :: rest = inside ++ Byte.closeParen :: after ∧
            point.offset = offset + inside.length ∧
            scanner.ClosesOwn (some Byte.closeParen) inside ∧
            scanner.run (some Byte.closeParen) inside = atRest 0 := by
        intro own found
        rcases ih found with ⟨inside, after, rfl, atOffset, ownRest, rest⟩
        have sameAhead : (inside ++ Byte.closeParen :: after).head? =
            inside.head?.or (some Byte.closeParen) := by
          cases inside <;> rfl
        rw [sameAhead] at own ownRest rest
        refine ⟨byte :: inside, after, rfl, ?_, ⟨own, ownRest⟩, ?_⟩
        · rw [atOffset, List.length_cons]
          omega
        · exact rest
      rw [find?] at found
      split at found
      · rename_i depth next read
        split at found
        · rename_i passed
          simp only [isUnmatched, Bool.and_eq_true, decide_eq_true_eq] at passed
          rcases passed with ⟨isClosing, isOutermost⟩
          subst isClosing isOutermost
          injection found with isPoint
          have atRestHere : scanner = atRest 0 := eq_atRest_of_step (congrArg Prod.fst read)
          exact ⟨[], rest, rfl, by rw [← isPoint]; rfl, True.intro, atRestHere⟩
        · rename_i failed
          apply later
          · rintro ⟨rfl, reported⟩
            rw [read] at reported
            injection reported with isZero
            exact failed (by simp [isUnmatched, isZero])
          · rw [read]
            exact found
      · rename_i next read
        apply later
        · rintro ⟨-, reported⟩
          rw [read] at reported
          cases reported
        · rw [read]
          exact found

theorem find?_isUnmatched_of_closesOwn {scanner : Scanner} {inside : Bytes} (after : Bytes)
    (offset : Nat) (own : scanner.ClosesOwn (some Byte.closeParen) inside)
    (rest : scanner.run (some Byte.closeParen) inside = atRest 0) :
    scanner.find? isUnmatched offset (inside ++ Byte.closeParen :: after) =
      some ⟨offset + inside.length, Byte.closeParen, 0⟩ := by
  induction inside generalizing scanner offset with
  | nil =>
      rw [run_nil] at rest
      subst rest
      rfl
  | cons byte inside ih =>
      have sameAhead : (inside ++ Byte.closeParen :: after).head? =
          inside.head?.or (some Byte.closeParen) := by
        cases inside <;> rfl
      rw [List.cons_append, find?, sameAhead]
      have later := ih (offset + 1) own.2 rest
      have sameOffset : offset + 1 + inside.length = offset + (byte :: inside).length := by
        rw [List.length_cons]
        omega
      rw [sameOffset] at later
      have notHere := own.1
      split
      · rename_i depth next read
        rw [read] at later notHere
        rw [if_neg, later]
        intro passed
        simp only [isUnmatched, Bool.and_eq_true, decide_eq_true_eq] at passed
        exact notHere ⟨passed.1, congrArg some passed.2⟩
      · rename_i next read
        rw [read] at later
        exact later

end Scanner

/-! ## What stands between parentheses -/

/-- Whether a text can stand between an opening parenthesis and the one that
closes it: it closes only parentheses of its own, and all that it opens. -/
def IsEnclosed (inside : Bytes) : Prop :=
  Scanner.start.ClosesOwn (some Byte.closeParen) inside ∧
    Scanner.start.run (some Byte.closeParen) inside = Scanner.atRest 0

instance (inside : Bytes) : Decidable (IsEnclosed inside) :=
  inferInstanceAs (Decidable (_ ∧ _))

theorem closingParen?_eq_some_iff {text : Bytes} {length : Nat} :
    closingParen? text = some length ↔
      ∃ inside after, text = inside ++ Byte.closeParen :: after ∧ length = inside.length ∧
        IsEnclosed inside := by
  constructor
  · intro found
    rcases Option.map_eq_some_iff.mp found with ⟨point, unmatched, rfl⟩
    rcases Scanner.find?_isUnmatched_eq_some unmatched with
      ⟨inside, after, same, atOffset, enclosed⟩
    exact ⟨inside, after, same, by rw [atOffset, Nat.zero_add], enclosed⟩
  · rintro ⟨inside, after, rfl, rfl, own, rest⟩
    have found := Scanner.find?_isUnmatched_of_closesOwn after 0 own rest
    rw [Nat.zero_add] at found
    exact congrArg (Option.map CodeByte.offset) found

namespace IsEnclosed

/-- The text that an opening parenthesis encloses is unique. -/
theorem unique {first second afterFirst afterSecond : Bytes} (isFirst : IsEnclosed first)
    (isSecond : IsEnclosed second)
    (same : first ++ Byte.closeParen :: afterFirst = second ++ Byte.closeParen :: afterSecond) :
    first = second := by
  have foundFirst := closingParen?_eq_some_iff.mpr ⟨first, afterFirst, rfl, rfl, isFirst⟩
  have foundSecond := closingParen?_eq_some_iff.mpr ⟨second, afterSecond, rfl, rfl, isSecond⟩
  rw [same, foundSecond] at foundFirst
  exact (List.append_inj same (Option.some.inj foundFirst).symm).1

theorem run_atRest {inside : Bytes} (enclosed : IsEnclosed inside) (depth : Nat) :
    (Scanner.atRest depth).run (some Byte.closeParen) inside = Scanner.atRest depth := by
  have deeper := Scanner.run_deepen enclosed.1 depth
  rw [enclosed.2, Scanner.start_eq_atRest, Scanner.deepen_atRest, Nat.zero_add] at deeper
  exact deeper

/-- Parentheses around an enclosed text leave a scanner at rest at its depth. -/
theorem run_parens {inside : Bytes} (enclosed : IsEnclosed inside) (depth : Nat)
    (ahead : Option UInt8) :
    (Scanner.atRest depth).run ahead (Byte.openParen :: inside ++ [Byte.closeParen]) =
      Scanner.atRest depth := by
  rw [List.cons_append, Scanner.run_cons, Scanner.step_atRest_open, Scanner.run_append]
  exact congrArg (Scanner.run · ahead [Byte.closeParen]) (enclosed.run_atRest (depth + 1))

/-- Inside an enclosed text the depth is never less than in front of it. -/
theorem le_depth {left right : Bytes} (enclosed : IsEnclosed (left ++ right)) (depth : Nat) :
    depth ≤ ((Scanner.atRest depth).run (right.head?.or (some Byte.closeParen)) left).cursor.depth := by
  have deeper := Scanner.run_deepen enclosed.1.append_left depth
  rw [Scanner.start_eq_atRest, Scanner.deepen_atRest, Nat.zero_add] at deeper
  rw [deeper, Scanner.deepen_depth]
  exact Nat.le_add_left _ _

end IsEnclosed

/-- A text whose bytes mean nothing to a scanner at rest can be enclosed. -/
theorem isEnclosed_of_plain {inside : Bytes}
    (plain : ∀ byte ∈ inside, Scanner.isPlainByte byte = true) : IsEnclosed inside := by
  refine ⟨?_, Scanner.run_atRest_plain plain 0 _⟩
  rw [Scanner.start_eq_atRest]
  exact Scanner.closesOwn_plain plain 0 _

end FluentLog
