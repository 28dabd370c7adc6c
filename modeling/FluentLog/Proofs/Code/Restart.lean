import FluentLog.Proofs.Code.CodeBytes

namespace FluentLog

/-!
# Walks that are started again or moved

Walks are started in the middle of a text, where no literal and no comment is open, and they
are moved behind calls that need not be read.  Neither shows in what they report.

A walk that is started again knows nothing of the parentheses that are open around it.  So it
reports the same bytes as a walk that comes there from the start of the text, at lower depths,
as long as no parenthesis closes that it has not seen.  At the first such parenthesis the search
for a closing one ends.

A call leaves the depth as it was at its dot.  So a walk that is moved from there to behind the
call has its scanner where it would be if it had read the call.
-/

/-! ## Parentheses among code bytes -/

namespace CodeByte

def isOpening (point : CodeByte) : Bool :=
  point.byte = Byte.openParen

def isClosing (point : CodeByte) : Bool :=
  point.byte = Byte.closeParen

/-- The same code byte with more parentheses open around it. -/
def deepen (extra : Nat) (point : CodeByte) : CodeByte :=
  { point with depth := point.depth + extra }

/-- Whether code bytes close only parentheses that they open: in each front of
them no more of them close than open. -/
def CloseOwn (points : List CodeByte) : Prop :=
  forall front, front <+: points -> front.countP isClosing ≤ front.countP isOpening

/-- Whether what a walk reports that was started again is what another one
goes on to report, which has more parentheses open around it, up to and
including the first closing parenthesis that is unmatched since.  It stands at
the offset given.  If there is none, the two report the same to the end. -/
inductive Retraces (extra : Nat) (restarted later : List CodeByte) : Option Nat -> Prop
  | toEnd (own : CloseOwn restarted) (same : later = restarted.map (deepen extra)) :
      Retraces extra restarted later none
  | upTo {inside others after : List CodeByte} {point : CodeByte}
      (isRestarted : restarted = inside ++ point :: others)
      (isLater : later = (inside ++ [point]).map (deepen extra) ++ after)
      (own : CloseOwn inside) (unmatched : ¬ CloseOwn (inside ++ [point])) :
      Retraces extra restarted later (some point.offset)

end CodeByte

/-! ## Scanners at two depths -/

namespace Scanner

open CodeByte

variable {scanner : Scanner} {offset : Nat} {text : Bytes}

/-- A code byte that is matched moves the depth by one if it is a parenthesis. -/
theorem depth_step_of_matched {byte : UInt8} {ahead : Option UInt8} {depth : Nat}
    (reported : (scanner.step byte ahead).1 = some depth)
    (matched : isUnmatched ⟨offset, byte, depth⟩ = false) :
    (scanner.step byte ahead).2.cursor.depth +
        (if isClosing ⟨offset, byte, depth⟩ then 1 else 0) =
      depth + (if isOpening ⟨offset, byte, depth⟩ then 1 else 0) := by
  rw [(depth_step_of_eq_some reported).2]
  simp only [isClosing, isOpening, decide_eq_true_eq]
  by_cases opens : byte = Byte.openParen
  · have noClosing : byte ≠ Byte.closeParen := by
      rw [opens]
      decide
    rw [if_pos opens, if_neg noClosing, if_pos opens]
  · by_cases closes : byte = Byte.closeParen
    · have inside : depth ≠ 0 := by simpa [isUnmatched, closes] using matched
      rw [if_neg opens, if_pos closes, if_pos closes, if_neg opens]
      omega
    · rw [if_neg opens, if_neg closes, if_neg closes, if_neg opens]

/-- As long as no parenthesis is unmatched, the depth in front of a code byte
is the number of those that were opened and not closed. -/
theorem depth_add_countP {front rest : List CodeByte} {point : CodeByte}
    (split : scanner.codeBytes offset text = front ++ point :: rest)
    (matched : ∀ other ∈ front, isUnmatched other = false) :
    point.depth + front.countP isClosing = scanner.cursor.depth + front.countP isOpening := by
  induction text generalizing scanner offset front with
  | nil => exact absurd split (by simp [codeBytes])
  | cons byte bytes ih =>
      rw [codeBytes_cons] at split
      cases reported : (scanner.step byte bytes.head?).1 with
      | none =>
          rw [reported] at split
          rw [← depth_step_of_eq_none reported]
          exact ih split matched
      | some depth =>
          rw [reported] at split
          rw [(depth_step_of_eq_some reported).1]
          cases front with
          | nil =>
              rw [← (List.cons.inj split).1]
              rfl
          | cons first front =>
              rcases List.cons.inj split with ⟨rfl, splitBehind⟩
              rcases List.forall_mem_cons.mp matched with ⟨here, matchedBehind⟩
              have moved := depth_step_of_matched reported here
              have behind := ih splitBehind matchedBehind
              rw [List.countP_cons, List.countP_cons]
              omega

theorem closeOwn_of_matched {points rest : List CodeByte}
    (split : start.codeBytes offset text = points ++ rest)
    (matched : ∀ point ∈ points, isUnmatched point = false) : CloseOwn points := by
  intro front isPrefix
  rcases List.eq_nil_or_concat front with rfl | ⟨others, final, isFront⟩
  · exact Nat.le_refl 0
  · rw [List.concat_eq_append] at isFront
    subst isFront
    rcases isPrefix with ⟨more, rfl⟩
    have inSplit : start.codeBytes offset text = others ++ final :: (more ++ rest) := by
      rw [split]
      simp
    have isDepth := depth_add_countP inSplit fun point member => matched point (by simp [member])
    have atStart : start.cursor.depth = 0 := rfl
    have finalMatched := matched final (by simp)
    rw [List.countP_append, List.countP_append, List.countP_singleton, List.countP_singleton]
    by_cases closes : final.isClosing = true
    · have isClosing : final.byte = Byte.closeParen := of_decide_eq_true closes
      have inside : final.depth ≠ 0 := by simpa [isUnmatched, isClosing] using finalMatched
      rw [if_pos closes]
      omega
    · rw [if_neg closes]
      omega

/-- The first unmatched code byte closes a parenthesis that none in front of
it opens. -/
theorem not_closeOwn_of_unmatched {inside others : List CodeByte} {point : CodeByte}
    (split : start.codeBytes offset text = inside ++ point :: others)
    (matched : ∀ other ∈ inside, isUnmatched other = false)
    (unmatched : isUnmatched point = true) : ¬ CloseOwn (inside ++ [point]) := by
  intro own
  rw [isUnmatched, Bool.and_eq_true, decide_eq_true_eq, decide_eq_true_eq] at unmatched
  have closes : point.isClosing = true := decide_eq_true unmatched.1
  have notOpening : point.isOpening = false := by
    rw [isOpening, unmatched.1]
    rfl
  have isDepth := depth_add_countP split matched
  have atStart : start.cursor.depth = 0 := rfl
  have counted := own _ (List.prefix_refl _)
  rw [List.countP_append, List.countP_append, List.countP_singleton, List.countP_singleton,
    closes, notOpening] at counted
  simp only [if_true, Bool.false_eq_true, if_false] at counted
  omega

/-- What a scanner reports of a byte is matched, unless the byte closes a
parenthesis where none is open. -/
theorem matched_of_reported {byte : UInt8} {ahead : Option UInt8}
    (matched : ¬ (byte = Byte.closeParen ∧ (scanner.step byte ahead).1 = some 0)) :
    ∀ point ∈ ((scanner.step byte ahead).1.map (CodeByte.mk offset byte)).toList,
      isUnmatched point = false := by
  intro point member
  rcases Option.map_eq_some_iff.mp (Option.mem_toList.mp member) with ⟨depth, reported, rfl⟩
  rw [Bool.eq_false_iff, isUnmatched, ne_eq, Bool.and_eq_true, decide_eq_true_eq,
    decide_eq_true_eq]
  rintro ⟨closes, outside⟩
  exact matched ⟨closes, outside ▸ reported⟩

/-- A deeper scanner reports such a byte as deeper, and goes on as a deeper
scanner. -/
theorem codeBytes_deepen_cons {byte : UInt8} {rest : Bytes}
    (matched : ¬ (byte = Byte.closeParen ∧ (scanner.step byte rest.head?).1 = some 0))
    (extra : Nat) :
    (scanner.deepen extra).codeBytes offset (byte :: rest) =
      ((scanner.step byte rest.head?).1.map (CodeByte.mk offset byte)).toList.map
          (CodeByte.deepen extra) ++
        ((scanner.step byte rest.head?).2.deepen extra).codeBytes (offset + 1) rest := by
  rw [codeBytes_cons, step_deepen matched extra]
  cases (scanner.step byte rest.head?).1 <;> rfl

/-- A scanner and a deeper one report the same bytes up to the first that is
unmatched.  Behind that one their depths differ, since a depth of zero stays
zero. -/
theorem codeBytes_deepen (scanner : Scanner) (offset : Nat) (text : Bytes) (extra : Nat) :
    ((∀ point ∈ scanner.codeBytes offset text, isUnmatched point = false) ∧
      (scanner.deepen extra).codeBytes offset text =
        (scanner.codeBytes offset text).map (CodeByte.deepen extra)) ∨
    ∃ inside point others after,
      scanner.codeBytes offset text = inside ++ point :: others ∧
      (scanner.deepen extra).codeBytes offset text =
        (inside ++ [point]).map (CodeByte.deepen extra) ++ after ∧
      (∀ other ∈ inside, isUnmatched other = false) ∧ isUnmatched point = true := by
  induction text generalizing scanner offset with
  | nil => exact .inl ⟨List.forall_mem_nil _, rfl⟩
  | cons byte rest ih =>
      by_cases unmatched : byte = Byte.closeParen ∧ (scanner.step byte rest.head?).1 = some 0
      · -- Such a scanner is at rest, and the parenthesis is the first byte that it reports.
        rcases unmatched with ⟨rfl, reported⟩
        have isAtRest := eq_atRest_of_step reported
        subst isAtRest
        refine .inr ⟨[], ⟨offset, Byte.closeParen, 0⟩, (atRest 0).codeBytes (offset + 1) rest,
          (atRest (extra - 1)).codeBytes (offset + 1) rest, ?_, ?_, List.forall_mem_nil _, rfl⟩
        · rw [codeBytes_cons, step_atRest_close]
          rfl
        · rw [codeBytes_cons, deepen_atRest, Nat.zero_add, step_atRest_close]
          exact congrArg (CodeByte.mk offset Byte.closeParen · :: _) (Nat.zero_add extra).symm
      · have matchedHere := @matched_of_reported scanner offset _ _ unmatched
        rw [codeBytes_cons, codeBytes_deepen_cons unmatched]
        rcases ih (scanner.step byte rest.head?).2 (offset + 1) with
          ⟨matched, same⟩ | ⟨inside, point, others, after, isOwn, isDeeper, matched, isFirst⟩
        · refine .inl ⟨List.forall_mem_append.mpr ⟨matchedHere, matched⟩, ?_⟩
          rw [same, List.map_append]
        · refine .inr ⟨_ ++ inside, point, others, after, ?_, ?_,
            List.forall_mem_append.mpr ⟨matchedHere, matched⟩, isFirst⟩
          · rw [isOwn, List.append_assoc]
          · rw [isDeeper]
            simp only [List.map_append, List.append_assoc]

theorem map_closingParen? (offset : Nat) (text : Bytes) :
    (closingParen? text).map (offset + ·) =
      ((start.codeBytes offset text).find? isUnmatched).map CodeByte.offset := by
  have sameTest : (isUnmatched ∘ fun point : CodeByte =>
      { point with offset := offset + point.offset }) = isUnmatched := rfl
  have moved := codeBytes_add offset start 0 text
  rw [Nat.add_zero] at moved
  rw [closingParen?, find?_eq_find?_codeBytes, moved, List.find?_map, sameTest, Option.map_map,
    Option.map_map]
  rfl

/-- A scan from the start retraces one from any scanner at rest, up to where
the search for a closing parenthesis ends. -/
theorem retraces_codeBytes (offset : Nat) (text : Bytes) (depth : Nat) :
    Retraces depth (start.codeBytes offset text) ((atRest depth).codeBytes offset text)
      ((closingParen? text).map (offset + ·)) := by
  have deeper : atRest depth = start.deepen depth := by
    rw [start_eq_atRest, deepen_atRest, Nat.zero_add]
  rw [deeper, map_closingParen?]
  rcases codeBytes_deepen start offset text depth with
    ⟨matched, same⟩ | ⟨inside, point, others, after, isOwn, isDeeper, matched, unmatched⟩
  · have notFound : (start.codeBytes offset text).find? isUnmatched = none := by
      apply List.find?_eq_none.mpr
      intro point member
      rw [matched point member]
      exact Bool.false_ne_true
    rw [notFound]
    exact .toEnd (closeOwn_of_matched (List.append_nil _).symm matched) same
  · have found : (start.codeBytes offset text).find? isUnmatched = some point := by
      rw [isOwn]
      apply List.find?_eq_some_iff_append.mpr
      refine ⟨unmatched, inside, others, rfl, fun other member => ?_⟩
      rw [matched other member]
      rfl
    rw [found]
    exact .upTo isOwn isDeeper (closeOwn_of_matched isOwn matched)
      (not_closeOwn_of_unmatched isOwn matched unmatched)

/-- Whether a scan from the start of a text comes, between two parts of it, to
a place where no literal and no comment is open, and how many parentheses are
open there.  A comment to the end of its line is over in front of the line
feed, or at the end of the text. -/
def RestsBetween (front behind : Bytes) (depth : Nat) : Prop :=
  start.run behind.head? front = atRest depth ∨
    start.run behind.head? front = ⟨⟨depth, .none⟩, .inside .line⟩ ∧
      (behind = [] ∨ behind.head? = some Byte.lineFeed)

/-- What a scan goes on to report at such a place depends on the depth alone. -/
theorem RestsBetween.codeBytes_run {front behind : Bytes} {depth : Nat}
    (rests : RestsBetween front behind depth) (offset : Nat) :
    (start.run behind.head? front).codeBytes offset behind =
      (atRest depth).codeBytes offset behind := by
  rcases rests with isAtRest | ⟨inComment, atLineEnd⟩
  · rw [isAtRest]
  · rw [inComment]
    cases behind with
    | nil => rfl
    | cons byte behind =>
        have isLineFeed : byte = Byte.lineFeed := by simpa using atLineEnd
        subst isLineFeed
        rw [codeBytes_cons, codeBytes_cons, step_atRest_plain rfl]
        rfl

end Scanner

/-! ## Walks over a text -/

namespace Walk

variable {text : Bytes} {walk behind : Walk}

/-- The walks over a text.  A walk begins at an offset, may be stopped at a
bound, goes on to the next code byte, and may be moved to an offset. -/
inductive IsOver (text : Bytes) : Walk -> Prop
  | start (offset : Nat) : IsOver text (start text offset)
  | bounded {walk : Walk} (isOver : IsOver text walk) (bound : Nat) :
      IsOver text (walk.bounded bound)
  | next {walk : Walk} (isOver : IsOver text walk) : IsOver text walk.next.2
  | moveTo {walk : Walk} (isOver : IsOver text walk) (offset : Nat) :
      IsOver text (walk.moveTo offset)

/-- On the way to the next code byte a walk passes over a part of what it has
to go. -/
theorem exists_seek (walk : Walk) (scanner : Scanner) (offset : Nat) (bytes : Bytes) :
    (walk.seek scanner offset bytes).2.text = walk.text ∧
      ∃ passed, bytes = passed ++ (walk.seek scanner offset bytes).2.rest ∧
        (walk.seek scanner offset bytes).2.offset = offset + passed.length := by
  induction bytes generalizing scanner offset with
  | nil => exact ⟨rfl, [], rfl, rfl⟩
  | cons byte rest ih =>
      rw [seek]
      split
      · exact ⟨rfl, [], rfl, rfl⟩
      · split
        · exact ⟨rfl, [byte], rfl, rfl⟩
        · rename_i next read
          rcases ih next (offset + 1) with ⟨sameText, passed, isRest, atOffset⟩
          refine ⟨sameText, byte :: passed, congrArg _ isRest, ?_⟩
          rw [atOffset, List.length_cons]
          omega

theorem IsOver.rest_eq (isOver : IsOver text walk) :
    walk.text = text ∧ walk.rest = text.drop walk.offset := by
  induction isOver with
  | start offset => exact ⟨rfl, rfl⟩
  | bounded isOver bound ih => exact ih
  | @next walk isOver ih =>
      rcases exists_seek walk walk.scanner walk.offset walk.rest with
        ⟨sameText, passed, isRest, atOffset⟩
      refine ⟨sameText.trans ih.1, ?_⟩
      rw [Walk.next, atOffset, ← List.drop_drop, ← ih.2]
      conv => rhs; rw [isRest]
      exact (List.drop_left' rfl).symm
  | moveTo isOver offset ih => exact ⟨ih.1, congrArg (List.drop offset) ih.1⟩

theorem exists_step_of_seek {scanner : Scanner} {offset : Nat} {bytes : Bytes} {point : CodeByte}
    (found : walk.seek scanner offset bytes = (some point, behind)) :
    ∃ reading : Scanner,
      reading.step point.byte behind.rest.head? = (some point.depth, behind.scanner) := by
  induction bytes generalizing scanner offset with
  | nil => cases found
  | cons byte rest ih =>
      rw [seek] at found
      split at found
      · cases found
      · split at found
        · rename_i depth next read
          cases found
          exact ⟨scanner, read⟩
        · exact ih found

/-- Moved over a stretch that leaves its scanner as it was, a walk reports all
that it would report behind the stretch. -/
theorem remaining_moveTo {passed after : Bytes} {depth : Nat} (isOver : IsOver text walk)
    (isAtRest : walk.scanner = Scanner.atRest depth) (split : walk.rest = passed ++ after)
    (back : (Scanner.atRest depth).run after.head? passed = Scanner.atRest depth) :
    (walk.moveTo (walk.offset + passed.length)).remaining.1 =
      walk.remaining.1.filter (walk.offset + passed.length ≤ ·.offset) := by
  have isAfter : walk.text.drop (walk.offset + passed.length) = after := by
    rw [isOver.rest_eq.1, ← List.drop_drop, ← isOver.rest_eq.2, split, List.drop_left' rfl]
  have moved : (walk.moveTo (walk.offset + passed.length)).remaining.1 =
      ((Scanner.atRest depth).codeBytes (walk.offset + passed.length) after).filter
        (·.offset < walk.bound) := by
    rw [remaining, take_eq_filter_codeBytes (Nat.le_refl _), moveTo, isAfter, isAtRest]
    rfl
  have later := Scanner.filter_codeBytes_append (Scanner.atRest depth) walk.offset passed after
  rw [back] at later
  rw [moved, ← later, remaining, take_eq_filter_codeBytes (Nat.le_refl _), isAtRest, split,
    List.filter_filter, List.filter_filter]
  exact List.filter_congr fun point _ => Bool.and_comm _ _

/-- The stretch from a walk at rest to behind a call, whose parenthesis it is
going to report at its own depth, leaves its scanner at rest. -/
theorem exists_stretch_to_call {opening : CodeByte} {depth length : Nat}
    (isOver : IsOver text walk) (isAtRest : walk.scanner = Scanner.atRest depth)
    (member : opening ∈ walk.remaining.1) (isOpening : opening.byte = Byte.openParen)
    (sameDepth : opening.depth = depth)
    (closes : closingParen? (text.drop (opening.offset + 1)) = some length) :
    ∃ passed after, walk.rest = passed ++ after ∧
      walk.offset + passed.length = opening.offset + 1 + length + 1 ∧
      (Scanner.atRest depth).run after.head? passed = Scanner.atRest depth := by
  rcases Scanner.mem_codeBytes_iff.mp (mem_remaining_iff.mp member).1 with
    ⟨front, rest, isRest, atOffset, reported⟩
  rw [isOpening] at isRest reported
  have atOpening := Scanner.eq_atRest_of_step reported
  rw [isAtRest, sameDepth] at atOpening
  have isBehindOpening : text.drop (opening.offset + 1) = rest := by
    rw [atOffset, Nat.add_assoc, ← List.drop_drop, ← isOver.rest_eq.2, isRest,
      ← List.drop_drop, List.drop_left' rfl]
    rfl
  rw [isBehindOpening] at closes
  rcases closingParen?_eq_some_iff.mp closes with ⟨inside, after, rfl, rfl, enclosed⟩
  refine ⟨front ++ (Byte.openParen :: inside ++ [Byte.closeParen]), after, ?_, ?_, ?_⟩
  · rw [isRest]
    simp
  · rw [atOffset]
    simp only [List.length_append, List.length_cons, List.length_nil]
    omega
  · rw [Scanner.run_append, List.cons_append, List.head?_cons, Option.some_or, atOpening]
    exact enclosed.run_parens depth after.head?

/-- A walk that is started again where no literal and no comment is open
retraces what the walk from the start of the text goes on to report there, up
to and including the first closing parenthesis that is unmatched since, and a
search for a closing parenthesis ends at that one.  Any walk over the text
that is moved from behind a dot to behind a call, whose parenthesis it would
report at the depth of the dot, reports what it would report there without
being moved. -/
theorem restarted_and_moved_agree (text : Bytes) :
    (forall (front behind : Bytes) (depth : Nat), text = front ++ behind ->
      Scanner.RestsBetween front behind depth ->
      CodeByte.Retraces depth (start text front.length).remaining.1
        ((start text 0).remaining.1.filter (front.length ≤ ·.offset))
        ((closingParen? behind).map (front.length + ·))) ∧
    (forall (walk behind : Walk) (dot opening : CodeByte) (length : Nat), IsOver text walk ->
      walk.next = (some dot, behind) -> dot.byte = Byte.dot ->
      opening ∈ behind.remaining.1 -> opening.byte = Byte.openParen ->
      opening.depth = dot.depth ->
      closingParen? (text.drop (opening.offset + 1)) = some length ->
      (behind.moveTo (opening.offset + 1 + length + 1)).remaining.1 =
        behind.remaining.1.filter (opening.offset + 1 + length + 1 ≤ ·.offset)) := by
  constructor
  · rintro front behind depth rfl rests
    have later := Scanner.filter_codeBytes_append .start 0 front behind
    rw [rests.codeBytes_run, Nat.zero_add] at later
    rw [remaining_start, remaining_start, List.drop_zero, later, List.drop_left' rfl]
    exact Scanner.retraces_codeBytes front.length behind depth
  · intro walk behind dot opening length isOver found isDot member isOpening sameDepth closes
    have overBehind : IsOver text behind := by
      have overNext := isOver.next
      rwa [found] at overNext
    rcases exists_step_of_seek found with ⟨reading, read⟩
    rw [isDot] at read
    have atDot := (Scanner.eq_atRest_of_dot read).2
    rcases exists_stretch_to_call overBehind atDot member isOpening sameDepth closes with
      ⟨passed, after, split, sameStop, back⟩
    rw [← sameStop]
    exact remaining_moveTo overBehind atDot split back

/-- A literal and a comment hold parentheses that neither walk counts.  The
search behind the call's parenthesis ends at the one that closes it, and the
walk that is at the call's dot is moved behind that one. -/
theorem restarted_and_moved_agree_nested :
    let text := Utf8.ofString "f(g.h(\")\", /* ( */ (x)).y) // z"
    let walk := (start text 0).next.2.next.2.next.2
    CodeByte.Retraces 2 (start text 6).remaining.1
        ((start text 0).remaining.1.filter (6 ≤ ·.offset)) (some 22) ∧
      (walk.next.2.moveTo 23).remaining.1 =
        walk.next.2.remaining.1.filter (23 ≤ ·.offset) := by
  intro text walk
  rcases restarted_and_moved_agree text with ⟨restarted, moved⟩
  constructor
  · exact restarted (text.take 6) (text.drop 6) 2 (List.take_append_drop 6 text).symm
      (.inl (by decide +kernel))
  · exact moved walk walk.next.2 ⟨3, Byte.dot, 1⟩ ⟨5, Byte.openParen, 1⟩ 16
      (.next (.next (.next (.start 0)))) (by decide +kernel) rfl (by decide +kernel) rfl rfl
      (by decide +kernel)

end Walk
end FluentLog
