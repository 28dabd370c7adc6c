import FluentLog.Proofs.Code.CodeBytes
import FluentLog.Proofs.Code.Tidy

namespace FluentLog

/-!
# Quoted texts

Three readers meet the bytes of a quoted text: the grammar of literals, the reader of
escapes, and the cursor that every scan is made of.  The main statement says that they
agree on it.  The text is read back, and wherever a scan of code comes to the opening
quote it takes all bytes up to the closing one for a literal, and goes on as if they were
not there.
-/

/-! ## What a quoted text is written with -/

namespace Literal

theorem isControl_unitEscape : ∀ code < 0xA0,
    ∀ written ∈ unitEscape code, isControl written = false := by
  have checked : ∀ code < 0xA0, (unitEscape code).all (!isControl ·) = true := by
    decide +kernel
  intro code small written member
  exact Bool.not_eq_true'  _ ▸ List.all_eq_true.mp (checked code small) written member

theorem isControl_escapeChar (character : Char) :
    ∀ written ∈ escapeChar character, isControl written = false := by
  unfold escapeChar
  split_ifs with backslash quote lineFeed return' tab backspace formFeed isControlled
  rotate_left 7
  · have small : character.toNat < 0xA0 := by
      simp only [isControl, Bool.or_eq_true, Bool.and_eq_true, decide_eq_true_eq] at isControlled
      omega
    exact isControl_unitEscape _ small
  · intro written member
    rw [List.mem_singleton.mp member]
    exact Bool.eq_false_iff.mpr isControlled
  all_goals
    rw [List.forall_mem_cons, List.forall_mem_singleton]
    decide

theorem isControl_quote (text : Text) : ∀ written ∈ quote text, isControl written = false := by
  intro written member
  rw [quote, List.cons_append, List.mem_cons, List.mem_append, List.mem_singleton, escape,
    List.mem_flatMap] at member
  rcases member with isQuote | ⟨character, -, inForm⟩ | isQuote
  · rw [isQuote]; rfl
  · exact isControl_escapeChar character written inForm
  · rw [isQuote]; rfl

theorem lineFeed_not_mem_quote (text : Text) : Byte.lineFeed ∉ Utf8.encode (quote text) := by
  intro member
  rcases List.mem_flatMap.mp member with ⟨written, isWritten, inBytes⟩
  have notControl := isControl_quote text written isWritten
  apply Utf8.not_mem_encodeChar (by decide) _ inBytes
  rintro rfl
  exact absurd notControl (by decide)

end Literal

/-! ## How its bytes are read -/

namespace Cursor

variable {cursor : Cursor}

theorem readings_append (cursor : Cursor) (left right : Bytes) :
    cursor.readings (left ++ right) =
      cursor.readings left ++ (cursor.feed left).readings right := by
  induction left generalizing cursor with
  | nil => rfl
  | cons byte left ih => exact congrArg _ (ih _)

/-- Whether the cursor is inside a literal in front of every byte.  It may be
outside behind the last one. -/
def StaysQuoted (cursor : Cursor) : Bytes -> Prop
  | [] => True
  | byte :: rest => cursor.isInLiteral = true ∧ StaysQuoted (cursor.next byte) rest

namespace StaysQuoted

variable {left right : Bytes}

theorem append (first : cursor.StaysQuoted left) (second : (cursor.feed left).StaysQuoted right) :
    cursor.StaysQuoted (left ++ right) := by
  induction left generalizing cursor with
  | nil => exact second
  | cons byte left ih => exact ⟨first.1, ih first.2 second⟩

theorem of_append_right (stays : cursor.StaysQuoted (left ++ right)) :
    (cursor.feed left).StaysQuoted right := by
  induction left generalizing cursor with
  | nil => exact stays
  | cons byte left ih => exact ih stays.2

theorem readings {bytes : Bytes} (stays : cursor.StaysQuoted bytes) :
    ∀ reading ∈ cursor.readings bytes, reading = .literal := by
  induction bytes generalizing cursor with
  | nil => exact fun _ member => absurd member List.not_mem_nil
  | cons byte rest ih =>
      rcases cursor with ⟨depth, quoting⟩
      cases quoting with
      | none => exact absurd stays.1 (by simp [isInLiteral])
      | within quote escaped =>
          intro reading member
          rcases List.mem_cons.mp member with isFirst | isLater
          · exact isFirst
          · exact ih stays.2 reading isLater

end StaysQuoted

theorem IsProper.isInLiteral_next {byte : UInt8} (proper : cursor.IsProper)
    (inLiteral : cursor.isInLiteral = true)
    (notQuote : byte ≠ Byte.doubleQuote ∧ byte ≠ Byte.singleQuote) :
    (cursor.next byte).isInLiteral = true := by
  rcases cursor with ⟨depth, quoting⟩
  cases quoting with
  | none => cases inLiteral
  | within quote escaped =>
      have other : byte ≠ quote := by
        rintro rfl
        exact (proper byte escaped rfl).elim notQuote.1 notQuote.2
      simp only [Cursor.next, Cursor.step, isInLiteral, if_neg other]
      split_ifs <;> rfl

/-- A character that begins inside a literal is inside it as a whole. -/
theorem staysQuoted_character {character : Char} (proper : cursor.IsProper)
    (inLiteral : cursor.isInLiteral = true) :
    cursor.StaysQuoted (String.utf8EncodeChar character) := by
  have within : forall {bytes : Bytes} {cursor : Cursor}, cursor.IsProper ->
      cursor.isInLiteral = true ->
      (∀ byte ∈ bytes, byte ≠ Byte.doubleQuote ∧ byte ≠ Byte.singleQuote) ->
      cursor.StaysQuoted bytes := by
    intro bytes
    induction bytes with
    | nil => exact fun _ _ _ => True.intro
    | cons byte bytes ih =>
        intro cursor proper inLiteral noQuote
        have still := proper.isInLiteral_next inLiteral (noQuote byte List.mem_cons_self)
        exact ⟨inLiteral, ih (proper.next byte) still fun other member =>
          noQuote other (List.mem_cons_of_mem byte member)⟩
  by_cases small : character.toNat < 0x80
  · rw [Utf8.encodeChar_ascii small]
    exact ⟨inLiteral, True.intro⟩
  · apply within proper inLiteral
    intro byte member
    have large := Utf8.le_of_mem_encodeChar (Nat.le_of_not_lt small) byte member
    constructor <;>
      · rintro rfl
        exact absurd large (by decide)

/-- A text that has none of its own characters outside literals is inside a
literal. -/
theorem Excludes.staysQuoted {excluded text : Text} (proper : cursor.IsProper)
    (own : text ⊆ excluded) (excludes : cursor.Excludes excluded text) :
    cursor.StaysQuoted (Utf8.encode text) := by
  induction text generalizing cursor with
  | nil => exact True.intro
  | cons character text ih =>
      rcases excludes with ⟨-, outside, behind⟩
      rw [List.cons_subset] at own
      have inLiteral : cursor.isInLiteral = true :=
        outside.resolve_right fun notExcluded => notExcluded own.1
      exact (staysQuoted_character proper inLiteral).append
        (ih (proper.feedText [character]) own.2 behind)

theorem staysQuoted_escape (text : Text) (depth : Nat) :
    (inQuotes depth).StaysQuoted (Utf8.encode (Literal.escape text)) ∧
      (inQuotes depth).feed (Utf8.encode (Literal.escape text)) = inQuotes depth := by
  have body := @passes_escapeText (Literal.escape text) text depth
  have proper : (inQuotes depth).IsProper := fun _ _ same => by cases same; exact .inl rfl
  exact ⟨body.1.staysQuoted proper (List.Subset.refl _), (feed_encode _ _).trans body.2⟩

end Cursor

theorem Literal.encode_quote (text : Text) :
    Utf8.encode (quote text) =
      Byte.doubleQuote :: Utf8.encode (escape text) ++ [Byte.doubleQuote] := by
  have written : String.utf8EncodeChar '"' = [Byte.doubleQuote] := by decide
  rw [quote, Utf8.encode_append, Utf8.encode_cons, Utf8.encode_cons, written]
  rfl

theorem Cursor.readings_quote (text : Text) (depth : Nat) :
    ∀ reading ∈ readings ⟨depth, .none⟩ (Utf8.encode (Literal.quote text)),
      reading = .literal := by
  rcases staysQuoted_escape text depth with ⟨stays, back⟩
  have opened : feed ⟨depth, .none⟩ [Byte.doubleQuote] = inQuotes depth := rfl
  intro reading member
  rw [Literal.encode_quote, List.cons_append, ← List.singleton_append, readings_append, opened,
    readings_append, back, List.mem_append, List.mem_append] at member
  rcases member with isOpening | inBody | isClosing
  · exact List.mem_singleton.mp isOpening
  · exact stays.readings reading inBody
  · exact List.mem_singleton.mp isClosing

/-! ## What walks see of it -/

theorem Cursor.IsInert.of_append {cursor : Cursor} {left right : Bytes}
    (inert : cursor.IsInert (left ++ right)) :
    cursor.IsInert left ∧ (cursor.feed left).IsInert right := by
  induction left generalizing cursor with
  | nil => exact ⟨True.intro, inert⟩
  | cons byte left ih =>
      have behind := ih inert.2.2
      exact ⟨⟨inert.1, inert.2.1, behind.1⟩, behind.2⟩

theorem Scanner.step_literal {cursor : Cursor} {byte : UInt8}
    (reading : (cursor.step byte).1 = .literal) (ahead : Option UInt8) :
    (Scanner.step ⟨cursor, .code⟩ byte ahead).1 = none := by
  simp only [Scanner.step, reading]
  split
  · rfl
  · split <;> rfl

theorem Scanner.step_insideQuote {text : Text} {left right : Bytes} {byte : UInt8}
    (split : Utf8.encode (Literal.quote text) = left ++ byte :: right) (depth : Nat)
    (ahead other : Option UInt8) :
    (((atRest depth).run ahead left).step byte other).1 = none := by
  have passes := @Cursor.passes_quote ['/', '(', ')'] (by decide) text depth
  have inert := passes.1.isInert (by decide) (by decide) (by decide)
  have readings := Cursor.readings_quote text depth
  rw [split] at inert readings
  have run : (atRest depth).run ahead left = ⟨Cursor.feed ⟨depth, .none⟩ left, .code⟩ :=
    inert.of_append.1.run ahead
  rw [run]
  apply Scanner.step_literal
  apply readings
  rw [Cursor.readings_append]
  exact List.mem_append_right _ List.mem_cons_self

/-- Wherever a walk comes to a quoted text in code, it reports nothing of it. -/
theorem Walk.not_mem_remaining_quote {walk : Walk} {text : Text} {front behind : Bytes}
    {depth : Nat} (atQuote : walk.rest = front ++ Utf8.encode (Literal.quote text) ++ behind)
    (inCode : walk.scanner.run (some Byte.doubleQuote) front = Scanner.atRest depth)
    {point : CodeByte} (member : point ∈ walk.remaining.1) :
    point.offset < walk.offset + front.length ∨
      walk.offset + front.length + (Utf8.encode (Literal.quote text)).length ≤ point.offset := by
  rcases Scanner.mem_codeBytes_iff.mp (Walk.mem_remaining_iff.mp member).1 with
    ⟨before, rest, same, atOffset, reported⟩
  rcases Nat.lt_or_ge point.offset (walk.offset + front.length) with inFront | notInFront
  · exact .inl inFront
  rcases Nat.lt_or_ge point.offset
    (walk.offset + front.length + (Utf8.encode (Literal.quote text)).length) with
    inQuote | isBehind
  · have frontShorter : front.length ≤ before.length := by omega
    rw [atQuote, List.append_assoc] at same
    obtain ⟨left, rfl⟩ : ∃ left, before = front ++ left :=
      (List.prefix_of_prefix_length_le ⟨_, same⟩ (List.prefix_append _ _) frontShorter).imp
        fun _ => Eq.symm
    rw [List.length_append] at atOffset
    rw [List.append_assoc, List.append_cancel_left_eq] at same
    have leftShorter : (left ++ [point.byte]).length ≤
        (Utf8.encode (Literal.quote text)).length := by
      rw [List.length_append, List.length_singleton]
      omega
    obtain ⟨right, split⟩ : left ++ [point.byte] <+: Utf8.encode (Literal.quote text) := by
      refine List.prefix_of_prefix_length_le ⟨rest, ?_⟩ (List.prefix_append _ behind) leftShorter
      rw [same, List.append_assoc, List.singleton_append]
    rw [List.append_assoc, List.singleton_append] at split
    have opening : left.head?.or (some point.byte) = some Byte.doubleQuote := by
      have head := congrArg List.head? split
      rw [List.head?_append] at head
      exact head
    rw [Scanner.run_append, opening, inCode, Scanner.step_insideQuote split.symm] at reported
    cases reported
  · exact .inr isBehind

namespace Literal

/-- A quoted text is a literal that stands for the text and is written without
control characters.  A cursor outside literals reads each of its bytes as part
of a literal and is the same behind it, and a walk that comes to it in code
reports none of its bytes. -/
theorem quote_isReadBack_isPassedOver (text : Text) :
    isStringLiteral (quote text) = true ∧ decode (quote text) = some text ∧
    (∀ character ∈ quote text, isControl character = false) ∧
    (forall cursor : Cursor, cursor.isInLiteral = false ->
      (∀ reading ∈ cursor.readings (Utf8.encode (quote text)), reading = .literal) ∧
        cursor.feed (Utf8.encode (quote text)) = cursor) ∧
    (forall (walk : Walk) (front behind : Bytes),
      walk.rest = front ++ Utf8.encode (quote text) ++ behind ->
      (walk.scanner.run (some Byte.doubleQuote) front).region = .code ->
      (walk.scanner.run (some Byte.doubleQuote) front).cursor.isInLiteral = false ->
      ∀ point ∈ walk.remaining.1,
        point.offset < walk.offset + front.length ∨
          walk.offset + front.length + (Utf8.encode (quote text)).length ≤ point.offset) := by
  have decoded := decode_quote text
  refine ⟨?_, decoded, isControl_quote text, ?_, ?_⟩
  · rw [decode] at decoded
    rcases Option.map_eq_some_iff.mp decoded with ⟨body, isBody, -⟩
    rw [isStringLiteral, isBody]
    rfl
  · intro cursor outside
    rw [Cursor.eq_of_outside outside]
    have passes := @Cursor.passes_quote [] List.not_mem_nil text cursor.depth
    exact ⟨Cursor.readings_quote text cursor.depth, (Cursor.feed_encode _ _).trans passes.2⟩
  · intro walk front behind atQuote inCode outside point member
    have atRest : walk.scanner.run (some Byte.doubleQuote) front =
        Scanner.atRest (walk.scanner.run (some Byte.doubleQuote) front).cursor.depth := by
      rw [Scanner.atRest, ← Cursor.eq_of_outside outside, ← inCode]
    exact Walk.not_mem_remaining_quote atQuote atRest member

/-- A text with quotes, backslashes, a control character and a digit behind
it, read by a cursor between parentheses and by a walk that comes to it behind
a comment. -/
theorem quote_isReadBack_isPassedOver_escapes :
    let text := "\\u0041\"\x017\n".toList
    let front := Utf8.ofString "f(/* \" */ "
    decode (quote text) = some text ∧
    Cursor.feed ⟨1, .none⟩ (Utf8.encode (quote text)) = ⟨1, .none⟩ ∧
    ∀ point ∈ (Walk.start (front ++ Utf8.encode (quote text) ++ Utf8.ofString ");") 0).remaining.1,
      point.offset < front.length ∨
        front.length + (Utf8.encode (quote text)).length ≤ point.offset := by
  intro text front
  rcases quote_isReadBack_isPassedOver text with ⟨-, decoded, -, fed, passed⟩
  refine ⟨decoded, (fed ⟨1, .none⟩ rfl).2, ?_⟩
  have outside := passed (Walk.start (front ++ Utf8.encode (quote text) ++ Utf8.ofString ");") 0)
    front (Utf8.ofString ");") rfl (by decide) (by decide)
  simpa only [Walk.start, Nat.zero_add] using outside

end Literal
end FluentLog
