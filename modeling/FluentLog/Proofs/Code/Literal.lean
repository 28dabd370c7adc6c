import FluentLog.Proofs.Code.Quoted
import FluentLog.Proofs.Expression.Token

namespace FluentLog

/-!
# Literals as the cursor sees them

Two things tell a literal from code: the grammar, which reads characters and looks ahead
to the closing quote, and the cursor, which reads bytes and only knows whether it is inside
a literal.  On one line they agree.  An operand is a literal exactly if the cursor is inside
of one from its first byte to its last.

A backslash with a line end behind it is what they see differently.  The grammar lets no
literal go on behind it, and the cursor is told of line ends by its callers.
-/

namespace Cursor

variable {cursor : Cursor}

/-- Whether the cursor at the start of some bytes is inside a literal behind
each of them but the last, and outside behind that. -/
structure TakesAsLiteral (bytes : Bytes) : Prop where
  atLeastTwo : 2 ≤ bytes.length
  inside : forall front, front <+: bytes -> front ≠ [] -> front ≠ bytes ->
    (start.feed front).isInLiteral = true
  outside : (start.feed bytes).isInLiteral = false

/-! ## Bytes and characters -/

/-- To be inside in front of each byte is to be inside behind each part that
is not all. -/
theorem staysQuoted_iff_forall_prefix {bytes : Bytes} :
    cursor.StaysQuoted bytes ↔
      forall front, front <+: bytes -> front ≠ bytes -> (cursor.feed front).isInLiteral = true := by
  induction bytes generalizing cursor with
  | nil =>
      refine ⟨fun _ front isPrefix notAll => ?_, fun _ => True.intro⟩
      exact absurd (List.prefix_nil.mp isPrefix) notAll
  | cons byte bytes ih =>
      rw [StaysQuoted, ih]
      constructor
      · rintro ⟨inLiteral, behind⟩ front isPrefix notAll
        cases front with
        | nil => exact inLiteral
        | cons other front =>
            rcases List.cons_prefix_cons.mp isPrefix with ⟨rfl, isPrefixBehind⟩
            exact behind front isPrefixBehind fun same => notAll (congrArg _ same)
      · intro inside
        refine ⟨inside [] (List.nil_prefix) (List.cons_ne_nil _ _).symm, ?_⟩
        intro front isPrefix notAll
        exact inside (byte :: front) (List.cons_prefix_cons.mpr ⟨rfl, isPrefix⟩)
          fun same => notAll (List.cons.inj same).2

theorem staysQuoted_encode_iff {text : Text} (proper : cursor.IsProper) :
    cursor.StaysQuoted (Utf8.encode text) ↔
      cursor.Holds (fun cursor _ => cursor.isInLiteral = true) text := by
  induction text generalizing cursor with
  | nil => exact Iff.rfl
  | cons character text ih =>
      have properBehind : (cursor.feedChar character).IsProper := proper.feedText [character]
      rw [Utf8.encode_cons, Holds, ← ih properBehind]
      constructor
      · intro stays
        refine ⟨?_, stays.of_append_right⟩
        cases bytes : String.utf8EncodeChar character with
        | nil => exact absurd bytes (by simp)
        | cons byte others =>
            rw [bytes] at stays
            exact stays.1
      · rintro ⟨inLiteral, behind⟩
        exact (staysQuoted_character proper inLiteral).append behind

theorem isInLiteral_next_outside_iff {depth : Nat} {byte : UInt8} :
    (next ⟨depth, .none⟩ byte).isInLiteral = true ↔
      byte = Byte.doubleQuote ∨ byte = Byte.singleQuote := by
  simp only [next, step]
  split
  · rename_i isQuote
    exact ⟨fun _ => isQuote, fun _ => rfl⟩
  · rename_i notQuote
    refine ⟨fun inLiteral => ?_, fun isQuote => absurd isQuote notQuote⟩
    split at inLiteral
    · cases inLiteral
    · split at inLiteral <;> cases inLiteral

theorem next_of_isQuote {depth : Nat} {byte : UInt8}
    (isQuote : byte = Byte.doubleQuote ∨ byte = Byte.singleQuote) :
    next ⟨depth, .none⟩ byte = ⟨depth, .within byte false⟩ := by
  simp only [next, step, if_pos isQuote]

/-- What is taken as a literal is a quote and what the cursor, once inside,
takes for the rest of the literal. -/
theorem takesAsLiteral_cons_iff {first : UInt8} {others : Bytes} :
    TakesAsLiteral (first :: others) ↔
      (first = Byte.doubleQuote ∨ first = Byte.singleQuote) ∧
        StaysQuoted ⟨0, .within first false⟩ others ∧
        (feed ⟨0, .within first false⟩ others).isInLiteral = false := by
  constructor
  · rintro ⟨atLeastTwo, inside, outside⟩
    have more : others ≠ [] := by
      rintro rfl
      exact absurd atLeastTwo (Nat.lt_irrefl 1)
    have isQuote : first = Byte.doubleQuote ∨ first = Byte.singleQuote := by
      apply isInLiteral_next_outside_iff.mp
      exact inside [first] (List.cons_prefix_cons.mpr ⟨rfl, List.nil_prefix⟩)
        (List.cons_ne_nil _ _) fun same => more (List.cons.inj same).2.symm
    have opened : start.next first = ⟨0, .within first false⟩ := next_of_isQuote isQuote
    refine ⟨isQuote, staysQuoted_iff_forall_prefix.mpr fun front isPrefix notAll => ?_, ?_⟩
    · rw [← opened]
      exact inside (first :: front) (List.cons_prefix_cons.mpr ⟨rfl, isPrefix⟩)
        (List.cons_ne_nil _ _) fun same => notAll (List.cons.inj same).2
    · rw [← opened]
      exact outside
  · rintro ⟨isQuote, stays, outside⟩
    have opened : start.next first = ⟨0, .within first false⟩ := next_of_isQuote isQuote
    constructor
    · cases others with
      | nil => cases outside
      | cons second others => exact Nat.le_add_left 2 others.length
    · intro front isPrefix nonempty notAll
      cases front with
      | nil => exact absurd rfl nonempty
      | cons byte front =>
          rcases List.cons_prefix_cons.mp isPrefix with ⟨rfl, isPrefixBehind⟩
          rw [feed_cons, opened]
          exact staysQuoted_iff_forall_prefix.mp stays front isPrefixBehind
            fun same => notAll (congrArg _ same)
    · rw [feed_cons, opened]
      exact outside

end Cursor

/-! ## The grammar -/

namespace Literal

/-- Behind an opening quote the grammar finds the end of the literal exactly
if the cursor is inside up to the last character. -/
theorem isSome_bodyBefore?_iff {quote : UInt8}
    (isQuote : quote = Byte.doubleQuote ∨ quote = Byte.singleQuote) (depth : Nat) {rest : Text}
    (oneLine : '\n' ∉ rest) :
    (bodyBefore? (Char.ofNat quote.toNat) rest).isSome = true ↔
      Cursor.Holds (fun cursor _ => cursor.isInLiteral = true) ⟨depth, .within quote false⟩ rest ∧
        (Cursor.feedText ⟨depth, .within quote false⟩ rest).isInLiteral = false := by
  constructor
  · intro isSome
    rcases Option.isSome_iff_exists.mp isSome with ⟨body, isBody⟩
    rcases reads_bodyBefore? isQuote (fun _ _ _ inLiteral => inLiteral) isBody depth with
      ⟨holds, back⟩
    exact ⟨holds, congrArg Cursor.isInLiteral back⟩
  · rintro ⟨holds, outside⟩
    have ascii : quote.toNat < 0x80 := by rcases isQuote with rfl | rfl <;> decide
    have closes := Cursor.feedChar_closingQuote isQuote depth
    have opens := Cursor.feedChar_backslash isQuote depth
    fun_induction bodyBefore? (Char.ofNat quote.toNat) rest with
    | case1 => cases outside
    | case2 => rfl
    | case3 character notQuote =>
        by_cases isBackslash : character = '\\'
        · rw [isBackslash, Cursor.feedText_cons, opens] at outside
          cases outside
        · rw [Cursor.feedText_cons, Cursor.feedChar_within ascii depth isBackslash notQuote]
            at outside
          cases outside
    | case4 following rest =>
        rw [Cursor.Holds, closes] at holds
        cases holds.2.1
    | case5 rest notQuote => exact absurd (List.mem_cons_of_mem _ List.mem_cons_self) oneLine
    | case6 following rest notLineFeed notQuote ih =>
        have stays := Cursor.feedChar_escaped ascii depth following
        rw [Cursor.Holds, Cursor.Holds, opens, stays] at holds
        rw [Cursor.feedText_cons, Cursor.feedText_cons, opens, stays] at outside
        rw [List.mem_cons, List.mem_cons, not_or, not_or] at oneLine
        rw [Option.isSome_map]
        exact ih oneLine.2.2 holds.2.2 outside
    | case7 character following rest notQuote notBackslash ih =>
        have stays := Cursor.feedChar_within ascii depth notBackslash notQuote
        rw [Cursor.Holds, stays] at holds
        rw [Cursor.feedText_cons, stays] at outside
        rw [List.mem_cons, not_or] at oneLine
        rw [Option.isSome_map]
        exact ih oneLine.2 holds.2 outside

theorem isSome_bodyBefore?_iff_takesAsLiteral {quote : UInt8}
    (isQuote : quote = Byte.doubleQuote ∨ quote = Byte.singleQuote) {rest : Text}
    (oneLine : '\n' ∉ rest) :
    (bodyBefore? (Char.ofNat quote.toNat) rest).isSome = true ↔
      Cursor.TakesAsLiteral (quote :: Utf8.encode rest) := by
  have proper : Cursor.IsProper ⟨0, .within quote false⟩ := by
    rintro opener escaped ⟨rfl, rfl⟩
    exact isQuote
  rw [isSome_bodyBefore?_iff isQuote 0 oneLine, Cursor.takesAsLiteral_cons_iff,
    Cursor.staysQuoted_encode_iff proper, Cursor.feed_encode, and_iff_right isQuote]

theorem head?_of_takesAsLiteral {text : Text}
    (takes : Cursor.TakesAsLiteral (Utf8.encode text)) :
    text.head? = some '"' ∨ text.head? = some '\'' := by
  cases bytes : Utf8.encode text with
  | nil =>
      rw [bytes] at takes
      cases takes.atLeastTwo
  | cons first others =>
      have isHead : (Utf8.encode text).head? = some first := by rw [bytes]; rfl
      rw [bytes] at takes
      rcases (Cursor.takesAsLiteral_cons_iff.mp takes).1 with rfl | rfl
      · exact .inl ((Utf8.head?_encode_eq_some_iff (by decide)).mp isHead)
      · exact .inr ((Utf8.head?_encode_eq_some_iff (by decide)).mp isHead)

/-- A text on one line is a literal exactly if the cursor, at the start of its
bytes without the blanks around it, is inside a literal from the first to the
last of them. -/
theorem isStringLiteral_iff_takesAsLiteral (text : Text) (oneLine : '\n' ∉ text) :
    isStringLiteral text = true ↔ Cursor.TakesAsLiteral (Utf8.encode (Text.trim text)) := by
  have oneLineTrimmed : '\n' ∉ Text.trim text := by
    rcases Text.exists_trim text with ⟨lead, trail, whole, -, -⟩
    intro member
    apply oneLine
    rw [whole]
    exact List.mem_append_left trail (List.mem_append_right lead member)
  rw [isStringLiteral, body?]
  split
  · rename_i rest isText
    rw [isText, List.mem_cons, not_or] at oneLineTrimmed
    rw [isText]
    exact @isSome_bodyBefore?_iff_takesAsLiteral Byte.doubleQuote (.inl rfl) rest oneLineTrimmed.2
  · rename_i rest isText
    rw [isText, List.mem_cons, not_or] at oneLineTrimmed
    rw [isText]
    exact @isSome_bodyBefore?_iff_takesAsLiteral Byte.singleQuote (.inr rfl) rest oneLineTrimmed.2
  · rename_i notDouble notSingle
    refine ⟨fun isSome => (by cases isSome), fun takes => ?_⟩
    rcases head?_of_takesAsLiteral takes with isHead | isHead
    · rcases List.head?_eq_some_iff.mp isHead with ⟨rest, isText⟩
      exact absurd isText (notDouble rest)
    · rcases List.head?_eq_some_iff.mp isHead with ⟨rest, isText⟩
      exact absurd isText (notSingle rest)

/-- A literal with an escaped quote, the other quote, an escaped character of
two bytes and an escaped backslash in front of its closing quote; and two
literals with a sign between them. -/
theorem isStringLiteral_iff_takesAsLiteral_escapes :
    let escapes := " \"\\\"'\\é\\\\\" ".toList
    let sum := "\"a\" + \"b\"".toList
    '\n' ∉ escapes ∧ isStringLiteral escapes = true ∧
      Cursor.TakesAsLiteral (Utf8.encode (Text.trim escapes)) ∧
    '\n' ∉ sum ∧ isStringLiteral sum = false ∧
      ¬ Cursor.TakesAsLiteral (Utf8.encode (Text.trim sum)) := by
  intro escapes sum
  have oneLine : '\n' ∉ escapes ∧ '\n' ∉ sum := by decide
  have isLiteral : isStringLiteral escapes = true := by decide
  have isNone : isStringLiteral sum = false := by decide
  refine ⟨oneLine.1, isLiteral, ?_, oneLine.2, isNone, ?_⟩
  · exact (isStringLiteral_iff_takesAsLiteral escapes oneLine.1).mp isLiteral
  · intro takes
    rw [(isStringLiteral_iff_takesAsLiteral sum oneLine.2).mpr takes] at isNone
    cases isNone

end Literal
end FluentLog
