import FluentLog.Proofs.Code.Inert

namespace FluentLog

/-!
# Tidy texts

A text is tidy for a cursor if no literal is open at a line end in it, no comment opens,
and no parenthesis closes that was not opened there.  In a tidy text the cursor is all
that there is to a scanner: it stays in code, and a line end means nothing.  A tidy text
that leaves the cursor at the start where it found it there is closed.  Such a text can
stand between parentheses without anything behind it being read differently.
-/

/-! ## Lines -/

/-- Whether a scanner never has a literal open at a line feed of a text.  No
literal but a text block can hold one, and the scanner would drop the literal
there. -/
def Scanner.KeepsLines (scanner : Scanner) (text : Bytes) : Prop :=
  forall front rest : Bytes, text = front ++ Byte.lineFeed :: rest ->
    (scanner.run (some Byte.lineFeed) front).cursor.isInLiteral = false

namespace Scanner.KeepsLines

variable {scanner : Scanner} {left right : Bytes}

theorem of_append_left (keeps : scanner.KeepsLines (left ++ right)) : scanner.KeepsLines left := by
  rintro front rest rfl
  apply keeps front (rest ++ right)
  rw [List.append_assoc, List.cons_append]

theorem of_append_right (keeps : scanner.KeepsLines (left ++ right)) :
    (scanner.run right.head? left).KeepsLines right := by
  rintro front rest rfl
  have isOpen := keeps (left ++ front) rest (List.append_assoc _ _ _).symm
  rw [Scanner.run_append] at isOpen
  rw [List.head?_append, List.head?_cons]
  exact isOpen

theorem of_agree {other : Scanner} {text : Bytes} (keeps : scanner.KeepsLines text)
    (agree : Scanner.Agree scanner other) : other.KeepsLines text := by
  intro front rest same
  have isOpen := keeps front rest same
  rw [Cursor.isInLiteral] at isOpen ⊢
  rw [← (agree.run (some Byte.lineFeed) front).2]
  exact isOpen

theorem head {rest : Bytes} (keeps : scanner.KeepsLines (Byte.lineFeed :: rest)) :
    scanner.cursor.isInLiteral = false :=
  keeps [] rest rfl

end Scanner.KeepsLines

theorem Scanner.keepsLines_cons {scanner : Scanner} {byte : UInt8} {rest : Bytes} :
    scanner.KeepsLines (byte :: rest) ↔
      (byte = Byte.lineFeed -> scanner.cursor.isInLiteral = false) ∧
        (scanner.step byte rest.head?).2.KeepsLines rest := by
  constructor
  · intro keeps
    refine ⟨?_, @Scanner.KeepsLines.of_append_right scanner [byte] rest keeps⟩
    rintro rfl
    exact keeps.head
  · rintro ⟨here, behind⟩ front back same
    cases front with
    | nil => exact here (List.cons.inj same).1
    | cons first front =>
        have isRest : rest = front ++ Byte.lineFeed :: back := (List.cons.inj same).2
        have isOpen := behind front back isRest
        rw [isRest, List.head?_append, (List.cons.inj same).1] at isOpen
        exact isOpen

instance Scanner.decidableKeepsLines (scanner : Scanner) :
    (text : Bytes) -> Decidable (scanner.KeepsLines text)
  | [] => .isTrue fun _ _ same => absurd same.symm (by simp)
  | byte :: rest =>
      have := decidableKeepsLines (scanner.step byte rest.head?).2 rest
      decidable_of_iff' _ keepsLines_cons

namespace Cursor

variable {cursor : Cursor}

theorem eq_start_of_isUnnested (unnested : cursor.isUnnested = true) : cursor = .start := by
  rcases cursor with ⟨depth, quoting⟩
  simp only [isUnnested, isInLiteral, Bool.and_eq_true, beq_iff_eq, Bool.not_eq_true',
    bne_eq_false_iff_eq] at unnested
  rw [unnested.1, unnested.2]
  rfl

theorem eq_of_outside (outside : cursor.isInLiteral = false) : cursor = ⟨cursor.depth, .none⟩ := by
  rcases cursor with ⟨depth, quoting⟩
  cases quoting with
  | none => rfl
  | within quote escaped => cases outside

/-! ## Characters that move nothing -/

/-- Whether a literal around the cursor was opened by a quote. -/
def IsProper (cursor : Cursor) : Prop :=
  forall quote escaped, cursor.quoting = .within quote escaped ->
    quote = Byte.doubleQuote ∨ quote = Byte.singleQuote

theorem IsProper.next (proper : cursor.IsProper) (byte : UInt8) : (cursor.next byte).IsProper := by
  rcases cursor with ⟨depth, quoting⟩
  unfold IsProper Cursor.next Cursor.step
  cases quoting with
  | none =>
      simp only
      split
      · rename_i isQuote
        rintro quote escaped ⟨rfl, rfl⟩
        exact isQuote
      · split
        · exact fun quote escaped same => by cases same
        · split <;> exact fun quote escaped same => by cases same
  | within opener escaped =>
      have isQuote := proper opener escaped rfl
      intro quote nowEscaped same
      simp only at same
      split at same
      · cases same
        exact isQuote
      · split at same
        · cases same
          exact isQuote
        · split at same
          · cases same
          · cases same
            exact isQuote

theorem IsProper.feed (proper : cursor.IsProper) (bytes : Bytes) :
    (cursor.feed bytes).IsProper := by
  induction bytes generalizing cursor with
  | nil => exact proper
  | cons byte bytes ih => exact ih (proper.next byte)

theorem IsProper.feedText (proper : cursor.IsProper) (text : Text) :
    (cursor.feedText text).IsProper :=
  feed_encode cursor text ▸ proper.feed (Utf8.encode text)

theorem isProper_start : IsProper .start := fun _ _ same => by cases same

theorem feedText_cons (character : Char) (text : Text) :
    cursor.feedText (character :: text) = (cursor.feedChar character).feedText text := rfl

/-- Outside literals only quotes and parentheses move the cursor. -/
theorem feedText_outside {text : Text} (depth : Nat)
    (harmless : ∀ character ∈ text, character ∉ ['"', '\'', '(', ')']) :
    feedText ⟨depth, .none⟩ text = ⟨depth, .none⟩ := by
  induction text with
  | nil => rfl
  | cons character text ih =>
      rw [feedText_cons, feedChar_outside depth (harmless character List.mem_cons_self)]
      exact ih fun other member => harmless other (List.mem_cons_of_mem character member)

/-- A text without quotes and parentheses that ends at the start of a text,
where nothing is open, began there. -/
theorem eq_start_of_feedText {text : Text} (proper : cursor.IsProper)
    (harmless : ∀ character ∈ text, character ∉ ['"', '\'', '(', ')'])
    (back : cursor.feedText text = .start) : cursor = .start := by
  have stays : forall (bytes : Bytes) (cursor : Cursor), cursor.IsProper ->
      (∀ byte ∈ bytes, byte ≠ Byte.doubleQuote ∧ byte ≠ Byte.singleQuote) ->
      cursor.isInLiteral = true -> (cursor.feed bytes).isInLiteral = true := by
    intro bytes
    induction bytes with
    | nil => exact fun _ _ _ inside => inside
    | cons byte bytes ih =>
        intro cursor proper noQuote inside
        rw [feed_cons]
        apply ih _ (proper.next byte)
        · exact fun other member => noQuote other (List.mem_cons_of_mem byte member)
        · rcases cursor with ⟨depth, quoting⟩
          cases quoting with
          | none => cases inside
          | within quote escaped =>
              have notQuote : byte ≠ quote := by
                rintro rfl
                have here := noQuote byte List.mem_cons_self
                rcases proper byte escaped rfl with isDouble | isSingle
                · exact here.1 isDouble
                · exact here.2 isSingle
              unfold Cursor.next Cursor.step
              simp only [if_neg notQuote]
              split
              · rfl
              · split <;> rfl
  by_cases inside : cursor.isInLiteral = true
  · have still := stays (Utf8.encode text) cursor proper (by
      intro byte member
      rcases List.mem_flatMap.mp member with ⟨character, isCharacter, inBytes⟩
      have notSpecial := harmless character isCharacter
      simp only [List.mem_cons, List.not_mem_nil, or_false, not_or] at notSpecial
      constructor
      · rintro rfl
        exact Utf8.not_mem_encodeChar (by decide) notSpecial.1 inBytes
      · rintro rfl
        exact Utf8.not_mem_encodeChar (by decide) notSpecial.2.1 inBytes) inside
    rw [feed_encode, back] at still
    cases still
  · rcases cursor with ⟨depth, quoting⟩
    cases quoting with
    | within quote escaped => exact absurd rfl inside
    | none =>
        rw [feedText_outside depth harmless] at back
        exact back

/-! ## Tidy texts -/

/-- Whether a text has no line end in a literal, opens no comment and closes
only its own parentheses.  A scanner in code and its cursor read such a text
alike. -/
def IsTidy (cursor : Cursor) : Text -> Prop
  | [] => True
  | character :: rest =>
      (cursor.isInLiteral = true -> character ≠ '\n') ∧
      (cursor.isInLiteral = false -> character = '/' ->
        rest.head? ≠ some '/' ∧ rest.head? ≠ some '*') ∧
      (cursor.isUnnested = true -> character ≠ ')') ∧
      IsTidy (cursor.feedChar character) rest

theorem IsTidy.of_append_left {left right : Text} (tidy : cursor.IsTidy (left ++ right)) :
    cursor.IsTidy left := by
  induction left generalizing cursor with
  | nil => exact True.intro
  | cons character left ih =>
      rcases tidy with ⟨keeps, noComment, own, behind⟩
      refine ⟨keeps, ?_, own, ih behind⟩
      intro outside isSlash
      have notOpened := noComment outside isSlash
      cases left with
      | nil => exact ⟨by simp, by simp⟩
      | cons following left => exact notOpened

theorem IsTidy.of_append_right {left right : Text} (tidy : cursor.IsTidy (left ++ right)) :
    (cursor.feedText left).IsTidy right := by
  induction left generalizing cursor with
  | nil => exact tidy
  | cons character left ih => exact ih tidy.2.2.2

/-- A byte that opens no comment and breaks no literal is read by a scanner in
code as its cursor reads it. -/
theorem step_code {byte : UInt8} {ahead : Option UInt8}
    (keeps : cursor.isInLiteral = true -> byte ≠ Byte.lineFeed)
    (noComment : cursor.isInLiteral = false -> Comment.opened? byte ahead = none) :
    (Scanner.step ⟨cursor, .code⟩ byte ahead).2 = ⟨cursor.next byte, .code⟩ ∧
      ((Scanner.step ⟨cursor, .code⟩ byte ahead).1 = some 0 -> cursor.isUnnested = true) := by
  have notOpened : Scanner.opened? ⟨cursor, .code⟩ byte ahead = none := by
    unfold Scanner.opened?
    split
    · rfl
    · rename_i outside
      exact noComment (Bool.eq_false_iff.mpr outside)
  constructor
  · unfold Scanner.step
    simp only [notOpened]
    split
    · rename_i isLineFeed
      have outside : cursor.isInLiteral = false :=
        Bool.eq_false_iff.mpr fun inside => keeps inside isLineFeed
      rcases cursor with ⟨depth, quoting⟩
      cases quoting with
      | none => rw [isLineFeed]; rfl
      | within quote escaped => cases outside
    · split <;> rfl
  · intro reported
    have atRest := Scanner.eq_atRest_of_step reported
    have sameCursor : cursor = ⟨0, .none⟩ := congrArg Scanner.cursor atRest
    rw [sameCursor]
    rfl

/-- A character of a tidy text, as a scanner reads its bytes. -/
theorem run_character {character : Char} {ahead : Option UInt8}
    (keeps : cursor.isInLiteral = true -> character ≠ '\n')
    (noComment : cursor.isInLiteral = false -> character = '/' ->
      ahead ≠ some Byte.slash ∧ ahead ≠ some Byte.asterisk) :
    Scanner.run ⟨cursor, .code⟩ ahead (String.utf8EncodeChar character) =
        ⟨cursor.feedChar character, .code⟩ ∧
      ((cursor.isUnnested = true -> character ≠ ')') ->
        Scanner.ClosesOwn ⟨cursor, .code⟩ ahead (String.utf8EncodeChar character)) := by
  by_cases small : character.toNat < 0x80
  · have notLineFeed : cursor.isInLiteral = true ->
        UInt8.ofNat character.toNat ≠ Byte.lineFeed :=
      fun inside same => keeps inside ((Utf8.ofNat_toNat_eq_iff small (by decide)).mp same)
    have notOpened : cursor.isInLiteral = false ->
        Comment.opened? (UInt8.ofNat character.toNat) ahead = none := by
      intro outside
      unfold Comment.opened?
      split
      · rename_i isSlash
        have notAhead := noComment outside ((Utf8.ofNat_toNat_eq_iff small (by decide)).mp isSlash)
        rw [if_neg notAhead.1, if_neg notAhead.2]
      · rfl
    have read := step_code notLineFeed notOpened
    have isFed : cursor.feedChar character = cursor.next (UInt8.ofNat character.toNat) := by
      rw [feedChar, Utf8.encodeChar_ascii small]
      rfl
    rw [Utf8.encodeChar_ascii small, isFed]
    refine ⟨read.1, fun own => ⟨?_, True.intro⟩⟩
    rintro ⟨closes, reported⟩
    exact own (read.2 reported) ((Utf8.ofNat_toNat_eq_iff small (by decide)).mp closes)
  · have inert := isInert_encodeChar small cursor
    exact ⟨inert.run ahead, fun _ => inert.closesOwn ahead⟩

/-- A tidy text is read by a scanner in code as its cursor reads it, unless
what follows makes a comment of its end. -/
theorem IsTidy.run {text : Text} (tidy : cursor.IsTidy text) {ahead : Option UInt8}
    (noComment : ahead ≠ some Byte.slash ∧ ahead ≠ some Byte.asterisk) :
    Scanner.run ⟨cursor, .code⟩ ahead (Utf8.encode text) = ⟨cursor.feedText text, .code⟩ ∧
      Scanner.ClosesOwn ⟨cursor, .code⟩ ahead (Utf8.encode text) := by
  induction text generalizing cursor with
  | nil => exact ⟨rfl, True.intro⟩
  | cons character text ih =>
      rcases tidy with ⟨keeps, opensNone, own, behind⟩
      have notAhead : cursor.isInLiteral = false -> character = '/' ->
          (Utf8.encode text).head?.or ahead ≠ some Byte.slash ∧
            (Utf8.encode text).head?.or ahead ≠ some Byte.asterisk := by
        intro outside isSlash
        have notHead := opensNone outside isSlash
        cases text with
        | nil => exact noComment
        | cons following text =>
            have some' : forall {byte : UInt8}, byte.toNat < 0x80 ->
                (following :: text).head? ≠ some (Char.ofNat byte.toNat) ->
                (Utf8.encode (following :: text)).head?.or ahead ≠ some byte := by
              intro byte ascii notSame isHead
              apply notSame
              apply (Utf8.head?_encode_eq_some_iff ascii).mp
              rw [Option.or_eq_some_iff] at isHead
              rcases isHead with found | ⟨isNone, -⟩
              · exact found
              · rw [List.head?_eq_none_iff, Utf8.encode_cons, List.append_eq_nil_iff] at isNone
                exact absurd isNone.1 (by simp)
            exact ⟨some' (by decide) notHead.1, some' (by decide) notHead.2⟩
      rcases run_character keeps notAhead with ⟨read, closes⟩
      rcases ih behind with ⟨readBehind, ownBehind⟩
      rw [Utf8.encode_cons, Scanner.run_append, read, feedText_cons]
      refine ⟨readBehind, Scanner.ClosesOwn.append (closes own) ?_⟩
      rw [read]
      exact ownBehind

/-- A character behind which the scan for comments has found none. -/
theorem containsCommentFrom_character {character : Char} {rest : Bytes}
    (keeps : cursor.isInLiteral = true -> character ≠ '\n')
    (noComment : containsCommentFrom cursor (String.utf8EncodeChar character ++ rest) = false) :
    (cursor.isInLiteral = false -> character = '/' ->
        rest.head? ≠ some Byte.slash ∧ rest.head? ≠ some Byte.asterisk) ∧
      containsCommentFrom (cursor.feedChar character) rest = false := by
  by_cases small : character.toNat < 0x80
  · have isFed : cursor.feedChar character = cursor.next (UInt8.ofNat character.toNat) := by
      rw [feedChar, Utf8.encodeChar_ascii small]
      rfl
    rw [Utf8.encodeChar_ascii small, List.singleton_append, containsCommentFrom] at noComment
    rw [isFed]
    by_cases isLineFeed : character = '\n'
    · subst isLineFeed
      have outside : cursor.isInLiteral = false :=
        Bool.eq_false_iff.mpr fun inside => keeps inside rfl
      rcases cursor with ⟨depth, quoting⟩
      cases quoting with
      | within quote escaped => cases outside
      | none => exact ⟨fun _ isSlash => absurd isSlash (by decide), noComment⟩
    · have notLineFeed : UInt8.ofNat character.toNat ≠ Byte.lineFeed :=
        fun same => isLineFeed ((Utf8.ofNat_toNat_eq_iff small (by decide)).mp same)
      rw [if_neg notLineFeed] at noComment
      split at noComment
      · cases noComment
      · rename_i notOpened
        refine ⟨?_, noComment⟩
        rintro outside rfl
        rw [outside, Bool.not_false, Bool.true_and] at notOpened
        constructor
        · intro isHead
          apply notOpened
          rw [isHead]
          rfl
        · intro isHead
          apply notOpened
          rw [isHead]
          rfl
  · have inert := isInert_encodeChar small cursor
    rw [inert.containsCommentFrom] at noComment
    refine ⟨?_, noComment⟩
    rintro - rfl
    exact absurd (by decide) small

/-- What a scan for comments and the scan between parentheses have found is a
tidy text. -/
theorem isTidy_of_run {text : Text} {ahead : Option UInt8}
    (keeps : Scanner.KeepsLines ⟨cursor, .code⟩ (Utf8.encode text))
    (noComment : containsCommentFrom cursor (Utf8.encode text) = false)
    (own : Scanner.ClosesOwn ⟨cursor, .code⟩ ahead (Utf8.encode text))
    (notAhead : ahead ≠ some Byte.slash ∧ ahead ≠ some Byte.asterisk) : cursor.IsTidy text := by
  induction text generalizing cursor with
  | nil => exact True.intro
  | cons character text ih =>
      rw [Utf8.encode_cons] at keeps noComment own
      have keepsHere : cursor.isInLiteral = true -> character ≠ '\n' := by
        rintro inside rfl
        have outside := Scanner.KeepsLines.head keeps
        rw [inside] at outside
        cases outside
      rcases containsCommentFrom_character keepsHere noComment with ⟨opensNone, noneBehind⟩
      have notOpened : cursor.isInLiteral = false -> character = '/' ->
          (Utf8.encode text).head?.or ahead ≠ some Byte.slash ∧
            (Utf8.encode text).head?.or ahead ≠ some Byte.asterisk := by
        intro outside isSlash
        have notHead := opensNone outside isSlash
        cases isHead : (Utf8.encode text).head? with
        | none => exact notAhead
        | some byte =>
            rw [isHead] at notHead
            exact notHead
      have read := (run_character keepsHere notOpened).1
      have readAlone := (run_character keepsHere opensNone).1
      refine ⟨keepsHere, ?_, ?_, ih ?_ noneBehind ?_⟩
      · intro outside isSlash
        have notHead := opensNone outside isSlash
        exact ⟨fun isHead => notHead.1 ((Utf8.head?_encode_eq_some_iff (by decide)).mpr isHead),
          fun isHead => notHead.2 ((Utf8.head?_encode_eq_some_iff (by decide)).mpr isHead)⟩
      · rintro unnested rfl
        rw [eq_start_of_isUnnested unnested] at own
        exact own.1 ⟨rfl, rfl⟩
      · rw [← readAlone]
        exact keeps.of_append_right
      · rw [← read]
        exact own.append_right

end Cursor

/-! ## Closed texts -/

/-- Whether a text on its own is tidy and closes all that it opens.  It can be
put between parentheses, with anything behind them. -/
def IsClosed (text : Text) : Prop :=
  Cursor.start.IsTidy text ∧ Cursor.start.feedText text = .start

theorem IsClosed.isEnclosed {text : Text} (closed : IsClosed text) :
    IsEnclosed (Utf8.encode text) := by
  have read := closed.1.run (by decide : some Byte.closeParen ≠ some Byte.slash ∧
    some Byte.closeParen ≠ some Byte.asterisk)
  rw [closed.2] at read
  exact ⟨read.2, read.1⟩

theorem isClosed_of_isEnclosed {text : Text}
    (keeps : Scanner.start.KeepsLines (Utf8.encode text))
    (noComment : hasComment (Utf8.encode text) = false)
    (enclosed : IsEnclosed (Utf8.encode text)) : IsClosed text := by
  have notAhead : some Byte.closeParen ≠ some Byte.slash ∧
      some Byte.closeParen ≠ some Byte.asterisk := by decide
  have tidy : Cursor.start.IsTidy text := Cursor.isTidy_of_run keeps noComment enclosed.1 notAhead
  refine ⟨tidy, ?_⟩
  have read := (tidy.run notAhead).1.symm.trans enclosed.2
  exact congrArg Scanner.cursor read

end FluentLog
