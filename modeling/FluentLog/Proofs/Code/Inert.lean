import FluentLog.Code.Comment
import FluentLog.Expression.Operand
import FluentLog.Proofs.Code.Scanning
import FluentLog.Proofs.Expression.Literal
import FluentLog.Proofs.Text.Blank
import FluentLog.Proofs.Text.Utf8

namespace FluentLog

/-!
# Texts that leave the cursor as it was

Splitting feeds the characters of a text to the cursor.  A text that brings the cursor back to
where it was, and shows it no separator on the way, is not split.
-/

/-!
## How splitting passes over a stretch of text

A stretch in which no separator stands at the top level becomes part of one part.
-/

/-- Whether no character of a stretch, read by a cursor, is a separator at the
top level. -/
def NoCut (separator : Char) (cursor : Cursor) : Text -> Prop
  | [] => True
  | character :: rest =>
      ¬ (character = separator ∧ cursor.isUnnested = true) ∧
        NoCut separator (cursor.feedChar character) rest

def Cursor.feedText (cursor : Cursor) (text : Text) : Cursor :=
  text.foldl Cursor.feedChar cursor

theorem splitFrom_cons_of_noCut {separator : Char} {cursor : Cursor} {character : Char}
    (noCut : ¬ (character = separator ∧ cursor.isUnnested = true)) (rest : Text) :
    splitFrom separator cursor (character :: rest) =
      (character :: (splitFrom separator (cursor.feedChar character) rest).1,
        (splitFrom separator (cursor.feedChar character) rest).2) := by
  cases rest with
  | nil => simp only [splitFrom, noCut, if_false]
  | cons following rest => rw [splitFrom, if_neg noCut]

/-- A stretch without separators begins the first part. -/
theorem splitFrom_append_of_noCut {separator : Char} {cursor : Cursor} {stretch : Text}
    (noCut : NoCut separator cursor stretch) (rest : Text) :
    splitFrom separator cursor (stretch ++ rest) =
      (stretch ++ (splitFrom separator (cursor.feedText stretch) rest).1,
        (splitFrom separator (cursor.feedText stretch) rest).2) := by
  induction stretch generalizing cursor with
  | nil => rfl
  | cons character stretch ih =>
      rw [List.cons_append, splitFrom_cons_of_noCut noCut.1, ih noCut.2]
      rfl

theorem NoCut.of_not_mem {separator : Char} {stretch : Text} (notMember : separator ∉ stretch)
    (cursor : Cursor) : NoCut separator cursor stretch := by
  induction stretch generalizing cursor with
  | nil => exact True.intro
  | cons character stretch ih =>
      rw [List.mem_cons, not_or] at notMember
      exact ⟨fun cut => notMember.1 cut.1.symm, ih notMember.2 _⟩

theorem splitUnnested_eq (separator : Char) (text : Text) :
    splitUnnested separator text =
      (((splitFrom separator .start text).1 :: (splitFrom separator .start text).2).map
        Text.trim).filter (!·.isEmpty) := rfl

/-!
## Text that the scans pass over

Every scan of code knows literals, and most of what it looks for counts outside of them
only.  So a text of literals and harmless characters is passed over by all scans alike:
it is not split, opens no comment and closes no parenthesis, and the cursor behind it
is the one in front of it.  A quoted text is such a text, whatever it holds.
-/

namespace Cursor

variable {cursor : Cursor}

/-! ### Bytes -/

/-- Whether bytes hold no line end and, outside literals, no parenthesis and
nothing that opens a comment.  To a scanner in code they mean no more than to
its cursor. -/
def IsInert (cursor : Cursor) : Bytes -> Prop
  | [] => True
  | byte :: rest =>
      byte ≠ Byte.lineFeed ∧
        (cursor.isInLiteral = true ∨
          byte ≠ Byte.slash ∧ byte ≠ Byte.openParen ∧ byte ≠ Byte.closeParen) ∧
        IsInert (cursor.next byte) rest

theorem IsInert.append {left right : Bytes} (first : cursor.IsInert left)
    (second : (cursor.feed left).IsInert right) : cursor.IsInert (left ++ right) := by
  induction left generalizing cursor with
  | nil => exact second
  | cons byte left ih => exact ⟨first.1, first.2.1, ih first.2.2 second⟩

theorem isInert_of_forall {bytes : Bytes} (cursor : Cursor)
    (harmless : ∀ byte ∈ bytes, byte ≠ Byte.lineFeed ∧
      byte ≠ Byte.slash ∧ byte ≠ Byte.openParen ∧ byte ≠ Byte.closeParen) :
    cursor.IsInert bytes := by
  induction bytes generalizing cursor with
  | nil => exact True.intro
  | cons byte rest ih =>
      have here := harmless byte List.mem_cons_self
      exact ⟨here.1, .inr here.2,
        ih _ fun other member => harmless other (List.mem_cons_of_mem byte member)⟩

theorem isInert_encodeChar {character : Char} (notAscii : ¬ character.toNat < 0x80)
    (cursor : Cursor) : cursor.IsInert (String.utf8EncodeChar character) := by
  have large := Utf8.le_of_mem_encodeChar (Nat.le_of_not_lt notAscii)
  apply isInert_of_forall
  intro byte member
  have least := large byte member
  refine ⟨?_, ?_, ?_, ?_⟩ <;>
    · rintro rfl
      exact absurd least (by decide)

/-- A scanner in code reads an inert byte as its cursor does, and not as a
parenthesis that closes. -/
theorem step_inert {byte : UInt8} {rest : Bytes} (inert : cursor.IsInert (byte :: rest))
    (ahead : Option UInt8) :
    (Scanner.step ⟨cursor, .code⟩ byte ahead).2 = ⟨cursor.next byte, .code⟩ ∧
      (byte = Byte.closeParen -> (Scanner.step ⟨cursor, .code⟩ byte ahead).1 = none) := by
  rcases inert with ⟨notLineFeed, outside, -⟩
  rcases cursor with ⟨depth, quoting⟩
  cases quoting with
  | none =>
      rcases outside with inLiteral | ⟨notSlash, notOpen, notClose⟩
      · cases inLiteral
      · have noComment : Comment.opened? byte ahead = none := by
          simp [Comment.opened?, notSlash]
        rw [Scanner.step_code_none, noComment]
        simp only [notLineFeed, notOpen, notClose, if_false, next, step]
        constructor
        · split <;> rfl
        · exact fun closes => closes.elim
  | within quote escaped =>
      rw [Scanner.step_code_within, if_neg notLineFeed]
      exact ⟨rfl, fun _ => rfl⟩

theorem IsInert.run {bytes : Bytes} (inert : cursor.IsInert bytes) (ahead : Option UInt8) :
    Scanner.run ⟨cursor, .code⟩ ahead bytes = ⟨cursor.feed bytes, .code⟩ := by
  induction bytes generalizing cursor with
  | nil => rfl
  | cons byte rest ih =>
      rw [Scanner.run_cons, (step_inert inert _).1, ih inert.2.2, feed_cons]

theorem IsInert.closesOwn {bytes : Bytes} (inert : cursor.IsInert bytes)
    (ahead : Option UInt8) : Scanner.ClosesOwn ⟨cursor, .code⟩ ahead bytes := by
  induction bytes generalizing cursor with
  | nil => exact True.intro
  | cons byte rest ih =>
      rw [Scanner.ClosesOwn, (step_inert inert _).1]
      refine ⟨?_, ih inert.2.2⟩
      rintro ⟨closes, reported⟩
      rw [(step_inert inert _).2 closes] at reported
      cases reported

theorem IsInert.containsCommentFrom {bytes : Bytes} (inert : cursor.IsInert bytes)
    (rest : Bytes) :
    FluentLog.containsCommentFrom cursor (bytes ++ rest) =
      FluentLog.containsCommentFrom (cursor.feed bytes) rest := by
  induction bytes generalizing cursor with
  | nil => rfl
  | cons byte bytes ih =>
      rw [List.cons_append, FluentLog.containsCommentFrom, if_neg inert.1, if_neg, ih inert.2.2,
        feed_cons]
      rw [Bool.and_eq_true, Bool.not_eq_true']
      rintro ⟨notInLiteral, opens⟩
      rcases inert.2.1 with inLiteral | ⟨notSlash, -⟩
      · rw [notInLiteral] at inLiteral
        cases inLiteral
      · rw [Comment.opened?, if_neg notSlash] at opens
        cases opens

/-! ### Characters -/

theorem feedChar_of_forall {character : Char}
    (same : ∀ byte ∈ String.utf8EncodeChar character, cursor.next byte = cursor) :
    cursor.feedChar character = cursor := by
  have fed : forall {bytes : Bytes}, (∀ byte ∈ bytes, cursor.next byte = cursor) ->
      cursor.feed bytes = cursor := by
    intro bytes same
    induction bytes with
    | nil => rfl
    | cons byte bytes ih =>
        rw [feed_cons, same byte List.mem_cons_self]
        exact ih fun other member => same other (List.mem_cons_of_mem byte member)
  exact fed same

/-- Outside literals only quotes and parentheses move the cursor. -/
theorem feedChar_outside {character : Char} (depth : Nat)
    (harmless : character ∉ ['"', '\'', '(', ')']) :
    feedChar ⟨depth, .none⟩ character = ⟨depth, .none⟩ := by
  simp only [List.mem_cons, List.not_mem_nil, or_false, not_or] at harmless
  rcases harmless with ⟨notDouble, notSingle, notOpen, notClose⟩
  apply feedChar_of_forall
  intro byte member
  have other : forall {special : UInt8}, special.toNat < 0x80 ->
      character ≠ Char.ofNat special.toNat -> byte ≠ special := by
    rintro special ascii notSpecial rfl
    exact Utf8.not_mem_encodeChar ascii notSpecial member
  have notDoubleQuote : byte ≠ Byte.doubleQuote := other (by decide) notDouble
  have notSingleQuote : byte ≠ Byte.singleQuote := other (by decide) notSingle
  have notOpenParen : byte ≠ Byte.openParen := other (by decide) notOpen
  have notCloseParen : byte ≠ Byte.closeParen := other (by decide) notClose
  simp [next, step, notDoubleQuote, notSingleQuote, notOpenParen, notCloseParen]

def inQuotes (depth : Nat) : Cursor := ⟨depth, .within Byte.doubleQuote false⟩

/-- Inside a literal bytes without quotes, backslashes and line ends are
inert. -/
theorem isInert_inQuotes {bytes : Bytes} (harmless : ∀ byte ∈ bytes,
    byte ≠ Byte.lineFeed ∧ byte ≠ Byte.backslash ∧ byte ≠ Byte.doubleQuote) (depth : Nat) :
    (inQuotes depth).IsInert bytes ∧ (inQuotes depth).feed bytes = inQuotes depth := by
  induction bytes with
  | nil => exact ⟨True.intro, rfl⟩
  | cons byte bytes ih =>
      rcases harmless byte List.mem_cons_self with ⟨notLineFeed, notBackslash, notQuote⟩
      rcases ih fun other member => harmless other (List.mem_cons_of_mem byte member) with
        ⟨inert, back⟩
      have same : (inQuotes depth).next byte = inQuotes depth := by
        simp [inQuotes, next, step, notBackslash, notQuote]
      refine ⟨⟨notLineFeed, .inl rfl, same.symm ▸ inert⟩, ?_⟩
      rw [feed_cons, same, back]

/-- Inside a literal only its quote and backslashes move the cursor. -/
theorem feedChar_within {quote : UInt8} (ascii : quote.toNat < 0x80) {character : Char}
    (depth : Nat) (notBackslash : character ≠ '\\')
    (notQuote : character ≠ Char.ofNat quote.toNat) :
    feedChar ⟨depth, .within quote false⟩ character = ⟨depth, .within quote false⟩ := by
  apply feedChar_of_forall
  intro byte member
  have notBackslashByte : byte ≠ Byte.backslash := by
    rintro rfl
    exact Utf8.not_mem_encodeChar (by decide) notBackslash member
  have notQuoteByte : byte ≠ quote := by
    rintro rfl
    exact Utf8.not_mem_encodeChar ascii notQuote member
  simp [next, step, notBackslashByte, notQuoteByte]

theorem feedChar_inQuotes {character : Char} (depth : Nat) (notBackslash : character ≠ '\\')
    (notQuote : character ≠ '"') : (inQuotes depth).feedChar character = inQuotes depth :=
  feedChar_within (by decide) depth notBackslash notQuote

/-- Whether a text holds no line end and, outside literals, none of some
characters.  A text that excludes the separators is not split at them. -/
def Excludes (excluded : Text) (cursor : Cursor) : Text -> Prop
  | [] => True
  | character :: rest =>
      character ≠ '\n' ∧ (cursor.isInLiteral = true ∨ character ∉ excluded) ∧
        Excludes excluded (cursor.feedChar character) rest

theorem feedText_append (cursor : Cursor) (left right : Text) :
    cursor.feedText (left ++ right) = (cursor.feedText left).feedText right :=
  List.foldl_append

theorem feed_encode (cursor : Cursor) (text : Text) :
    cursor.feed (Utf8.encode text) = cursor.feedText text := by
  induction text generalizing cursor with
  | nil => rfl
  | cons character text ih => rw [Utf8.encode_cons, feed_append, ih]; rfl

variable {excluded : Text}

theorem Excludes.append {left right : Text} (first : cursor.Excludes excluded left)
    (second : (cursor.feedText left).Excludes excluded right) :
    cursor.Excludes excluded (left ++ right) := by
  induction left generalizing cursor with
  | nil => exact second
  | cons character left ih => exact ⟨first.1, first.2.1, ih first.2.2 second⟩

theorem Excludes.of_subset {fewer text : Text} (subset : fewer ⊆ excluded)
    (excludes : cursor.Excludes excluded text) : cursor.Excludes fewer text := by
  induction text generalizing cursor with
  | nil => exact True.intro
  | cons character text ih =>
      exact ⟨excludes.1, excludes.2.1.imp_right fun notExcluded member =>
        notExcluded (subset member), ih excludes.2.2⟩

/-- A text without a separator outside literals is not split. -/
theorem Excludes.noCut {separator : Char} {text : Text} (member : separator ∈ excluded)
    (excludes : cursor.Excludes excluded text) : NoCut separator cursor text := by
  induction text generalizing cursor with
  | nil => exact True.intro
  | cons character text ih =>
      refine ⟨?_, ih excludes.2.2⟩
      rintro ⟨rfl, unnested⟩
      rcases excludes.2.1 with inLiteral | notExcluded
      · rw [isUnnested, inLiteral, Bool.and_eq_true] at unnested
        cases unnested.2
      · exact notExcluded member

theorem Excludes.isInert {text : Text} (slash : '/' ∈ excluded) (opening : '(' ∈ excluded)
    (closing : ')' ∈ excluded) (excludes : cursor.Excludes excluded text) :
    cursor.IsInert (Utf8.encode text) := by
  induction text generalizing cursor with
  | nil => exact True.intro
  | cons character text ih =>
      rcases excludes with ⟨notLineFeed, outside, behind⟩
      refine IsInert.append ?_ (ih behind)
      have other : forall {special byte : UInt8}, special.toNat < 0x80 ->
          character ≠ Char.ofNat special.toNat -> byte ∈ String.utf8EncodeChar character ->
          byte ≠ special := by
        rintro special byte ascii notSpecial member rfl
        exact Utf8.not_mem_encodeChar ascii notSpecial member
      rcases outside with inLiteral | notExcluded
      · by_cases small : character.toNat < 0x80
        · have only := Utf8.encodeChar_ascii small
          refine only ▸ ⟨?_, .inl inLiteral, True.intro⟩
          exact other (by decide) notLineFeed (by rw [only]; exact List.mem_singleton_self _)
        · exact isInert_encodeChar small cursor
      · apply isInert_of_forall
        intro byte member
        exact ⟨other (by decide) notLineFeed member,
          other (by decide) (fun same => notExcluded (same ▸ slash)) member,
          other (by decide) (fun same => notExcluded (same ▸ opening)) member,
          other (by decide) (fun same => notExcluded (same ▸ closing)) member⟩

/-! ### Texts that leave the cursor as it was -/

def Passes (excluded : Text) (cursor : Cursor) (text : Text) : Prop :=
  cursor.Excludes excluded text ∧ cursor.feedText text = cursor

theorem Passes.append {left right : Text} (first : cursor.Passes excluded left)
    (second : cursor.Passes excluded right) : cursor.Passes excluded (left ++ right) := by
  constructor
  · exact first.1.append (first.2.symm ▸ second.1)
  · rw [feedText_append, first.2, second.2]

/-- A text that excludes slashes and parentheses can stand between
parentheses. -/
theorem Passes.isEnclosed {text : Text} (slash : '/' ∈ excluded) (opening : '(' ∈ excluded)
    (closing : ')' ∈ excluded) (passes : Passes excluded .start text) :
    IsEnclosed (Utf8.encode text) := by
  have inert := passes.1.isInert slash opening closing
  refine ⟨inert.closesOwn _, ?_⟩
  have read := inert.run (some Byte.closeParen)
  rw [feed_encode, passes.2] at read
  exact read

theorem Passes.of_subset {fewer text : Text} (subset : fewer ⊆ excluded)
    (passes : cursor.Passes excluded text) : cursor.Passes fewer text :=
  ⟨passes.1.of_subset subset, passes.2⟩

theorem passes_of_forall {text : Text} (depth : Nat)
    (harmless : ∀ character ∈ text, character ∉ '\n' :: '"' :: '\'' :: '(' :: ')' :: excluded) :
    Passes excluded ⟨depth, .none⟩ text := by
  induction text with
  | nil => exact ⟨True.intro, rfl⟩
  | cons character text ih =>
      have here := harmless character List.mem_cons_self
      have same : feedChar ⟨depth, .none⟩ character = ⟨depth, .none⟩ := by
        apply feedChar_outside
        intro member
        simp only [List.mem_cons, not_or] at here member
        simp_all
      rcases ih fun other member => harmless other (List.mem_cons_of_mem character member) with
        ⟨excludes, back⟩
      refine ⟨⟨?_, .inr ?_, same.symm ▸ excludes⟩, ?_⟩
      · exact fun isLineFeed => here (isLineFeed ▸ List.mem_cons_self)
      · exact fun member => here (by simp [member])
      · rw [feedText, List.foldl_cons, same]
        exact back

/-- A character that stays inside a literal. -/
theorem passes_inQuotes {character : Char} (depth : Nat) (notBackslash : character ≠ '\\')
    (notQuote : character ≠ '"') (notLineFeed : character ≠ '\n') :
    (inQuotes depth).Passes excluded [character] :=
  ⟨⟨notLineFeed, .inl rfl, True.intro⟩, feedChar_inQuotes depth notBackslash notQuote⟩

theorem passes_escape {letter : Char} (depth : Nat) (notLineFeed : letter ≠ '\n')
    (resolved : feedChar ⟨depth, .within Byte.doubleQuote true⟩ letter = inQuotes depth) :
    (inQuotes depth).Passes excluded ['\\', letter] :=
  ⟨⟨by decide, .inl rfl, notLineFeed, .inl rfl, True.intro⟩, resolved⟩

/-- However a character is written, it stays inside the literal. -/
theorem passes_written {character : Char} {form : Text}
    (written : Literal.Written character form) (depth : Nat) :
    (inQuotes depth).Passes excluded form := by
  cases written with
  | short letter resolved notLineFeed =>
      apply passes_escape depth notLineFeed
      unfold Literal.shortEscape? at resolved
      split at resolved <;> first | rfl | cases resolved
  | unit small =>
      have split : Literal.unitEscape character.toNat =
          ['\\', 'u'] ++ hexDigits 'a' 4 character.toNat := rfl
      rw [split]
      apply Passes.append
      · exact passes_escape depth (by decide) rfl
      · have isEscape := isUnicodeEscape_hexDigits (Nat.lt_trans small (by decide))
        have ordinary := (List.forall_mem_cons.mp isEscape.isOrdinary).2
        generalize hexDigits 'a' 4 character.toNat = digits at ordinary
        induction digits with
        | nil => exact ⟨True.intro, rfl⟩
        | cons digit digits ih =>
            obtain ⟨isOrdinary, behind⟩ := List.forall_mem_cons.mp ordinary
            rw [← List.singleton_append]
            apply Passes.append (passes_inQuotes depth isOrdinary.2.1 isOrdinary.1 isOrdinary.2.2)
            exact ih behind
  | plain notBackslash notQuote notLineFeed =>
      exact passes_inQuotes depth notBackslash notQuote notLineFeed

theorem passes_escapeText (text : Text) (depth : Nat) :
    (inQuotes depth).Passes excluded (Literal.escape text) := by
  induction text with
  | nil => exact ⟨True.intro, rfl⟩
  | cons character text ih =>
      rw [Literal.escape, List.flatMap_cons]
      exact (passes_written (Literal.written_escapeChar character) depth).append ih

/-- Whatever a quoted text holds, the scans pass over it. -/
theorem passes_quote (notExcluded : '"' ∉ excluded) (text : Text) (depth : Nat) :
    Passes excluded ⟨depth, .none⟩ (Literal.quote text) := by
  rcases passes_escapeText text depth with ⟨excludes, back⟩
  have opened : feedChar ⟨depth, .none⟩ '"' = inQuotes depth := rfl
  constructor
  · rw [Literal.quote, List.cons_append]
    refine ⟨by decide, .inr notExcluded, ?_⟩
    rw [opened]
    apply excludes.append
    rw [back]
    exact ⟨by decide, .inl rfl, True.intro⟩
  · have fed : feedText ⟨depth, .none⟩ ('"' :: Literal.escape text) = inQuotes depth := by
      rw [feedText, List.foldl_cons, opened]
      exact back
    rw [Literal.quote, feedText_append, fed]
    rfl

end Cursor

end FluentLog
