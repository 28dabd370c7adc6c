import FluentLog.Chain.Span
import Mathlib.Data.List.Basic
import Mathlib.Data.List.TakeWhile

namespace FluentLog

/-!
# What the matchers of calls accept

The matchers read tokens with blanks between them.  For a dialect whose names are
identifiers every token begins with a byte that is no blank, so where a call stands
is decided by its own bytes and not by the text behind it.  The theorems here give
the bytes of each call: `IsNamed` for a name with blanks around it, `IsBareMessage`
for what stands between the parentheses of a qualifying message call, `IsInitial`
for a whole initial call.  Each matcher accepts exactly the texts that begin with
such bytes.
-/

/-! ## Dialects of identifiers -/

/-- Whether a name consists of bytes that can continue an identifier, and of
at least one. -/
def isIdentifierWord (word : String) : Bool :=
  !(Utf8.ofString word).isEmpty && (Utf8.ofString word).all isIdentifierByte

theorem Utf8.ofString_append (left right : String) :
    Utf8.ofString (left ++ right) = Utf8.ofString left ++ Utf8.ofString right := by
  rw [Utf8.ofString, String.toList_append, Utf8.encode_append]
  rfl

namespace Dialect

def words (dialect : Dialect) : List String :=
  dialect.receivers ++ dialect.levels ++
    [dialect.levelPrefix, dialect.messageMethod, dialect.argumentMethod, dialect.terminalMethod]

/-- Whether all names of a dialect are identifiers.  A settings file may hold
others, and then the matchers, which look at bytes, and the scanners, which
know literals, may disagree. -/
def HasIdentifierWords (dialect : Dialect) : Prop :=
  ∀ word ∈ dialect.words, isIdentifierWord word = true

instance (dialect : Dialect) : Decidable dialect.HasIdentifierWords :=
  inferInstanceAs (Decidable (∀ word ∈ dialect.words, isIdentifierWord word = true))

theorem hasIdentifierWords_default : HasIdentifierWords {} := by decide +kernel

variable {dialect : Dialect}

theorem HasIdentifierWords.messageMethod (identifiers : dialect.HasIdentifierWords) :
    isIdentifierWord dialect.messageMethod = true :=
  identifiers _ (by simp [words])

theorem HasIdentifierWords.argumentMethod (identifiers : dialect.HasIdentifierWords) :
    isIdentifierWord dialect.argumentMethod = true :=
  identifiers _ (by simp [words])

theorem HasIdentifierWords.terminalMethod (identifiers : dialect.HasIdentifierWords) :
    isIdentifierWord dialect.terminalMethod = true :=
  identifiers _ (by simp [words])

theorem HasIdentifierWords.levelPrefix (identifiers : dialect.HasIdentifierWords) :
    isIdentifierWord dialect.levelPrefix = true :=
  identifiers _ (by simp [words])

theorem HasIdentifierWords.receiver (identifiers : dialect.HasIdentifierWords)
    {receiver : String} (member : receiver ∈ dialect.receivers) :
    isIdentifierWord receiver = true :=
  identifiers _ (by simp [words, member])

theorem HasIdentifierWords.level (identifiers : dialect.HasIdentifierWords)
    {level : String} (member : level ∈ dialect.levels) :
    isIdentifierWord level = true :=
  identifiers _ (by simp [words, member])

theorem HasIdentifierWords.levelled (identifiers : dialect.HasIdentifierWords)
    {level : String} (member : level ∈ dialect.levels) :
    isIdentifierWord (dialect.levelPrefix ++ level) = true := by
  have isPrefix := identifiers.levelPrefix
  have isLevel := identifiers.level member
  rw [isIdentifierWord, Bool.and_eq_true] at isPrefix isLevel ⊢
  rw [Utf8.ofString_append, List.all_append, Bool.and_eq_true]
  refine ⟨?_, isPrefix.2, isLevel.2⟩
  cases bytes : Utf8.ofString dialect.levelPrefix with
  | nil =>
      rw [bytes] at isPrefix
      cases isPrefix.1
  | cons => rfl

end Dialect

/-! ## Bytes -/

def IsBlank (bytes : Bytes) : Prop := ∀ byte ∈ bytes, isBlankByte byte = true

theorem isBlank_nil : IsBlank [] := fun _ member => absurd member List.not_mem_nil

theorem not_isBlankByte_of_isIdentifierByte {byte : UInt8}
    (identifier : isIdentifierByte byte = true) : isBlankByte byte = false := by
  apply Bool.eq_false_iff.mpr
  intro blank
  simp only [isBlankByte, Bool.or_eq_true, decide_eq_true_eq] at blank
  rcases blank with (((rfl | rfl) | rfl) | rfl) | rfl <;> exact absurd identifier (by decide)

theorem not_isIdentifierByte_of_isBlankByte {byte : UInt8} (blank : isBlankByte byte = true) :
    isIdentifierByte byte = false := by
  cases identifier : isIdentifierByte byte with
  | false => rfl
  | true =>
      rw [not_isBlankByte_of_isIdentifierByte identifier] at blank
      cases blank

theorem identifierWord_spec {word : String} (identifier : isIdentifierWord word = true) :
    ∃ first others, Utf8.ofString word = first :: others ∧
      ∀ byte ∈ Utf8.ofString word, isIdentifierByte byte = true := by
  rw [isIdentifierWord, Bool.and_eq_true] at identifier
  rcases identifier with ⟨nonempty, all⟩
  cases bytes : Utf8.ofString word with
  | nil =>
      rw [bytes] at nonempty
      cases nonempty
  | cons first others =>
      rw [bytes] at all
      exact ⟨first, others, rfl, List.all_eq_true.mp all⟩

/-- Two ways to begin a text with a longest run of bytes of one class are the
same. -/
theorem run_unique {p : UInt8 -> Bool} {first second behindFirst behindSecond : Bytes}
    (allFirst : ∀ byte ∈ first, p byte = true) (allSecond : ∀ byte ∈ second, p byte = true)
    (firstStops : ∀ byte ∈ behindFirst.head?, p byte = false)
    (secondStops : ∀ byte ∈ behindSecond.head?, p byte = false)
    (same : first ++ behindFirst = second ++ behindSecond) :
    first = second ∧ behindFirst = behindSecond := by
  have taken : forall {run behind : Bytes}, (∀ byte ∈ run, p byte = true) ->
      (∀ byte ∈ behind.head?, p byte = false) -> (run ++ behind).takeWhile p = run := by
    intro run behind all stops
    rw [List.takeWhile_append_of_pos all]
    cases behind with
    | nil => simp
    | cons byte behind =>
        rw [List.takeWhile_cons_of_neg (by simp [stops byte rfl]), List.append_nil]
  have sameRun : first = second := by
    rw [← taken allFirst firstStops, same, taken allSecond secondStops]
  subst sameRun
  exact ⟨rfl, List.append_cancel_left same⟩

/-- A word ends where it is followed by blanks and a byte that continues no
identifier. -/
theorem boundary_of_isBlank {blanks : Bytes} (blank : IsBlank blanks) (next : UInt8)
    (stops : isIdentifierByte next = false) (rest : Bytes) :
    ∀ byte ∈ (blanks ++ next :: rest).head?, isIdentifierByte byte = false := by
  cases blanks with
  | nil =>
      rintro byte ⟨rfl⟩
      exact stops
  | cons first others =>
      rintro byte ⟨rfl⟩
      exact not_isIdentifierByte_of_isBlankByte (blank first List.mem_cons_self)

/-! ## Places -/

namespace Place

theorem eat_eq_some_iff {token : Bytes} {place after : Place} :
    place.eat token = some after ↔
      place.rest = token ++ after.rest ∧ after.offset = place.offset + token.length := by
  rw [eat, Option.map_eq_some_iff]
  constructor
  · rintro ⟨rest, isPrefix, rfl⟩
    exact ⟨(List.isPrefixOf?_eq_some_iff_append_eq.mp isPrefix).symm, rfl⟩
  · rintro ⟨same, atOffset⟩
    refine ⟨after.rest, List.isPrefixOf?_eq_some_iff_append_eq.mpr same.symm, ?_⟩
    rw [← atOffset]

theorem skipBlanks_append {blanks rest : Bytes} (blank : IsBlank blanks)
    (stops : ∀ byte ∈ rest.head?, isBlankByte byte = false) (offset : Nat) :
    skipBlanks ⟨offset, blanks ++ rest⟩ = ⟨offset + blanks.length, rest⟩ := by
  have taken : (blanks ++ rest).takeWhile isBlankByte = blanks := by
    rw [List.takeWhile_append_of_pos blank]
    cases rest with
    | nil => simp
    | cons byte rest =>
        rw [List.takeWhile_cons_of_neg (by simp [stops byte rfl]), List.append_nil]
  have dropped : (blanks ++ rest).dropWhile isBlankByte = rest := by
    rw [List.dropWhile_append_of_pos blank]
    cases rest with
    | nil => rfl
    | cons byte rest => rw [List.dropWhile_cons_of_neg (by simp [stops byte rfl])]
  rw [skipBlanks, taken, dropped]

theorem exists_skipBlanks (place : Place) :
    ∃ blanks, IsBlank blanks ∧ place.rest = blanks ++ place.skipBlanks.rest ∧
      place.skipBlanks.offset = place.offset + blanks.length :=
  ⟨place.rest.takeWhile isBlankByte, fun _ member => List.mem_takeWhile_imp member,
    List.takeWhile_append_dropWhile.symm, rfl⟩

theorem skipBlanks_eat_eq_some_iff {first : UInt8} {others : Bytes}
    (notBlank : isBlankByte first = false) {place after : Place} :
    place.skipBlanks.eat (first :: others) = some after ↔
      ∃ blanks, IsBlank blanks ∧ place.rest = blanks ++ first :: others ++ after.rest ∧
        after.offset = place.offset + blanks.length + (first :: others).length := by
  rw [eat_eq_some_iff]
  constructor
  · rintro ⟨same, atOffset⟩
    rcases place.exists_skipBlanks with ⟨blanks, blank, split, skipped⟩
    refine ⟨blanks, blank, ?_, ?_⟩
    · rw [split, same, List.append_assoc]
    · rw [atOffset, skipped]
  · rintro ⟨blanks, blank, same, atOffset⟩
    have skipped : place.skipBlanks =
        ⟨place.offset + blanks.length, first :: others ++ after.rest⟩ := by
      rcases place with ⟨offset, rest⟩
      have split : rest = blanks ++ (first :: others ++ after.rest) := by
        rw [← List.append_assoc]
        exact same
      rw [split]
      exact skipBlanks_append blank (by rintro byte ⟨rfl⟩; exact notBlank) offset
    rw [skipped]
    exact ⟨rfl, atOffset⟩

theorem eatByte_eq (byte : UInt8) (place : Place) : place.eatByte byte = place.eat [byte] := rfl

theorem eatWord_eq_some_iff {word : String} {place after : Place} :
    place.eatWord word = some after ↔
      place.eat (Utf8.ofString word) = some after ∧
        ∀ byte ∈ after.rest.head?, isIdentifierByte byte = false := by
  rw [eatWord, Option.bind_eq_bind, Option.bind_eq_some_iff]
  constructor
  · rintro ⟨next, eaten, ended⟩
    split at ended
    · cases ended
    · rename_i boundary
      injection ended with same
      subst same
      refine ⟨eaten, ?_⟩
      intro byte isHead
      rw [Option.mem_def] at isHead
      simpa [isHead] using boundary
  · rintro ⟨eaten, boundary⟩
    refine ⟨after, eaten, ?_⟩
    rw [if_neg]
    intro continues
    rw [Option.any_eq_true] at continues
    rcases continues with ⟨byte, isHead, identifier⟩
    rw [boundary byte isHead] at identifier
    cases identifier

theorem skipBlanks_eatWord_eq_some_iff {word : String}
    (identifier : isIdentifierWord word = true) {place after : Place} :
    place.skipBlanks.eatWord word = some after ↔
      ∃ blanks, IsBlank blanks ∧ place.rest = blanks ++ Utf8.ofString word ++ after.rest ∧
        after.offset = place.offset + blanks.length + (Utf8.ofString word).length ∧
        ∀ byte ∈ after.rest.head?, isIdentifierByte byte = false := by
  rcases identifierWord_spec identifier with ⟨first, others, bytes, all⟩
  have notBlank : isBlankByte first = false :=
    not_isBlankByte_of_isIdentifierByte (all first (by rw [bytes]; exact List.mem_cons_self))
  rw [eatWord_eq_some_iff, bytes, skipBlanks_eat_eq_some_iff notBlank]
  constructor
  · rintro ⟨⟨blanks, blank, same, atOffset⟩, boundary⟩
    exact ⟨blanks, blank, same, atOffset, boundary⟩
  · rintro ⟨blanks, blank, same, atOffset, boundary⟩
    exact ⟨⟨blanks, blank, same, atOffset⟩, boundary⟩

theorem eatEmptyParens_eq_some_iff {place after : Place} :
    place.eatEmptyParens = some after ↔
      ∃ before inside, IsBlank before ∧ IsBlank inside ∧
        place.rest = before ++ Byte.openParen :: inside ++ Byte.closeParen :: after.rest ∧
        after.offset = place.offset + before.length + 1 + inside.length + 1 := by
  rw [eatEmptyParens, Option.bind_eq_bind, Option.bind_eq_some_iff]
  constructor
  · rintro ⟨opened, eatenOpen, eatenClose⟩
    rcases (skipBlanks_eat_eq_some_iff (by decide)).mp eatenOpen with
      ⟨before, blankBefore, sameOpen, openOffset⟩
    rcases (skipBlanks_eat_eq_some_iff (by decide)).mp eatenClose with
      ⟨inside, blankInside, sameClose, closeOffset⟩
    refine ⟨before, inside, blankBefore, blankInside, ?_, ?_⟩
    · rw [sameOpen, sameClose]
      simp
    · rw [closeOffset, openOffset]
      simp
  · rintro ⟨before, inside, blankBefore, blankInside, same, atOffset⟩
    refine ⟨⟨place.offset + before.length + 1, inside ++ Byte.closeParen :: after.rest⟩, ?_, ?_⟩
    · exact (skipBlanks_eat_eq_some_iff (by decide)).mpr ⟨before, blankBefore, by simp [same], rfl⟩
    · exact (skipBlanks_eat_eq_some_iff (by decide)).mpr
        ⟨inside, blankInside, by simp, by simp [atOffset]⟩

end Place

/-! ## Calls -/

namespace Call

def IsNamed (word : String) (bytes : Bytes) : Prop :=
  ∃ before behind, IsBlank before ∧ IsBlank behind ∧
    bytes = before ++ Utf8.ofString word ++ behind

/-- What stands between the parentheses of a qualifying message call: quoted
braces, with blanks around the quotes and around the braces. -/
def IsBareMessage (bytes : Bytes) : Prop :=
  ∃ before left right behind, IsBlank before ∧ IsBlank left ∧ IsBlank right ∧ IsBlank behind ∧
    bytes = before ++ Byte.doubleQuote :: left ++ [Byte.openBrace, Byte.closeBrace] ++ right ++
      Byte.doubleQuote :: behind

def IsInitial (dialect : Dialect) (bytes : Bytes) : Prop :=
  ∃ receiver ∈ dialect.receivers, ∃ level ∈ dialect.levels, ∃ behind before last inside,
    IsBlank behind ∧ IsBlank before ∧ IsBlank last ∧ IsBlank inside ∧
    bytes = Utf8.ofString receiver ++ behind ++ Byte.dot :: before ++
      Utf8.ofString dialect.levelPrefix ++ Utf8.ofString level ++ last ++
      Byte.openParen :: inside ++ [Byte.closeParen]

theorem named_open_eq_some_iff {word : String} (identifier : isIdentifierWord word = true)
    {place opened : Place} :
    ((place.skipBlanks.eatWord word).bind fun named => named.skipBlanks.eatByte Byte.openParen) =
        some opened ↔
      ∃ lead, IsNamed word lead ∧ place.rest = lead ++ Byte.openParen :: opened.rest ∧
        opened.offset = place.offset + lead.length + 1 := by
  rw [Option.bind_eq_some_iff]
  constructor
  · rintro ⟨named, eatenWord, eatenOpen⟩
    rcases (Place.skipBlanks_eatWord_eq_some_iff identifier).mp eatenWord with
      ⟨before, blankBefore, sameWord, wordOffset, -⟩
    rcases (Place.skipBlanks_eat_eq_some_iff (by decide)).mp eatenOpen with
      ⟨behind, blankBehind, sameOpen, openOffset⟩
    refine ⟨before ++ Utf8.ofString word ++ behind,
      ⟨before, behind, blankBefore, blankBehind, rfl⟩, ?_, ?_⟩
    · rw [sameWord, sameOpen]
      simp
    · rw [openOffset, wordOffset]
      simp
      omega
  · rintro ⟨lead, ⟨before, behind, blankBefore, blankBehind, rfl⟩, same, atOffset⟩
    refine ⟨⟨place.offset + before.length + (Utf8.ofString word).length,
      behind ++ Byte.openParen :: opened.rest⟩, ?_, ?_⟩
    · apply (Place.skipBlanks_eatWord_eq_some_iff identifier).mpr
      exact ⟨before, blankBefore, by simp [same], rfl,
        boundary_of_isBlank blankBehind Byte.openParen (by decide) opened.rest⟩
    · apply (Place.skipBlanks_eat_eq_some_iff (by decide)).mpr
      refine ⟨behind, blankBehind, by simp, ?_⟩
      rw [atOffset]
      simp
      omega

theorem argument?_eq_some_iff {dialect : Dialect} (identifiers : dialect.HasIdentifierWords)
    {place opened : Place} :
    argument? dialect place = some opened ↔
      ∃ lead, IsNamed dialect.argumentMethod lead ∧
        place.rest = lead ++ Byte.openParen :: opened.rest ∧
        opened.offset = place.offset + lead.length + 1 :=
  named_open_eq_some_iff identifiers.argumentMethod

theorem terminal?_eq_some_iff {dialect : Dialect} (identifiers : dialect.HasIdentifierWords)
    {place : Place} {stop : Nat} :
    terminal? dialect place = some stop ↔
      ∃ lead inside after, IsNamed dialect.terminalMethod lead ∧ IsBlank inside ∧
        place.rest = lead ++ Byte.openParen :: inside ++ Byte.closeParen :: after ∧
        stop = place.offset + lead.length + inside.length + 2 := by
  rw [terminal?, Option.bind_eq_bind, Option.bind_eq_some_iff]
  constructor
  · rintro ⟨named, eatenWord, closes⟩
    rw [Option.bind_eq_some_iff] at closes
    rcases closes with ⟨closed, eatenParens, atStop⟩
    injection atStop with atStop
    rcases (Place.skipBlanks_eatWord_eq_some_iff identifiers.terminalMethod).mp eatenWord with
      ⟨before, blankBefore, sameWord, wordOffset, -⟩
    rcases Place.eatEmptyParens_eq_some_iff.mp eatenParens with
      ⟨behind, inside, blankBehind, blankInside, sameParens, parensOffset⟩
    refine ⟨before ++ Utf8.ofString dialect.terminalMethod ++ behind, inside, closed.rest,
      ⟨before, behind, blankBefore, blankBehind, rfl⟩, blankInside, ?_, ?_⟩
    · rw [sameWord, sameParens]
      simp
    · rw [← atStop, parensOffset, wordOffset]
      simp
      omega
  · rintro ⟨lead, inside, after, ⟨before, behind, blankBefore, blankBehind, rfl⟩, blankInside,
      same, atStop⟩
    refine ⟨⟨place.offset + before.length + (Utf8.ofString dialect.terminalMethod).length,
      behind ++ Byte.openParen :: inside ++ Byte.closeParen :: after⟩, ?_, ?_⟩
    · apply (Place.skipBlanks_eatWord_eq_some_iff identifiers.terminalMethod).mpr
      refine ⟨before, blankBefore, by simp [same], rfl, ?_⟩
      have boundary := boundary_of_isBlank blankBehind Byte.openParen (by decide)
        (inside ++ Byte.closeParen :: after)
      simpa using boundary
    · rw [Option.bind_eq_some_iff]
      refine ⟨⟨stop, after⟩, ?_, rfl⟩
      apply Place.eatEmptyParens_eq_some_iff.mpr
      refine ⟨behind, inside, blankBehind, blankInside, rfl, ?_⟩
      rw [atStop]
      simp
      omega

theorem bareMessage_eq_some_iff {opened : Place} {call : Message} :
    ((opened.skipBlanks.eatByte Byte.doubleQuote).bind fun quoted =>
      (quoted.skipBlanks.eat [Byte.openBrace, Byte.closeBrace]).bind fun braced =>
        (braced.skipBlanks.eatByte Byte.doubleQuote).bind fun unquoted =>
          (unquoted.skipBlanks.eatByte Byte.closeParen).bind fun closed =>
            some (⟨⟨opened.offset, unquoted.skipBlanks.offset⟩, closed.offset⟩ : Message)) =
        some call ↔
      ∃ argument after, IsBareMessage argument ∧
        opened.rest = argument ++ Byte.closeParen :: after ∧
        call = ⟨⟨opened.offset, opened.offset + argument.length⟩,
          opened.offset + argument.length + 1⟩ := by
  simp only [Option.bind_eq_some_iff, Place.eatByte_eq]
  constructor
  · rintro ⟨quoted, eatenQuote, braced, eatenBraces, unquoted, eatenUnquote, closed, eatenClose,
      isCall⟩
    injection isCall with isCall
    rcases (Place.skipBlanks_eat_eq_some_iff (by decide)).mp eatenQuote with
      ⟨before, blankBefore, sameQuote, quoteOffset⟩
    rcases (Place.skipBlanks_eat_eq_some_iff (by decide)).mp eatenBraces with
      ⟨left, blankLeft, sameBraces, bracesOffset⟩
    rcases (Place.skipBlanks_eat_eq_some_iff (by decide)).mp eatenUnquote with
      ⟨right, blankRight, sameUnquote, unquoteOffset⟩
    rcases Place.eat_eq_some_iff.mp eatenClose with ⟨ended, closedOffset⟩
    rcases unquoted.exists_skipBlanks with ⟨behind, blankBehind, split, endOffset⟩
    refine ⟨_, closed.rest,
      ⟨before, left, right, behind, blankBefore, blankLeft, blankRight, blankBehind, rfl⟩, ?_, ?_⟩
    · rw [sameQuote, sameBraces, sameUnquote, split, ended]
      simp
    · rw [← isCall, closedOffset, endOffset, unquoteOffset, bracesOffset, quoteOffset]
      simp
      omega
  · rintro ⟨argument, after,
      ⟨before, left, right, behind, blankBefore, blankLeft, blankRight, blankBehind, rfl⟩,
      same, rfl⟩
    refine ⟨⟨opened.offset + before.length + 1, left ++ [Byte.openBrace, Byte.closeBrace] ++
        right ++ Byte.doubleQuote :: behind ++ Byte.closeParen :: after⟩, ?_,
      ⟨opened.offset + before.length + 1 + left.length + 2,
        right ++ Byte.doubleQuote :: behind ++ Byte.closeParen :: after⟩, ?_,
      ⟨opened.offset + before.length + 1 + left.length + 2 + right.length + 1,
        behind ++ Byte.closeParen :: after⟩, ?_, ?_⟩
    · exact (Place.skipBlanks_eat_eq_some_iff (by decide)).mpr
        ⟨before, blankBefore, by simp [same], rfl⟩
    · exact (Place.skipBlanks_eat_eq_some_iff (by decide)).mpr ⟨left, blankLeft, by simp, rfl⟩
    · exact (Place.skipBlanks_eat_eq_some_iff (by decide)).mpr ⟨right, blankRight, by simp, rfl⟩
    · rw [Place.skipBlanks_append blankBehind (by rintro byte ⟨rfl⟩; decide)]
      refine ⟨⟨_, after⟩, Place.eat_eq_some_iff.mpr ⟨rfl, rfl⟩, ?_⟩
      simp
      omega

theorem message?_eq_some_iff {dialect : Dialect} (identifiers : dialect.HasIdentifierWords)
    {place : Place} {call : Message} :
    message? dialect place = some call ↔
      ∃ lead argument after, IsNamed dialect.messageMethod lead ∧ IsBareMessage argument ∧
        place.rest = lead ++ Byte.openParen :: argument ++ Byte.closeParen :: after ∧
        call = ⟨⟨place.offset + lead.length + 1, place.offset + lead.length + 1 + argument.length⟩,
          place.offset + lead.length + 1 + argument.length + 1⟩ := by
  have sameCall : message? dialect place =
      ((place.skipBlanks.eatWord dialect.messageMethod).bind fun named =>
        named.skipBlanks.eatByte Byte.openParen).bind fun opened =>
          (opened.skipBlanks.eatByte Byte.doubleQuote).bind fun quoted =>
            (quoted.skipBlanks.eat [Byte.openBrace, Byte.closeBrace]).bind fun braced =>
              (braced.skipBlanks.eatByte Byte.doubleQuote).bind fun unquoted =>
                (unquoted.skipBlanks.eatByte Byte.closeParen).bind fun closed =>
                  some ⟨⟨opened.offset, unquoted.skipBlanks.offset⟩, closed.offset⟩ := by
    rw [Option.bind_assoc]
    rfl
  rw [sameCall, Option.bind_eq_some_iff]
  constructor
  · rintro ⟨opened, isOpened, isCall⟩
    rcases (named_open_eq_some_iff identifiers.messageMethod).mp isOpened with
      ⟨lead, named, same, atOffset⟩
    rcases bareMessage_eq_some_iff.mp isCall with ⟨argument, after, bare, sameRest, rfl⟩
    refine ⟨lead, argument, after, named, bare, ?_, by rw [atOffset]⟩
    rw [same, sameRest]
    simp
  · rintro ⟨lead, argument, after, named, bare, same, rfl⟩
    refine ⟨⟨place.offset + lead.length + 1, argument ++ Byte.closeParen :: after⟩, ?_, ?_⟩
    · exact (named_open_eq_some_iff identifiers.messageMethod).mpr
        ⟨lead, named, by simp [same], rfl⟩
    · exact bareMessage_eq_some_iff.mpr ⟨argument, after, bare, rfl, rfl⟩

/-! ## Initial calls -/

theorem level_eq_some_iff {level receiver : String} {levelled : Place} {call : Initial} :
    ((levelled.eatWord level).bind fun after => after.eatEmptyParens.bind fun closed =>
      some (⟨receiver, level, closed.offset⟩ : Initial)) = some call ↔
      ∃ last inside after, IsBlank last ∧ IsBlank inside ∧
        levelled.rest = Utf8.ofString level ++ last ++ Byte.openParen :: inside ++
          Byte.closeParen :: after ∧
        call = ⟨receiver, level, levelled.offset + (Utf8.ofString level).length + last.length +
          inside.length + 2⟩ := by
  rw [Option.bind_eq_some_iff]
  constructor
  · rintro ⟨named, eatenWord, closes⟩
    rcases Option.bind_eq_some_iff.mp closes with ⟨closed, eatenParens, isCall⟩
    injection isCall with isCall
    rcases Place.eatWord_eq_some_iff.mp eatenWord with ⟨eaten, -⟩
    rcases Place.eat_eq_some_iff.mp eaten with ⟨sameWord, wordOffset⟩
    rcases Place.eatEmptyParens_eq_some_iff.mp eatenParens with
      ⟨last, inside, blankLast, blankInside, sameParens, parensOffset⟩
    refine ⟨last, inside, closed.rest, blankLast, blankInside, ?_, ?_⟩
    · rw [sameWord, sameParens]
      simp
    · rw [← isCall, parensOffset, wordOffset]
      congr 1
      omega
  · rintro ⟨last, inside, after, blankLast, blankInside, same, rfl⟩
    refine ⟨⟨levelled.offset + (Utf8.ofString level).length,
      last ++ Byte.openParen :: inside ++ Byte.closeParen :: after⟩, ?_, ?_⟩
    · apply Place.eatWord_eq_some_iff.mpr
      refine ⟨Place.eat_eq_some_iff.mpr ⟨by simp [same], rfl⟩, ?_⟩
      have boundary := boundary_of_isBlank blankLast Byte.openParen (by decide)
        (inside ++ Byte.closeParen :: after)
      simpa using boundary
    · rw [Option.bind_eq_some_iff]
      refine ⟨⟨levelled.offset + (Utf8.ofString level).length + last.length + inside.length + 2,
        after⟩, ?_, rfl⟩
      apply Place.eatEmptyParens_eq_some_iff.mpr
      refine ⟨last, inside, blankLast, blankInside, rfl, ?_⟩
      simp only
      omega

theorem receiver_eq_some_iff {dialect : Dialect} (identifiers : dialect.HasIdentifierWords)
    {receiver : String} {place levelled : Place} :
    ((place.eatWord receiver).bind fun named =>
      (named.skipBlanks.eatByte Byte.dot).bind fun dotted =>
        dotted.skipBlanks.eat (Utf8.ofString dialect.levelPrefix)) = some levelled ↔
      ∃ behind before, IsBlank behind ∧ IsBlank before ∧
        place.rest = Utf8.ofString receiver ++ behind ++ Byte.dot :: before ++
          Utf8.ofString dialect.levelPrefix ++ levelled.rest ∧
        levelled.offset = place.offset + (Utf8.ofString receiver).length + behind.length + 1 +
          before.length + (Utf8.ofString dialect.levelPrefix).length := by
  rcases identifierWord_spec identifiers.levelPrefix with ⟨first, others, prefixBytes, all⟩
  have notBlank : isBlankByte first = false :=
    not_isBlankByte_of_isIdentifierByte (all first (by rw [prefixBytes]; exact List.mem_cons_self))
  rw [prefixBytes]
  simp only [Option.bind_eq_some_iff, Place.eatByte_eq]
  constructor
  · rintro ⟨named, eatenWord, dotted, eatenDot, eatenPrefix⟩
    rcases Place.eatWord_eq_some_iff.mp eatenWord with ⟨eaten, -⟩
    rcases Place.eat_eq_some_iff.mp eaten with ⟨sameWord, wordOffset⟩
    rcases (Place.skipBlanks_eat_eq_some_iff (by decide)).mp eatenDot with
      ⟨behind, blankBehind, sameDot, dotOffset⟩
    rcases (Place.skipBlanks_eat_eq_some_iff notBlank).mp eatenPrefix with
      ⟨before, blankBefore, samePrefix, prefixOffset⟩
    refine ⟨behind, before, blankBehind, blankBefore, ?_, ?_⟩
    · rw [sameWord, sameDot, samePrefix]
      simp
    · rw [prefixOffset, dotOffset, wordOffset]
      simp
  · rintro ⟨behind, before, blankBehind, blankBefore, same, atOffset⟩
    refine ⟨⟨place.offset + (Utf8.ofString receiver).length,
        behind ++ Byte.dot :: before ++ first :: others ++ levelled.rest⟩, ?_,
      ⟨place.offset + (Utf8.ofString receiver).length + behind.length + 1,
        before ++ first :: others ++ levelled.rest⟩, ?_, ?_⟩
    · apply Place.eatWord_eq_some_iff.mpr
      refine ⟨Place.eat_eq_some_iff.mpr ⟨by simp [same], rfl⟩, ?_⟩
      have boundary := boundary_of_isBlank blankBehind Byte.dot (by decide)
        (before ++ first :: others ++ levelled.rest)
      simpa using boundary
    · exact (Place.skipBlanks_eat_eq_some_iff (by decide)).mpr ⟨behind, blankBehind, by simp, rfl⟩
    · apply (Place.skipBlanks_eat_eq_some_iff notBlank).mpr
      exact ⟨before, blankBefore, rfl, atOffset⟩

theorem initial?_eq (dialect : Dialect) (place : Place) :
    initial? dialect place = dialect.receivers.findSome? fun receiver =>
      ((place.eatWord receiver).bind fun named =>
        (named.skipBlanks.eatByte Byte.dot).bind fun dotted =>
          dotted.skipBlanks.eat (Utf8.ofString dialect.levelPrefix)).bind fun levelled =>
            dialect.levels.findSome? fun level =>
              (levelled.eatWord level).bind fun after => after.eatEmptyParens.bind fun closed =>
                some ⟨receiver, level, closed.offset⟩ := by
  simp only [initial?, Option.bind_assoc]
  rfl

theorem initial?_spec {dialect : Dialect} (identifiers : dialect.HasIdentifierWords)
    {place : Place} {call : Initial} (found : initial? dialect place = some call) :
    ∃ bytes after, IsInitial dialect bytes ∧ place.rest = bytes ++ after ∧
      call.stop = place.offset + bytes.length := by
  rw [initial?_eq] at found
  rcases List.exists_of_findSome?_eq_some found with ⟨receiver, isReceiver, found⟩
  rcases Option.bind_eq_some_iff.mp found with ⟨levelled, received, found⟩
  rcases List.exists_of_findSome?_eq_some found with ⟨level, isLevel, found⟩
  rcases (receiver_eq_some_iff identifiers).mp received with
    ⟨behind, before, blankBehind, blankBefore, same, levelOffset⟩
  rcases level_eq_some_iff.mp found with
    ⟨last, inside, after, blankLast, blankInside, sameLevel, rfl⟩
  refine ⟨_, after, ⟨receiver, isReceiver, level, isLevel, behind, before, last, inside,
    blankBehind, blankBefore, blankLast, blankInside, rfl⟩, ?_, ?_⟩
  · rw [same, sameLevel]
    simp
  · rw [levelOffset]
    simp
    omega

/-- A text begins with the bytes of at most one initial call.  Names end where
no byte continues an identifier, so neither of two can be a part of the other. -/
theorem IsInitial.unique {dialect : Dialect} (identifiers : dialect.HasIdentifierWords)
    {first second afterFirst afterSecond : Bytes} (isFirst : IsInitial dialect first)
    (isSecond : IsInitial dialect second) (same : first ++ afterFirst = second ++ afterSecond) :
    first = second ∧ afterFirst = afterSecond := by
  rcases isFirst with
    ⟨receiver, isReceiver, level, isLevel, behind, before, last, inside, blankBehind, blankBefore,
     blankLast, blankInside, rfl⟩
  rcases isSecond with
    ⟨receiver', isReceiver', level', isLevel', behind', before', last', inside', blankBehind',
     blankBefore', blankLast', blankInside', rfl⟩
  rcases identifierWord_spec (identifiers.receiver isReceiver) with ⟨_, _, _, receiverBytes⟩
  rcases identifierWord_spec (identifiers.receiver isReceiver') with ⟨_, _, _, receiverBytes'⟩
  rcases identifierWord_spec (identifiers.level isLevel) with ⟨_, _, _, levelBytes⟩
  rcases identifierWord_spec (identifiers.level isLevel') with ⟨_, _, _, levelBytes'⟩
  rcases identifierWord_spec identifiers.levelPrefix with ⟨initial, others, prefixBytes, allPrefix⟩
  have levelled : forall {level : String},
      (∀ byte ∈ Utf8.ofString level, isIdentifierByte byte = true) ->
        ∀ byte ∈ Utf8.ofString dialect.levelPrefix ++ Utf8.ofString level,
          isIdentifierByte byte = true := by
    intro level all byte member
    rcases List.mem_append.mp member with inPrefix | inLevel
    · exact allPrefix byte inPrefix
    · exact all byte inLevel
  have prefixStops : forall (rest : Bytes),
      ∀ byte ∈ (Utf8.ofString dialect.levelPrefix ++ rest).head?, isBlankByte byte = false := by
    intro rest byte isHead
    rw [prefixBytes] at isHead
    rcases isHead with ⟨rfl⟩
    exact not_isBlankByte_of_isIdentifierByte (allPrefix _ (by simp [prefixBytes]))
  simp only [List.append_assoc, List.cons_append, List.nil_append] at same
  rcases run_unique receiverBytes receiverBytes' (boundary_of_isBlank blankBehind Byte.dot (by
    decide) _) (boundary_of_isBlank blankBehind' Byte.dot (by decide) _) same with
    ⟨sameReceiver, fromBehind⟩
  obtain ⟨rfl, fromDot⟩ := run_unique blankBehind blankBehind' (by rintro byte ⟨rfl⟩; decide)
    (by rintro byte ⟨rfl⟩; decide) fromBehind
  rcases run_unique blankBefore blankBefore' (prefixStops _) (prefixStops _) (List.cons.inj
    fromDot).2 with
    ⟨rfl, fromPrefix⟩
  rw [← List.append_assoc, ← List.append_assoc (Utf8.ofString dialect.levelPrefix)] at fromPrefix
  rcases run_unique (levelled levelBytes) (levelled levelBytes') (boundary_of_isBlank blankLast
    Byte.openParen (by decide) _) (boundary_of_isBlank blankLast' Byte.openParen (by decide) _)
    fromPrefix with
    ⟨sameLevel, fromLast⟩
  obtain ⟨rfl, fromOpen⟩ := run_unique blankLast blankLast' (by rintro byte ⟨rfl⟩; decide)
    (by rintro byte ⟨rfl⟩; decide) fromLast
  obtain ⟨rfl, fromClose⟩ := run_unique blankInside blankInside' (by rintro byte ⟨rfl⟩; decide)
    (by rintro byte ⟨rfl⟩; decide) (List.cons.inj fromOpen).2
  refine ⟨?_, (List.cons.inj fromClose).2⟩
  rw [sameReceiver, List.append_cancel_left sameLevel]

theorem IsInitial.exists_initial? {dialect : Dialect} (identifiers : dialect.HasIdentifierWords)
    {bytes : Bytes} (isInitial : IsInitial dialect bytes) (offset : Nat) (after : Bytes) :
    ∃ call, initial? dialect ⟨offset, bytes ++ after⟩ = some call ∧
      call.stop = offset + bytes.length := by
  have isFound : (initial? dialect ⟨offset, bytes ++ after⟩).isSome = true := by
    rcases isInitial with
      ⟨receiver, isReceiver, level, isLevel, behind, before, last, inside, blankBehind,
       blankBefore, blankLast, blankInside, rfl⟩
    rw [initial?_eq, List.findSome?_isSome_iff]
    refine ⟨receiver, isReceiver, ?_⟩
    rw [Option.isSome_bind, Option.any_eq_true]
    refine ⟨⟨offset + (Utf8.ofString receiver).length + behind.length + 1 + before.length +
        (Utf8.ofString dialect.levelPrefix).length, Utf8.ofString level ++ last ++
        Byte.openParen :: inside ++ Byte.closeParen :: after⟩,
      (receiver_eq_some_iff identifiers).mpr
        ⟨behind, before, blankBehind, blankBefore, by simp, rfl⟩, ?_⟩
    rw [List.findSome?_isSome_iff]
    refine ⟨level, isLevel, ?_⟩
    rw [level_eq_some_iff.mpr ⟨last, inside, after, blankLast, blankInside, by simp, rfl⟩]
    rfl
  rcases Option.isSome_iff_exists.mp isFound with ⟨call, found⟩
  rcases initial?_spec identifiers found with ⟨found', after', isInitial', same, atStop⟩
  rcases isInitial.unique identifiers isInitial' same with ⟨rfl, -⟩
  exact ⟨call, found, atStop⟩

theorem IsInitial.match_eq_some_iff {dialect : Dialect} (identifiers : dialect.HasIdentifierWords)
    {bytes : Bytes} (isInitial : IsInitial dialect bytes) {receiver level : String}
    (isReceiver : receiver ∈ dialect.receivers) (isLevel : level ∈ dialect.levels)
    (offset : Nat) (after : Bytes) (call : Initial) :
    (((Place.eatWord receiver ⟨offset, bytes ++ after⟩).bind fun named =>
      (named.skipBlanks.eatByte Byte.dot).bind fun dotted =>
        dotted.skipBlanks.eat (Utf8.ofString dialect.levelPrefix)).bind fun levelled =>
          (levelled.eatWord level).bind fun after => after.eatEmptyParens.bind fun closed =>
            some ⟨receiver, level, closed.offset⟩) = some call ↔
      (∃ behind before last inside, IsBlank behind ∧ IsBlank before ∧ IsBlank last ∧
        IsBlank inside ∧ bytes = Utf8.ofString receiver ++ behind ++ Byte.dot :: before ++
          Utf8.ofString dialect.levelPrefix ++ Utf8.ofString level ++ last ++
          Byte.openParen :: inside ++ [Byte.closeParen]) ∧
        call = ⟨receiver, level, offset + bytes.length⟩ := by
  rw [Option.bind_eq_some_iff]
  constructor
  · rintro ⟨levelled, received, found⟩
    rcases (receiver_eq_some_iff identifiers).mp received with
      ⟨behind, before, blankBehind, blankBefore, same, levelOffset⟩
    rcases level_eq_some_iff.mp found with
      ⟨last, inside, rest, blankLast, blankInside, sameLevel, rfl⟩
    have isSecond : IsInitial dialect (Utf8.ofString receiver ++ behind ++ Byte.dot :: before ++
        Utf8.ofString dialect.levelPrefix ++ Utf8.ofString level ++ last ++
        Byte.openParen :: inside ++ [Byte.closeParen]) :=
      ⟨receiver, isReceiver, level, isLevel, behind, before, last, inside, blankBehind,
        blankBefore, blankLast, blankInside, rfl⟩
    have whole : bytes ++ after = (Utf8.ofString receiver ++ behind ++ Byte.dot :: before ++
        Utf8.ofString dialect.levelPrefix ++ Utf8.ofString level ++ last ++
        Byte.openParen :: inside ++ [Byte.closeParen]) ++ rest := by
      simp only at same
      rw [same, sameLevel]
      simp
    rcases isInitial.unique identifiers isSecond whole with ⟨isBytes, -⟩
    refine ⟨⟨behind, before, last, inside, blankBehind, blankBefore, blankLast, blankInside,
      isBytes⟩, ?_⟩
    rw [isBytes, levelOffset]
    simp
    omega
  · rintro ⟨⟨behind, before, last, inside, blankBehind, blankBefore, blankLast, blankInside,
      isBytes⟩, rfl⟩
    refine ⟨⟨offset + (Utf8.ofString receiver).length + behind.length + 1 + before.length +
        (Utf8.ofString dialect.levelPrefix).length, Utf8.ofString level ++ last ++
        Byte.openParen :: inside ++ Byte.closeParen :: after⟩,
      (receiver_eq_some_iff identifiers).mpr
        ⟨behind, before, blankBehind, blankBefore, by simp [isBytes], rfl⟩, ?_⟩
    refine level_eq_some_iff.mpr ⟨last, inside, after, blankLast, blankInside, by simp, ?_⟩
    rw [isBytes]
    simp
    omega

/-- Which initial call is found does not depend on what follows its bytes. -/
theorem IsInitial.initial?_congr {dialect : Dialect} (identifiers : dialect.HasIdentifierWords)
    {bytes : Bytes} (isInitial : IsInitial dialect bytes) (offset : Nat) (left right : Bytes) :
    initial? dialect ⟨offset, bytes ++ left⟩ = initial? dialect ⟨offset, bytes ++ right⟩ := by
  have congr : forall {α : Type} (items : List α) (first second : α -> Option Initial),
      (∀ item ∈ items, first item = second item) ->
        items.findSome? first = items.findSome? second := by
    intro α items first second same
    induction items with
    | nil => rfl
    | cons item items ih =>
        rw [List.findSome?_cons, List.findSome?_cons, same item List.mem_cons_self,
          ih fun other member => same other (List.mem_cons_of_mem item member)]
  have swap : forall (levelled? : Option Place) (read : Place -> String -> Option Initial),
      (levelled?.bind fun levelled => dialect.levels.findSome? (read levelled)) =
        dialect.levels.findSome? fun level => levelled?.bind fun levelled => read levelled level := by
    intro levelled? read
    cases levelled? with
    | none => exact (List.findSome?_eq_none_iff.mpr fun _ _ => rfl).symm
    | some levelled => rfl
  rw [initial?_eq, initial?_eq]
  apply congr
  intro receiver isReceiver
  rw [swap, swap]
  apply congr
  intro level isLevel
  ext call
  rw [isInitial.match_eq_some_iff identifiers isReceiver isLevel,
    isInitial.match_eq_some_iff identifiers isReceiver isLevel]

end Call
end FluentLog
