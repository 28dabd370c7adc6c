import FluentLog.Proofs.Chain.Matching
import FluentLog.Proofs.Code.Scanning

namespace FluentLog

/-!
# The bytes of calls

The two walks over a chain, the one that locates it and the one that looks for its
suppliers, pass over calls in different ways: they read them byte by byte or jump
behind them.  The theorems here say why this makes no difference.  A name in front
of a parenthesis means nothing to a scanner, so a call whose parentheses enclose
their text leaves the scanner as it was.  No call holds a dot, so no call begins
inside the name or the message of another, and no initial call begins inside any call.
-/

namespace Scanner

theorem isPlainByte_of_isBlankByte {byte : UInt8} (blank : isBlankByte byte = true) :
    isPlainByte byte = true := by
  simp only [isBlankByte, Bool.or_eq_true, decide_eq_true_eq] at blank
  rcases blank with (((rfl | rfl) | rfl) | rfl) | rfl <;> decide

theorem isPlainByte_of_isIdentifierByte {byte : UInt8}
    (identifier : isIdentifierByte byte = true) : isPlainByte byte = true := by
  simp only [isPlainByte, Bool.and_eq_true, bne_iff_ne, ne_eq]
  refine ⟨⟨⟨⟨?_, ?_⟩, ?_⟩, ?_⟩, ?_⟩ <;>
    · rintro rfl
      exact absurd identifier (by decide)

end Scanner

theorem IsBlank.plain {bytes : Bytes} (blank : IsBlank bytes) :
    ∀ byte ∈ bytes, Scanner.isPlainByte byte = true :=
  fun byte member => Scanner.isPlainByte_of_isBlankByte (blank byte member)

theorem IsBlank.dot_not_mem {bytes : Bytes} (blank : IsBlank bytes) : Byte.dot ∉ bytes :=
  fun member => absurd (blank Byte.dot member) (by decide)

namespace Call

/-! ## Names -/

theorem isNamed_append {word : String} {blanks : Bytes} (blank : IsBlank blanks) :
    IsNamed word (Utf8.ofString word ++ blanks) :=
  ⟨[], blanks, List.forall_mem_nil _, blank, rfl⟩

namespace IsNamed

variable {word : String} {bytes : Bytes}

theorem byte_cases (identifier : isIdentifierWord word = true) (named : IsNamed word bytes) :
    ∀ byte ∈ bytes, isBlankByte byte = true ∨ isIdentifierByte byte = true := by
  rcases named with ⟨before, behind, blankBefore, blankBehind, rfl⟩
  rcases identifierWord_spec identifier with ⟨_, _, _, all⟩
  intro byte member
  simp only [List.mem_append] at member
  rcases member with (inBefore | inWord) | inBehind
  · exact .inl (blankBefore byte inBefore)
  · exact .inr (all byte inWord)
  · exact .inl (blankBehind byte inBehind)

/-- A name means nothing to a scanner at rest. -/
theorem plain (identifier : isIdentifierWord word = true) (named : IsNamed word bytes) :
    ∀ byte ∈ bytes, Scanner.isPlainByte byte = true := by
  intro byte member
  rcases named.byte_cases identifier byte member with blank | continues
  · exact Scanner.isPlainByte_of_isBlankByte blank
  · exact Scanner.isPlainByte_of_isIdentifierByte continues

theorem dot_not_mem (identifier : isIdentifierWord word = true) (named : IsNamed word bytes) :
    Byte.dot ∉ bytes := by
  intro member
  rcases named.byte_cases identifier _ member with blank | continues
  · exact absurd blank (by decide)
  · exact absurd continues (by decide)

/-- A call holds no dot that does not stand between its parentheses. -/
theorem dot_not_mem_call (identifier : isIdentifierWord word = true) (named : IsNamed word bytes)
    {inside : Bytes} (noDot : Byte.dot ∉ inside) :
    Byte.dot ∉ bytes ++ Byte.openParen :: (inside ++ [Byte.closeParen]) := by
  have notParen : Byte.dot ≠ Byte.openParen ∧ Byte.dot ≠ Byte.closeParen := by decide
  simp [named.dot_not_mem identifier, noDot, notParen.1, notParen.2]

theorem openParen_not_mem (identifier : isIdentifierWord word = true)
    (named : IsNamed word bytes) : Byte.openParen ∉ bytes := by
  intro member
  exact absurd (named.plain identifier _ member) (by decide)

/-- What stands in front of the parenthesis of a call is unique. -/
theorem unique {other : String} {otherBytes after otherAfter : Bytes}
    (identifier : isIdentifierWord word = true) (named : IsNamed word bytes)
    (otherIdentifier : isIdentifierWord other = true) (otherNamed : IsNamed other otherBytes)
    (same : bytes ++ Byte.openParen :: after = otherBytes ++ Byte.openParen :: otherAfter) :
    bytes = otherBytes ∧ after = otherAfter := by
  have notOpen : forall {run : Bytes}, Byte.openParen ∉ run ->
      ∀ byte ∈ run, (byte != Byte.openParen) = true := by
    rintro run notMember byte member
    exact bne_iff_ne.mpr fun isOpen => notMember (isOpen ▸ member)
  obtain ⟨sameBytes, sameAfter⟩ := run_unique (notOpen (named.openParen_not_mem identifier))
    (notOpen (otherNamed.openParen_not_mem otherIdentifier))
    (by rintro byte ⟨rfl⟩; decide) (by rintro byte ⟨rfl⟩; decide) same
  exact ⟨sameBytes, (List.cons.inj sameAfter).2⟩

end IsNamed

theorem IsBareMessage.length_pos {bytes : Bytes} (bare : IsBareMessage bytes) :
    0 < bytes.length := by
  rcases bare with ⟨before, left, right, behind, -, -, -, -, rfl⟩
  simp only [List.length_append, List.length_cons]
  omega

theorem IsBareMessage.not_mem {bytes : Bytes} (bare : IsBareMessage bytes) {byte : UInt8}
    (notBlank : isBlankByte byte = false)
    (other : byte ∉ [Byte.doubleQuote, Byte.openBrace, Byte.closeBrace]) : byte ∉ bytes := by
  rcases bare with
    ⟨before, left, right, behind, blankBefore, blankLeft, blankRight, blankBehind, rfl⟩
  have notInBlanks : forall {blanks : Bytes}, IsBlank blanks -> byte ∉ blanks := by
    intro blanks blank member
    rw [blank byte member] at notBlank
    cases notBlank
  simp only [List.mem_cons, List.not_mem_nil, or_false, not_or] at other
  simp [notInBlanks blankBefore, notInBlanks blankLeft, notInBlanks blankRight,
    notInBlanks blankBehind, other]

theorem IsBareMessage.dot_not_mem {bytes : Bytes} (bare : IsBareMessage bytes) :
    Byte.dot ∉ bytes :=
  bare.not_mem rfl (by decide)

theorem IsBareMessage.closeParen_not_mem {bytes : Bytes} (bare : IsBareMessage bytes) :
    Byte.closeParen ∉ bytes :=
  bare.not_mem rfl (by decide)

end Call

/-! ## Calls and scanners -/

namespace Scanner

variable {word : String} {lead : Bytes}

theorem run_opened (identifier : isIdentifierWord word = true) (named : Call.IsNamed word lead)
    (depth : Nat) (ahead : Option UInt8) :
    (atRest depth).run ahead (Byte.dot :: lead ++ [Byte.openParen]) = atRest (depth + 1) := by
  have plain : ∀ byte ∈ Byte.dot :: lead, isPlainByte byte = true := by
    intro byte member
    rcases List.mem_cons.mp member with rfl | inLead
    · rfl
    · exact named.plain identifier byte inLead
  rw [run_append, run_atRest_plain plain, run_cons, step_atRest_open]
  rfl

/-- A call whose parentheses enclose their text leaves a scanner at rest at
its depth. -/
theorem run_call {inside : Bytes} (identifier : isIdentifierWord word = true)
    (named : Call.IsNamed word lead) (enclosed : IsEnclosed inside) (depth : Nat)
    (ahead : Option UInt8) :
    (atRest depth).run ahead
        (Byte.dot :: lead ++ Byte.openParen :: inside ++ [Byte.closeParen]) = atRest depth := by
  have split : Byte.dot :: lead ++ Byte.openParen :: inside ++ [Byte.closeParen] =
      (Byte.dot :: lead ++ [Byte.openParen]) ++ (inside ++ [Byte.closeParen]) := by
    simp
  rw [split, run_append, run_opened identifier named, run_append]
  exact congrArg (run · ahead [Byte.closeParen]) (enclosed.run_atRest (depth + 1))

/-- The same from behind the dot, which means nothing to a scanner. -/
theorem run_call_behind {inside : Bytes} (identifier : isIdentifierWord word = true)
    (named : Call.IsNamed word lead) (enclosed : IsEnclosed inside) (depth : Nat)
    (ahead : Option UInt8) :
    (atRest depth).run ahead (lead ++ Byte.openParen :: inside ++ [Byte.closeParen]) =
      atRest depth :=
  run_call identifier named enclosed depth ahead

theorem closesOwn_emptyCall {inside : Bytes} (plain : ∀ byte ∈ lead, isPlainByte byte = true)
    (plainInside : ∀ byte ∈ inside, isPlainByte byte = true) (depth : Nat)
    (ahead : Option UInt8) :
    (atRest depth).ClosesOwn ahead (lead ++ (Byte.openParen :: inside ++ [Byte.closeParen])) := by
  apply ClosesOwn.append (closesOwn_plain plain depth _)
  rw [run_atRest_plain plain, List.cons_append, ClosesOwn, step_atRest_open]
  refine ⟨fun closes => absurd closes.1 (by decide), ?_⟩
  apply ClosesOwn.append (closesOwn_plain plainInside (depth + 1) _)
  rw [run_atRest_plain plainInside, ClosesOwn, step_atRest_close]
  exact ⟨fun closes => absurd (Option.some.inj closes.2) (Nat.succ_ne_zero depth), True.intro⟩

end Scanner

/-! ## Where initial calls begin -/

variable {dialect : Dialect}

def StartsInitial (dialect : Dialect) (text : Bytes) : Prop :=
  ∃ bytes after, Call.IsInitial dialect bytes ∧ text = bytes ++ after

theorem StartsInitial.exists_dot (identifiers : dialect.HasIdentifierWords) {text : Bytes}
    (starts : StartsInitial dialect text) :
    ∃ first word blanks after, (∀ byte ∈ first :: word, isIdentifierByte byte = true) ∧
      IsBlank blanks ∧ text = first :: word ++ (blanks ++ Byte.dot :: after) := by
  rcases starts with ⟨bytes, after, ⟨receiver, isReceiver, level, -, behind, before, last, inside,
    blank, -, -, -, rfl⟩, rfl⟩
  rcases identifierWord_spec (identifiers.receiver isReceiver) with ⟨first, others, bytes, all⟩
  rw [bytes] at all
  refine ⟨first, others, behind, before ++ Utf8.ofString dialect.levelPrefix ++
    Utf8.ofString level ++ last ++ Byte.openParen :: inside ++ [Byte.closeParen] ++ after,
    all, blank, ?_⟩
  rw [bytes]
  simp

/-- Whether no initial call begins on a word boundary in a stretch of text,
whatever follows the stretch.  The byte in front of the stretch is given.  A
pass finds no chain in such a stretch. -/
def NoInitial (dialect : Dialect) : Option UInt8 -> Bytes -> Prop
  | _, [] => True
  | before, byte :: rest =>
      (before.any isIdentifierByte = true ∨
        forall after, ¬ StartsInitial dialect (byte :: rest ++ after)) ∧
      NoInitial dialect (some byte) rest

namespace NoInitial

theorem cons (identifiers : dialect.HasIdentifierWords) {byte : UInt8} {rest : Bytes}
    (notIdentifier : isIdentifierByte byte = false) (behind : NoInitial dialect (some byte) rest)
    (before : Option UInt8) : NoInitial dialect before (byte :: rest) := by
  refine ⟨.inr ?_, behind⟩
  intro after starts
  rcases starts.exists_dot identifiers with ⟨first, word, blanks, rest, all, -, same⟩
  rcases List.cons.inj same with ⟨rfl, -⟩
  rw [all byte List.mem_cons_self] at notIdentifier
  cases notIdentifier

theorem append (identifiers : dialect.HasIdentifierWords) {front rest : Bytes}
    (noIdentifier : ∀ byte ∈ front, isIdentifierByte byte = false)
    (behind : forall before, NoInitial dialect before rest) (before : Option UInt8) :
    NoInitial dialect before (front ++ rest) := by
  induction front generalizing before with
  | nil => exact behind before
  | cons byte front ih =>
      apply cons identifiers (noIdentifier byte List.mem_cons_self)
      exact ih (fun other member => noIdentifier other (List.mem_cons_of_mem byte member)) _

theorem blanks (identifiers : dialect.HasIdentifierWords) {front rest : Bytes}
    (blank : IsBlank front) (behind : forall before, NoInitial dialect before rest)
    (before : Option UInt8) : NoInitial dialect before (front ++ rest) :=
  append identifiers
    (fun byte member => not_isIdentifierByte_of_isBlankByte (blank byte member)) behind before

/-- An identifier with no dot behind it begins no initial call. -/
theorem word (identifiers : dialect.HasIdentifierWords) {word blank rest : Bytes}
    (all : ∀ byte ∈ word, isIdentifierByte byte = true) (isBlank : IsBlank blank)
    (behind : forall before, NoInitial dialect before (Byte.openParen :: rest))
    (before : Option UInt8) :
    NoInitial dialect before (word ++ (blank ++ Byte.openParen :: rest)) := by
  induction word generalizing before with
  | nil => exact blanks identifiers isBlank behind before
  | cons byte word ih =>
      refine ⟨.inr ?_, ih (fun other member => all other (List.mem_cons_of_mem byte member)) _⟩
      intro after starts
      rcases starts.exists_dot identifiers with ⟨first, other, blank', rest', all', isBlank', same⟩
      have whole : byte :: word ++ (blank ++ Byte.openParen :: (rest ++ after)) =
          first :: other ++ (blank' ++ Byte.dot :: rest') := by
        rw [← same]
        simp
      rcases run_unique all all' (boundary_of_isBlank isBlank Byte.openParen (by decide) _)
        (boundary_of_isBlank isBlank' Byte.dot (by decide) _) whole with ⟨-, fromBlank⟩
      rcases run_unique isBlank isBlank' (by rintro byte ⟨rfl⟩; decide)
        (by rintro byte ⟨rfl⟩; decide) fromBlank with ⟨-, fromNext⟩
      exact absurd (List.cons.inj fromNext).1 (by decide)

theorem within {byte : UInt8} {word rest : Bytes} (identifier : isIdentifierByte byte = true)
    (all : ∀ byte ∈ word, isIdentifierByte byte = true)
    (behind : forall before, NoInitial dialect before rest) :
    NoInitial dialect (some byte) (word ++ rest) := by
  induction word generalizing byte with
  | nil => exact behind _
  | cons first word ih =>
      exact ⟨.inl identifier, ih (all first List.mem_cons_self)
        fun other member => all other (List.mem_cons_of_mem first member)⟩

/-- No initial call begins in a call whose parentheses hold no identifier. -/
theorem call (identifiers : dialect.HasIdentifierWords) {name : String} {lead inside : Bytes}
    (isWord : isIdentifierWord name = true) (named : Call.IsNamed name lead)
    (noIdentifier : ∀ byte ∈ inside, isIdentifierByte byte = false) (before : Option UInt8) :
    NoInitial dialect before (lead ++ Byte.openParen :: inside ++ [Byte.closeParen]) := by
  rcases named with ⟨front, behind, blankFront, blankBehind, rfl⟩
  rcases identifierWord_spec isWord with ⟨_, _, _, all⟩
  have closes : forall before, NoInitial dialect before [Byte.closeParen] :=
    cons identifiers (by decide) True.intro
  have opens : forall before,
      NoInitial dialect before (Byte.openParen :: (inside ++ [Byte.closeParen])) :=
    cons identifiers (by decide) (append identifiers noIdentifier closes _)
  have whole := blanks identifiers blankFront (word identifiers all blankBehind opens) before
  simpa using whole

end NoInitial

theorem Call.IsInitial.exists_names {bytes : Bytes} (isInitial : Call.IsInitial dialect bytes) :
    ∃ receiver ∈ dialect.receivers, ∃ level ∈ dialect.levels, ∃ blanks lead inside,
      IsBlank blanks ∧ Call.IsNamed (dialect.levelPrefix ++ level) lead ∧ IsBlank inside ∧
      bytes = Utf8.ofString receiver ++ blanks ++
        Byte.dot :: (lead ++ Byte.openParen :: (inside ++ [Byte.closeParen])) := by
  rcases isInitial with ⟨receiver, isReceiver, level, isLevel, behind, before, last, inside,
    blankBehind, blankBefore, blankLast, blankInside, rfl⟩
  refine ⟨receiver, isReceiver, level, isLevel, behind,
    before ++ Utf8.ofString (dialect.levelPrefix ++ level) ++ last, inside, blankBehind,
    ⟨before, last, blankBefore, blankLast, rfl⟩, blankInside, ?_⟩
  rw [Utf8.ofString_append]
  simp

theorem Call.IsInitial.noInitial (identifiers : dialect.HasIdentifierWords) {byte : UInt8}
    {rest : Bytes} (isInitial : Call.IsInitial dialect (byte :: rest)) :
    NoInitial dialect (some byte) rest := by
  rcases isInitial.exists_names with ⟨receiver, isReceiver, level, isLevel, blanks, lead, inside,
    blank, levelled, blankInside, same⟩
  rcases identifierWord_spec (identifiers.receiver isReceiver) with ⟨first, others, bytes, all⟩
  have noIdentifier : ∀ byte ∈ inside, isIdentifierByte byte = false :=
    fun byte member => not_isIdentifierByte_of_isBlankByte (blankInside byte member)
  have dotted : forall before, NoInitial dialect before
      (Byte.dot :: (lead ++ Byte.openParen :: inside ++ [Byte.closeParen])) :=
    NoInitial.cons identifiers (by decide)
      (NoInitial.call identifiers (identifiers.levelled isLevel) levelled noIdentifier _)
  have receives := NoInitial.blanks identifiers blank dotted
  rw [bytes] at same all
  rcases List.cons.inj same with ⟨rfl, rfl⟩
  have whole := NoInitial.within (all byte List.mem_cons_self)
    (fun other member => all other (List.mem_cons_of_mem byte member)) receives
  simpa using whole

/-- An initial call is a name in front of empty parentheses, as far as
scanners see. -/
theorem Call.IsInitial.exists_plain (identifiers : dialect.HasIdentifierWords) {bytes : Bytes}
    (isInitial : Call.IsInitial dialect bytes) :
    ∃ name inside, bytes = name ++ (Byte.openParen :: inside ++ [Byte.closeParen]) ∧
      (∀ byte ∈ name, Scanner.isPlainByte byte = true) ∧
      ∀ byte ∈ inside, Scanner.isPlainByte byte = true := by
  rcases isInitial.exists_names with ⟨receiver, isReceiver, level, isLevel, blanks, lead, inside,
    blankBehind, levelled, blank, rfl⟩
  refine ⟨Utf8.ofString receiver ++ blanks ++ Byte.dot :: lead, inside, by simp, ?_, blank.plain⟩
  intro byte member
  rcases List.mem_append.mp member with inFront | inRest
  · exact (isNamed_append blankBehind).plain (identifiers.receiver isReceiver) byte inFront
  · rcases List.mem_cons.mp inRest with rfl | inLead
    · rfl
    · exact levelled.plain (identifiers.levelled isLevel) byte inLead

/-- An initial call ends with a parenthesis and leaves a scanner at rest as it
is. -/
theorem Call.IsInitial.run_atRest (identifiers : dialect.HasIdentifierWords) {bytes : Bytes}
    (isInitial : Call.IsInitial dialect bytes) :
    bytes.getLast? = some Byte.closeParen ∧
      forall (depth : Nat) (ahead : Option UInt8),
        (Scanner.atRest depth).run ahead bytes = Scanner.atRest depth ∧
          (Scanner.atRest depth).ClosesOwn ahead bytes := by
  rcases isInitial.exists_plain identifiers with ⟨name, inside, rfl, plainName, plainInside⟩
  constructor
  · rw [List.getLast?_append, List.getLast?_concat, Option.some_or]
  · intro depth ahead
    constructor
    · rw [Scanner.run_append, Scanner.run_atRest_plain plainName, List.cons_append,
        Scanner.run_cons, Scanner.step_atRest_open, Scanner.run_append,
        Scanner.run_atRest_plain plainInside]
      rfl
    · exact Scanner.closesOwn_emptyCall plainName plainInside depth ahead

theorem Call.IsInitial.not_mem_of_append (identifiers : dialect.HasIdentifierWords)
    {left right : Bytes} (isInitial : IsInitial dialect (left ++ right)) (nonempty : right ≠ []) :
    Byte.closeParen ∉ left := by
  rcases isInitial.exists_plain identifiers with ⟨name, inside, same, plainName, plainInside⟩
  rcases List.eq_nil_or_concat right with isNil | ⟨front, final, isRight⟩
  · exact absurd isNil nonempty
  · rw [isRight, List.concat_eq_append, ← List.append_assoc, List.cons_append,
      ← List.cons_append, ← List.append_assoc] at same
    have sameFront := (List.append_inj' same rfl).1
    intro member
    have inFront : Byte.closeParen ∈ name ++ Byte.openParen :: inside := by
      rw [← sameFront]
      exact List.mem_append_left front member
    rcases List.mem_append.mp inFront with inName | inRest
    · exact absurd (plainName _ inName) (by decide)
    · rcases List.mem_cons.mp inRest with isOpen | inInside
      · exact absurd isOpen (by decide)
      · exact absurd (plainInside _ inInside) (by decide)

end FluentLog
