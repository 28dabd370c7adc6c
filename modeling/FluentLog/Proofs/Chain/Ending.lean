import FluentLog.Proofs.Chain.Locating
import FluentLog.Proofs.Chain.Passing
import FluentLog.Proofs.Code.Inert
import FluentLog.Proofs.Code.Tidy

namespace FluentLog

/-!
# Where chains end

The search that completes a candidate jumps over its message.  Where the lines of a text are kept
the jump makes no difference, and then the scan of the whole chain tells where it ends.
-/

/-!
## The end of a chain as one pass

`complete` jumps behind a message call and stops at a bound.  `ending?` is the same
search byte by byte and without a bound.  It says where the terminal call begins, so the
bound can be compared with it afterwards.  The two agree on texts in which no quoted
braces are broken over a line end: there the scan over a message call comes out as it
went in.
-/

variable {dialect : Dialect}

/-! ### Broken braces -/

/-- Whether no quoted braces, with nothing but blanks around them, hold a line
end.  A scanner drops a literal at a line end, while a message call is matched
across it; without broken braces the two agree. -/
def HasUnbrokenBraces (text : Bytes) : Prop :=
  forall before left right after : Bytes,
    text = before ++ Byte.doubleQuote :: left ++ [Byte.openBrace, Byte.closeBrace] ++ right ++
      Byte.doubleQuote :: after ->
    IsBlank left -> IsBlank right -> Byte.lineFeed ∉ left ∧ Byte.lineFeed ∉ right

theorem hasUnbrokenBraces_of_not_mem {text : Bytes} (oneLine : Byte.lineFeed ∉ text) :
    HasUnbrokenBraces text := by
  rintro before left right after rfl - -
  constructor
  · intro inLeft
    apply oneLine
    simp [inLeft]
  · intro inRight
    apply oneLine
    simp [inRight]

namespace HasUnbrokenBraces

variable {text left right : Bytes}

theorem of_append_right (unbroken : HasUnbrokenBraces (left ++ right)) :
    HasUnbrokenBraces right := by
  intro before blanks others after same
  apply unbroken (left ++ before) blanks others after
  rw [same]
  simp only [List.append_assoc]

theorem of_append_left (unbroken : HasUnbrokenBraces (left ++ right)) :
    HasUnbrokenBraces left := by
  intro before blanks others after same
  apply unbroken before blanks others (after ++ right)
  rw [same]
  simp only [List.append_assoc, List.cons_append]

theorem tail {byte : UInt8} (unbroken : HasUnbrokenBraces (byte :: text)) :
    HasUnbrokenBraces text :=
  @of_append_right [byte] text unbroken

end HasUnbrokenBraces

/-- What stands between the quotes of a message call, without line feeds. -/
theorem harmless_of_quoted {left right : Bytes} (blankLeft : IsBlank left)
    (blankRight : IsBlank right) (noFeedLeft : Byte.lineFeed ∉ left)
    (noFeedRight : Byte.lineFeed ∉ right) :
    ∀ byte ∈ left ++ [Byte.openBrace, Byte.closeBrace] ++ right,
      byte ≠ Byte.lineFeed ∧ byte ≠ Byte.backslash ∧ byte ≠ Byte.doubleQuote := by
  have ofBlank : forall {blanks : Bytes}, IsBlank blanks -> Byte.lineFeed ∉ blanks ->
      ∀ byte ∈ blanks, byte ≠ Byte.lineFeed ∧ byte ≠ Byte.backslash ∧
        byte ≠ Byte.doubleQuote := by
    intro blanks blank noFeed byte member
    have isBlank := blank byte member
    refine ⟨fun same => noFeed (same ▸ member), ?_, ?_⟩ <;>
      · rintro rfl
        exact absurd isBlank (by decide)
  have braces : ∀ byte ∈ [Byte.openBrace, Byte.closeBrace], byte ≠ Byte.lineFeed ∧
      byte ≠ Byte.backslash ∧ byte ≠ Byte.doubleQuote := by
    intro byte member
    rcases List.mem_pair.mp member with rfl | rfl <;> decide
  intro byte member
  rcases List.mem_append.mp member with inFront | inRight
  · rcases List.mem_append.mp inFront with inLeft | inBraces
    · exact ofBlank blankLeft noFeedLeft byte inLeft
    · exact braces byte inBraces
  · exact ofBlank blankRight noFeedRight byte inRight

theorem isEnclosed_quoted {before quoted behind : Bytes} (blankBefore : IsBlank before)
    (blankBehind : IsBlank behind) (harmless : ∀ byte ∈ quoted,
      byte ≠ Byte.lineFeed ∧ byte ≠ Byte.backslash ∧ byte ≠ Byte.doubleQuote) :
    IsEnclosed (before ++ Byte.doubleQuote :: quoted ++ Byte.doubleQuote :: behind) := by
  rcases Cursor.isInert_inQuotes harmless 0 with ⟨inert, back⟩
  have literal : Cursor.start.IsInert (Byte.doubleQuote :: (quoted ++ [Byte.doubleQuote])) ∧
      Cursor.start.feed (Byte.doubleQuote :: (quoted ++ [Byte.doubleQuote])) = .start := by
    have opened : Cursor.start.next Byte.doubleQuote = Cursor.inQuotes 0 := rfl
    constructor
    · refine ⟨by decide, .inr (by decide), ?_⟩
      rw [opened]
      apply inert.append
      rw [back]
      exact ⟨by decide, .inl rfl, True.intro⟩
    · rw [Cursor.feed_cons, opened, Cursor.feed_append, back]
      rfl
  have split : before ++ Byte.doubleQuote :: quoted ++ Byte.doubleQuote :: behind =
      before ++ (Byte.doubleQuote :: (quoted ++ [Byte.doubleQuote]) ++ behind) := by
    simp
  rw [split]
  have atStart : Scanner.start = ⟨.start, .code⟩ := rfl
  constructor
  · rw [Scanner.start_eq_atRest]
    apply Scanner.ClosesOwn.append (Scanner.closesOwn_plain blankBefore.plain 0 _)
    rw [Scanner.run_atRest_plain blankBefore.plain, ← Scanner.start_eq_atRest, atStart]
    apply Scanner.ClosesOwn.append (literal.1.closesOwn _)
    rw [literal.1.run, literal.2]
    exact Scanner.closesOwn_plain blankBehind.plain 0 _
  · rw [Scanner.run_append, Scanner.start_eq_atRest, Scanner.run_atRest_plain blankBefore.plain,
      ← Scanner.start_eq_atRest, Scanner.run_append, atStart, literal.1.run, literal.2]
    exact Scanner.run_atRest_plain blankBehind.plain 0 _

theorem isEnclosed_braces {before left right behind : Bytes} (blankBefore : IsBlank before)
    (blankLeft : IsBlank left) (blankRight : IsBlank right) (blankBehind : IsBlank behind)
    (noFeedLeft : Byte.lineFeed ∉ left) (noFeedRight : Byte.lineFeed ∉ right) :
    IsEnclosed (before ++ Byte.doubleQuote :: left ++ [Byte.openBrace, Byte.closeBrace] ++ right ++
      Byte.doubleQuote :: behind) := by
  have split : before ++ Byte.doubleQuote :: left ++ [Byte.openBrace, Byte.closeBrace] ++ right ++
      Byte.doubleQuote :: behind = before ++
        Byte.doubleQuote :: (left ++ [Byte.openBrace, Byte.closeBrace] ++ right) ++
          Byte.doubleQuote :: behind := by
    simp
  rw [split]
  exact isEnclosed_quoted blankBefore blankBehind
    (harmless_of_quoted blankLeft blankRight noFeedLeft noFeedRight)

theorem Call.IsBareMessage.isEnclosed {argument : Bytes} (bare : Call.IsBareMessage argument)
    (unbroken : HasUnbrokenBraces argument) : IsEnclosed argument := by
  rcases bare with ⟨before, left, right, behind, blankBefore, blankLeft, blankRight, blankBehind,
    rfl⟩
  rcases unbroken before left right behind rfl blankLeft blankRight with ⟨noFeedLeft, noFeedRight⟩
  exact isEnclosed_braces blankBefore blankLeft blankRight blankBehind noFeedLeft noFeedRight

/-! ### The search without jumps -/

/-- What a byte decides about a candidate. -/
inductive Verdict where
  /-- The search goes on, for a terminal call only if there was a message. -/
  | open (hasMessage : Bool)
  /-- A terminal call begins here, with so many bytes. -/
  | found (length : Nat)
  /-- The expression ends, or there is a terminal call before any message. -/
  | lost
  deriving DecidableEq, Repr

/-- What a byte decides, by what stands behind it.  Only code outside of all
parentheses decides anything. -/
def verdict (dialect : Dialect) (hasMessage : Bool) (scanner : Scanner) (byte : UInt8)
    (rest : Bytes) : Verdict :=
  if (scanner.step byte rest.head?).1 = some 0 then
    if endsExpression byte then .lost
    else if byte = Byte.dot then
      if hasMessage then
        match Call.terminal? dialect ⟨0, rest⟩ with
        | some stop => .found (stop + 1)
        | none => .open true
      else if (Call.message? dialect ⟨0, rest⟩).isSome then .open true
      else if (Call.terminal? dialect ⟨0, rest⟩).isSome then .lost
      else .open false
    else .open hasMessage
  else .open hasMessage

/-- Where the terminal call of a candidate begins and where it ends.  The
search looks at every byte, so unlike `complete` it neither jumps behind a
message call nor has a bound. -/
def ending? (dialect : Dialect) (hasMessage : Bool) (scanner : Scanner) :
    Bytes -> Option (Nat × Nat)
  | [] => none
  | byte :: rest =>
      match verdict dialect hasMessage scanner byte rest with
      | .open hasMessage =>
          (ending? dialect hasMessage (scanner.step byte rest.head?).2 rest).map fun ending =>
            (ending.1 + 1, ending.2 + 1)
      | .found length => some (0, length)
      | .lost => none

def Stage.hasMessage : Stage -> Bool
  | .beforeMessage => false
  | .afterMessage _ => true

/-- What a dot outside all parentheses decides. -/
theorem verdict_dot (hasMessage : Bool) (rest : Bytes) :
    verdict dialect hasMessage (Scanner.atRest 0) Byte.dot rest =
      if hasMessage then
        match Call.terminal? dialect ⟨0, rest⟩ with
        | some stop => .found (stop + 1)
        | none => .open true
      else if (Call.message? dialect ⟨0, rest⟩).isSome then .open true
      else if (Call.terminal? dialect ⟨0, rest⟩).isSome then .lost
      else .open false := by
  have outside : ((Scanner.atRest 0).step Byte.dot rest.head?).1 = some 0 := rfl
  have goesOn : ¬ endsExpression Byte.dot = true := Bool.false_ne_true
  rw [verdict, if_pos outside, if_neg goesOn, if_pos rfl]

theorem verdict_ends {hasMessage : Bool} {byte : UInt8} (isEnd : endsExpression byte = true)
    (rest : Bytes) : verdict dialect hasMessage (Scanner.atRest 0) byte rest = .lost := by
  rw [verdict, step_atRest_ends isEnd, if_pos rfl, if_pos isEnd]

/-- A byte that is looked at and is no dot decides nothing but the end of the
expression. -/
theorem verdict_of_not_dot {hasMessage : Bool} {scanner : Scanner} {byte : UInt8} {rest : Bytes}
    (quiet : (scanner.step byte rest.head?).1 = some 0 ->
      endsExpression byte = false ∧ byte ≠ Byte.dot) :
    verdict dialect hasMessage scanner byte rest = .open hasMessage := by
  rw [verdict]
  split
  · rename_i reported
    rcases quiet reported with ⟨notEnd, notDot⟩
    rw [notEnd, if_neg Bool.false_ne_true, if_neg notDot]
  · rfl

theorem ending?_append_of_silent {hasMessage : Bool} {scanner : Scanner} {stretch rest : Bytes}
    (silent : scanner.Silent rest.head? stretch) :
    ending? dialect hasMessage scanner (stretch ++ rest) =
      (ending? dialect hasMessage (scanner.run rest.head? stretch) rest).map fun ending =>
        (ending.1 + stretch.length, ending.2 + stretch.length) := by
  induction stretch generalizing scanner with
  | nil => simp
  | cons byte stretch ih =>
      have quiet := silent.1
      have later := ih silent.2
      rw [← List.head?_append] at quiet later
      have goesOn := @verdict_of_not_dot dialect hasMessage scanner byte (stretch ++ rest) quiet
      rw [List.cons_append, ending?, goesOn]
      simp only
      rw [later, Option.map_map, Scanner.run_cons, ← List.head?_append]
      rfl

theorem Call.terminal?_offset (identifiers : dialect.HasIdentifierWords) (offset : Nat)
    (rest : Bytes) :
    Call.terminal? dialect ⟨offset, rest⟩ =
      (Call.terminal? dialect ⟨0, rest⟩).map (offset + ·) := by
  apply Option.ext
  intro stop
  rw [Option.map_eq_some_iff]
  constructor
  · intro found
    rcases (Call.terminal?_eq_some_iff identifiers).mp found with
      ⟨lead, inside, after, named, blank, same, rfl⟩
    refine ⟨0 + lead.length + inside.length + 2, ?_, by simp only; omega⟩
    exact (Call.terminal?_eq_some_iff identifiers).mpr
      ⟨lead, inside, after, named, blank, same, rfl⟩
  · rintro ⟨length, found, rfl⟩
    rcases (Call.terminal?_eq_some_iff identifiers).mp found with
      ⟨lead, inside, after, named, blank, same, rfl⟩
    exact (Call.terminal?_eq_some_iff identifiers).mpr
      ⟨lead, inside, after, named, blank, same, by simp only; omega⟩

theorem Call.message?_isSome_iff (identifiers : dialect.HasIdentifierWords) {offset : Nat}
    {rest : Bytes} :
    (Call.message? dialect ⟨offset, rest⟩).isSome = true ↔
      ∃ lead argument after, Call.IsNamed dialect.messageMethod lead ∧
        Call.IsBareMessage argument ∧
        rest = lead ++ Byte.openParen :: argument ++ Byte.closeParen :: after := by
  rw [Option.isSome_iff_exists]
  constructor
  · rintro ⟨call, found⟩
    rcases (Call.message?_eq_some_iff identifiers).mp found with
      ⟨lead, argument, after, named, bare, same, -⟩
    exact ⟨lead, argument, after, named, bare, same⟩
  · rintro ⟨lead, argument, after, named, bare, same⟩
    exact ⟨_, (Call.message?_eq_some_iff identifiers).mpr
      ⟨lead, argument, after, named, bare, same, rfl⟩⟩

theorem Call.message?_isSome_offset (identifiers : dialect.HasIdentifierWords) (offset : Nat)
    (rest : Bytes) :
    (Call.message? dialect ⟨offset, rest⟩).isSome = (Call.message? dialect ⟨0, rest⟩).isSome :=
  Bool.eq_iff_iff.mpr ((message?_isSome_iff identifiers).trans (message?_isSome_iff identifiers).symm)

/-- A message call in unbroken text is passed over: behind its dot it is
silent, and a scanner comes out of it as it went in. -/
theorem Call.message?_passes (identifiers : dialect.HasIdentifierWords) {offset : Nat}
    {rest : Bytes} {call : Call.Message} (isMessage : message? dialect ⟨offset, rest⟩ = some call)
    (unbroken : HasUnbrokenBraces rest) :
    ∃ stretch after, rest = stretch ++ after ∧ call.stop = offset + stretch.length ∧
      rest.drop (call.stop - offset) = after ∧
      forall ahead, (Scanner.atRest 0).Silent ahead stretch ∧
        (Scanner.atRest 0).run ahead stretch = Scanner.atRest 0 := by
  rcases (message?_eq_some_iff identifiers).mp isMessage with
    ⟨lead, argument, after, named, bare, same, rfl⟩
  simp only at same ⊢
  have enclosed : IsEnclosed argument := by
    apply bare.isEnclosed
    have inFront : rest = (lead ++ [Byte.openParen]) ++
        (argument ++ (Byte.closeParen :: after)) := by
      rw [same]
      simp
    rw [inFront] at unbroken
    exact unbroken.of_append_right.of_append_left
  have length : (lead ++ Byte.openParen :: argument ++ [Byte.closeParen]).length =
      lead.length + 1 + argument.length + 1 := by
    simp only [List.length_append, List.length_cons, List.length_nil]
    omega
  have split : rest = (lead ++ Byte.openParen :: argument ++ [Byte.closeParen]) ++ after := by
    rw [same]
    simp
  refine ⟨_, after, split, by omega, ?_, fun ahead => ⟨?_, ?_⟩⟩
  · rw [split]
    exact List.drop_left' (by omega)
  · exact Scanner.silent_call identifiers.messageMethod named enclosed 0 ahead
  · exact Scanner.run_call_behind identifiers.messageMethod named enclosed 0 ahead

/-! ### The two searches -/

/-- How the answer of the search with a bound fits that of the search without
jumps: a terminal call at the bound or behind it is not found. -/
inductive Completion.Answers (limit offset : Nat) : Completion -> Option (Nat × Nat) -> Prop
  | found {message : Extent} {begins ends : Nat} (within : offset + begins < limit) :
      Answers limit offset (.found message (offset + ends)) (some (begins, ends))
  | dropped : Answers limit offset .dropped none
  | exhausted : Answers limit offset .exhausted none
  | tooLong {begins ends : Nat} (beyond : limit ≤ offset + begins) :
      Answers limit offset .exhausted (some (begins, ends))

theorem Completion.Answers.shift {limit offset distance : Nat} {completion : Completion}
    {ending : Option (Nat × Nat)} (answers : Answers limit (offset + distance) completion ending) :
    Answers limit offset completion
      (ending.map fun ending => (ending.1 + distance, ending.2 + distance)) := by
  have sameSum : forall number, offset + distance + number = offset + (number + distance) := by
    intro number
    omega
  cases answers with
  | found within =>
      rw [sameSum] at within ⊢
      exact .found within
  | dropped => exact .dropped
  | exhausted => exact .exhausted
  | tooLong beyond =>
      rw [sameSum] at beyond
      exact .tooLong beyond

/-- What the search with jumps passes over leaves the search without jumps
open. -/
theorem verdict_of_quiet (identifiers : dialect.HasIdentifierWords) {stage : Stage} {offset : Nat}
    {scanner : Scanner} {byte : UInt8} {rest : Bytes}
    (quiet : (scanner.step byte rest.head?).1 = some 0 ->
      endsExpression byte = false ∧
        (byte = Byte.dot -> stage.PassesDot dialect ⟨offset + 1, rest⟩)) :
    verdict dialect stage.hasMessage scanner byte rest = .open stage.hasMessage := by
  by_cases isCall : (scanner.step byte rest.head?).1 = some 0 ∧ byte = Byte.dot
  · rcases isCall with ⟨outside, rfl⟩
    have passes := (quiet outside).2 rfl
    rw [Scanner.eq_atRest_of_step outside, verdict_dot]
    cases stage with
    | beforeMessage =>
        rcases passes with ⟨noMessage, noTerminal⟩
        rw [Call.terminal?_offset identifiers, Option.map_eq_none_iff] at noTerminal
        rw [← Call.message?_isSome_offset identifiers (offset + 1), noMessage, noTerminal]
        rfl
    | afterMessage message =>
        have noTerminal := passes.terminal?_eq_none
        rw [Call.terminal?_offset identifiers, Option.map_eq_none_iff] at noTerminal
        rw [noTerminal]
        rfl
  · exact verdict_of_not_dot fun outside =>
      ⟨(quiet outside).1, fun isDot => isCall ⟨outside, isDot⟩⟩

/-- A byte that leaves the search open hands the answer on.  The two searches
are compared byte by byte with this. -/
theorem Completion.Answers.cons {hasMessage goesOn : Bool} {scanner : Scanner} {byte : UInt8}
    {rest : Bytes} {limit offset : Nat} {completion : Completion}
    (isOpen : verdict dialect hasMessage scanner byte rest = .open goesOn)
    (answers : completion.Answers limit (offset + 1)
      (ending? dialect goesOn (scanner.step byte rest.head?).2 rest)) :
    completion.Answers limit offset (ending? dialect hasMessage scanner (byte :: rest)) := by
  rw [ending?, isOpen]
  exact answers.shift

theorem Completes.answers (identifiers : dialect.HasIdentifierWords) {limit offset : Nat}
    {stage : Stage} {scanner : Scanner} {text : Bytes} {completion : Completion}
    (completes : Completes dialect limit stage scanner offset text completion)
    (unbroken : HasUnbrokenBraces text) :
    completion.Answers limit offset (ending? dialect stage.hasMessage scanner text) := by
  induction completes with
  | ended => exact .exhausted
  | @reached stage scanner offset byte rest atBound =>
      cases ending? dialect stage.hasMessage scanner (byte :: rest) with
      | none => exact .exhausted
      | some ending => exact .tooLong (Nat.le_trans atBound.2 (Nat.le_add_right offset ending.1))
  | dropped within ends =>
      rw [ending?, verdict_ends ends]
      exact .dropped
  | early within noMessage isTerminal =>
      rw [Call.terminal?_offset identifiers] at isTerminal
      rcases Option.map_eq_some_iff.mp isTerminal with ⟨length, isLength, -⟩
      rw [ending?, verdict_dot, ← Call.message?_isSome_offset identifiers, noMessage, isLength]
      exact .dropped
  | @terminal offset stop rest message within isTerminal =>
      rw [Call.terminal?_offset identifiers] at isTerminal
      rcases Option.map_eq_some_iff.mp isTerminal with ⟨length, isLength, rfl⟩
      have sameStop : offset + 1 + length = offset + (length + 1) := by omega
      rw [ending?, verdict_dot, isLength, sameStop]
      exact .found within
  | @message offset rest call completion within isMessage behind ih =>
      have isOpen : verdict dialect false (Scanner.atRest 0) Byte.dot rest = .open true := by
        rw [verdict_dot, ← Call.message?_isSome_offset identifiers (offset + 1), isMessage]
        rfl
      rcases Call.message?_passes identifiers isMessage unbroken.tail with
        ⟨stretch, after, rfl, atStop, dropped, passes⟩
      rw [dropped, atStop] at ih
      apply Completion.Answers.cons isOpen
      have atRest : ((Scanner.atRest 0).step Byte.dot (stretch ++ after).head?).2 =
          Scanner.atRest 0 := rfl
      rw [atRest, ending?_append_of_silent (passes _).1, (passes _).2]
      exact (ih unbroken.tail.of_append_right).shift
  | onward within quiet behind ih =>
      exact .cons (verdict_of_quiet identifiers quiet) (ih unbroken.tail)

/-!
## Chains in a source whose lines are kept

If a scanner never has a literal open at a line feed of a source, then no scanner has
one that reads a chain of the source from its start.  The search for chains jumps over
message calls and takes up a fresh scanner behind a chain, but in such a source both come
out where a scanner that reads every byte does.
-/

theorem Call.IsBareMessage.isEnclosed_of_keepsLines {argument : Bytes}
    (bare : Call.IsBareMessage argument) (keeps : Scanner.start.KeepsLines argument) :
    IsEnclosed argument := by
  rcases bare with ⟨before, left, right, behind, blankBefore, blankLeft, blankRight, blankBehind,
    rfl⟩
  have inside : forall quoted : Bytes, (∀ byte ∈ quoted,
      byte ≠ Byte.lineFeed ∧ byte ≠ Byte.backslash ∧ byte ≠ Byte.doubleQuote) ->
      Scanner.start.run (some Byte.lineFeed) (before ++ Byte.doubleQuote :: quoted) =
        ⟨Cursor.inQuotes 0, .code⟩ := by
    intro quoted harmless
    rcases Cursor.isInert_inQuotes harmless 0 with ⟨inert, back⟩
    have opened : forall ahead, (Scanner.start.step Byte.doubleQuote ahead).2 =
        ⟨Cursor.inQuotes 0, .code⟩ := fun _ => rfl
    rw [Scanner.run_append, Scanner.start_eq_atRest, Scanner.run_atRest_plain blankBefore.plain,
      Scanner.run_cons, ← Scanner.start_eq_atRest, opened, inert.run, back]
  have noFeedLeft : Byte.lineFeed ∉ left := by
    intro member
    rcases List.eq_append_cons_of_mem member with ⟨first, last, rfl, noFeed⟩
    have harmless := harmless_of_quoted (fun byte inFirst => blankLeft byte
      (List.mem_append_left _ inFirst)) isBlank_nil noFeed List.not_mem_nil
    have outside := keeps (before ++ Byte.doubleQuote :: first) _ (by simp; rfl)
    rw [inside first fun byte inFirst => harmless byte (by simp [inFirst])] at outside
    cases outside
  have noFeedRight : Byte.lineFeed ∉ right := by
    intro member
    rcases List.eq_append_cons_of_mem member with ⟨first, last, rfl, noFeed⟩
    have harmless := harmless_of_quoted blankLeft (fun byte inFirst => blankRight byte
      (List.mem_append_left _ inFirst)) noFeedLeft noFeed
    have outside := keeps (before ++ Byte.doubleQuote ::
      (left ++ [Byte.openBrace, Byte.closeBrace] ++ first)) _ (by simp; rfl)
    rw [inside _ harmless] at outside
    cases outside
  exact isEnclosed_braces blankBefore blankLeft blankRight blankBehind noFeedLeft noFeedRight

theorem run_chain (identifiers : dialect.HasIdentifierWords)
    {initial front lead argument tail : Bytes} (isInitial : Call.IsInitial dialect initial)
    (named : Call.IsNamed dialect.messageMethod lead) (enclosed : IsEnclosed argument)
    (atRest : Scanner.start.run (some Byte.dot) front = Scanner.atRest 0)
    (isTail : IsTail dialect (Scanner.atRest 0) tail) (ahead : Option UInt8) :
    Scanner.start.run ahead (initial ++ front ++ Byte.dot :: lead ++ Byte.openParen :: argument ++
      Byte.closeParen :: tail) = .start := by
  have split : initial ++ front ++ Byte.dot :: lead ++ Byte.openParen :: argument ++
      Byte.closeParen :: tail = initial ++ (front ++ ((Byte.dot :: lead ++
        Byte.openParen :: argument ++ [Byte.closeParen]) ++ tail)) := by
    simp
  have frontAhead : ((Byte.dot :: lead ++ Byte.openParen :: argument ++ [Byte.closeParen]) ++
      tail).head?.or ahead = some Byte.dot := rfl
  rw [split, Scanner.run_append, Scanner.start_eq_atRest,
    ((isInitial.run_atRest identifiers).2 0 _).1, Scanner.run_append, frontAhead,
    ← Scanner.start_eq_atRest, atRest, Scanner.run_append,
    Scanner.run_call identifiers.messageMethod named enclosed]
  exact (isTail.closesOwn identifiers ahead).2

/-- A chain with kept lines leaves a scanner at rest as it is. -/
theorem run_of_chainAt? (identifiers : dialect.HasIdentifierWords) {before : Option UInt8}
    {offset : Nat} {text : Bytes} {span : Span}
    (isChain : chainAt? dialect before ⟨offset, text⟩ = some span)
    (keeps : Scanner.start.KeepsLines span.text) (ahead : Option UInt8) :
    Scanner.start.run ahead span.text = .start := by
  rcases chainAt?_spec identifiers isChain with ⟨-, initial, front, lead, argument, tail, after,
    -, spanText, isInitial, named, bare, -, atRest, isTail, -, -⟩
  have split : span.text = initial ++ (front ++ ((Byte.dot :: lead ++ [Byte.openParen]) ++
      (argument ++ ([Byte.closeParen] ++ tail)))) := by
    rw [spanText]
    simp
  rw [split] at keeps
  have keepsTail := keeps.of_append_right
  rw [Scanner.start_eq_atRest, ((isInitial.run_atRest identifiers).2 0 _).1] at keepsTail
  have keepsCall := keepsTail.of_append_right
  have frontAhead : ((Byte.dot :: lead ++ [Byte.openParen]) ++
      (argument ++ ([Byte.closeParen] ++ tail))).head? = some Byte.dot := rfl
  rw [frontAhead, ← Scanner.start_eq_atRest, atRest] at keepsCall
  have keepsArgument := keepsCall.of_append_right
  rw [Scanner.run_opened identifiers.messageMethod named 0] at keepsArgument
  have enclosed := bare.isEnclosed_of_keepsLines
    (keepsArgument.of_append_left.of_agree (Scanner.agree_atRest 1 0))
  rw [spanText]
  exact run_chain identifiers isInitial named enclosed atRest isTail ahead

/-- Every chain of a source with kept lines keeps its lines.  A chain begins
where the scanner of the source is at rest, so both see the same literals. -/
theorem Locates.keepsLines (identifiers : dialect.HasIdentifierWords) {scanner : Scanner}
    {before : Option UInt8} {offset : Nat} {text : Bytes} {spans : List Span}
    (located : Locates dialect scanner before offset text spans)
    (keeps : scanner.KeepsLines text) : ∀ span ∈ spans, Scanner.start.KeepsLines span.text := by
  induction located with
  | done scanner before offset => exact List.forall_mem_nil _
  | @chain scanner before offset rest span spans outside isChain behind ih =>
      have keepsStart := keeps.of_agree outside
      have keepsRest := keepsStart.of_append_right
      rw [run_of_chainAt? identifiers isChain keepsStart.of_append_left] at keepsRest
      intro other member
      rcases List.mem_cons.mp member with rfl | inSpans
      · exact keepsStart.of_append_left
      · exact ih keepsRest other inSpans
  | @byte scanner before offset byte rest spans noChain behind ih =>
      exact ih (@Scanner.KeepsLines.of_append_right scanner [byte] rest keeps)

end FluentLog
