import FluentLog.Proofs.Chain.Ending

namespace FluentLog

/-!
# What decides a candidate

The search for the terminal call of a candidate looks at a text one byte after the
other, and at a dot also at the call behind it.  It stops at the first byte that ends the
expression or begins a terminal call.  What stands behind that byte, or behind that call,
decides nothing, so a chain is a chain in front of any text.
-/

variable {dialect : Dialect}

/-! ## Calls behind a dot -/

namespace Call

/-- A call from behind its dot, which encloses its text and no identifier. -/
def IsPlain (bytes : Bytes) : Prop :=
  ∃ word lead inside, isIdentifierWord word = true ∧ IsNamed word lead ∧ IsEnclosed inside ∧
    (∀ byte ∈ inside, isIdentifierByte byte = false) ∧
    bytes = lead ++ Byte.openParen :: inside ++ [Byte.closeParen]

/-- Whether two texts begin with the same calls.  A dot in front of them then
decides the same, since all that matters is the call behind it. -/
def BeginAlike (left right : Bytes) : Prop :=
  forall bytes : Bytes, IsPlain bytes ->
    ((∃ after, left = bytes ++ after) ↔ ∃ after, right = bytes ++ after)

theorem isPlain_terminal (identifiers : dialect.HasIdentifierWords) {lead inside : Bytes}
    (named : IsNamed dialect.terminalMethod lead) (blank : IsBlank inside) :
    IsPlain (lead ++ Byte.openParen :: inside ++ [Byte.closeParen]) :=
  ⟨dialect.terminalMethod, lead, inside, identifiers.terminalMethod, named,
    isEnclosed_of_plain blank.plain,
    fun byte member => not_isIdentifierByte_of_isBlankByte (blank byte member), rfl⟩

theorem isPlain_message (identifiers : dialect.HasIdentifierWords) {lead argument : Bytes}
    (named : IsNamed dialect.messageMethod lead) (bare : IsBareMessage argument)
    (unbroken : HasUnbrokenBraces argument) :
    IsPlain (lead ++ Byte.openParen :: argument ++ [Byte.closeParen]) := by
  refine ⟨dialect.messageMethod, lead, argument, identifiers.messageMethod, named,
    bare.isEnclosed unbroken, ?_, rfl⟩
  rcases bare with ⟨before, left, right, behind, blankBefore, blankLeft, blankRight, blankBehind,
    rfl⟩
  have ofBlank : forall {blanks : Bytes}, IsBlank blanks ->
      ∀ byte ∈ blanks, isIdentifierByte byte = false :=
    fun blank byte member => not_isIdentifierByte_of_isBlankByte (blank byte member)
  intro byte member
  simp only [List.mem_append, List.mem_cons, List.not_mem_nil, or_false] at member
  rcases member with (((inBefore | rfl | inLeft) | rfl | rfl) | inRight) | rfl | inBehind
  · exact ofBlank blankBefore byte inBefore
  · rfl
  · exact ofBlank blankLeft byte inLeft
  · rfl
  · rfl
  · exact ofBlank blankRight byte inRight
  · rfl
  · exact ofBlank blankBehind byte inBehind

theorem BeginAlike.symm {left right : Bytes} (alike : BeginAlike left right) :
    BeginAlike right left :=
  fun bytes plain => (alike bytes plain).symm

theorem IsPlain.silent {bytes : Bytes} (plain : IsPlain bytes) (depth : Nat)
    (ahead : Option UInt8) : (Scanner.atRest depth).Silent ahead bytes := by
  rcases plain with ⟨word, lead, inside, identifier, named, enclosed, -, rfl⟩
  exact Scanner.silent_call identifier named enclosed depth ahead

theorem IsPlain.noInitial (identifiers : dialect.HasIdentifierWords) {bytes : Bytes}
    (plain : IsPlain bytes) (before : Option UInt8) : NoInitial dialect before bytes := by
  rcases plain with ⟨word, lead, inside, identifier, named, -, noIdentifier, rfl⟩
  exact NoInitial.call identifiers identifier named noIdentifier before

theorem IsPlain.run {bytes : Bytes} (plain : IsPlain bytes) (depth : Nat)
    (ahead : Option UInt8) :
    (Scanner.atRest depth).run ahead bytes = Scanner.atRest depth := by
  rcases plain with ⟨word, lead, inside, identifier, named, enclosed, -, rfl⟩
  exact Scanner.run_call_behind identifier named enclosed depth ahead

/-- No call with nothing between its parentheses is a message call. -/
theorem message?_eq_none_of_isBlank (identifiers : dialect.HasIdentifierWords) {word : String}
    {lead inside : Bytes} (identifier : isIdentifierWord word = true) (named : IsNamed word lead)
    (blank : IsBlank inside) (offset : Nat) (after : Bytes) :
    message? dialect ⟨offset, lead ++ Byte.openParen :: inside ++ Byte.closeParen :: after⟩ =
      none := by
  apply Option.eq_none_iff_forall_ne_some.mpr
  intro call found
  rcases (message?_eq_some_iff identifiers).mp found with
    ⟨other, argument, behind, otherNamed, ⟨before, left, right, last, blankBefore, -, -, -, rfl⟩,
      same, -⟩
  simp only [List.append_assoc, List.cons_append] at same
  rcases named.unique identifier identifiers.messageMethod otherNamed same with ⟨-, sameInside⟩
  rcases run_unique blank blankBefore (by rintro byte ⟨rfl⟩; rfl) (by rintro byte ⟨rfl⟩; rfl)
    sameInside with ⟨-, sameNext⟩
  exact absurd (List.cons.inj sameNext).1 (by decide)

section

variable {left right : Bytes}

theorem terminal?_congr (identifiers : dialect.HasIdentifierWords)
    (alike : BeginAlike left right) :
    terminal? dialect ⟨0, left⟩ = terminal? dialect ⟨0, right⟩ := by
  have oneWay : forall {left right : Bytes}, BeginAlike left right -> forall stop,
      terminal? dialect ⟨0, left⟩ = some stop -> terminal? dialect ⟨0, right⟩ = some stop := by
    intro left right alike stop found
    rcases (terminal?_eq_some_iff identifiers).mp found with
      ⟨lead, inside, after, named, blank, same, rfl⟩
    simp only at same
    rcases (alike _ (isPlain_terminal identifiers named blank)).mp ⟨after, by rw [same]; simp⟩ with
      ⟨other, isRight⟩
    exact (terminal?_eq_some_iff identifiers).mpr
      ⟨lead, inside, other, named, blank, by rw [isRight]; simp, rfl⟩
  apply Option.ext
  intro stop
  exact ⟨oneWay alike stop, oneWay alike.symm stop⟩

theorem message?_congr (identifiers : dialect.HasIdentifierWords)
    (unbrokenLeft : HasUnbrokenBraces left) (unbrokenRight : HasUnbrokenBraces right)
    (alike : BeginAlike left right) :
    (message? dialect ⟨0, left⟩).isSome = (message? dialect ⟨0, right⟩).isSome := by
  have oneWay : forall {left right : Bytes}, HasUnbrokenBraces left -> BeginAlike left right ->
      (message? dialect ⟨0, left⟩).isSome = true ->
      (message? dialect ⟨0, right⟩).isSome = true := by
    intro left right unbroken alike found
    rcases (message?_isSome_iff identifiers).mp found with ⟨lead, argument, after, named, bare, rfl⟩
    have split : lead ++ Byte.openParen :: argument ++ Byte.closeParen :: after =
        (lead ++ [Byte.openParen]) ++ (argument ++ (Byte.closeParen :: after)) := by
      simp
    rw [split] at unbroken
    have plain := isPlain_message identifiers named bare
      unbroken.of_append_right.of_append_left
    rcases (alike _ plain).mp ⟨after, by simp⟩ with ⟨other, isRight⟩
    exact (message?_isSome_iff identifiers).mpr
      ⟨lead, argument, other, named, bare, by rw [isRight]; simp⟩
  apply Bool.eq_iff_iff.mpr
  exact ⟨oneWay unbrokenLeft alike, oneWay unbrokenRight alike.symm⟩

end

end Call

/-! ## Verdicts -/

/-- A byte decides the same in front of two texts that begin with the same
calls. -/
theorem verdict_congr (identifiers : dialect.HasIdentifierWords) {hasMessage : Bool}
    {scanner : Scanner} {byte : UInt8} {left right : Bytes}
    (unbrokenLeft : HasUnbrokenBraces left) (unbrokenRight : HasUnbrokenBraces right)
    (sameHead : left.head? = right.head?)
    (alike : scanner = Scanner.atRest 0 -> byte = Byte.dot -> Call.BeginAlike left right) :
    verdict dialect hasMessage scanner byte left =
      verdict dialect hasMessage scanner byte right := by
  rw [verdict, verdict, sameHead]
  split
  · rename_i reported
    split
    · rfl
    · split
      · rename_i isDot
        have begins := alike (Scanner.eq_atRest_of_step reported) isDot
        rw [Call.terminal?_congr identifiers begins,
          Call.message?_congr identifiers unbrokenLeft unbrokenRight begins]
      · rfl
  · rfl

theorem verdict_eq_found {hasMessage : Bool} {scanner : Scanner} {byte : UInt8} {rest : Bytes}
    {length : Nat} (isFound : verdict dialect hasMessage scanner byte rest = .found length) :
    hasMessage = true ∧ scanner = Scanner.atRest 0 ∧ byte = Byte.dot ∧
      ∃ stop, Call.terminal? dialect ⟨0, rest⟩ = some stop ∧ length = stop + 1 := by
  rw [verdict] at isFound
  split at isFound
  · rename_i reported
    split at isFound
    · cases isFound
    · split at isFound
      · rename_i isDot
        split at isFound
        · rename_i afterMessage
          split at isFound
          · rename_i stop isTerminal
            injection isFound with isLength
            exact ⟨afterMessage, Scanner.eq_atRest_of_step reported, isDot, stop, isTerminal,
              isLength.symm⟩
          · cases isFound
        · split at isFound
          · cases isFound
          · split at isFound <;> cases isFound
      · cases isFound
  · cases isFound

theorem verdict_true_of_open {scanner : Scanner} {byte : UInt8} {rest : Bytes} {goesOn : Bool}
    (isOpen : verdict dialect false scanner byte rest = .open goesOn) :
    verdict dialect true scanner byte rest = .open true ∨
      ∃ length, verdict dialect true scanner byte rest = .found length := by
  rw [verdict] at isOpen
  rw [verdict]
  split
  · rename_i reported
    rw [if_pos reported] at isOpen
    split
    · rename_i ends
      rw [if_pos ends] at isOpen
      cases isOpen
    · split
      · rw [if_pos rfl]
        split
        · exact .inr ⟨_, rfl⟩
        · exact .inl rfl
      · exact .inl rfl
  · exact .inl rfl

theorem verdict_terminal (identifiers : dialect.HasIdentifierWords) {hasMessage : Bool}
    {lead inside : Bytes} (named : Call.IsNamed dialect.terminalMethod lead)
    (blank : IsBlank inside) (after : Bytes) :
    verdict dialect hasMessage (Scanner.atRest 0) Byte.dot
        (lead ++ Byte.openParen :: inside ++ Byte.closeParen :: after) =
      if hasMessage then .found (lead.length + inside.length + 3) else .lost := by
  have isTerminal : Call.terminal? dialect
      ⟨0, lead ++ Byte.openParen :: inside ++ Byte.closeParen :: after⟩ =
      some (0 + lead.length + inside.length + 2) :=
    (Call.terminal?_eq_some_iff identifiers).mpr ⟨lead, inside, after, named, blank, rfl, rfl⟩
  have noMessage : Call.message? dialect
      ⟨0, lead ++ Byte.openParen :: inside ++ Byte.closeParen :: after⟩ = none :=
    Call.message?_eq_none_of_isBlank identifiers identifiers.terminalMethod named blank 0 after
  rw [verdict_dot, isTerminal, noMessage]
  cases hasMessage with
  | false => rfl
  | true =>
      have sameLength : 0 + lead.length + inside.length + 2 + 1 =
          lead.length + inside.length + 3 := by
        omega
      rw [← sameLength]
      rfl

/-- A call of another name with nothing between its parentheses decides
nothing. -/
theorem verdict_call (identifiers : dialect.HasIdentifierWords) {hasMessage : Bool} {word : String}
    {lead inside : Bytes} (identifier : isIdentifierWord word = true)
    (named : Call.IsNamed word lead)
    (different : Utf8.ofString word ≠ Utf8.ofString dialect.terminalMethod)
    (blank : IsBlank inside) (after : Bytes) :
    verdict dialect hasMessage (Scanner.atRest 0) Byte.dot
        (lead ++ Byte.openParen :: inside ++ Byte.closeParen :: after) = .open hasMessage := by
  have noTerminal : Call.terminal? dialect
      ⟨0, lead ++ Byte.openParen :: inside ++ Byte.closeParen :: after⟩ = none := by
    rw [List.append_assoc]
    exact Call.terminal?_eq_none identifiers identifier named different 0 _
  have noMessage := Call.message?_eq_none_of_isBlank identifiers identifier named blank 0 after
  have read : forall ahead, (Scanner.atRest 0).step Byte.dot ahead = (some 0, Scanner.atRest 0) :=
    fun _ => rfl
  have goesOn : ¬ endsExpression Byte.dot = true := Bool.false_ne_true
  rw [verdict, read, if_pos rfl, if_neg goesOn, if_pos rfl, noTerminal, noMessage]
  cases hasMessage <;> rfl

/-! ## Where the search stops -/

/-- Whether the search for a terminal call stops within a stretch.  What
follows the stretch makes no difference then, neither to what is found nor to
what is not. -/
inductive Decides (dialect : Dialect) : Scanner -> Bytes -> Prop
  /-- The expression ends here. -/
  | ends {byte : UInt8} {rest : Bytes} (isEnd : endsExpression byte = true) :
      Decides dialect (Scanner.atRest 0) (byte :: rest)
  /-- A terminal call begins here. -/
  | terminal {lead inside rest : Bytes} (named : Call.IsNamed dialect.terminalMethod lead)
      (blank : IsBlank inside) :
      Decides dialect (Scanner.atRest 0)
        (Byte.dot :: (lead ++ Byte.openParen :: inside ++ Byte.closeParen :: rest))
  /-- The search stops further on. -/
  | byte {scanner : Scanner} {byte : UInt8} {rest : Bytes}
      (behind : Decides dialect (scanner.step byte rest.head?).2 rest) :
      Decides dialect scanner (byte :: rest)

namespace Decides

variable {scanner : Scanner} {stretch : Bytes}

theorem head?_append (decides : Decides dialect scanner stretch) (rest : Bytes) :
    (stretch ++ rest).head? = stretch.head? := by
  cases decides <;> rfl

/-- Nothing silent reaches beyond the byte that decides. -/
theorem exists_of_silent (decides : Decides dialect scanner stretch) {rest call after : Bytes}
    (silent : scanner.Silent after.head? call) (same : stretch ++ rest = call ++ after) :
    ∃ others, stretch = call ++ others := by
  induction decides generalizing call with
  | @ends byte others isEnd =>
      cases call with
      | nil => exact ⟨byte :: others, rfl⟩
      | cons first call =>
          rcases List.cons.inj same with ⟨rfl, -⟩
          have quiet := (silent.1 (step_atRest_ends isEnd 0 _)).1
          rw [isEnd] at quiet
          cases quiet
  | terminal named blank =>
      cases call with
      | nil => exact ⟨_, rfl⟩
      | cons first call =>
          rcases List.cons.inj same with ⟨rfl, -⟩
          exact absurd rfl (silent.1 rfl).2
  | @byte scanner byte others behind ih =>
      cases call with
      | nil => exact ⟨byte :: others, rfl⟩
      | cons first call =>
          rcases List.cons.inj same with ⟨rfl, sameTail⟩
          have sameRest : others ++ rest = call ++ after := sameTail
          have sameHead : others.head? = call.head?.or after.head? := by
            rw [← behind.head?_append rest, sameRest, List.head?_append]
          have silentRest := silent.2
          rw [← sameHead] at silentRest
          rcases ih silentRest sameRest with ⟨left, rfl⟩
          exact ⟨left, rfl⟩

theorem beginAlike (decides : Decides dialect (Scanner.atRest 0) stretch) (rest : Bytes) :
    Call.BeginAlike (stretch ++ rest) stretch := by
  intro bytes plain
  constructor
  · rintro ⟨after, same⟩
    exact decides.exists_of_silent (plain.silent 0 _) same
  · rintro ⟨after, rfl⟩
    exact ⟨after ++ rest, List.append_assoc bytes after rest⟩

/-- The search does not depend on what stands behind the place where it stops.
Nothing that it looks at on its way reaches beyond that place. -/
theorem ending?_append (identifiers : dialect.HasIdentifierWords) {hasMessage : Bool}
    {rest : Bytes} (decides : Decides dialect scanner stretch)
    (unbroken : HasUnbrokenBraces (stretch ++ rest)) :
    ending? dialect hasMessage scanner (stretch ++ rest) =
      ending? dialect hasMessage scanner stretch := by
  induction decides generalizing hasMessage with
  | ends isEnd =>
      rw [List.cons_append, ending?, ending?, verdict_ends isEnd, verdict_ends isEnd]
  | @terminal lead inside others named blank =>
      have whole : lead ++ Byte.openParen :: inside ++ Byte.closeParen :: others ++ rest =
          lead ++ Byte.openParen :: inside ++ Byte.closeParen :: (others ++ rest) := by
        simp
      rw [List.cons_append, ending?, ending?, whole, verdict_terminal identifiers named blank,
        verdict_terminal identifiers named blank]
      cases hasMessage <;> rfl
  | @byte scanner byte others behind ih =>
      have unbrokenRest : HasUnbrokenBraces (others ++ rest) := unbroken.tail
      have sameVerdict : verdict dialect hasMessage scanner byte (others ++ rest) =
          verdict dialect hasMessage scanner byte others := by
        apply verdict_congr identifiers unbrokenRest unbrokenRest.of_append_left
          (behind.head?_append rest)
        intro isAtRest isDot
        subst isAtRest isDot
        exact beginAlike behind rest
      rw [List.cons_append, ending?, ending?, sameVerdict]
      cases verdict dialect hasMessage scanner byte others with
      | «open» goesOn =>
          simp only
          rw [behind.head?_append rest, ih unbrokenRest]
      | found length => rfl
      | lost => rfl

end Decides

/-! ## Chains that end with their terminal call -/

theorem IsTail.decides {scanner : Scanner} {tail : Bytes} (isTail : IsTail dialect scanner tail) :
    Decides dialect scanner tail := by
  rcases isTail with ⟨middle, lead, inside, named, blank, rfl, own, atRest⟩
  induction middle generalizing scanner with
  | nil =>
      rw [Scanner.run_nil] at atRest
      subst atRest
      have decides : Decides dialect (Scanner.atRest 0)
          (Byte.dot :: (lead ++ Byte.openParen :: inside ++ Byte.closeParen :: [])) :=
        .terminal named blank
      rw [List.nil_append, List.cons_append, List.cons_append]
      exact decides
  | cons byte middle ih =>
      have sameHead : (middle ++ Byte.dot :: lead ++ Byte.openParen :: inside ++
          [Byte.closeParen]).head? = middle.head?.or (some Byte.dot) := by
        cases middle <;> rfl
      have behind := ih own.2 atRest
      rw [← sameHead] at behind
      exact Decides.byte behind

/-- Where the search finds a terminal call, the text up to its end closes only
its own parentheses.  A closing parenthesis of the surroundings would have
ended the expression. -/
theorem exists_isTail_of_ending? (identifiers : dialect.HasIdentifierWords) {hasMessage : Bool}
    {scanner : Scanner} {text : Bytes} {begins ends : Nat}
    (isEnding : ending? dialect hasMessage scanner text = some (begins, ends)) :
    ∃ tail after, text = tail ++ after ∧ tail.length = ends ∧ begins < ends ∧
      IsTail dialect scanner tail := by
  induction text generalizing hasMessage scanner begins ends with
  | nil => cases isEnding
  | cons byte rest ih =>
      cases isVerdict : verdict dialect hasMessage scanner byte rest with
      | «open» goesOn =>
          rw [ending?, isVerdict] at isEnding
          rcases Option.map_eq_some_iff.mp isEnding with ⟨⟨begins, ends⟩, later, same⟩
          cases same
          rcases ih later with ⟨tail, after, rfl, rfl, ordered, isTail⟩
          refine ⟨byte :: tail, after, rfl, rfl, Nat.succ_lt_succ ordered, isTail.cons ?_⟩
          rintro ⟨rfl, reported⟩
          have isLost : verdict dialect hasMessage scanner Byte.closeParen (tail ++ after) =
              .lost := by
            rw [Scanner.eq_atRest_of_step reported]
            exact verdict_ends rfl (tail ++ after)
          rw [isLost] at isVerdict
          cases isVerdict
      | found length =>
          rw [ending?, isVerdict] at isEnding
          cases isEnding
          rcases verdict_eq_found isVerdict with ⟨-, rfl, rfl, stop, isTerminal, rfl⟩
          rcases (Call.terminal?_eq_some_iff identifiers).mp isTerminal with
            ⟨lead, inside, after, named, blank, same, rfl⟩
          simp only at same
          refine ⟨Byte.dot :: lead ++ Byte.openParen :: inside ++ [Byte.closeParen], after, ?_, ?_,
            Nat.succ_pos _, [], lead, inside, named, blank, rfl, True.intro, rfl⟩
          · rw [same]
            simp
          · simp only [List.length_append, List.length_cons, List.length_nil]
            omega
      | lost =>
          rw [ending?, isVerdict] at isEnding
          cases isEnding

theorem isTail_of_ending? (identifiers : dialect.HasIdentifierWords) {hasMessage : Bool}
    {scanner : Scanner} {text : Bytes} {begins : Nat}
    (isEnding : ending? dialect hasMessage scanner text = some (begins, text.length)) :
    IsTail dialect scanner text := by
  rcases exists_isTail_of_ending? identifiers isEnding with
    ⟨tail, after, same, sameLength, -, isTail⟩
  have noMore : after = [] := by
    have lengths := congrArg List.length same
    rw [List.length_append, sameLength] at lengths
    exact List.eq_nil_of_length_eq_zero (by omega)
  rw [same, noMore, List.append_nil]
  exact isTail

end FluentLog
