import FluentLog.Proofs.Chain.Locality

namespace FluentLog

/-!
# Chains in front of other text and inside other chains

`IsChain` says of a text that it is a chain.  A chain is located where such a text
stands, whatever follows it.  A candidate that begins inside a chain is decided there
too: at a parenthesis that closes around it, or by the terminal call of the chain.
-/

variable {dialect : Dialect}

namespace Dialect

/-- Whether the terminal call is named like no first call of a chain.  Then an
initial call in the text of a chain never ends it. -/
def HasOwnTerminal (dialect : Dialect) : Prop :=
  ∀ level ∈ dialect.levels,
    Utf8.ofString (dialect.levelPrefix ++ level) ≠ Utf8.ofString dialect.terminalMethod

instance (dialect : Dialect) : Decidable dialect.HasOwnTerminal :=
  inferInstanceAs (Decidable (∀ level ∈ dialect.levels,
    Utf8.ofString (dialect.levelPrefix ++ level) ≠ Utf8.ofString dialect.terminalMethod))

theorem hasOwnTerminal_default : HasOwnTerminal {} := by decide +kernel

end Dialect

/-! ## Chains as texts -/

/-- Whether a text is a chain within the bound: behind its initial call the
search finds a message and a terminal call that ends the text.  It does not
matter where the text stands. -/
def IsChain (dialect : Dialect) (chain : Bytes) : Prop :=
  ∃ initial tail begins, chain = initial ++ tail ∧ Call.IsInitial dialect initial ∧
    IsTail dialect .start tail ∧
    ending? dialect false .start tail = some (begins, tail.length) ∧
    initial.length + begins < dialect.maxChainLength

theorem IsChain.getLast?_eq {chain : Bytes} (isChain : IsChain dialect chain) :
    chain.getLast? = some Byte.closeParen := by
  rcases isChain with ⟨initial, tail, begins, rfl, -, isTail, -, -⟩
  rw [List.getLast?_append, isTail.getLast?_eq, Option.some_or]

theorem IsChain.run (identifiers : dialect.HasIdentifierWords) {chain : Bytes}
    (isChain : IsChain dialect chain) (depth : Nat) (ahead : Option UInt8) :
    (Scanner.atRest depth).run ahead chain = Scanner.atRest depth := by
  rcases isChain with ⟨initial, tail, begins, rfl, isInitial, isTail, -, -⟩
  rcases isTail.closesOwn identifiers ahead with ⟨own, atRest⟩
  have deeper := Scanner.run_deepen own depth
  rw [atRest, Scanner.start_eq_atRest, Scanner.deepen_atRest, Nat.zero_add] at deeper
  rw [Scanner.run_append, ((isInitial.run_atRest identifiers).2 depth _).1]
  simpa using deeper

section

variable {before : Option UInt8}

theorem map_text_chainAt? (identifiers : dialect.HasIdentifierWords) (offset : Nat)
    {initial behind : Bytes}
    (isInitial : Call.IsInitial dialect initial) (boundary : before.any isIdentifierByte = false)
    (unbroken : HasUnbrokenBraces behind) :
    (chainAt? dialect before ⟨offset, initial ++ behind⟩).map Span.text =
      (ending? dialect false .start behind).bind fun ending =>
        if initial.length + ending.1 < dialect.maxChainLength then
          some (initial ++ behind.take ending.2)
        else none := by
  rcases isInitial.exists_initial? identifiers offset behind with ⟨call, isCall, atStop⟩
  have dropped : (initial ++ behind).drop (call.stop - offset) = behind :=
    List.drop_left' (by omega)
  have answers : (complete dialect (offset + dialect.maxChainLength) .beforeMessage .start
      call.stop behind).Answers (offset + dialect.maxChainLength) call.stop
        (ending? dialect false .start behind) :=
    (completes_complete ..).answers identifiers unbroken
  rw [chainAt?, boundary, if_neg Bool.false_ne_true, isCall, Option.bind_some]
  simp only [dropped]
  rw [atStop] at answers ⊢
  generalize ending? dialect false .start behind = ending at answers ⊢
  generalize complete dialect (offset + dialect.maxChainLength) .beforeMessage .start
    (offset + initial.length) behind = completion at answers ⊢
  cases answers with
  | @found message begins ends within =>
      have shorter : initial.length + begins < dialect.maxChainLength := by omega
      have sameLength : offset + initial.length + ends - offset = initial.length + ends := by omega
      simp only [Option.map_some, Option.bind_some]
      rw [if_pos shorter, sameLength, List.take_length_add_append]
  | dropped => rfl
  | exhausted => rfl
  | @tooLong begins ends beyond =>
      have notShorter : ¬ initial.length + begins < dialect.maxChainLength := by omega
      simp only [Option.map_none, Option.bind_some]
      rw [if_neg notShorter]

theorem isChain_of_chainAt? (identifiers : dialect.HasIdentifierWords) {offset : Nat}
    {text : Bytes} {span : Span}
    (isChain : chainAt? dialect before ⟨offset, text⟩ = some span)
    (unbroken : HasUnbrokenBraces text) :
    before.any isIdentifierByte = false ∧ span.start = offset ∧ IsChain dialect span.text ∧
      ∃ after, text = span.text ++ after := by
  rcases chainAt?_spec identifiers isChain with ⟨boundary, initial, front, lead, argument, tail,
    after, same, spanText, isInitial, -, -, -, -, -, atStart, -⟩
  have whole : text = initial ++ (front ++ Byte.dot :: lead ++ Byte.openParen :: argument ++
      Byte.closeParen :: tail ++ after) := by
    rw [same, spanText]
    simp
  generalize isBehind : front ++ Byte.dot :: lead ++ Byte.openParen :: argument ++
    Byte.closeParen :: tail ++ after = behind at whole
  subst whole
  have found := map_text_chainAt? identifiers offset isInitial boundary unbroken.of_append_right
  rw [isChain, Option.map_some] at found
  rcases Option.bind_eq_some_iff.mp found.symm with ⟨⟨begins, ends⟩, isEnding, isText⟩
  split at isText
  · rename_i shorter
    injection isText with isText
    rcases exists_isTail_of_ending? identifiers isEnding with
      ⟨ending, others, rfl, rfl, -, isTail⟩
    rw [List.take_left] at isText
    refine ⟨boundary, atStart, ⟨initial, ending, begins, isText.symm, isInitial, isTail, ?_,
      shorter⟩, after, same⟩
    rw [← isTail.decides.ending?_append identifiers unbroken.of_append_right]
    exact isEnding
  · cases isText

theorem IsChain.exists_chainAt? (identifiers : dialect.HasIdentifierWords) (offset : Nat)
    {chain rest : Bytes}
    (isChain : IsChain dialect chain) (boundary : before.any isIdentifierByte = false)
    (unbroken : HasUnbrokenBraces (chain ++ rest)) :
    ∃ span, chainAt? dialect before ⟨offset, chain ++ rest⟩ = some span ∧ span.text = chain ∧
      span.start = offset := by
  rcases isChain with ⟨initial, tail, begins, rfl, isInitial, isTail, isEnding, shorter⟩
  rw [List.append_assoc] at unbroken ⊢
  have found := map_text_chainAt? identifiers offset isInitial boundary unbroken.of_append_right
  rw [isTail.decides.ending?_append identifiers unbroken.of_append_right, isEnding,
    Option.bind_some, if_pos shorter, List.take_left] at found
  rcases Option.map_eq_some_iff.mp found with ⟨span, isSpan, isText⟩
  exact ⟨span, isSpan, isText, start_of_chainAt? isSpan⟩

end

/-! ## Chains on the way of another candidate -/

/-- An initial call outside all parentheses means nothing to the search. -/
theorem ending?_initial (identifiers : dialect.HasIdentifierWords) (own : dialect.HasOwnTerminal)
    {hasMessage : Bool} {initial : Bytes} (isInitial : Call.IsInitial dialect initial)
    (rest : Bytes) :
    ending? dialect hasMessage (Scanner.atRest 0) (initial ++ rest) =
      (ending? dialect hasMessage (Scanner.atRest 0) rest).map fun ending =>
        (ending.1 + initial.length, ending.2 + initial.length) := by
  rcases isInitial with ⟨receiver, isReceiver, level, isLevel, left, right, last, inside,
    blankLeft, blankRight, blankLast, blankInside, rfl⟩
  rcases identifierWord_spec (identifiers.receiver isReceiver) with ⟨_, _, _, allReceiver⟩
  have names : ∀ byte ∈ Utf8.ofString receiver ++ left,
      isBlankByte byte = true ∨ isIdentifierByte byte = true := by
    intro byte member
    rcases List.mem_append.mp member with inReceiver | inBlanks
    · exact .inr (allReceiver byte inReceiver)
    · exact .inl (blankLeft byte inBlanks)
  have front := Scanner.silent_of_names names 0
  have identifier := identifiers.levelled isLevel
  have named : Call.IsNamed (dialect.levelPrefix ++ level)
      (right ++ Utf8.ofString (dialect.levelPrefix ++ level) ++ last) :=
    ⟨right, last, blankRight, blankLast, rfl⟩
  have plain : Call.IsPlain (right ++ Utf8.ofString (dialect.levelPrefix ++ level) ++ last ++
      Byte.openParen :: inside ++ [Byte.closeParen]) :=
    ⟨_, _, inside, identifier, named, isEnclosed_of_plain blankInside.plain,
      fun byte member => not_isIdentifierByte_of_isBlankByte (blankInside byte member), rfl⟩
  have isOpen := @verdict_call dialect identifiers hasMessage _ _ _ identifier named
    (own level isLevel) blankInside rest
  have split : Utf8.ofString receiver ++ left ++ Byte.dot :: right ++
      Utf8.ofString dialect.levelPrefix ++ Utf8.ofString level ++ last ++
      Byte.openParen :: inside ++ [Byte.closeParen] =
      (Utf8.ofString receiver ++ left) ++ Byte.dot ::
        (right ++ Utf8.ofString (dialect.levelPrefix ++ level) ++ last ++
          Byte.openParen :: inside ++ [Byte.closeParen]) := by
    rw [Utf8.ofString_append]
    simp
  have whole : right ++ Utf8.ofString (dialect.levelPrefix ++ level) ++ last ++
      Byte.openParen :: inside ++ Byte.closeParen :: rest =
      (right ++ Utf8.ofString (dialect.levelPrefix ++ level) ++ last ++
        Byte.openParen :: inside ++ [Byte.closeParen]) ++ rest := by
    simp
  rw [whole] at isOpen
  rw [split]
  generalize right ++ Utf8.ofString (dialect.levelPrefix ++ level) ++ last ++
    Byte.openParen :: inside ++ [Byte.closeParen] = call at plain isOpen
  have read : forall ahead, ((Scanner.atRest 0).step Byte.dot ahead).2 = Scanner.atRest 0 :=
    fun _ => rfl
  rw [List.append_assoc, ending?_append_of_silent (front _).2, (front _).1, List.cons_append,
    ending?, isOpen]
  simp only
  rw [read, ending?_append_of_silent (plain.silent 0 _), plain.run, Option.map_map,
    Option.map_map]
  congr 1
  funext ending
  simp only [Function.comp_apply, List.length_append, List.length_cons, Prod.mk.injEq]
  omega

/-- A message in front makes the search find no less. -/
theorem isSome_ending?_of_message {scanner : Scanner} {text : Bytes}
    (found : (ending? dialect false scanner text).isSome = true) :
    (ending? dialect true scanner text).isSome = true := by
  induction text generalizing scanner with
  | nil => cases found
  | cons byte rest ih =>
      cases isVerdict : verdict dialect false scanner byte rest with
      | «open» goesOn =>
          rw [ending?, isVerdict] at found
          simp only [Option.isSome_map] at found
          rw [ending?]
          rcases verdict_true_of_open isVerdict with isOpen | ⟨length, isFound⟩
          · rw [isOpen]
            simp only [Option.isSome_map]
            cases goesOn with
            | false => exact ih found
            | true => exact found
          · rw [isFound]
            rfl
      | found length => cases (verdict_eq_found isVerdict).1
      | lost =>
          rw [ending?, isVerdict] at found
          cases found

/-- A candidate outside all parentheses of which a chain is a part is decided
there. -/
theorem IsChain.isSome_ending? (identifiers : dialect.HasIdentifierWords)
    (own : dialect.HasOwnTerminal) (hasMessage : Bool) {chain rest : Bytes}
    (isChain : IsChain dialect chain) (unbroken : HasUnbrokenBraces (chain ++ rest)) :
    (ending? dialect hasMessage (Scanner.atRest 0) (chain ++ rest)).isSome = true := by
  rcases isChain with ⟨initial, tail, begins, rfl, isInitial, isTail, isEnding, -⟩
  rw [List.append_assoc] at unbroken ⊢
  rw [ending?_initial identifiers own isInitial, Option.isSome_map, ← Scanner.start_eq_atRest,
    isTail.decides.ending?_append identifiers unbroken.of_append_right]
  have found : (ending? dialect false .start tail).isSome = true := by
    rw [isEnding]
    rfl
  cases hasMessage with
  | false => exact found
  | true => exact isSome_ending?_of_message found

/-! ## Candidates inside a chain -/

theorem decides_of_not_closesOwn {scanner : Scanner} {stretch rest : Bytes}
    (closes : ¬ scanner.ClosesOwn rest.head? stretch) :
    Decides dialect scanner (stretch ++ rest) := by
  induction stretch generalizing scanner with
  | nil => exact absurd True.intro closes
  | cons byte stretch ih =>
      by_cases here : byte = Byte.closeParen ∧
        (scanner.step byte (stretch.head?.or rest.head?)).1 = some 0
      · rcases here with ⟨rfl, reported⟩
        rw [Scanner.eq_atRest_of_step reported]
        exact Decides.ends rfl
      · have later : ¬ (scanner.step byte (stretch.head?.or rest.head?)).2.ClosesOwn rest.head?
            stretch := fun own => closes ⟨here, own⟩
        have behind := ih later
        rw [← List.head?_append] at behind
        exact Decides.byte behind

/-- A scanner that is at rest at some depth outside, and at no depth with it,
is at no depth. -/
theorem Scanner.eq_atRest_of_deepen {scanner : Scanner} {extra : Nat}
    (atRest : scanner.deepen extra = Scanner.atRest 0) : scanner = Scanner.atRest 0 := by
  rcases scanner with ⟨⟨depth, quoting⟩, region⟩
  injection atRest with sameCursor sameRegion
  injection sameCursor with sameDepth sameQuoting
  have noDepth : depth = 0 := Nat.eq_zero_of_add_eq_zero_right sameDepth
  subst noDepth
  cases sameRegion
  cases sameQuoting
  rfl

theorem Call.IsInitial.not_terminal (identifiers : dialect.HasIdentifierWords)
    (own : dialect.HasOwnTerminal) {before initial middle lead inside : Bytes}
    (isInitial : IsInitial dialect initial) (named : IsNamed dialect.terminalMethod lead)
    (blank : IsBlank inside) :
    before ++ initial ≠
      middle ++ Byte.dot :: (lead ++ Byte.openParen :: (inside ++ [Byte.closeParen])) := by
  intro same
  rcases isInitial.exists_names with ⟨receiver, -, level, isLevel, blanks, levelLead, empty, -,
    levelled, blankEmpty, rfl⟩
  have identifier := identifiers.levelled isLevel
  rw [← List.append_assoc] at same
  have sameCall := behind_last_unique (levelled.dot_not_mem_call identifier blankEmpty.dot_not_mem)
    (named.dot_not_mem_call identifiers.terminalMethod blank.dot_not_mem) same
  exact absurd named
    (levelled.not_other identifier identifiers.terminalMethod (own level isLevel) sameCall)

/-- A candidate inside a chain is decided there.  At the latest, the terminal
call that ends the chain stops the search for its own. -/
theorem IsTail.decides_behind_initial (identifiers : dialect.HasIdentifierWords)
    (own : dialect.HasOwnTerminal) {before initial behind : Bytes}
    (isTail : IsTail dialect .start (before ++ initial ++ behind))
    (isInitial : Call.IsInitial dialect initial)
    (outside : Scanner.Agree (Scanner.start.run (initial ++ behind).head? before) .start) :
    Decides dialect .start behind := by
  rcases isTail with ⟨middle, lead, inside, named, blank, same, closesOwn, atRest⟩
  have whole : middle ++ Byte.dot :: (lead ++ Byte.openParen :: (inside ++ [Byte.closeParen])) =
      (before ++ initial) ++ behind := by
    rw [same]
    simp
  rcases isInitial.run_atRest identifiers with ⟨isLast, reads⟩
  rcases split_at whole with ⟨others, rfl, rfl⟩ | ⟨others, isFront, isRest⟩
  · by_cases ownOthers : Scanner.start.ClosesOwn (some Byte.dot) others
    · -- The stretch is read alike at any depth, so it comes to rest outside here as well.
      rw [List.head?_append, List.head?_append, List.head?_cons] at outside
      rw [Scanner.run_append, Scanner.run_append, outside.eq_atRest, (reads _ _).1] at atRest
      have deeper := Scanner.run_deepen ownOthers
        (Scanner.start.run (initial.head?.or (others.head?.or (some Byte.dot))) before).cursor.depth
      rw [Scanner.start_eq_atRest, Scanner.deepen_atRest, Nat.zero_add,
        ← Scanner.start_eq_atRest, atRest] at deeper
      apply IsTail.decides
      refine ⟨others, lead, inside, named, blank, ?_, ownOthers,
        Scanner.eq_atRest_of_deepen deeper.symm⟩
      simp
    · exact decides_of_not_closesOwn ownOthers
  · -- The initial call would have to end within the terminal call.
    have lastByte : (middle ++ Byte.dot :: others).getLast? = some Byte.closeParen := by
      rw [← isFront, List.getLast?_append, isLast, Option.some_or]
    have inOthers : Byte.closeParen ∈ others := by
      rw [List.getLast?_append, List.getLast?_cons, Option.some_or] at lastByte
      cases isOthers : others.getLast? with
      | none =>
          rw [isOthers] at lastByte
          cases lastByte
      | some last =>
          rw [isOthers] at lastByte
          cases lastByte
          exact List.mem_of_getLast? isOthers
    have sameCall : (lead ++ Byte.openParen :: inside) ++ Byte.closeParen :: [] =
        others ++ behind := by
      rw [← isRest]
      simp
    rcases split_at sameCall with ⟨more, isFrontCall, -⟩ | ⟨more, rfl, noMore⟩
    · have inCall : Byte.closeParen ∈ lead ++ Byte.openParen :: inside := by
        rw [isFrontCall]
        exact List.mem_append_left more inOthers
      rcases List.mem_append.mp inCall with inLead | inRest
      · exact absurd (named.plain identifiers.terminalMethod _ inLead) (by decide)
      · rcases List.mem_cons.mp inRest with isOpen | inInside
        · exact absurd isOpen (by decide)
        · exact absurd (blank _ inInside) (by decide)
    · rcases List.append_eq_nil_iff.mp noMore.symm with ⟨rfl, -⟩
      have ended : before ++ initial =
          middle ++ Byte.dot :: (lead ++ Byte.openParen :: (inside ++ [Byte.closeParen])) := by
        rw [isFront]
        simp
      exact absurd ended (isInitial.not_terminal identifiers own named blank)

end FluentLog
