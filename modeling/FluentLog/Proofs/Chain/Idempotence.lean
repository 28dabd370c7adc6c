import FluentLog.Proofs.Chain.Renewal
import FluentLog.Proofs.Chain.Structure

namespace FluentLog

/-!
# Inlining twice

A second pass over a text in which chains were inlined meets the chains that were kept,
which it keeps again, and inside each text that took the place of a chain the candidates
that it meets in that text alone.  So it changes nothing exactly when it changes none of
these texts.  That is not always so: an argument may hold a chain of its own, which the
first pass did not meet, because it went on behind the chain around it, and which the
second pass does meet, because the chain around it has a message now.
-/

variable {dialect : Dialect}

/-! ## Chains that are kept -/

/-- Whether a chain of the given text is not replaced.  It does not matter
where the chain stands. -/
def IsKept (dialect : Dialect) (chain : Bytes) : Prop :=
  forall span : Span, span.text = chain -> span.inlined? dialect = none

/-- Whether a chain is replaced does not depend on where it stands. -/
theorem inlined?_eq_none_iff {span : Span} :
    span.inlined? dialect = none ↔ IsKept dialect span.text := by
  constructor
  · intro kept other sameText
    have samePlan : Plan.ofSpan dialect other = Plan.ofSpan dialect span := by
      rw [Plan.ofSpan, Plan.ofSpan, sameText]
    rw [inlined?_eq_none_iff_template] at kept ⊢
    rw [samePlan]
    exact kept
  · intro kept
    exact kept span rfl

theorem inlineChains_eq_unchanged_iff {source : Bytes} :
    inlineChains dialect source = .unchanged ↔
      ∀ span ∈ locate dialect source, IsKept dialect span.text := by
  have edits : (locate dialect source).filterMap (Span.edit? dialect) = [] ↔
      ∀ span ∈ locate dialect source, IsKept dialect span.text := by
    rw [List.filterMap_eq_nil_iff]
    apply forall_congr'
    intro span
    rw [Span.edit?, Option.map_eq_none_iff, inlined?_eq_none_iff]
  rw [← edits, inlineChains]
  split
  · rename_i noEdits
    exact ⟨fun _ => noEdits, fun _ => rfl⟩
  · rename_i someEdits
    constructor
    · intro unchanged
      cases unchanged
    · intro noEdits
      exact absurd noEdits someEdits

/-! ## The pass over a text that took the place of a chain -/

/-- What matters of the byte in front of a text is whether it continues an
identifier. -/
theorem Locates.of_boundary {scanner : Scanner} {before other : Option UInt8} {offset : Nat}
    {text : Bytes} {spans : List Span}
    (located : Locates dialect scanner before offset text spans)
    (same : before.any isIdentifierByte = other.any isIdentifierByte) :
    Locates dialect scanner other offset text spans := by
  have sameChain : forall place : Place,
      chainAt? dialect before place = chainAt? dialect other place := by
    intro place
    rw [chainAt?, chainAt?, same]
  cases located with
  | done => exact .done scanner other offset
  | chain outside isChain behind => exact .chain outside (sameChain _ ▸ isChain) behind
  | byte noChain behind =>
      exact .byte (fun outside => sameChain _ ▸ noChain outside) behind

/-- Inside a text that ends with its terminal call a candidate that is not
completed is not completed when there is more text behind either.  The search
for it stops at that terminal call at the latest. -/
theorem chainAt?_append_eq_none (identifiers : dialect.HasIdentifierWords)
    (own : dialect.HasOwnTerminal) {before : Option UInt8} {offset newOffset : Nat}
    {front stretch rest : Bytes} (isTail : IsTail dialect .start (front ++ stretch))
    (nonempty : stretch ≠ []) (unbroken : HasUnbrokenBraces (stretch ++ rest))
    (outside : Scanner.Agree (Scanner.start.run stretch.head? front) .start)
    (noChain : chainAt? dialect before ⟨offset, stretch⟩ = none) :
    chainAt? dialect before ⟨newOffset, stretch ++ rest⟩ = none := by
  apply Option.eq_none_iff_forall_ne_some.mpr
  intro span isSpan
  rcases isChain_of_chainAt? identifiers isSpan unbroken with ⟨boundary, -, isChain, after, same⟩
  have asText := isChain
  rcases asText with ⟨initial, tail, begins, spanText, isInitial, isTailSpan, isEnding, -⟩
  have lastByte : Byte.closeParen ∈ stretch := by
    have isLast := isTail.getLast?_eq
    rw [List.getLast?_append_of_ne_nil front nonempty] at isLast
    exact List.mem_of_getLast? isLast
  have inStretch : ∃ behind, stretch = initial ++ behind ∧ tail ++ after = behind ++ rest := by
    rw [spanText, List.append_assoc] at same
    rcases List.append_eq_append_iff.mp same with ⟨others, isOther, isRest⟩ | found
    · -- A closing parenthesis stands at the end of an initial call only.
      cases others with
      | nil =>
          rw [List.append_nil] at isOther
          exact ⟨[], by rw [isOther, List.append_nil], isRest.symm⟩
      | cons byte others =>
          rw [isOther] at isInitial
          exact absurd lastByte
            (isInitial.not_mem_of_append identifiers (List.cons_ne_nil byte others))
    · exact found
  rcases inStretch with ⟨behind, rfl, sameBehind⟩
  have unbrokenStretch := unbroken.of_append_left
  rw [← List.append_assoc] at isTail
  rw [List.append_assoc] at unbroken
  have decides := isTail.decides_behind_initial identifiers own isInitial outside
  have found := @Decides.ending?_append dialect .start behind identifiers false rest decides
    unbroken.of_append_right
  rw [← sameBehind] at unbroken found
  rw [isTailSpan.decides.ending?_append identifiers unbroken.of_append_right, isEnding] at found
  rcases exists_isTail_of_ending? identifiers found.symm with ⟨other, others, rfl, sameLength, -⟩
  have sameTail : tail = other := by
    rw [List.append_assoc] at sameBehind
    exact (List.append_inj sameBehind sameLength.symm).1
  have sameStretch : initial ++ (other ++ others) = span.text ++ others := by
    rw [spanText, sameTail, List.append_assoc]
  rw [sameStretch] at unbrokenStretch noChain
  rcases isChain.exists_chainAt? identifiers offset boundary unbrokenStretch with
    ⟨other, isOther, -⟩
  rw [noChain] at isOther
  cases isOther

/-- What follows the last byte makes no difference, since that is a
parenthesis. -/
theorem IsTail.step_append {front others : Bytes} {byte : UInt8}
    (isTail : IsTail dialect .start (front ++ byte :: others)) (scanner : Scanner) (rest : Bytes) :
    scanner.step byte (others ++ rest).head? = scanner.step byte others.head? := by
  cases others with
  | cons => rfl
  | nil =>
      have isLast := isTail.getLast?_eq
      rw [List.getLast?_concat] at isLast
      injection isLast with isLast
      subst isLast
      exact Scanner.step_ahead (by decide) (by decide) scanner _ _

/-- A scanner that agrees in front of a chain agrees behind it, and is
outside. -/
theorem IsChain.agree_behind (identifiers : dialect.HasIdentifierWords) {chain : Bytes}
    (isChain : IsChain dialect chain) {scanner : Scanner} {front rest : Bytes}
    (outside : Scanner.Agree scanner .start)
    (agree : Scanner.Agree scanner (Scanner.start.run (chain ++ rest).head? front)) :
    Scanner.Agree .start (Scanner.start.run rest.head? (front ++ chain)) := by
  rw [List.head?_append] at agree
  rw [Scanner.run_append, (agree.symm.trans outside).eq_atRest, isChain.run identifiers]
  exact Scanner.agree_atRest 0 _

/-- Whether a pass over a text finds chains with these texts, and behind them
the given ones.  Where the first ones stand is left open, since a replaced
chain moves all that follows. -/
def LocatesTexts (dialect : Dialect) (scanner : Scanner) (before : Option UInt8) (offset : Nat)
    (text : Bytes) (chains : List Bytes) (later : List Span) : Prop :=
  ∃ spans, Locates dialect scanner before offset text (spans ++ later) ∧
    spans.map Span.text = chains

/-- A chain is found at whatever offset it stands, outside of everything and
on a word boundary. -/
theorem LocatesTexts.chain (identifiers : dialect.HasIdentifierWords) {scanner : Scanner}
    {before : Option UInt8} {offset : Nat} {chain others : Bytes} {chains : List Bytes}
    {later : List Span} (isChain : IsChain dialect chain) (outside : Scanner.Agree scanner .start)
    (boundary : before.any isIdentifierByte = false)
    (unbroken : HasUnbrokenBraces (chain ++ others))
    (behind : LocatesTexts dialect .start (some Byte.closeParen) (offset + chain.length) others
      chains later) :
    LocatesTexts dialect scanner before offset (chain ++ others) (chain :: chains) later := by
  rcases isChain.exists_chainAt? identifiers offset boundary unbroken with
    ⟨span, isSpan, rfl, atStart⟩
  rcases behind with ⟨spans, located, sameTexts⟩
  have atStop : span.stop = offset + span.text.length := by rw [Span.stop, atStart]
  rw [← atStop] at located
  exact ⟨span :: spans, .chain outside isSpan located, by rw [List.map_cons, sameTexts]⟩

/-- The pass over a text that ends with its terminal call, with more text
behind it, finds the same chains as the pass over that text alone.  This is
what makes a replaced chain independent of its surroundings. -/
theorem Locates.append_whole (identifiers : dialect.HasIdentifierWords)
    (own : dialect.HasOwnTerminal) {scanner : Scanner} {before first : Option UInt8}
    {offset : Nat} {front stretch : Bytes} {spans : List Span}
    (isTail : IsTail dialect .start (front ++ stretch))
    (located : Locates dialect scanner before offset stretch spans)
    (agree : Scanner.Agree scanner (Scanner.start.run stretch.head? front))
    (atFront : before = front.getLast?.or first) {newOffset : Nat} {rest : Bytes}
    {later : List Span} (unbroken : HasUnbrokenBraces (stretch ++ rest))
    (behind : Locates dialect .start (some Byte.closeParen) (newOffset + stretch.length) rest
      later) :
    LocatesTexts dialect scanner before newOffset (stretch ++ rest) (spans.map Span.text)
      later := by
  induction located generalizing front newOffset with
  | done scanner before offset =>
      refine ⟨[], ?_, rfl⟩
      rw [List.append_nil] at isTail
      rw [List.head?_nil, (isTail.closesOwn identifiers none).2] at agree
      rw [isTail.getLast?_eq, Option.some_or] at atFront
      subst atFront
      exact behind.of_agree agree.symm
  | @chain scanner before offset others span spans outside isChain located ih =>
      rcases isChain_of_chainAt? identifiers isChain unbroken.of_append_left with
        ⟨boundary, -, asText, -⟩
      rw [List.append_assoc] at unbroken ⊢
      rw [← List.append_assoc] at isTail
      rw [List.length_append, ← Nat.add_assoc] at behind
      have atFrontBehind : some Byte.closeParen = (front ++ span.text).getLast?.or first := by
        rw [List.getLast?_append, asText.getLast?_eq, Option.some_or, Option.some_or]
      exact .chain identifiers asText outside boundary unbroken
        (ih isTail (asText.agree_behind identifiers outside agree) atFrontBehind
          unbroken.of_append_right behind)
  | @byte scanner before offset byte others spans noChain located ih =>
      have isTailBehind := isTail
      rw [← List.singleton_append, ← List.append_assoc] at isTailBehind
      rw [List.length_cons, Nat.add_comm others.length, ← Nat.add_assoc] at behind
      have agreeBehind : Scanner.Agree (scanner.step byte others.head?).2
          (Scanner.start.run others.head? (front ++ [byte])) := by
        rw [Scanner.run_append]
        exact (agree.step byte others.head?).2
      have atFrontBehind : some byte = (front ++ [byte]).getLast?.or first := by
        rw [List.getLast?_concat, Option.some_or]
      rcases ih isTailBehind agreeBehind atFrontBehind unbroken.tail behind with
        ⟨newSpans, newLocated, sameTexts⟩
      rw [← isTail.step_append scanner rest] at newLocated
      refine ⟨newSpans, Locates.byte ?_ newLocated, sameTexts⟩
      intro outside
      exact @chainAt?_append_eq_none dialect identifiers own before offset newOffset
        front (byte :: others) rest isTail (List.cons_ne_nil byte others) unbroken
        (agree.symm.trans outside) (noChain outside)

/-! ## The second pass -/

/-- Whether every candidate in a text has its terminal call, if there is one,
within the bound.  Otherwise a replaced chain could be shorter than the bound
while the old one was not. -/
def HasShortChains (dialect : Dialect) (text : Bytes) : Prop :=
  forall before initial behind : Bytes, text = before ++ initial ++ behind ->
    Call.IsInitial dialect initial ->
    forall begins ends : Nat, ending? dialect false .start behind = some (begins, ends) ->
      initial.length + begins < dialect.maxChainLength

theorem hasShortChains_of_length_le (identifiers : dialect.HasIdentifierWords) {text : Bytes}
    (short : text.length ≤ dialect.maxChainLength) : HasShortChains dialect text := by
  rintro before initial behind rfl - begins ends isEnding
  rcases exists_isTail_of_ending? identifiers isEnding with ⟨tail, after, rfl, rfl, ordered, -⟩
  simp only [List.length_append] at short
  omega

theorem HasShortChains.of_append {left right : Bytes}
    (short : HasShortChains dialect (left ++ right)) : HasShortChains dialect right := by
  intro before initial behind same
  apply short (left ++ before) initial behind
  rw [same]
  simp only [List.append_assoc]

theorem HasShortChains.tail {byte : UInt8} {text : Bytes}
    (short : HasShortChains dialect (byte :: text)) : HasShortChains dialect text :=
  @of_append dialect [byte] text short

/-- Where the first pass finds no chain the second one finds none. -/
theorem Renews.chainAt?_eq_none (identifiers : dialect.HasIdentifierWords)
    (own : dialect.HasOwnTerminal) {scanner : Scanner} {before : Option UInt8}
    {offset newOffset : Nat} {byte : UInt8} {rest newRest : Bytes}
    (renews : Renews dialect (scanner.step byte rest.head?).2 (some byte) rest newRest)
    (outside : Scanner.Agree scanner .start) (unbroken : HasUnbrokenBraces (byte :: rest))
    (unbrokenNew : HasUnbrokenBraces (byte :: newRest))
    (short : HasShortChains dialect (byte :: rest))
    (noChain : chainAt? dialect before ⟨offset, byte :: rest⟩ = none) :
    chainAt? dialect before ⟨newOffset, byte :: newRest⟩ = none := by
  apply Option.eq_none_iff_forall_ne_some.mpr
  intro span isSpan
  rcases isChain_of_chainAt? identifiers isSpan unbrokenNew with
    ⟨boundary, -, ⟨initial, tail, begins, spanText, isInitial, isTail, isEnding, -⟩, after, same⟩
  rw [spanText, List.append_assoc] at same
  cases initial with
  | nil => cases (isInitial.run_atRest identifiers).1
  | cons first initial =>
      rcases List.cons.inj same with ⟨rfl, sameRest⟩
      rcases renews.take (isInitial.noInitial identifiers) (.inr ⟨tail ++ after, sameRest⟩) with
        ⟨others, newOthers, rfl, rfl, behind⟩
      have sameBehind : newOthers = tail ++ after := List.append_cancel_left sameRest
      subst sameBehind
      -- The old text has no terminal call behind the initial call, at the bound or elsewhere.
      have noEnding : ending? dialect false .start others = none := by
        have found := map_text_chainAt? identifiers offset isInitial boundary
          unbroken.tail.of_append_right
        rw [List.cons_append, noChain, Option.map_none] at found
        cases isOld : ending? dialect false .start others with
        | none => rfl
        | some ending =>
            have within := short [] (byte :: initial) others rfl isInitial ending.1 ending.2 isOld
            rw [isOld, Option.bind_some, if_pos within] at found
            cases found
      have agree : Scanner.Agree .start
          ((scanner.step byte (initial ++ others).head?).2.run others.head? initial) := by
        rw [Scanner.start_eq_atRest] at outside
        have passed := ((isInitial.run_atRest identifiers).2 scanner.cursor.depth others.head?).1
        rw [← outside.eq_atRest, Scanner.run_cons, ← List.head?_append] at passed
        rw [passed]
        exact outside.symm
      have unbrokenBehind : HasUnbrokenBraces (tail ++ after) := unbrokenNew.tail.of_append_right
      have lost := behind.ending?_eq_none identifiers own agree unbroken.tail.of_append_right
        unbrokenBehind noEnding
      rw [isTail.decides.ending?_append identifiers unbrokenBehind, isEnding] at lost
      cases lost

theorem exists_initial_of_inlined? (identifiers : dialect.HasIdentifierWords)
    {before : Option UInt8} {offset : Nat} {text new : Bytes} {span : Span}
    (isChain : chainAt? dialect before ⟨offset, text⟩ = some span)
    (inlined : span.inlined? dialect = some new) :
    ∃ initial tail newTail, span.text = initial ++ tail ∧ new = initial ++ newTail ∧
      Call.IsInitial dialect initial := by
  rcases chainAt?_spec identifiers isChain with ⟨-, initial, front, lead, argument, tail,
    after, -, spanText, isInitial, -, -, -, -, -, atStart, atMessage⟩
  have split : span.text = initial ++ (front ++ Byte.dot :: lead ++ Byte.openParen :: argument ++
      Byte.closeParen :: tail) := by
    rw [spanText]
    simp
  generalize front ++ Byte.dot :: lead ++ Byte.openParen :: argument ++ Byte.closeParen :: tail =
    behind at split
  rcases inlined?_eq_some_iff_outcome.mp inlined with ⟨plan, edits, outcome, rfl⟩
  rcases outcome_edits identifiers isChain outcome with ⟨-, each, -, -⟩
  have reached : ∀ edit ∈ edits, initial.length ≤ edit.extent.start := by
    intro edit member
    rcases each (edit.shift span.start) (List.mem_map_of_mem member) with
      ⟨sameExtent, -⟩ | ⟨call, -, isCall, sameEdit⟩
    · have sameStart := congrArg Extent.start (sameExtent.trans atMessage)
      simp only [Edit.shift, atStart] at sameStart
      omega
    · have sameStart := congrArg (fun edit : Edit => edit.extent.start) sameEdit
      simp only [Edit.shift, SupplierCall.edit] at sameStart
      rw [split] at isCall
      have behindInitial := isCall.behind_initial identifiers isInitial
      omega
  rcases @Edit.exists_splice_append initial behind edits reached with ⟨newTail, spliced⟩
  exact ⟨initial, behind, newTail, split, by rw [split, spliced], isInitial⟩

theorem forall_isKept_congr {spans others : List Span}
    (same : spans.map Span.text = others.map Span.text) :
    (∀ span ∈ spans, IsKept dialect span.text) ↔ ∀ span ∈ others, IsKept dialect span.text := by
  have asTexts : forall {spans : List Span}, (∀ span ∈ spans, IsKept dialect span.text) ↔
      ∀ text ∈ spans.map Span.text, IsKept dialect text :=
    fun {_} => List.forall_mem_map.symm
  rw [asTexts, same, ← asTexts]

/-- A text with the chains that a pass found in another one replaced, and what
the second pass finds in it: the chains that are kept, and those of the texts
in place of the others.  The three parts are proved together, since each needs
the others further on in the text. -/
structure SecondPass (dialect : Dialect) (scanner : Scanner) (before : Option UInt8)
    (offset : Nat) (text : Bytes) (spans : List Span) (new : Bytes) : Prop where
  replaces : Edit.Replaces offset (spans.filterMap (Span.edit? dialect)) text new
  renews : Renews dialect scanner before text new
  located : HasUnbrokenBraces new -> forall newOffset,
    ∃ newSpans, Locates dialect scanner before newOffset new newSpans ∧
      ((∀ span ∈ newSpans, IsKept dialect span.text) ↔
        ∀ span ∈ spans, forall chain, span.inlined? dialect = some chain ->
          inlineChains dialect chain = .unchanged)

namespace SecondPass

variable {scanner : Scanner} {before : Option UInt8} {offset : Nat} {rest new : Bytes}
variable {span : Span} {spans : List Span}

theorem done (scanner : Scanner) (before : Option UInt8) (offset : Nat) :
    SecondPass dialect scanner before offset [] [] [] where
  replaces := .done offset []
  renews := .done scanner before
  located _ newOffset :=
    ⟨[], .done scanner before newOffset,
      fun _ => List.forall_mem_nil _, fun _ => List.forall_mem_nil _⟩

theorem kept (identifiers : dialect.HasIdentifierWords) (outside : Scanner.Agree scanner .start)
    (unbroken : HasUnbrokenBraces (span.text ++ rest))
    (isChain : chainAt? dialect before ⟨offset, span.text ++ rest⟩ = some span)
    (isKept : span.inlined? dialect = none)
    (behind : SecondPass dialect .start (some Byte.closeParen) span.stop rest spans new) :
    SecondPass dialect scanner before offset (span.text ++ rest) (span :: spans)
      (span.text ++ new) := by
  rcases isChain_of_chainAt? identifiers isChain unbroken with ⟨boundary, -, asText, -⟩
  refine ⟨behind.replaces.cons_of_kept isChain isKept,
    .chain outside boundary asText (asText.staysWhole identifiers) behind.renews, ?_⟩
  intro unbrokenNew newOffset
  rcases asText.exists_chainAt? identifiers newOffset boundary unbrokenNew with
    ⟨newSpan, isNewChain, sameText, -⟩
  rcases behind.located unbrokenNew.of_append_right newSpan.stop with
    ⟨newSpans, newLocated, same⟩
  refine ⟨newSpan :: newSpans, ?_, ?_⟩
  · rw [← sameText] at isNewChain ⊢
    exact Locates.chain outside isNewChain newLocated
  · rw [List.forall_mem_cons, List.forall_mem_cons, same, sameText,
      ← inlined?_eq_none_iff, isKept]
    constructor
    · rintro ⟨-, others⟩
      refine ⟨?_, others⟩
      intro _ isSome
      cases isSome
    · rintro ⟨-, others⟩
      exact ⟨rfl, others⟩

theorem inlined (identifiers : dialect.HasIdentifierWords) (own : dialect.HasOwnTerminal)
    (outside : Scanner.Agree scanner .start) (unbroken : HasUnbrokenBraces (span.text ++ rest))
    (isChain : chainAt? dialect before ⟨offset, span.text ++ rest⟩ = some span) {chain : Bytes}
    (isInlined : span.inlined? dialect = some chain) (isTail : IsTail dialect .start chain)
    (behind : SecondPass dialect .start (some Byte.closeParen) span.stop rest spans new) :
    SecondPass dialect scanner before offset (span.text ++ rest) (span :: spans)
      (chain ++ new) := by
  rcases isChain_of_chainAt? identifiers isChain unbroken with ⟨boundary, -, asText, -⟩
  refine ⟨behind.replaces.cons_of_inlined isChain isInlined, .chain outside boundary asText
    ⟨exists_initial_of_inlined? identifiers isChain isInlined, isTail⟩ behind.renews, ?_⟩
  intro unbrokenNew newOffset
  rcases behind.located unbrokenNew.of_append_right (newOffset + chain.length) with
    ⟨newSpans, newLocated, same⟩
  rcases @Locates.append_whole dialect identifiers own .start none none 0 [] chain
    (locate dialect chain) isTail (locates_locate identifiers chain)
    (Scanner.Agree.refl _) rfl newOffset new newSpans unbrokenNew newLocated with
    ⟨chainSpans, chainLocated, sameTexts⟩
  refine ⟨chainSpans ++ newSpans,
    (chainLocated.of_boundary boundary.symm).of_agree outside.symm, ?_⟩
  rw [List.forall_mem_append, List.forall_mem_cons, same, forall_isKept_congr sameTexts,
    ← inlineChains_eq_unchanged_iff, isInlined]
  constructor
  · rintro ⟨unchanged, others⟩
    refine ⟨?_, others⟩
    rintro _ ⟨rfl⟩
    exact unchanged
  · rintro ⟨unchanged, others⟩
    exact ⟨unchanged chain rfl, others⟩

theorem byte (identifiers : dialect.HasIdentifierWords) (own : dialect.HasOwnTerminal)
    {byte : UInt8} (unbroken : HasUnbrokenBraces (byte :: rest))
    (short : HasShortChains dialect (byte :: rest))
    (noChain : Scanner.Agree scanner .start ->
      chainAt? dialect before ⟨offset, byte :: rest⟩ = none)
    (behind : SecondPass dialect (scanner.step byte rest.head?).2 (some byte) (offset + 1) rest
      spans new) :
    SecondPass dialect scanner before offset (byte :: rest) spans (byte :: new) := by
  refine ⟨behind.replaces.prepend [byte], .byte behind.renews, ?_⟩
  intro unbrokenNew newOffset
  rcases behind.located unbrokenNew.tail (newOffset + 1) with ⟨newSpans, newLocated, same⟩
  rw [behind.renews.head?_eq identifiers] at newLocated
  refine ⟨newSpans, Locates.byte ?_ newLocated, same⟩
  intro outside
  exact behind.renews.chainAt?_eq_none identifiers own outside unbroken unbrokenNew short
    (noChain outside)

end SecondPass

theorem Locates.exists_secondPass (identifiers : dialect.HasIdentifierWords)
    (own : dialect.HasOwnTerminal) {scanner : Scanner} {before : Option UInt8} {offset : Nat}
    {text : Bytes} {spans : List Span}
    (located : Locates dialect scanner before offset text spans)
    (unbroken : HasUnbrokenBraces text) (short : HasShortChains dialect text)
    (whole : ∀ span ∈ spans, forall new, span.inlined? dialect = some new ->
      IsTail dialect .start new) :
    ∃ new, SecondPass dialect scanner before offset text spans new := by
  induction located with
  | done scanner before offset => exact ⟨[], .done scanner before offset⟩
  | @chain scanner before offset rest span spans outside isChain located ih =>
      rcases ih unbroken.of_append_right short.of_append
        (fun other member => whole other (List.mem_cons_of_mem span member)) with ⟨new, behind⟩
      cases inlined : span.inlined? dialect with
      | none => exact ⟨_, behind.kept identifiers outside unbroken isChain inlined⟩
      | some chain =>
          have isTail := whole span List.mem_cons_self chain inlined
          exact ⟨_, behind.inlined identifiers own outside unbroken isChain inlined isTail⟩
  | @byte scanner before offset byte rest spans noChain located ih =>
      rcases ih unbroken.tail short.tail whole with ⟨new, behind⟩
      exact ⟨_, behind.byte identifiers own unbroken short noChain⟩

theorem SecondPass.unchanged_iff (identifiers : dialect.HasIdentifierWords) {source new : Bytes}
    (second : SecondPass dialect .start none 0 source (locate dialect source) new)
    (unbrokenNew : HasUnbrokenBraces ((inlineChains dialect source).text source)) :
    inlineChains dialect ((inlineChains dialect source).text source) = .unchanged ↔
      ∀ span ∈ locate dialect source, forall chain, span.inlined? dialect = some chain ->
        inlineChains dialect chain = .unchanged := by
  have sameText : (inlineChains dialect source).text source = new := by
    rw [← second.replaces.splice_eq, inlineChains]
    split
    · rename_i noEdits
      rw [noEdits]
      rfl
    · rfl
  rw [sameText] at unbrokenNew ⊢
  rcases second.located unbrokenNew 0 with ⟨newSpans, newLocated, same⟩
  rw [inlineChains_eq_unchanged_iff,
    (locates_locate identifiers new).unique identifiers newLocated, same]

/-- A second pass changes nothing exactly when it changes none of the texts
that took the place of a chain, if these end where the chains ended, all
chains are within the bound and no quoted braces are broken over a line end. -/
theorem inlineChains_idempotent_iff (identifiers : dialect.HasIdentifierWords)
    (own : dialect.HasOwnTerminal) {source : Bytes} (short : HasShortChains dialect source)
    (unbroken : HasUnbrokenBraces source)
    (unbrokenNew : HasUnbrokenBraces ((inlineChains dialect source).text source))
    (whole : ∀ span ∈ locate dialect source, forall new, span.inlined? dialect = some new ->
      IsTail dialect .start new) :
    inlineChains dialect ((inlineChains dialect source).text source) = .unchanged ↔
      ∀ span ∈ locate dialect source, forall new, span.inlined? dialect = some new ->
        inlineChains dialect new = .unchanged := by
  rcases (locates_locate identifiers source).exists_secondPass identifiers own unbroken short
    whole with ⟨new, second⟩
  exact second.unchanged_iff identifiers unbrokenNew

/-- A chain with nothing that could be inlined in its argument. -/
def innerless : String :=
  "log.atInfo().setMessage(\"\x7b\x7d\").addArgument(() -> \"a=\" + a).log();"

def innerlessInlined : String :=
  "log.atInfo().setMessage(\"a=\x7b\x7d\").addArgument(a).log()"

theorem innerless_inlined_once :
    Dialect.HasIdentifierWords {} ∧ Dialect.HasOwnTerminal {} ∧
      HasShortChains {} (Utf8.ofString innerless) ∧
      HasUnbrokenBraces (Utf8.ofString innerless) ∧
      HasUnbrokenBraces
        ((inlineChains {} (Utf8.ofString innerless)).text (Utf8.ofString innerless)) ∧
      (∀ span ∈ locate {} (Utf8.ofString innerless), forall new,
        span.inlined? {} = some new -> IsTail {} .start new) ∧
      inlineChains {}
        ((inlineChains {} (Utf8.ofString innerless)).text (Utf8.ofString innerless)) =
        .unchanged := by
  have identifiers := Dialect.hasIdentifierWords_default
  have short : HasShortChains {} (Utf8.ofString innerless) :=
    hasShortChains_of_length_le identifiers (by decide +kernel)
  have unbroken : HasUnbrokenBraces (Utf8.ofString innerless) :=
    hasUnbrokenBraces_of_not_mem (by decide +kernel)
  have unbrokenNew : HasUnbrokenBraces
      ((inlineChains {} (Utf8.ofString innerless)).text (Utf8.ofString innerless)) :=
    hasUnbrokenBraces_of_not_mem (by decide +kernel)
  have news : (locate {} (Utf8.ofString innerless)).filterMap (Span.inlined? {}) =
      [Utf8.ofString innerlessInlined] := by
    decide +kernel
  have isNew : ∀ span ∈ locate {} (Utf8.ofString innerless), forall new,
      span.inlined? {} = some new -> new = Utf8.ofString innerlessInlined := by
    intro span member new inlined
    have inNews := List.mem_filterMap.mpr ⟨span, member, inlined⟩
    rw [news] at inNews
    exact List.mem_singleton.mp inNews
  have whole : ∀ span ∈ locate {} (Utf8.ofString innerless), forall new,
      span.inlined? {} = some new -> IsTail {} .start new := by
    intro span member new inlined
    rw [isNew span member new inlined]
    have isEnding : ending? {} true .start (Utf8.ofString innerlessInlined) =
        some (46, (Utf8.ofString innerlessInlined).length) := by
      decide +kernel
    exact isTail_of_ending? identifiers isEnding
  refine ⟨identifiers, Dialect.hasOwnTerminal_default, short, unbroken, unbrokenNew, whole, ?_⟩
  rw [inlineChains_idempotent_iff identifiers Dialect.hasOwnTerminal_default short unbroken
    unbrokenNew whole]
  intro span member new inlined
  rw [isNew span member new inlined]
  decide +kernel

/-- In a source of kept lines whose chains all consist of calls, with their
argument calls outside of all parentheses, every text in the place of a chain
ends where the chain ended.  So there a second pass depends on nothing but
these texts. -/
theorem inlineChains_idempotent_iff_of_callsOnly (identifiers : dialect.HasIdentifierWords)
    (distinct : dialect.HasDistinctMethods) (own : dialect.HasOwnTerminal) {source : Text}
    (keeps : Scanner.start.KeepsLines (Utf8.encode source))
    (callsOnly : ∀ span ∈ locate dialect (Utf8.encode source),
      HasCallsOnly dialect span.text ∧ HasOuterArgumentsOnly dialect span.text)
    (short : HasShortChains dialect (Utf8.encode source))
    (unbroken : HasUnbrokenBraces (Utf8.encode source))
    (unbrokenNew : HasUnbrokenBraces
      ((inlineChains dialect (Utf8.encode source)).text (Utf8.encode source))) :
    inlineChains dialect ((inlineChains dialect (Utf8.encode source)).text (Utf8.encode source)) =
        .unchanged ↔
      ∀ span ∈ locate dialect (Utf8.encode source), forall chain,
        span.inlined? dialect = some chain -> inlineChains dialect chain = .unchanged := by
  have whole : ∀ span ∈ locate dialect (Utf8.encode source), forall chain,
      span.inlined? dialect = some chain -> IsTail dialect .start chain := by
    intro span member chain inlined
    rcases callsOnly span member with ⟨calls, outer⟩
    exact isTail_of_inlined? identifiers distinct keeps member calls outer inlined
  rcases (locates_locate identifiers (Utf8.encode source)).exists_secondPass identifiers own
    unbroken short whole with ⟨new, second⟩
  exact second.unchanged_iff identifiers unbrokenNew

def nested : String :=
  "log.atInfo().setMessage(\"\x7b\x7d\").addArgument(() -> \"a\" + f(() -> " ++
    "log.atInfo().setMessage(\"\x7b\x7d\").addArgument(() -> \"b\").log())).log();"

def nestedInlined : String :=
  "log.atInfo().setMessage(\"a\x7b\x7d\").addArgument(f(() -> " ++
    "log.atInfo().setMessage(\"\x7b\x7d\").addArgument(() -> \"b\").log())).log();"

/-- The chain in the argument is inlined by a second pass only.  The first
pass jumps behind the whole outer chain, which the second one keeps. -/
theorem nested_inlined_twice :
    inlineChains {} (Utf8.ofString nested) = .inlined (Utf8.ofString nestedInlined) 1 ∧
      inlineChains {} (Utf8.ofString nestedInlined) ≠ .unchanged := by
  decide +kernel

end FluentLog
