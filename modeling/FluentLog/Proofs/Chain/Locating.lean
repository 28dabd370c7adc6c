import FluentLog.Proofs.Chain.Completion

namespace FluentLog

/-!
# Locating chains as one pass

The search for chains jumps behind a chain that it found and behind the initial call
of a candidate that was not completed.  Since no initial call begins inside another,
the second jump can be left out: the search is one pass over the bytes, which at each
byte either finds a chain or reads that byte.  `Locates` is this pass.  It says no more
of a scanner than whether it is at rest, so it does not depend on the depth at which
the search is taken up again.
-/

variable {dialect : Dialect}

/-- The chain that begins at a place, if a candidate there is completed.  The
byte in front of the place is given, since it may continue an identifier. -/
def chainAt? (dialect : Dialect) (before : Option UInt8) (place : Place) : Option Span :=
  if before.any isIdentifierByte then none
  else
    (Call.initial? dialect place).bind fun call =>
      match complete dialect (place.offset + dialect.maxChainLength) .beforeMessage .start
          call.stop (place.rest.drop (call.stop - place.offset)) with
      | .found message stop =>
          some ⟨place.offset, place.rest.take (stop - place.offset), call.receiver, call.level,
            message⟩
      | _ => none

/-- The chains that one pass over a text at an offset finds, in order.  The
scanner is that of the pass, and the byte in front of the text is given. -/
inductive Locates (dialect : Dialect) :
    Scanner -> Option UInt8 -> Nat -> Bytes -> List Span -> Prop
  | done (scanner : Scanner) (before : Option UInt8) (offset : Nat) :
      Locates dialect scanner before offset [] []
  /-- A chain begins here.  The pass goes on behind it. -/
  | chain {scanner : Scanner} {before : Option UInt8} {offset : Nat} {rest : Bytes}
      {span : Span} {spans : List Span} (outside : Scanner.Agree scanner .start)
      (isChain : chainAt? dialect before ⟨offset, span.text ++ rest⟩ = some span)
      (behind : Locates dialect .start (some Byte.closeParen) span.stop rest spans) :
      Locates dialect scanner before offset (span.text ++ rest) (span :: spans)
  /-- No chain begins here. -/
  | byte {scanner : Scanner} {before : Option UInt8} {offset : Nat} {byte : UInt8}
      {rest : Bytes} {spans : List Span}
      (noChain : Scanner.Agree scanner .start ->
        chainAt? dialect before ⟨offset, byte :: rest⟩ = none)
      (behind : Locates dialect (scanner.step byte rest.head?).2 (some byte) (offset + 1) rest
        spans) :
      Locates dialect scanner before offset (byte :: rest) spans

/-! ## Chains -/

/-- A chain at a place is an initial call on a word boundary, which the search
completes. -/
theorem chainAt?_eq_some_iff_complete {before : Option UInt8} {place : Place} {span : Span} :
    chainAt? dialect before place = some span ↔
      before.any isIdentifierByte = false ∧ ∃ call message stop,
        Call.initial? dialect place = some call ∧
        complete dialect (place.offset + dialect.maxChainLength) .beforeMessage .start call.stop
          (place.rest.drop (call.stop - place.offset)) = .found message stop ∧
        span = ⟨place.offset, place.rest.take (stop - place.offset), call.receiver, call.level,
          message⟩ := by
  constructor
  · intro isChain
    rw [chainAt?] at isChain
    split at isChain
    · cases isChain
    · rename_i boundary
      rcases Option.bind_eq_some_iff.mp isChain with ⟨call, isCall, completed⟩
      split at completed
      · rename_i message stop isFound
        exact ⟨Bool.eq_false_iff.mpr boundary, call, message, stop, isCall, isFound,
          (Option.some.inj completed).symm⟩
      · cases completed
  · rintro ⟨boundary, call, message, stop, isCall, isFound, rfl⟩
    rw [chainAt?, boundary, if_neg Bool.false_ne_true, isCall, Option.bind_some, isFound]

theorem start_of_chainAt? {before : Option UInt8} {offset : Nat} {text : Bytes} {span : Span}
    (isChain : chainAt? dialect before ⟨offset, text⟩ = some span) : span.start = offset := by
  rcases chainAt?_eq_some_iff_complete.mp isChain with ⟨-, call, message, stop, -, -, rfl⟩
  rfl

/-- What a completed candidate at a place is. -/
theorem chainAt?_spec (identifiers : dialect.HasIdentifierWords) {before : Option UInt8}
    {offset : Nat} {text : Bytes} {span : Span}
    (isChain : chainAt? dialect before ⟨offset, text⟩ = some span) :
    before.any isIdentifierByte = false ∧
    ∃ initial front lead argument tail after,
      text = span.text ++ after ∧
      span.text = initial ++ front ++ Byte.dot :: lead ++ Byte.openParen :: argument ++
        Byte.closeParen :: tail ∧
      Call.IsInitial dialect initial ∧ Call.IsNamed dialect.messageMethod lead ∧
      Call.IsBareMessage argument ∧ Scanner.start.ClosesOwn (some Byte.dot) front ∧
      Scanner.start.run (some Byte.dot) front = Scanner.atRest 0 ∧
      IsTail dialect (Scanner.atRest 0) tail ∧ span.start = offset ∧
      span.message = ⟨offset + initial.length + front.length + lead.length + 2,
        offset + initial.length + front.length + lead.length + argument.length + 2⟩ := by
  rcases chainAt?_eq_some_iff_complete.mp isChain with
    ⟨boundary, call, message, stop, isCall, isFound, isSpan⟩
  rcases Call.initial?_spec identifiers isCall with ⟨initial, behind, isInitial, same, atStop⟩
  simp only at same atStop isFound isSpan
  subst same
  have dropped : (initial ++ behind).drop (call.stop - offset) = behind :=
    List.drop_left' (by omega)
  rw [dropped] at isFound
  rcases (completes_of_complete isFound).beforeMessage_found identifiers with
    ⟨front, lead, argument, tail, after, rfl, named, bare, own, outside, isTail, atMessage, atEnd⟩
  have whole : initial ++ (front ++ Byte.dot :: lead ++ Byte.openParen :: argument ++
      Byte.closeParen :: tail ++ after) = (initial ++ front ++ Byte.dot :: lead ++
        Byte.openParen :: argument ++ Byte.closeParen :: tail) ++ after := by
    simp
  have taken : span.text = initial ++ front ++ Byte.dot :: lead ++ Byte.openParen :: argument ++
      Byte.closeParen :: tail := by
    rw [isSpan, whole]
    apply List.take_left'
    simp only [List.length_append, List.length_cons]
    omega
  refine ⟨boundary, initial, front, lead, argument, tail, after, ?_, taken, isInitial, named, bare,
    own, outside, isTail, ?_, ?_⟩
  · rw [taken, whole]
  · rw [isSpan]
  · rw [isSpan, atMessage, atStop]

theorem chainAt?_eq_none (identifiers : dialect.HasIdentifierWords) {before : Option UInt8}
    {offset : Nat} {text : Bytes}
    (noInitial : before.any isIdentifierByte = true ∨ ¬ StartsInitial dialect text) :
    chainAt? dialect before ⟨offset, text⟩ = none := by
  cases found : chainAt? dialect before ⟨offset, text⟩ with
  | none => rfl
  | some span =>
      rcases chainAt?_spec identifiers found with ⟨boundary, initial, front, lead, argument, tail,
        after, same, spanText, isInitial, -⟩
      rcases noInitial with inWord | notStarts
      · rw [boundary] at inWord
        cases inWord
      · apply absurd _ notStarts
        refine ⟨initial, front ++ Byte.dot :: lead ++ Byte.openParen :: argument ++
          Byte.closeParen :: tail ++ after, isInitial, ?_⟩
        rw [same, spanText]
        simp

theorem chainAt?_nil (identifiers : dialect.HasIdentifierWords) {before : Option UInt8}
    {offset : Nat} : chainAt? dialect before ⟨offset, []⟩ = none := by
  apply chainAt?_eq_none identifiers
  right
  intro starts
  rcases starts.exists_dot identifiers with ⟨first, word, blanks, after, -, -, same⟩
  cases same

/-! ## The pass -/

theorem getLast?_cons_or (byte : UInt8) (bytes : Bytes) (before : Option UInt8) :
    (byte :: bytes).getLast?.or before = bytes.getLast?.or (some byte) := by
  rw [List.getLast?_cons]
  cases bytes.getLast? <;> rfl

namespace Locates

variable {scanner other : Scanner} {before : Option UInt8} {offset : Nat} {rest : Bytes}
  {spans : List Span}

/-- The pass depends on a scanner only up to its depth.  All that matters of
it is whether the next byte is code. -/
theorem of_agree (located : Locates dialect scanner before offset rest spans)
    (agree : Scanner.Agree scanner other) : Locates dialect other before offset rest spans := by
  induction located generalizing other with
  | done scanner before offset => exact .done other before offset
  | chain outside isChain behind ih => exact .chain (agree.symm.trans outside) isChain behind
  | byte noChain behind ih =>
      exact .byte (fun outside => noChain (agree.trans outside)) (ih (agree.step _ _).2)

theorem exists_chainAt? (located : Locates dialect scanner before offset rest spans) :
    ∀ span ∈ spans, ∃ before offset text, chainAt? dialect before ⟨offset, text⟩ = some span := by
  induction located with
  | done => exact fun _ member => absurd member List.not_mem_nil
  | chain outside isChain behind ih =>
      intro other member
      rcases List.mem_cons.mp member with rfl | inSpans
      · exact ⟨_, _, _, isChain⟩
      · exact ih other inSpans
  | byte noChain behind ih => exact ih

/-- The pass finds nothing else.  So what is shown of any pass over a text
holds of the chains that are located. -/
theorem unique (identifiers : dialect.HasIdentifierWords) {otherSpans : List Span}
    (located : Locates dialect scanner before offset rest spans)
    (second : Locates dialect scanner before offset rest otherSpans) : spans = otherSpans := by
  induction located generalizing otherSpans with
  | done =>
      generalize isEmpty : ([] : Bytes) = text at second
      cases second with
      | done => rfl
      | chain outside isChain behind =>
          rcases List.append_eq_nil_iff.mp isEmpty.symm with ⟨noText, rfl⟩
          rw [noText] at isChain
          cases isChain.symm.trans (chainAt?_nil identifiers)
      | byte => cases isEmpty
  | @chain scanner before offset rest span spans outside isChain behind ih =>
      generalize isText : span.text ++ rest = text at second isChain
      cases second with
      | done => cases isChain.symm.trans (chainAt?_nil identifiers)
      | chain outside' isChain' behind' =>
          cases isChain.symm.trans isChain'
          rw [List.append_cancel_left isText] at ih
          rw [ih behind']
      | byte noChain behind' =>
          cases isChain.symm.trans (noChain outside)
  | @byte scanner before offset byte rest spans noChain behind ih =>
      generalize isText : byte :: rest = text at second noChain
      cases second with
      | done => cases isText
      | chain outside isChain behind' =>
          cases isChain.symm.trans (noChain outside)
      | byte noChain' behind' =>
          cases isText
          exact ih behind'

/-- The pass over a stretch of text in which no initial call begins. -/
theorem pass (identifiers : dialect.HasIdentifierWords) {stretch : Bytes}
    (noInitial : NoInitial dialect before stretch)
    (behind : Locates dialect (scanner.run rest.head? stretch) (stretch.getLast?.or before)
      (offset + stretch.length) rest spans) :
    Locates dialect scanner before offset (stretch ++ rest) spans := by
  induction stretch generalizing scanner before offset with
  | nil => exact behind
  | cons byte stretch ih =>
      rw [List.cons_append]
      apply Locates.byte
      · intro _
        rcases noInitial.1 with inWord | notStarts
        · exact chainAt?_eq_none identifiers (.inl inWord)
        · exact chainAt?_eq_none identifiers (.inr (notStarts rest))
      · apply ih noInitial.2
        have sameOffset : offset + (byte :: stretch).length = offset + 1 + stretch.length := by
          rw [List.length_cons]
          omega
        rw [getLast?_cons_or, sameOffset, Scanner.run_cons] at behind
        rw [List.head?_append]
        exact behind

theorem pass_initial (identifiers : dialect.HasIdentifierWords) {initial : Bytes} {depth : Nat}
    (isInitial : Call.IsInitial dialect initial)
    (noChain : chainAt? dialect before ⟨offset, initial ++ rest⟩ = none)
    (behind : Locates dialect .start (some Byte.closeParen) (offset + initial.length) rest spans) :
    Locates dialect (Scanner.atRest depth) before offset (initial ++ rest) spans := by
  rcases isInitial.run_atRest identifiers with ⟨isLast, reads⟩
  cases initial with
  | nil => cases isLast
  | cons byte initial =>
      rw [List.cons_append] at noChain ⊢
      apply Locates.byte
      · exact fun _ => noChain
      · apply pass identifiers (isInitial.noInitial identifiers)
        have sameRun := (reads depth rest.head?).1
        rw [Scanner.run_cons, ← List.head?_append] at sameRun
        have sameLast : initial.getLast?.or (some byte) = some Byte.closeParen := by
          rw [← getLast?_cons_or byte initial none, isLast]
          rfl
        have sameOffset : offset + 1 + initial.length = offset + (byte :: initial).length := by
          rw [List.length_cons]
          omega
        rw [sameRun, sameLast, sameOffset]
        exact behind.of_agree (Scanner.agree_atRest 0 depth)

end Locates

def Sighting.chain? : Sighting -> Option Span
  | .chain span => some span
  | .tooLong _ => none

private theorem drop_cons_of_lt {offset stop : Nat} (behind : offset < stop) (byte : UInt8)
    (rest : Bytes) : (byte :: rest).drop (stop - offset) = rest.drop (stop - (offset + 1)) := by
  have isSucc : stop - offset = stop - (offset + 1) + 1 := by omega
  rw [isSucc, List.drop_succ_cons]

/-- What the search knows where an initial call begins on a word boundary. -/
private theorem chainAt?_of_initial? (identifiers : dialect.HasIdentifierWords)
    {before : Option UInt8} {offset : Nat} {byte : UInt8} {rest : Bytes} {call : Call.Initial}
    (isCall : (if before.any isIdentifierByte then none
      else Call.initial? dialect ⟨offset, byte :: rest⟩) = some call) :
    ∃ initial behind, Call.IsInitial dialect initial ∧ 0 < initial.length ∧
      byte :: rest = initial ++ behind ∧ call.stop = offset + initial.length ∧
      rest.drop (call.stop - (offset + 1)) = behind ∧
      chainAt? dialect before ⟨offset, byte :: rest⟩ =
        match complete dialect (offset + dialect.maxChainLength) .beforeMessage .start call.stop
            behind with
        | .found message stop =>
            some ⟨offset, (byte :: rest).take (stop - offset), call.receiver, call.level, message⟩
        | _ => none := by
  split at isCall
  · cases isCall
  · rename_i boundary
    rcases Call.initial?_spec identifiers isCall with ⟨initial, behind, isInitial, same, atStop⟩
    simp only at same atStop
    have nonempty : 0 < initial.length := by
      cases initial with
      | nil => cases (isInitial.run_atRest identifiers).1
      | cons => exact Nat.succ_pos _
    have dropped : (byte :: rest).drop (call.stop - offset) = behind := by
      rw [same]
      exact List.drop_left' (by omega)
    have droppedRest : rest.drop (call.stop - (offset + 1)) = behind := by
      rw [← drop_cons_of_lt (by omega) byte rest, dropped]
    refine ⟨initial, behind, isInitial, nonempty, same, atStop, droppedRest, ?_⟩
    rw [chainAt?, if_neg boundary, isCall, Option.bind_some, dropped]

private theorem Locates.of_found (identifiers : dialect.HasIdentifierWords) {scanner next : Scanner}
    {before : Option UInt8} {offset depth stop : Nat} {byte : UInt8} {rest : Bytes}
    {call : Call.Initial} {message : Extent} {spans : List Span}
    (isCall : (if before.any isIdentifierByte then none
      else Call.initial? dialect ⟨offset, byte :: rest⟩) = some call)
    (read : scanner.step byte rest.head? = (some depth, next))
    (isFound : complete dialect (offset + dialect.maxChainLength) .beforeMessage .start call.stop
      (rest.drop (call.stop - (offset + 1))) = .found message stop)
    (behind : Locates dialect .start (some Byte.closeParen) stop
      (rest.drop (stop - (offset + 1))) spans) :
    Locates dialect scanner before offset (byte :: rest)
      (⟨offset, (byte :: rest).take (stop - offset), call.receiver, call.level, message⟩ ::
        spans) := by
  rcases chainAt?_of_initial? identifiers isCall with
    ⟨initial, after, isInitial, nonempty, same, atStop, dropped, chain⟩
  rw [dropped] at isFound
  rw [isFound] at chain
  rcases exists_of_complete_found identifiers isFound with ⟨used, others, rfl, atEnd⟩
  have whole : byte :: rest = (initial ++ used) ++ others := by
    rw [same, List.append_assoc]
  have usedLength : stop - offset = (initial ++ used).length := by
    rw [List.length_append]
    omega
  have taken : (byte :: rest).take (stop - offset) = initial ++ used := by
    rw [whole]
    exact List.take_left' usedLength.symm
  have left : rest.drop (stop - (offset + 1)) = others := by
    rw [← drop_cons_of_lt (by omega) byte rest, whole]
    exact List.drop_left' usedLength.symm
  have outside : Scanner.Agree scanner .start := by
    rw [Scanner.eq_atRest_of_step (congrArg Prod.fst read)]
    exact Scanner.agree_atRest depth 0
  simp only [taken] at chain ⊢
  generalize isSpan : Span.mk offset (initial ++ used) call.receiver call.level message = span
    at chain ⊢
  have spanText : initial ++ used = span.text := by rw [← isSpan]
  have spanStop : stop = span.stop := by
    rw [← isSpan, Span.stop]
    simp only
    omega
  rw [left, spanStop] at behind
  rw [whole, spanText] at chain ⊢
  exact Locates.chain outside chain behind

private theorem Locates.of_not_found (identifiers : dialect.HasIdentifierWords)
    {scanner next : Scanner} {before : Option UInt8} {offset depth : Nat} {byte : UInt8}
    {rest : Bytes} {call : Call.Initial} {spans : List Span}
    (isCall : (if before.any isIdentifierByte then none
      else Call.initial? dialect ⟨offset, byte :: rest⟩) = some call)
    (read : scanner.step byte rest.head? = (some depth, next))
    (notFound : forall message stop, complete dialect (offset + dialect.maxChainLength)
      .beforeMessage .start call.stop (rest.drop (call.stop - (offset + 1))) ≠ .found message stop)
    (behind : Locates dialect .start (some Byte.closeParen) call.stop
      (rest.drop (call.stop - (offset + 1))) spans) :
    Locates dialect scanner before offset (byte :: rest) spans := by
  rcases chainAt?_of_initial? identifiers isCall with
    ⟨initial, after, isInitial, -, same, atStop, dropped, chain⟩
  rw [dropped] at notFound behind
  have noChain : chainAt? dialect before ⟨offset, byte :: rest⟩ = none := by
    rw [chain]
    split
    · rename_i message stop isFound
      exact absurd isFound (notFound message stop)
    · rfl
  rw [Scanner.eq_atRest_of_step (congrArg Prod.fst read)]
  rw [same] at noChain ⊢
  rw [atStop] at behind
  exact Locates.pass_initial identifiers isInitial noChain behind

theorem locates_sightingsFrom (identifiers : dialect.HasIdentifierWords) (length : Nat)
    (scanner : Scanner) (before : Option UInt8) (offset : Nat) (text : Bytes) :
    Locates dialect scanner before offset text
      ((sightingsFrom dialect length scanner before offset text).filterMap Sighting.chain?) := by
  fun_induction sightingsFrom dialect length scanner before offset text with
  | case1 scanner before offset => exact .done scanner before offset
  | case2 scanner before offset byte rest call? depth next call isCall read behind limit message
      stop isFound ih =>
      exact Locates.of_found identifiers isCall read isFound ih
  | case3 scanner before offset byte rest call? depth next call isCall read behind limit isDropped
      ih =>
      apply Locates.of_not_found identifiers isCall read _ ih
      intro message stop isFound
      cases isDropped.symm.trans isFound
  | case4 scanner before offset byte rest call? depth next call isCall read behind limit
      isExhausted later tooLong ih =>
      apply Locates.of_not_found identifiers isCall read _ ih
      intro message stop isFound
      cases isExhausted.symm.trans isFound
  | case5 scanner before offset byte rest call? depth next call isCall read behind limit
      isExhausted later notTooLong ih =>
      apply Locates.of_not_found identifiers isCall read _ ih
      intro message stop isFound
      cases isExhausted.symm.trans isFound
  | case6 scanner before offset byte rest call? reported next read noCall ih =>
      apply Locates.byte
      · intro outside
        by_cases boundary : before.any isIdentifierByte = true
        · exact chainAt?_eq_none identifiers (.inl boundary)
        · cases isCall : Call.initial? dialect ⟨offset, byte :: rest⟩ with
          | none =>
              rw [chainAt?, if_neg boundary, isCall]
              rfl
          | some call =>
              rcases Call.initial?_spec identifiers isCall with ⟨initial, after, isInitial, same, -⟩
              rcases StartsInitial.exists_dot identifiers ⟨initial, after, isInitial, same⟩ with
                ⟨first, word, blanks, others, all, -, isText⟩
              have isFirst : byte = first := (List.cons.inj isText).1
              have identifier : isIdentifierByte byte = true := by
                rw [isFirst]
                exact all first List.mem_cons_self
              have notLineFeed : byte ≠ Byte.lineFeed := by
                rintro rfl
                exact absurd identifier (by decide)
              rw [Scanner.start_eq_atRest] at outside
              rw [outside.eq_atRest, Scanner.step_atRest_plain
                (Scanner.isPlainByte_of_isIdentifierByte identifier), if_neg notLineFeed] at read
              have isCall' : call? = some call := by
                simp only [call?, boundary]
                exact isCall
              exact absurd (congrArg Prod.fst read).symm (noCall _ call isCall')
      · rw [read]
        exact ih

/-- The chains of a source text are those of one pass over it.  The events of
a candidate that is given up leave the pass where it was. -/
theorem locates_locate (identifiers : dialect.HasIdentifierWords) (source : Bytes) :
    Locates dialect .start none 0 source (locate dialect source) :=
  locates_sightingsFrom identifiers source.length .start none 0 source

end FluentLog
