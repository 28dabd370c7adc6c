import FluentLog.Proofs.Chain.Ending
import FluentLog.Proofs.Chain.Slices

namespace FluentLog

/-!
# What the bound of a dialect limits

A candidate is given up where its walk comes to the bound.  The matchers of calls do not know
of the bound, and a call whose dot stands in front of it is read to its end.  So what is
limited is where the terminal call of a chain begins.  A candidate that is completed by one
bound is completed by all bounds behind the dot of its terminal call and by no others,
whatever the words of the dialect are, and the chain may be longer than the bound.
-/

variable {dialect : Dialect}

/-! ## Terminal calls -/

theorem Call.exists_named_of_terminal? {place : Place} {stop : Nat}
    (isCall : terminal? dialect place = some stop) :
    ∃ lead inside after, IsNamed dialect.terminalMethod lead ∧ IsBlank inside ∧
      place.rest = lead ++ Byte.openParen :: inside ++ Byte.closeParen :: after ∧
      stop = place.offset + lead.length + inside.length + 2 := by
  rcases Option.bind_eq_some_iff.mp isCall with ⟨named, isNamed, isCall⟩
  rcases Option.bind_eq_some_iff.mp isCall with ⟨closed, isClosed, atStop⟩
  rcases place.exists_skipBlanks with ⟨before, blankBefore, isBefore, skipped⟩
  rcases Place.eat_eq_some_iff.mp (Place.eatWord_eq_some_iff.mp isNamed).1 with
    ⟨isWord, wordOffset⟩
  rcases Place.eatEmptyParens_eq_some_iff.mp isClosed with
    ⟨behind, inside, blankBehind, blankInside, isParens, parensOffset⟩
  refine ⟨before ++ Utf8.ofString dialect.terminalMethod ++ behind, inside, closed.rest,
    ⟨before, behind, blankBefore, blankBehind, rfl⟩, blankInside, ?_, ?_⟩
  · rw [isBefore, isWord, isParens]
    simp
  · rw [← Option.some.inj atStop, parensOffset, wordOffset, skipped]
    simp only [List.length_append]
    omega

/-! ## The bounds by which a candidate is completed -/

/-- Whether a text at an offset holds, behind `front`, the terminal call of a
candidate that is completed by the bounds behind the dot of this call, and by
no others. -/
structure IsCompletedBehind (dialect : Dialect) (stage : Stage) (scanner : Scanner)
    (offset : Nat) (text : Bytes) (message : Extent) (stop : Nat) (front : Bytes) : Prop where
  terminal : ∃ rest, text = front ++ Byte.dot :: rest ∧
    Call.terminal? dialect ⟨offset + front.length + 1, rest⟩ = some stop
  bounds : forall limit,
    complete dialect limit stage scanner offset text = .found message stop ↔
      offset + front.length < limit

/-- A step of the search that passes over some bytes, unless the bound is
reached. -/
theorem IsCompletedBehind.step {stage later : Stage} {scanner next : Scanner}
    {offset stop : Nat} {passed text front : Bytes} {message : Extent}
    (goesOn : forall limit, ¬ (scanner.region = .code ∧ limit ≤ offset) ->
      complete dialect limit stage scanner offset (passed ++ text) =
        complete dialect limit later next (offset + passed.length) text)
    (behind : IsCompletedBehind dialect later next (offset + passed.length) text message stop
      front) :
    IsCompletedBehind dialect stage scanner offset (passed ++ text) message stop
      (passed ++ front) := by
  have sameOffset : offset + (passed ++ front).length =
      offset + passed.length + front.length := by
    rw [List.length_append, Nat.add_assoc]
  constructor
  · rcases behind.terminal with ⟨rest, isText, isTerminal⟩
    refine ⟨rest, ?_, ?_⟩
    · rw [isText, List.append_assoc]
    · rw [sameOffset]
      exact isTerminal
  · intro limit
    by_cases reached : scanner.region = .code ∧ limit ≤ offset
    · rw [complete_of_reached reached]
      exact ⟨fun wrong => (by cases wrong), fun within => absurd within (by omega)⟩
    · rw [goesOn limit reached, behind.bounds, sameOffset]

theorem IsCompletedBehind.cons {stage : Stage} {scanner next : Scanner} {offset stop : Nat}
    {byte : UInt8} {rest front : Bytes} {message : Extent}
    (goesOn : forall limit, ¬ (scanner.region = .code ∧ limit ≤ offset) ->
      complete dialect limit stage scanner offset (byte :: rest) =
        complete dialect limit stage next (offset + 1) rest)
    (behind : IsCompletedBehind dialect stage next (offset + 1) rest message stop front) :
    IsCompletedBehind dialect stage scanner offset (byte :: rest) message stop (byte :: front) :=
  @step dialect stage stage scanner next offset stop [byte] rest front message goesOn behind

theorem Completes.exists_isCompletedBehind {limit offset stop : Nat} {stage : Stage}
    {scanner : Scanner} {text : Bytes} {message : Extent}
    (completes : Completes dialect limit stage scanner offset text (.found message stop)) :
    ∃ front, IsCompletedBehind dialect stage scanner offset text message stop front := by
  generalize isFound : Completion.found message stop = completion at completes
  induction completes with
  | ended | reached | dropped | early => cases isFound
  | @terminal offset stop rest message within isTerminal =>
      cases isFound
      refine ⟨[], ⟨rest, rfl, isTerminal⟩, fun limit => ?_⟩
      by_cases reached : limit ≤ offset
      · rw [complete_of_reached ⟨rfl, reached⟩]
        exact ⟨fun wrong => (by cases wrong), fun within => absurd within (Nat.not_lt.mpr reached)⟩
      · have before := Nat.lt_of_not_le reached
        exact iff_of_true (Completes.terminal before isTerminal).complete_eq before
  | @message offset rest call completion within isMessage behind ih =>
      rcases ih isFound with ⟨front, isCompleted⟩
      rcases Call.exists_passes_of_message? isMessage with
        ⟨lead, argument, closing, opened, ended, after, toOpened, -, toEnd, toAfter, rfl⟩
      have whole := (toOpened.trans toEnd).trans toAfter
      have dropped := whole.drop
      rcases whole with ⟨isRest, atStop⟩
      simp only at isRest atStop dropped isMessage isCompleted
      have sameOffset : after.offset =
          offset + (Byte.dot :: Utf8.encode (lead ++ argument ++ closing)).length := by
        rw [atStop, List.length_cons]
        omega
      rw [dropped, sameOffset] at isCompleted
      rw [isRest, ← List.cons_append]
      refine ⟨_, isCompleted.step fun limit notReached => ?_⟩
      have before := Nat.lt_of_not_le fun reached => notReached ⟨rfl, reached⟩
      rw [List.cons_append, ← isRest, complete_dot _ before, isMessage]
      simp only [dropped, ← sameOffset]
  | onward within quiet behind ih =>
      rcases ih isFound with ⟨front, isCompleted⟩
      exact ⟨_, isCompleted.cons fun limit notReached => complete_onward notReached quiet⟩

/-! ## Located chains -/

/-- Whether a chain of a source text is the candidate that begins with an
initial call. -/
structure Span.IsCandidateOf (dialect : Dialect) (source : Bytes) (span : Span)
    (call : Call.Initial) : Prop where
  isCall : Call.initial? dialect ⟨span.start, source.drop span.start⟩ = some call
  isFound : complete dialect (span.start + dialect.maxChainLength) .beforeMessage .start call.stop
    (source.drop call.stop) = .found span.message span.stop
  reads : span.text = (source.drop span.start).take (span.stop - span.start)

section

variable {source : Bytes} {offset : Nat} {byte : UInt8} {rest : Bytes}

theorem Place.LiesIn.behind_initial (lies : LiesIn source ⟨offset, byte :: rest⟩)
    {call : Call.Initial} (isCall : Call.initial? dialect ⟨offset, byte :: rest⟩ = some call) :
    offset < call.stop ∧ LiesIn source ⟨call.stop, rest.drop (call.stop - (offset + 1))⟩ := by
  rcases Call.exists_passes_nonempty_of_initial? isCall with ⟨word, after, notEmpty, passes, isStop⟩
  have later : offset < call.stop := isStop ▸ passes.lt notEmpty
  have inBounds := (lies.passes passes).offset_add_length
  exact ⟨later, lies.drop later (by omega)⟩

/-- A completed candidate ends behind its initial call and in the source text. -/
theorem IsCompletedBehind.stop_le (lies : Place.LiesIn source ⟨offset, rest⟩) {stage : Stage}
    {scanner : Scanner} {message : Extent} {stop : Nat} {front : Bytes}
    (isCompleted : IsCompletedBehind dialect stage scanner offset rest message stop front) :
    offset < stop ∧ stop ≤ source.length := by
  rcases isCompleted.terminal with ⟨behind, isText, isTerminal⟩
  rcases Call.exists_named_of_terminal? isTerminal with
    ⟨lead, inside, after, -, -, isRest, atStop⟩
  have inBounds := lies.offset_add_length
  simp only at isRest atStop inBounds
  rw [isText, isRest] at inBounds
  simp only [List.length_append, List.length_cons] at inBounds
  omega

theorem exists_isCandidateOf_sightingsFrom (dialect : Dialect) (length : Nat) (scanner : Scanner)
    (before : Option UInt8) (lies : Place.LiesIn source ⟨offset, rest⟩) :
    ∀ span ∈ (sightingsFrom dialect length scanner before offset rest).filterMap Sighting.chain?,
      ∃ call, span.IsCandidateOf dialect source call := by
  fun_induction sightingsFrom dialect length scanner before offset rest with
  | case1 scanner before offset => exact List.forall_mem_nil _
  | case2 scanner before offset byte rest call? depth next call isCall read behind limit message
      stop isFound ih =>
      have isInitial := (Option.ite_none_left_eq_some.mp isCall).2
      rcases lies.behind_initial isInitial with ⟨later, liesBehind⟩
      rcases (completes_of_complete isFound).exists_isCompletedBehind with ⟨front, isCompleted⟩
      rcases isCompleted.stop_le liesBehind with ⟨ends, inBounds⟩
      have isStop := lies.add_length_take (by omega) inBounds
      have sighted : Sighting.chain? (.chain ⟨offset, (byte :: rest).take (stop - offset),
        call.receiver, call.level, message⟩) = some _ := rfl
      rw [List.filterMap_cons_some sighted]
      refine List.forall_mem_cons.mpr ⟨⟨call, ?_, ?_, ?_⟩, ih (lies.drop (by omega) inBounds)⟩
      · rw [lies.drop_eq]
        exact isInitial
      · rw [Span.stop, isStop, liesBehind.drop_eq]
        exact isFound
      · rw [Span.stop, isStop, lies.drop_eq]
  | case3 scanner before offset byte rest call? depth next call isCall read behind limit isDropped
      ih => exact ih (lies.behind_initial (Option.ite_none_left_eq_some.mp isCall).2).2
  | case4 scanner before offset byte rest call? depth next call isCall read behind limit
      isExhausted later tooLong ih =>
      exact ih (lies.behind_initial (Option.ite_none_left_eq_some.mp isCall).2).2
  | case5 scanner before offset byte rest call? depth next call isCall read behind limit
      isExhausted later notTooLong ih =>
      exact ih (lies.behind_initial (Option.ite_none_left_eq_some.mp isCall).2).2
  | case6 scanner before offset byte rest call? reported next read noCall ih => exact ih lies.next

end

/-- The text of a chain ends with its terminal call, and the bounds by which
it is completed are those behind the dot of that call. -/
theorem Span.IsCandidateOf.exists_terminal {source : Bytes} {span : Span} {call : Call.Initial}
    (isCandidate : span.IsCandidateOf dialect source call) :
    ∃ front lead inside, Call.IsNamed dialect.terminalMethod lead ∧ IsBlank inside ∧
      span.text = front ++ Byte.dot :: lead ++ Byte.openParen :: inside ++ [Byte.closeParen] ∧
      forall bound, complete dialect (span.start + bound) .beforeMessage .start call.stop
          (source.drop call.stop) = .found span.message span.stop ↔ front.length < bound := by
  rcases Call.exists_passes_nonempty_of_initial? isCandidate.isCall with
    ⟨initial, after, -, passes, isStop⟩
  have dropped := passes.drop
  rcases passes with ⟨isText, atStop⟩
  rcases (completes_of_complete isCandidate.isFound).exists_isCompletedBehind with
    ⟨front, ⟨rest, isFront, isTerminal⟩, bounds⟩
  rcases Call.exists_named_of_terminal? isTerminal with
    ⟨lead, inside, behind, named, blank, isRest, atEnd⟩
  simp only at isText atStop dropped isRest atEnd
  have isBehind : after.rest = source.drop call.stop := by
    rw [← dropped, List.drop_drop, isStop]
    congr 1
    omega
  refine ⟨Utf8.encode initial ++ front, lead, inside, named, blank, ?_, fun bound => ?_⟩
  · rw [isCandidate.reads, isText, isBehind, isFront, isRest]
    have whole : Utf8.encode initial ++ (front ++ Byte.dot :: (lead ++ Byte.openParen :: inside ++
        Byte.closeParen :: behind)) =
        (Utf8.encode initial ++ front ++ Byte.dot :: lead ++ Byte.openParen :: inside ++
          [Byte.closeParen]) ++ behind := by
      simp
    rw [whole]
    apply List.take_left'
    simp only [List.length_append, List.length_cons, List.length_nil]
    omega
  · rw [bounds, List.length_append]
    omega

/-- The terminal call of a located chain begins within the bound, and this is
all that the bound says about it: the same chain would be completed by any
other bound behind the dot of the call, and by no bound up to there.  So a
chain exceeds the bound by less than its terminal call. -/
theorem locate_terminal_within_bound {source : Bytes} {span : Span}
    (member : span ∈ locate dialect source) :
    ∃ front lead inside, Call.IsNamed dialect.terminalMethod lead ∧ IsBlank inside ∧
      span.text = front ++ Byte.dot :: lead ++ Byte.openParen :: inside ++ [Byte.closeParen] ∧
      front.length < dialect.maxChainLength ∧
      span.stop - span.start ≤ dialect.maxChainLength + (lead.length + inside.length + 2) ∧
      ∀ bound, (∃ call, Call.initial? dialect ⟨span.start, source.drop span.start⟩ = some call ∧
          complete dialect (span.start + bound) .beforeMessage .start call.stop
            (source.drop call.stop) = .found span.message span.stop) ↔
        front.length < bound := by
  rcases exists_isCandidateOf_sightingsFrom dialect source.length .start none ⟨[], rfl, rfl⟩ span
    member with ⟨call, isCandidate⟩
  rcases isCandidate.exists_terminal with ⟨front, lead, inside, named, blank, isText, bounds⟩
  have within := (bounds dialect.maxChainLength).mp isCandidate.isFound
  refine ⟨front, lead, inside, named, blank, isText, within, ?_, fun bound => ⟨?_, ?_⟩⟩
  · rw [Span.stop, isText]
    simp only [List.length_append, List.length_cons, List.length_nil]
    omega
  · rintro ⟨other, isCall, isFound⟩
    rw [Option.some.inj (isCall.symm.trans isCandidate.isCall)] at isFound
    exact (bounds bound).mp isFound
  · exact fun behind => ⟨call, isCandidate.isCall, (bounds bound).mpr behind⟩

def boundedToThirty : Dialect := { maxChainLength := 30 }

/-- A chain of thirty-five bytes, with the dot of its terminal call as the
thirtieth. -/
def chainAcrossBound : Span where
  start := 0
  text := Utf8.ofString "log.atInfo().setMessage(\"\x7b\x7d\").log()"
  receiver := "log"
  level := "Info"
  message := ⟨24, 28⟩

theorem locate_terminal_acrossBound :
    chainAcrossBound ∈ locate boundedToThirty chainAcrossBound.text ∧
      ∃ front lead inside, Call.IsNamed "log" lead ∧ IsBlank inside ∧
        chainAcrossBound.text =
          front ++ Byte.dot :: lead ++ Byte.openParen :: inside ++ [Byte.closeParen] ∧
        front.length < 30 := by
  have member : chainAcrossBound ∈ locate boundedToThirty chainAcrossBound.text := by
    decide +kernel
  rcases locate_terminal_within_bound member with
    ⟨front, lead, inside, named, blank, isText, within, -⟩
  exact ⟨member, front, lead, inside, named, blank, isText, within⟩

/-- A located chain can be longer than the bound.  Only the dot of its
terminal call has to stand within the bound, and here it is the last byte that
does. -/
theorem not_length_le_maxChainLength :
    ¬ ∀ (dialect : Dialect) (source : Bytes), ∀ span ∈ locate dialect source,
      span.stop - span.start ≤ dialect.maxChainLength := by
  intro bounded
  have short := bounded boundedToThirty chainAcrossBound.text chainAcrossBound (by decide +kernel)
  exact absurd short (by decide +kernel)

end FluentLog
