import FluentLog.Chain.Event
import FluentLog.Proofs.Chain.Frame
import FluentLog.Proofs.Chain.Passage

namespace FluentLog

/-!
# The slices that are taken of a text

Finding a chain, reading its calls and replacing it cuts the source text, and later the chain,
at many places.  Whatever the words of the dialect are, all these slices are proper: each begins
no later than it ends, and both ends are boundaries of characters.  The reason is that all
offsets come from matchers, which pass over texts, and from single signs of ASCII.

Only the slices between two edits of a chain can fail, if a supplier call and the message
overlap.  The search for chains reads the message with a scanner that has seen all of the chain,
while an argument call is closed by a scanner that begins behind its parenthesis.  A method
name with a quote in it makes the two disagree about what is a literal.
-/

structure Extent.IsSlice (text : Text) (extent : Extent) : Prop where
  ordered : extent.start ≤ extent.stop
  start : Utf8.IsBoundary text extent.start
  stop : Utf8.IsBoundary text extent.stop

variable {dialect : Dialect} {text : Text}

theorem Extent.IsSlice.exists_parts {extent : Extent} (isSlice : extent.IsSlice text) :
    ∃ before inside after : Text, text = before ++ (inside ++ after) ∧
      (Utf8.encode before).length = extent.start ∧
      (Utf8.encode inside).length = extent.stop - extent.start := by
  rcases extent with ⟨start, stop⟩
  rcases isSlice with ⟨ordered, ⟨before, after, rfl, rfl⟩, ⟨first, last, same, rfl⟩⟩
  simp only at ordered ⊢
  rcases List.append_eq_append_iff.mp same with ⟨inside, rfl, rfl⟩ | ⟨overlap, rfl, rfl⟩
  · refine ⟨before, inside, last, rfl, rfl, ?_⟩
    rw [Utf8.encode_append, List.length_append, Nat.add_sub_cancel_left]
  · refine ⟨first ++ overlap, [], after, rfl, rfl, ?_⟩
    rw [Utf8.encode_append, List.length_append, Nat.sub_eq_zero_of_le (Nat.le_add_right _ _)]
    rfl

theorem Extent.IsSlice.exists_encode {extent : Extent} (isSlice : extent.IsSlice text) :
    ∃ inside : Text,
      ((Utf8.encode text).drop extent.start).take (extent.stop - extent.start) =
        Utf8.encode inside := by
  rcases isSlice.exists_parts with ⟨before, inside, after, rfl, atStart, sameLength⟩
  refine ⟨inside, ?_⟩
  rw [Utf8.encode_append, Utf8.encode_append, List.drop_left' atStart, List.take_left' sameLength]

theorem Utf8.IsBoundary.of_part {before inside after : Text} {offset : Nat}
    (boundary : IsBoundary (before ++ (inside ++ after)) offset)
    (least : (encode before).length ≤ offset)
    (most : offset ≤ (encode before).length + (encode inside).length) :
    IsBoundary inside (offset - (encode before).length) := by
  rcases boundary with ⟨first, last, same, rfl⟩
  rcases List.append_eq_append_iff.mp same with ⟨middle, rfl, isBehind⟩ | ⟨overlap, rfl, -⟩
  · rw [encode_append, List.length_append] at most ⊢
    rcases List.append_eq_append_iff.mp isBehind with ⟨more, rfl, -⟩ | ⟨more, rfl, -⟩
    · refine ⟨inside, [], (List.append_nil _).symm, ?_⟩
      rw [encode_append, List.length_append] at most ⊢
      omega
    · exact ⟨middle, more, rfl, (Nat.add_sub_cancel_left _ _).symm⟩
  · refine ⟨[], inside, rfl, ?_⟩
    rw [encode_append, List.length_append] at least ⊢
    rw [encode_nil, List.length_nil]
    omega

namespace Place

variable {offset : Nat} {byte : UInt8} {rest : Bytes}

/-- A sign of ASCII stands between two boundaries.  No other character has
such a byte in it. -/
theorem LiesIn.isBoundary_of_ascii (ascii : byte.toNat < 0x80)
    (lies : LiesIn (Utf8.encode text) ⟨offset, byte :: rest⟩) :
    Utf8.IsBoundary text offset ∧ Utf8.IsBoundary text (offset + 1) := by
  rcases lies with ⟨left, same, rfl⟩
  rcases Utf8.exists_of_encode_eq ascii same with ⟨front, others, rfl, rfl, rfl⟩
  refine ⟨⟨front, _, rfl, rfl⟩, front ++ [Char.ofNat byte.toNat], others, by simp, ?_⟩
  have sameLength := congrArg List.length same
  simp only [Utf8.encode_append, Utf8.encode_cons, Utf8.encode_nil, List.length_append,
    List.length_cons, List.length_nil] at sameLength ⊢
  omega

theorem LiesIn.drop {source : Bytes} {stop : Nat} (lies : LiesIn source ⟨offset, byte :: rest⟩)
    (behind : offset < stop) (inBounds : stop ≤ source.length) :
    LiesIn source ⟨stop, rest.drop (stop - (offset + 1))⟩ := by
  rcases lies with ⟨left, rfl, rfl⟩
  refine ⟨left ++ byte :: rest.take (stop - (left.length + 1)), by simp, ?_⟩
  simp only [List.length_append, List.length_cons] at inBounds
  rw [List.length_append, List.length_cons, List.length_take_of_le (by omega)]
  simp only
  omega

theorem LiesIn.lt_length {source : Bytes} (lies : LiesIn source ⟨offset, byte :: rest⟩) :
    offset < source.length := by
  have sameLength := lies.offset_add_length
  simp only [List.length_cons] at sameLength
  omega

theorem LiesIn.add_length_take {source : Bytes} {stop : Nat} (lies : LiesIn source ⟨offset, rest⟩)
    (behind : offset ≤ stop) (inBounds : stop ≤ source.length) :
    offset + (rest.take (stop - offset)).length = stop := by
  have sameLength := lies.offset_add_length
  simp only at sameLength
  rw [List.length_take_of_le (by omega)]
  omega

end Place

/-! ## Locating -/

section Locating

variable {scanner : Scanner} {limit offset stop : Nat} {rest : Bytes}

theorem Completes.isBoundary_afterMessage {message found : Extent}
    (lies : Place.LiesIn (Utf8.encode text) ⟨offset, rest⟩)
    (completes : Completes dialect limit (.afterMessage message) scanner offset rest
      (.found found stop)) :
    found = message ∧ offset ≤ stop ∧ Utf8.IsBoundary text stop := by
  generalize isStage : Stage.afterMessage message = stage at completes
  generalize isFound : Completion.found found stop = completion at completes
  induction completes with
  | ended | reached | dropped | early => cases isFound
  | message => cases isStage
  | terminal within isTerminal =>
      cases isStage
      cases isFound
      rcases Call.exists_passes_of_terminal? isTerminal with ⟨word, after, passes, isStop⟩
      have reached := passes.le
      simp only at reached
      have boundary := lies.next.isBoundary_of_passes (lies.isBoundary_of_ascii (by decide)).2 passes
      rw [isStop] at reached boundary
      exact ⟨rfl, by omega, boundary⟩
  | onward within quiet behind ih =>
      rcases ih lies.next isStage isFound with ⟨same, later, boundary⟩
      exact ⟨same, Nat.le_of_succ_le later, boundary⟩

/-- The message of a completed candidate can be cut out, and the candidate
ends behind it at a boundary. -/
theorem Completes.isSlice_beforeMessage {message : Extent}
    (lies : Place.LiesIn (Utf8.encode text) ⟨offset, rest⟩)
    (completes : Completes dialect limit .beforeMessage scanner offset rest
      (.found message stop)) :
    message.IsSlice text ∧ offset ≤ message.start ∧ message.start < message.stop ∧
      message.stop ≤ stop ∧ Utf8.IsBoundary text stop := by
  generalize isStage : Stage.beforeMessage = stage at completes
  generalize isFound : Completion.found message stop = completion at completes
  induction completes with
  | ended | reached | dropped | early => cases isFound
  | terminal => cases isStage
  | message within isMessage behind ih =>
      rcases Call.exists_passes_of_message? isMessage with ⟨lead, argument, closing, opened,
        ended, after, toOpened, nonempty, toEnd, toAfter, rfl⟩
      have whole := (toOpened.trans toEnd).trans toAfter
      have atOpened :=
        lies.next.isBoundary_of_passes (lies.isBoundary_of_ascii (by decide)).2 toOpened
      have atEnd := (lies.next.passes toOpened).isBoundary_of_passes atOpened toEnd
      have reached := toOpened.le
      have positive := toEnd.lt nonempty
      have closed := toAfter.le
      have dropped := whole.drop
      simp only at dropped reached behind
      rw [dropped, ← isFound] at behind
      rcases behind.isBoundary_afterMessage (lies.next.passes whole) with ⟨rfl, later, boundary⟩
      refine ⟨⟨Nat.le_of_lt positive, atOpened, atEnd⟩, ?_, positive, ?_, boundary⟩
      · simp only
        omega
      · simp only
        omega
  | onward within quiet behind ih =>
      rcases ih lies.next isStage isFound with ⟨isSlice, later, others⟩
      exact ⟨isSlice, Nat.le_of_succ_le later, others⟩

end Locating

/-- Whether a chain, the words that it names and its message can be cut out of
a text. -/
structure Span.IsSliced (text : Text) (span : Span) : Prop where
  whole : Extent.IsSlice text ⟨span.start, span.stop⟩
  reads : ((Utf8.encode text).drop span.start).take (span.stop - span.start) = span.text
  /-- The chain begins with its receiver, and its level stands behind that. -/
  named : ∃ between behind : Text, span.text =
    Utf8.encode (span.receiver.toList ++ (between ++ (span.level.toList ++ behind)))
  message : span.message.IsSlice text
  within : span.start < span.message.start ∧ span.message.start < span.message.stop ∧
    span.message.stop ≤ span.stop

section

variable {scanner : Scanner} {offset stop : Nat} {byte : UInt8} {rest : Bytes}

theorem isBoundary_of_initial? (lies : Place.LiesIn (Utf8.encode text) ⟨offset, rest⟩)
    {call : Call.Initial} (isCall : Call.initial? dialect ⟨offset, rest⟩ = some call) :
    Utf8.IsBoundary text offset ∧ offset < call.stop ∧ Utf8.IsBoundary text call.stop := by
  rcases Call.exists_passes_nonempty_of_initial? isCall with ⟨word, after, notEmpty, passes, isStop⟩
  have begins := lies.isBoundary notEmpty passes
  rw [← isStop]
  exact ⟨begins, passes.lt notEmpty, lies.isBoundary_of_passes begins passes⟩

/-- A text that is taken where an initial call stands begins with the names of
the call. -/
theorem exists_named_of_initial? {call : Call.Initial}
    (isCall : Call.initial? dialect ⟨offset, rest⟩ = some call) {length : Nat}
    (reaches : call.stop - offset ≤ length) {inside : Text}
    (isText : rest.take length = Utf8.encode inside) :
    ∃ between behind : Text, rest.take length =
      Utf8.encode (call.receiver.toList ++ (between ++ (call.level.toList ++ behind))) := by
  rcases Call.exists_passes_of_initial? isCall with ⟨between, parens, after, -, ⟨same, atStop⟩, isStop⟩
  simp only at same atStop
  generalize named : call.receiver.toList ++ (between ++ (call.level.toList ++ parens)) = word
    at same atStop
  have split : rest.take length =
      Utf8.encode word ++ after.rest.take (length - (Utf8.encode word).length) := by
    rw [same, List.take_append, List.take_of_length_le (by omega)]
  have read := congrArg Utf8.decode (isText.symm.trans split)
  rw [Utf8.decode_encode, Utf8.decode_encode_append] at read
  rw [isText, read, ← named]
  simp only [List.append_assoc]
  exact ⟨between, _, rfl⟩

theorem isSliced_of_complete (lies : Place.LiesIn (Utf8.encode text) ⟨offset, byte :: rest⟩)
    {call : Call.Initial} (isCall : Call.initial? dialect ⟨offset, byte :: rest⟩ = some call)
    {limit : Nat} {message : Extent}
    (isFound : complete dialect limit .beforeMessage scanner call.stop
      (rest.drop (call.stop - (offset + 1))) = .found message stop) :
    offset < stop ∧ stop ≤ (Utf8.encode text).length ∧
      Span.IsSliced text ⟨offset, (byte :: rest).take (stop - offset), call.receiver, call.level,
        message⟩ := by
  rcases isBoundary_of_initial? lies isCall with ⟨begins, behind, callEnds⟩
  rcases (completes_of_complete isFound).isSlice_beforeMessage
      (lies.drop behind callEnds.le_length) with
    ⟨isSlice, messageBehind, proper, messageEnds, boundary⟩
  have inBounds := boundary.le_length
  have isStop := lies.add_length_take (by omega) inBounds
  have whole : Extent.IsSlice text ⟨offset, stop⟩ :=
    ⟨by simp only; omega, begins, boundary⟩
  have reads : ((Utf8.encode text).drop offset).take (stop - offset) =
      (byte :: rest).take (stop - offset) := by
    rcases lies with ⟨left, same, atOffset⟩
    rw [same, List.drop_left' atOffset]
  refine ⟨by omega, inBounds, ?_⟩
  constructor
  · rw [Span.stop, isStop]
    exact whole
  · rw [Span.stop, isStop]
    exact reads
  · rcases whole.exists_encode with ⟨inside, isText⟩
    rw [reads] at isText
    exact exists_named_of_initial? isCall (by omega) isText
  · exact isSlice
  · rw [Span.stop, isStop]
    simp only
    omega

theorem isSliced_sightingsFrom (dialect : Dialect) (length : Nat) (scanner : Scanner)
    (before : Option UInt8) (lies : Place.LiesIn (Utf8.encode text) ⟨offset, rest⟩) :
    (∀ span ∈ (sightingsFrom dialect length scanner before offset rest).filterMap Sighting.chain?,
      offset ≤ span.start ∧ span.IsSliced text) ∧
    ((sightingsFrom dialect length scanner before offset rest).filterMap
      Sighting.chain?).Pairwise fun earlier later => earlier.stop ≤ later.start := by
  have skip : forall {before : Option UInt8} {offset : Nat} {byte : UInt8} {rest : Bytes}
      {call : Call.Initial} {spans : List Span},
      Place.LiesIn (Utf8.encode text) ⟨offset, byte :: rest⟩ ->
      (if before.any isIdentifierByte then none
        else Call.initial? dialect ⟨offset, byte :: rest⟩) = some call ->
      (Place.LiesIn (Utf8.encode text) ⟨call.stop, rest.drop (call.stop - (offset + 1))⟩ ->
        (∀ span ∈ spans, call.stop ≤ span.start ∧ span.IsSliced text) ∧
          spans.Pairwise fun earlier later => earlier.stop ≤ later.start) ->
      (∀ span ∈ spans, offset ≤ span.start ∧ span.IsSliced text) ∧
        spans.Pairwise fun earlier later => earlier.stop ≤ later.start := by
    intro before offset byte rest call spans lies isCall ih
    rcases isBoundary_of_initial? lies (Option.ite_none_left_eq_some.mp isCall).2 with
      ⟨-, later, callEnds⟩
    rcases ih (lies.drop later callEnds.le_length) with ⟨sliced, ordered⟩
    exact ⟨fun span member => ⟨Nat.le_trans (Nat.le_of_lt later) (sliced span member).1,
      (sliced span member).2⟩, ordered⟩
  fun_induction sightingsFrom dialect length scanner before offset rest with
  | case1 scanner before offset => exact ⟨List.forall_mem_nil _, .nil⟩
  | case2 scanner before offset byte rest call? depth next call isCall read behind limit message
      stop isFound ih =>
      have isInitial := (Option.ite_none_left_eq_some.mp isCall).2
      rcases isSliced_of_complete lies isInitial isFound with ⟨later, inBounds, sliced⟩
      rcases ih (lies.drop later inBounds) with ⟨slicedBehind, ordered⟩
      have sighted : Sighting.chain? (.chain ⟨offset, (byte :: rest).take (stop - offset),
        call.receiver, call.level, message⟩) = some _ := rfl
      rw [List.filterMap_cons_some sighted]
      constructor
      · rw [List.forall_mem_cons]
        exact ⟨⟨Nat.le_refl offset, sliced⟩, fun span member =>
          ⟨Nat.le_trans (Nat.le_of_lt later) (slicedBehind span member).1,
            (slicedBehind span member).2⟩⟩
      · refine List.pairwise_cons.mpr ⟨fun span member => ?_, ordered⟩
        rw [Span.stop, lies.add_length_take (Nat.le_of_lt later) inBounds]
        exact (slicedBehind span member).1
  | case3 scanner before offset byte rest call? depth next call isCall read behind limit isDropped
      ih => exact skip lies isCall ih
  | case4 scanner before offset byte rest call? depth next call isCall read behind limit
      isExhausted later tooLong ih => exact skip lies isCall ih
  | case5 scanner before offset byte rest call? depth next call isCall read behind limit
      isExhausted later notTooLong ih => exact skip lies isCall ih
  | case6 scanner before offset byte rest call? reported next read noCall ih =>
      rcases ih lies.next with ⟨sliced, ordered⟩
      exact ⟨fun span member => ⟨Nat.le_of_succ_le (sliced span member).1, (sliced span member).2⟩,
        ordered⟩

end

/-- All chains of a source text are sliced, and they are in order. -/
theorem isSliced_locate (dialect : Dialect) (text : Text) :
    (∀ span ∈ locate dialect (Utf8.encode text), span.IsSliced text) ∧
      (locate dialect (Utf8.encode text)).Pairwise fun earlier later =>
        earlier.stop ≤ later.start := by
  rcases isSliced_sightingsFrom dialect (Utf8.encode text).length .start none ⟨[], rfl, rfl⟩ with
    ⟨sliced, ordered⟩
  exact ⟨fun span member => (sliced span member).2, ordered⟩

/-! ## Planning -/

/-- Whether the argument calls of a chain can be cut out of it: what stands
between the parentheses, and the call from its dot to its closing parenthesis.
Behind the parenthesis that opens a call there is a boundary even if it is
never closed. -/
def Dialect.SlicesCalls (dialect : Dialect) (chain : Text) : Prop :=
  forall (before behind : Bytes) (opened : Place),
    Utf8.encode chain = before ++ Byte.dot :: behind ->
    Call.argument? dialect ⟨before.length + 1, behind⟩ = some opened ->
    Utf8.IsBoundary chain opened.offset ∧
      forall length, closingParen? opened.rest = some length ->
        Extent.IsSlice chain ⟨opened.offset, opened.offset + length⟩ ∧
          Extent.IsSlice chain ⟨before.length, opened.offset + length + 1⟩

theorem slicesCalls (dialect : Dialect) (chain : Text) : dialect.SlicesCalls chain := by
  intro before behind opened same isOpened
  have lies : Place.LiesIn (Utf8.encode chain) ⟨before.length, Byte.dot :: behind⟩ :=
    ⟨before, same, rfl⟩
  rcases Call.exists_passes_of_argument? isOpened with ⟨word, nonempty, passes⟩
  have atDot := lies.isBoundary_of_ascii (by decide)
  have atOpened := lies.next.isBoundary_of_passes atDot.2 passes
  refine ⟨atOpened, ?_⟩
  intro length closes
  rcases closingParen?_eq_some_iff.mp closes with ⟨inside, after, sameOpened, rfl, -⟩
  have closing : Place.LiesIn (Utf8.encode chain)
      ⟨opened.offset + inside.length, Byte.closeParen :: after⟩ := by
    rcases lies.next.passes passes with ⟨left, same, sameLength⟩
    exact ⟨left ++ inside, by rw [same, sameOpened, List.append_assoc], by
      rw [List.length_append, sameLength]⟩
  have atClose := closing.isBoundary_of_ascii (by decide)
  have reached := passes.le
  simp only at reached
  exact ⟨⟨Nat.le_add_right _ _, atOpened, atClose.1⟩, ⟨by simp only; omega, atDot.1, atClose.2⟩⟩

/-- Where a supplier call stands in the text of a walk. -/
theorem exists_dot_of_mem_supplierCallsFrom {scanner : Scanner} {offset : Nat} {rest : Bytes}
    {call : SupplierCall} {source : Bytes} (lies : Place.LiesIn source ⟨offset, rest⟩)
    (member : call ∈ supplierCallsFrom dialect scanner offset rest) :
    ∃ before behind opened length, source = before ++ Byte.dot :: behind ∧
      Call.argument? dialect ⟨before.length + 1, behind⟩ = some opened ∧
      closingParen? opened.rest = some length ∧
      call.extent = ⟨before.length, opened.offset + length + 1⟩ := by
  have jump : forall {offset length : Nat} {rest : Bytes} {opened : Place},
      Place.LiesIn source ⟨offset, Byte.dot :: rest⟩ ->
      Call.argument? dialect ⟨offset + 1, rest⟩ = some opened ->
      closingParen? opened.rest = some length ->
      Place.LiesIn source ⟨opened.offset + length + 1,
        rest.drop (opened.offset + length + 1 - (offset + 1))⟩ := by
    intro offset length rest opened lies isOpened closes
    have bounds := stop_of_argument? isOpened closes
    have sameLength := lies.offset_add_length
    simp only [List.length_cons] at sameLength
    exact lies.drop (by omega) (by omega)
  fun_induction supplierCallsFrom dialect scanner offset rest with
  | case1 => cases member
  | case2 scanner offset byte rest next read ih => exact ih lies.next member
  | case3 scanner offset rest depth next notOpened read ih => exact ih lies.next member
  | case4 => cases member
  | case5 scanner offset rest depth next opened isOpened length closes stop later body extras
      content fragment read ih =>
      rcases List.mem_cons.mp member with rfl | inLater
      · rcases lies with ⟨before, same, rfl⟩
        exact ⟨before, rest, opened, length, same, isOpened, closes, rfl⟩
      · exact ih (jump lies isOpened closes) inLater
  | case6 scanner offset rest depth next opened isOpened length closes stop later content read
      ih =>
      exact ih (jump lies isOpened closes) member
  | case7 scanner offset byte rest depth next read notDot ih => exact ih lies.next member

theorem isSlice_of_mem_supplierCalls {chain : Text} {call : SupplierCall}
    (member : call ∈ supplierCalls dialect (Utf8.encode chain)) : call.extent.IsSlice chain := by
  rcases exists_dot_of_mem_supplierCallsFrom ⟨[], rfl, rfl⟩ member with
    ⟨before, behind, opened, length, same, isOpened, closes, isExtent⟩
  rw [isExtent]
  exact ((slicesCalls dialect chain before behind opened same isOpened).2 length closes).2

/-! ## Replacing -/

theorem Edit.start_le_of_inOrder {length offset : Nat} {edits : List Edit}
    (ordered : Edit.inOrder length offset edits = true) :
    ∀ edit ∈ edits, offset ≤ edit.extent.start := by
  induction edits generalizing offset with
  | nil => exact List.forall_mem_nil _
  | cons edit others ih =>
      simp only [Edit.inOrder, Bool.and_eq_true, decide_eq_true_eq] at ordered
      rw [List.forall_mem_cons]
      exact ⟨ordered.1.1, fun other member =>
        Nat.le_trans (by omega) (ih ordered.2 other member)⟩

/-- An edit that is put among edits in order touches none of them if they stay
in order. -/
theorem Edit.apart_of_inOrder_insert {length offset : Nat} {edits : List Edit} {edit : Edit}
    (ordered : Edit.inOrder length offset (Edit.insert edit edits) = true) :
    ∀ other ∈ edits,
      other.extent.stop ≤ edit.extent.start ∨ edit.extent.stop ≤ other.extent.start := by
  induction edits generalizing offset with
  | nil => exact List.forall_mem_nil _
  | cons first others ih =>
      rw [Edit.insert] at ordered
      split at ordered
      · simp only [Edit.inOrder, Bool.and_eq_true, decide_eq_true_eq] at ordered
        rw [List.forall_mem_cons]
        exact ⟨.inl (Edit.start_le_of_inOrder ordered.2 edit (Edit.mem_insert.mpr (.inl rfl))),
          ih ordered.2⟩
      · simp only [Edit.inOrder, Bool.and_eq_true, decide_eq_true_eq] at ordered
        intro other member
        rcases List.mem_cons.mp member with rfl | inOthers
        · exact .inr ordered.2.1.1
        · have behind := Edit.start_le_of_inOrder ordered.2.2 other inOthers
          exact .inr (by omega)

/-- Whether no supplier call of a chain overlaps its message. -/
def Span.HasMessageApart (dialect : Dialect) (span : Span) : Prop :=
  ∀ call ∈ supplierCalls dialect span.text,
    span.start + call.extent.stop ≤ span.message.start ∨
      span.message.stop ≤ span.start + call.extent.start

instance (dialect : Dialect) (span : Span) : Decidable (span.HasMessageApart dialect) :=
  inferInstanceAs (Decidable (∀ call ∈ supplierCalls dialect span.text, _))

/-- The edits of a replaced chain are in order if no supplier call overlaps
the message. -/
theorem Span.inOrder_iff_hasMessageApart {span : Span} (sliced : span.IsSliced text) {plan : Plan}
    {edits : List Edit} (isInlined : span.outcome dialect = .inlined plan edits) :
    Edit.inOrder span.text.length 0 edits = true ↔ span.HasMessageApart dialect := by
  rcases exists_edits_of_outcome isInlined with ⟨replacement, rfl⟩
  have within := sliced.within
  rw [stop] at within
  constructor
  · intro ordered call isCall
    have apart := Edit.apart_of_inOrder_insert ordered (call.edit dialect)
      (List.mem_map_of_mem isCall)
    simp only [SupplierCall.edit, messageEdit] at apart
    omega
  · intro apart
    have calls := inOrder_supplierCallsFrom dialect .start 0 span.text
    rw [Nat.zero_add] at calls
    apply Edit.inOrder_insert calls (Nat.zero_le _)
    · simp only [messageEdit]
      omega
    · simp only [messageEdit]
      omega
    · intro other member
      rcases List.mem_map.mp member with ⟨call, isCall, rfl⟩
      have apartCall := apart call isCall
      simp only [SupplierCall.edit, messageEdit]
      omega

/-- Every edit of a replaced chain can be cut out of the chain. -/
theorem Span.isSlice_of_outcome {span : Span} (sliced : span.IsSliced text) {inside : Text}
    (isText : span.text = Utf8.encode inside) {plan : Plan} {edits : List Edit}
    (isInlined : span.outcome dialect = .inlined plan edits) :
    ∀ edit ∈ edits, edit.extent.IsSlice inside := by
  rcases exists_edits_of_outcome isInlined with ⟨replacement, rfl⟩
  intro edit member
  rcases Edit.mem_insert.mp member with rfl | isCallEdit
  · have reads := sliced.reads
    have within := sliced.within
    rcases sliced.whole.exists_parts with ⟨before, part, after, isWhole, atStart, sameLength⟩
    simp only at atStart sameLength
    rw [isWhole, Utf8.encode_append, Utf8.encode_append, List.drop_left' atStart,
      List.take_left' sameLength, isText] at reads
    have isPart := congrArg Utf8.decode reads
    rw [Utf8.decode_encode, Utf8.decode_encode] at isPart
    subst isPart
    have boundaries := sliced.message
    rw [isWhole] at boundaries
    rw [messageEdit, ← atStart]
    rw [← atStart] at within
    refine ⟨?_, boundaries.start.of_part (by omega) (by omega),
      boundaries.stop.of_part (by omega) (by omega)⟩
    simp only
    omega
  · rcases List.mem_map.mp isCallEdit with ⟨call, isCall, rfl⟩
    rw [isText] at isCall
    exact isSlice_of_mem_supplierCalls isCall

theorem Edit.exists_encode_spliceFrom {edits : List Edit}
    (slices : ∀ edit ∈ edits, edit.extent.IsSlice text)
    (texts : ∀ edit ∈ edits, ∃ new, edit.replacement = Utf8.encode new) {copied : Nat}
    (boundary : Utf8.IsBoundary text copied) :
    ∃ new, Edit.spliceFrom (Utf8.encode text) copied edits = Utf8.encode new := by
  induction edits generalizing copied with
  | nil =>
      rcases boundary with ⟨before, after, rfl, rfl⟩
      exact ⟨after, by rw [spliceFrom, Utf8.encode_append, List.drop_left]⟩
  | cons edit others ih =>
      rw [List.forall_mem_cons] at slices texts
      have between : ∃ inside, ((Utf8.encode text).drop copied).take
          (edit.extent.start - copied) = Utf8.encode inside := by
        by_cases ordered : copied ≤ edit.extent.start
        · have isSlice : Extent.IsSlice text ⟨copied, edit.extent.start⟩ :=
            ⟨ordered, boundary, slices.1.start⟩
          exact isSlice.exists_encode
        · exact ⟨[], by rw [Nat.sub_eq_zero_of_le (by omega), List.take_zero]; rfl⟩
      rcases between with ⟨inside, isInside⟩
      rcases texts.1 with ⟨replacement, isReplacement⟩
      rcases ih slices.2 texts.2 slices.1.stop with ⟨behind, isBehind⟩
      refine ⟨inside ++ replacement ++ behind, ?_⟩
      rw [spliceFrom, isInside, isReplacement, isBehind, Utf8.encode_append, Utf8.encode_append]

theorem Span.exists_encode_of_inlined? {span : Span} (sliced : span.IsSliced text)
    {new : Bytes} (isInlined : span.inlined? dialect = some new) :
    ∃ newText, new = Utf8.encode newText := by
  rw [inlined?] at isInlined
  split at isInlined
  · rename_i plan edits outcome
    cases isInlined
    rcases sliced.named with ⟨between, behind, isText⟩
    have slices := Span.isSlice_of_outcome sliced isText outcome
    have texts : ∀ edit ∈ edits, ∃ new, edit.replacement = Utf8.encode new := by
      rcases exists_edits_of_outcome outcome with ⟨message, rfl⟩
      intro edit member
      rcases Edit.mem_insert.mp member with rfl | isCallEdit
      · exact ⟨Literal.quote message, rfl⟩
      · rcases List.mem_map.mp isCallEdit with ⟨call, -, rfl⟩
        exact ⟨_, rfl⟩
    rw [Edit.splice, isText]
    exact Edit.exists_encode_spliceFrom slices texts (Utf8.isBoundary_zero _)
  · cases isInlined

theorem exists_encode_of_inlineChains {new : Bytes} {chains : Nat}
    (isInlined : inlineChains dialect (Utf8.encode text) = .inlined new chains) :
    ∃ newText, new = Utf8.encode newText := by
  rw [inlineChains] at isInlined
  split at isInlined
  · cases isInlined
  · injection isInlined with isNew
    rw [← isNew]
    refine Edit.exists_encode_spliceFrom ?_ ?_ (Utf8.isBoundary_zero text)
    all_goals
      intro edit member
      rcases List.mem_filterMap.mp member with ⟨span, isLocated, isEdit⟩
      rcases Option.map_eq_some_iff.mp isEdit with ⟨new, isInlined, rfl⟩
      have sliced := (isSliced_locate dialect text).1 span isLocated
    · exact sliced.whole
    · exact Span.exists_encode_of_inlined? sliced isInlined

/-- All slices that locating, planning and replacing take of a text are
proper, whatever the words of the dialect are, but for those between the edits
of a chain.  These are proper if and only if no supplier call of a replaced
chain overlaps the message, and so they are for words that are identifiers.
The matchers of single tokens look at bytes, and never leave the text. -/
theorem locate_isSliced_editsInOrder_iff (dialect : Dialect) (text : Text) :
    (forall place : Place, place.LiesIn (Utf8.encode text) ->
      place.offset ≤ (Utf8.encode text).length ∧ place.skipBlanks.LiesIn (Utf8.encode text) ∧
        forall token after, place.eat token = some after -> after.LiesIn (Utf8.encode text)) ∧
    (∀ span ∈ locate dialect (Utf8.encode text), span.IsSliced text ∧
      ∃ inside : Text, span.text = Utf8.encode inside ∧ dialect.SlicesCalls inside ∧
        (∀ call ∈ supplierCalls dialect span.text, call.extent.IsSlice inside) ∧
        forall plan edits, span.outcome dialect = .inlined plan edits ->
          ∀ edit ∈ edits, edit.extent.IsSlice inside) ∧
    ((locate dialect (Utf8.encode text)).Pairwise fun earlier later =>
      earlier.stop ≤ later.start) ∧
    (editsInOrder dialect (Utf8.encode text) = true ↔
      ∀ span ∈ locate dialect (Utf8.encode text), (span.inlined? dialect).isSome = true ->
        span.HasMessageApart dialect) ∧
    (dialect.HasIdentifierWords -> editsInOrder dialect (Utf8.encode text) = true) := by
  rcases isSliced_locate dialect text with ⟨sliced, ordered⟩
  refine ⟨?_, ?_, ordered, ?_, fun identifiers =>
    editsInOrder_of_hasIdentifierWords identifiers _⟩
  · intro place lies
    rcases place.exists_passes_skipBlanks with ⟨blanks, passes⟩
    have sameLength := lies.offset_add_length
    exact ⟨by omega, lies.passes passes, fun token after eaten => lies.eat eaten⟩
  · intro span member
    rcases (sliced span member).named with ⟨between, behind, isText⟩
    refine ⟨sliced span member, _, isText, slicesCalls dialect _, ?_, ?_⟩
    · intro call isCall
      rw [isText] at isCall
      exact isSlice_of_mem_supplierCalls isCall
    · intro plan edits isInlined
      exact Span.isSlice_of_outcome (sliced span member) isText isInlined
  · rw [editsInOrder, List.all_eq_true]
    constructor
    · intro inOrder span member isInlined
      have here := inOrder span member
      rcases Option.isSome_iff_exists.mp isInlined with ⟨new, inlined⟩
      rcases inlined?_eq_some_iff_outcome.mp inlined with ⟨plan, edits, outcome, -⟩
      rw [outcome] at here
      exact (Span.inOrder_iff_hasMessageApart (sliced span member) outcome).mp here
    · intro apart span member
      cases outcome : span.outcome dialect with
      | plain => rfl
      | unrenderable template => rfl
      | inlined plan edits =>
          have inlined := inlined?_eq_some_iff_outcome.mpr ⟨plan, edits, outcome, rfl⟩
          exact (Span.inOrder_iff_hasMessageApart (sliced span member) outcome).mpr
            (apart span member (Option.isSome_of_eq_some inlined))

def quotedMethod : Dialect := { argumentMethod := "x\"" }

/-- A chain with a call of that method, and letters outside ASCII around it. -/
def callOfQuotedMethod : String :=
  "é = log.atInfo().setMessage(\"\x7b\x7d\").x\"(() -> \"é=\" + é).y\".log();"

theorem editsInOrder_callOfQuotedMethod :
    (locate quotedMethod (Utf8.ofString callOfQuotedMethod)).length = 1 ∧
      editsInOrder quotedMethod (Utf8.ofString callOfQuotedMethod) = true :=
  ⟨by decide +kernel,
    (locate_isSliced_editsInOrder_iff quotedMethod callOfQuotedMethod.toList).2.2.2.1.mpr
      (by decide +kernel)⟩

/-- A chain with its message inside a call of that method.  To the scanner
that closes the call, the quote in the name opens no literal. -/
def messageInQuotedMethod : String :=
  "log.atInfo().x\"(() -> \".setMessage(\"\x7b\x7d\").y\")\".log()"

/-- The call begins in front of the message and ends behind it.  What would be
copied between the two edits ends before it begins. -/
theorem not_editsInOrder_messageInQuotedMethod :
    ((locate quotedMethod (Utf8.ofString messageInQuotedMethod)).map fun span =>
        (span.message, (supplierCalls quotedMethod span.text).map SupplierCall.extent)) =
      [(⟨35, 39⟩, [⟨12, 44⟩])] ∧
    editsInOrder quotedMethod (Utf8.ofString messageInQuotedMethod) = false := by
  decide +kernel

end FluentLog
