import FluentLog.Chain.Event
import FluentLog.Proofs.Chain.Locating
import FluentLog.Proofs.Chain.SupplierCalls

namespace FluentLog

/-!
# What inlining leaves alone

The edits of a chain come from two walks: the extent of the message from the one that
locates the chain, the extents of the supplier calls from another over the chain's own
text.  For a dialect of identifiers they never overlap, so the edits of all chains
together replace disjoint extents of the source text, and the rest is copied as it is.
-/

variable {dialect : Dialect}

/-! ## The edits of one chain -/

/-- Whether an edit of a source text sets the message of a chain: it replaces
what stands between the parentheses of the message call by a quoted literal. -/
def IsMessageEdit (dialect : Dialect) (span : Span) (edit : Edit) : Prop :=
  edit.extent = span.message ∧
  (∃ pattern, edit.replacement = Utf8.encode (Literal.quote pattern)) ∧
  ∃ before lead argument after,
    span.text = before ++ Byte.dot :: lead ++ Byte.openParen :: argument ++
      Byte.closeParen :: after ∧
    Call.IsNamed dialect.messageMethod lead ∧ Call.IsBareMessage argument ∧
    span.message = ⟨span.start + before.length + lead.length + 2,
      span.start + before.length + lead.length + argument.length + 2⟩

/-- Whether an edit of a source text replaces a supplier call of a chain, from
its dot to the parenthesis that closes it, by the calls that add its
arguments. -/
def IsCallEdit (dialect : Dialect) (span : Span) (edit : Edit) : Prop :=
  ∃ call ∈ supplierCalls dialect span.text,
    IsSupplierCall dialect .start 0 span.text call ∧
    edit = (call.edit dialect).shift span.start

/-- Whether a chain stands in a source text where it says that it does.
Nothing is said about the calls in it. -/
def Span.StandsIn (source : Bytes) (span : Span) : Prop :=
  ∃ before after, source = before ++ span.text ++ after ∧ before.length = span.start

theorem exists_messageCall (identifiers : dialect.HasIdentifierWords) {before : Option UInt8}
    {offset : Nat} {text : Bytes} {span : Span}
    (isChain : chainAt? dialect before ⟨offset, text⟩ = some span) :
    ∃ front lead argument after,
      span.text = front ++ Byte.dot :: lead ++ Byte.openParen :: argument ++
        Byte.closeParen :: after ∧
      Call.IsNamed dialect.messageMethod lead ∧ Call.IsBareMessage argument ∧
      Scanner.start.run (some Byte.dot) front = Scanner.atRest 0 ∧ span.start = offset ∧
      span.message = ⟨span.start + front.length + lead.length + 2,
        span.start + front.length + lead.length + argument.length + 2⟩ := by
  rcases chainAt?_spec identifiers isChain with ⟨-, initial, front, lead, argument, tail, after, -,
    spanText, isInitial, named, bare, -, outside, -, atStart, atMessage⟩
  refine ⟨initial ++ front, lead, argument, tail, ?_, named, bare, ?_, atStart, ?_⟩
  · rw [spanText]
  · rw [Scanner.run_append, Scanner.start_eq_atRest,
      ((isInitial.run_atRest identifiers).2 0 _).1]
    exact outside
  · rw [atMessage, atStart, List.length_append]
    simp only [Extent.mk.injEq]
    omega

/-- A chain is replaced if its template is not empty and has a pattern, which
becomes the message. -/
theorem inlined?_eq_some_iff {span : Span} {text : Bytes} :
    span.inlined? dialect = some text ↔
      (Plan.ofSpan dialect span).template.isEmpty = false ∧
      ∃ pattern, (Plan.ofSpan dialect span).template.pattern? = some pattern ∧
        text = Edit.splice span.text
          ((Plan.ofSpan dialect span).edits span (Literal.quote pattern)) := by
  rw [Span.inlined?, Span.outcome]
  by_cases noText : (Plan.ofSpan dialect span).template.isEmpty = true
  · simp [noText]
  · cases isPattern : (Plan.ofSpan dialect span).template.pattern? with
    | none => simp [noText, Template.literal?, isPattern]
    | some pattern => simp [noText, Template.literal?, isPattern, eq_comm]

theorem inlined?_eq_none_iff_template {span : Span} :
    span.inlined? dialect = none ↔ (Plan.ofSpan dialect span).template.isEmpty = true ∨
      (Plan.ofSpan dialect span).template.pattern? = none := by
  simp only [Option.eq_none_iff_forall_ne_some, ne_eq, inlined?_eq_some_iff]
  cases (Plan.ofSpan dialect span).template.isEmpty <;>
    cases (Plan.ofSpan dialect span).template.pattern? <;> simp

/-- A chain that is replaced is its text with its edits made. -/
theorem inlined?_eq_some_iff_outcome {span : Span} {new : Bytes} :
    span.inlined? dialect = some new ↔
      ∃ plan edits, span.outcome dialect = .inlined plan edits ∧
        new = Edit.splice span.text edits := by
  rw [Span.inlined?]
  cases span.outcome dialect <;> simp [eq_comm]

theorem Span.edit?_eq_none {span : Span} (notInlined : span.inlined? dialect = none) :
    span.edit? dialect = none := by
  rw [edit?, notInlined]
  rfl

theorem Span.edit?_eq_some {span : Span} {new : Bytes}
    (isInlined : span.inlined? dialect = some new) :
    span.edit? dialect = some ⟨⟨span.start, span.stop⟩, new⟩ := by
  rw [edit?, isInlined]
  rfl

def Span.messageEdit (span : Span) (message : Text) : Edit :=
  ⟨⟨span.message.start - span.start, span.message.stop - span.start⟩, Utf8.encode message⟩

theorem Plan.edits_ofSpan (dialect : Dialect) (span : Span) (message : Text) :
    (Plan.ofSpan dialect span).edits span message = Edit.insert (span.messageEdit message)
      ((supplierCalls dialect span.text).map (SupplierCall.edit dialect)) := by
  rw [Plan.edits, Plan.callEdits_ofSpan]
  rfl

/-- The edits of a chain that is replaced: those of the supplier calls, and
the one that sets the message put among them. -/
theorem Span.exists_edits_of_outcome {span : Span} {plan : Plan} {edits : List Edit}
    (isInlined : span.outcome dialect = .inlined plan edits) :
    ∃ pattern, edits = Edit.insert (span.messageEdit (Literal.quote pattern))
      ((supplierCalls dialect span.text).map (SupplierCall.edit dialect)) := by
  rw [outcome] at isInlined
  split at isInlined
  · cases isInlined
  · split at isInlined
    · cases isInlined
    · rename_i message isMessage
      injection isInlined with isPlan isEdits
      rcases Option.map_eq_some_iff.mp isMessage with ⟨pattern, -, rfl⟩
      exact ⟨pattern, by rw [← isEdits, Plan.edits_ofSpan]⟩

section

variable {before : Option UInt8} {offset : Nat} {text : Bytes} {span : Span}

theorem isMessageEdit_messageEdit (identifiers : dialect.HasIdentifierWords)
    (isChain : chainAt? dialect before ⟨offset, text⟩ = some span) (pattern : Text) :
    IsMessageEdit dialect span ((span.messageEdit (Literal.quote pattern)).shift span.start) := by
  rcases exists_messageCall identifiers isChain with
    ⟨front, lead, argument, after, spanText, named, bare, -, -, atMessage⟩
  refine ⟨?_, ⟨pattern, rfl⟩, front, lead, argument, after, spanText, named, bare, atMessage⟩
  rw [Span.messageEdit, atMessage]
  simp only [Edit.shift, Extent.mk.injEq]
  omega

/-- The edits of a chain do not overlap: the message stands apart from the
supplier calls, and these are found in order. -/
theorem inOrder_edits (identifiers : dialect.HasIdentifierWords)
    (isChain : chainAt? dialect before ⟨offset, text⟩ = some span) (message : Text) :
    Edit.inOrder span.text.length 0 (Edit.insert (span.messageEdit message)
      ((supplierCalls dialect span.text).map (SupplierCall.edit dialect))) = true := by
  rcases exists_messageCall identifiers isChain with
    ⟨front, lead, argument, after, spanText, named, bare, outside, -, atMessage⟩
  have messageStart : (span.messageEdit message).extent.start =
      front.length + lead.length + 2 := by
    rw [Span.messageEdit, atMessage]
    simp only
    omega
  have messageStop : (span.messageEdit message).extent.stop =
      front.length + lead.length + argument.length + 2 := by
    rw [Span.messageEdit, atMessage]
    simp only
    omega
  apply Edit.inOrder_insert _ (Nat.zero_le _)
  · have nonempty := bare.length_pos
    omega
  · rw [messageStop, spanText]
    simp only [List.length_append, List.length_cons]
    omega
  · intro other member
    rcases List.mem_map.mp member with ⟨call, isCall, rfl⟩
    have standing := isSupplierCall_of_mem identifiers isCall
    rw [spanText] at standing
    rw [messageStart, messageStop]
    exact standing.apart_message identifiers named bare outside
  · have calls := inOrder_supplierCallsFrom dialect .start 0 span.text
    rw [Nat.zero_add] at calls
    exact calls

/-- The edits of a chain that is replaced are in order, and each of them, made
where the chain stands in its source text, sets the message or replaces a
supplier call. -/
theorem outcome_edits (identifiers : dialect.HasIdentifierWords) {plan : Plan}
    {edits : List Edit} (isChain : chainAt? dialect before ⟨offset, text⟩ = some span)
    (isInlined : span.outcome dialect = .inlined plan edits) :
    Edit.inOrder span.text.length 0 edits = true ∧
      (∀ edit ∈ edits.map (Edit.shift span.start),
        IsMessageEdit dialect span edit ∨ IsCallEdit dialect span edit) ∧
      (∃ edit ∈ edits.map (Edit.shift span.start), IsMessageEdit dialect span edit) ∧
      ∀ call ∈ supplierCalls dialect span.text,
        (call.edit dialect).shift span.start ∈ edits.map (Edit.shift span.start) := by
  rcases Span.exists_edits_of_outcome isInlined with ⟨pattern, rfl⟩
  have isMessageEdit := isMessageEdit_messageEdit identifiers isChain pattern
  refine ⟨inOrder_edits identifiers isChain _, ?_,
    ⟨_, List.mem_map_of_mem (Edit.mem_insert.mpr (.inl rfl)), isMessageEdit⟩, ?_⟩
  · intro edit member
    rcases List.mem_map.mp member with ⟨edit, isMember, rfl⟩
    rcases Edit.mem_insert.mp isMember with rfl | inCalls
    · exact .inl isMessageEdit
    · rcases List.mem_map.mp inCalls with ⟨call, isCall, rfl⟩
      exact .inr ⟨call, isCall, isSupplierCall_of_mem identifiers isCall, rfl⟩
  · intro call isCall
    exact List.mem_map_of_mem (Edit.mem_insert.mpr (.inr (List.mem_map_of_mem isCall)))

end

/-! ## The edits of a source text -/

def isReplaced (dialect : Dialect) (span : Span) : Bool :=
  (span.inlined? dialect).isSome

/-- Whether edits change no more of the chains than their messages and
supplier calls, and all of these.  Every edit belongs to a chain, and every
chain has its message set. -/
def EditsOnly (dialect : Dialect) (spans : List Span) (edits : List Edit) : Prop :=
  (∀ edit ∈ edits, ∃ span ∈ spans,
    IsMessageEdit dialect span edit ∨ IsCallEdit dialect span edit) ∧
  ∀ span ∈ spans, (∃ edit ∈ edits, IsMessageEdit dialect span edit) ∧
    ∀ call ∈ supplierCalls dialect span.text, (call.edit dialect).shift span.start ∈ edits

theorem EditsOnly.append {spans otherSpans : List Span} {edits otherEdits : List Edit}
    (left : EditsOnly dialect spans edits) (right : EditsOnly dialect otherSpans otherEdits) :
    EditsOnly dialect (spans ++ otherSpans) (edits ++ otherEdits) := by
  constructor
  · intro edit member
    rcases List.mem_append.mp member with inLeft | inRight
    · rcases left.1 edit inLeft with ⟨span, isSpan, isEdit⟩
      exact ⟨span, List.mem_append_left _ isSpan, isEdit⟩
    · rcases right.1 edit inRight with ⟨span, isSpan, isEdit⟩
      exact ⟨span, List.mem_append_right _ isSpan, isEdit⟩
  · intro span member
    rcases List.mem_append.mp member with inLeft | inRight
    · rcases left.2 span inLeft with ⟨⟨edit, isEdit, setsMessage⟩, calls⟩
      exact ⟨⟨edit, List.mem_append_left _ isEdit, setsMessage⟩,
        fun call isCall => List.mem_append_left _ (calls call isCall)⟩
    · rcases right.2 span inRight with ⟨⟨edit, isEdit, setsMessage⟩, calls⟩
      exact ⟨⟨edit, List.mem_append_right _ isEdit, setsMessage⟩,
        fun call isCall => List.mem_append_right _ (calls call isCall)⟩

theorem Edit.Replaces.cons_of_kept {before : Option UInt8} {offset : Nat} {text rest new : Bytes}
    {span : Span} {spans : List Span}
    (isChain : chainAt? dialect before ⟨offset, text⟩ = some span)
    (isKept : span.inlined? dialect = none)
    (behind : Edit.Replaces span.stop (spans.filterMap (Span.edit? dialect)) rest new) :
    Edit.Replaces offset ((span :: spans).filterMap (Span.edit? dialect)) (span.text ++ rest)
      (span.text ++ new) := by
  rw [Span.stop, start_of_chainAt? isChain] at behind
  rw [List.filterMap_cons_none (Span.edit?_eq_none isKept)]
  exact behind.prepend span.text

theorem Edit.Replaces.cons_of_inlined {before : Option UInt8} {offset : Nat}
    {text rest chain new : Bytes} {span : Span} {spans : List Span}
    (isChain : chainAt? dialect before ⟨offset, text⟩ = some span)
    (isInlined : span.inlined? dialect = some chain)
    (behind : Edit.Replaces span.stop (spans.filterMap (Span.edit? dialect)) rest new) :
    Edit.Replaces offset ((span :: spans).filterMap (Span.edit? dialect)) (span.text ++ rest)
      (chain ++ new) := by
  rw [Span.stop, start_of_chainAt? isChain] at behind
  rw [List.filterMap_cons_some (Span.edit?_eq_some isInlined), Span.stop,
    start_of_chainAt? isChain]
  exact .edit [] span.text chain behind

/-- The edits of whole chains come from edits of their messages and supplier
calls. -/
theorem Locates.replaces (identifiers : dialect.HasIdentifierWords) {scanner : Scanner}
    {before : Option UInt8} {offset : Nat} {text : Bytes} {spans : List Span}
    (located : Locates dialect scanner before offset text spans) :
    ∃ new edits, Edit.Replaces offset (spans.filterMap (Span.edit? dialect)) text new ∧
      Edit.Replaces offset edits text new ∧
      EditsOnly dialect (spans.filter (isReplaced dialect)) edits := by
  induction located with
  | done scanner before offset =>
      refine ⟨[], [], .done offset [], .done offset [], ?_, ?_⟩ <;>
        exact fun _ member => absurd member List.not_mem_nil
  | @chain scanner before offset rest span spans outside isChain behind ih =>
      rcases ih with ⟨new, edits, whole, parts, only⟩
      have atStart := start_of_chainAt? isChain
      rw [Span.stop, atStart] at parts
      cases isInlined : span.inlined? dialect with
      | none =>
          have notReplaced : ¬ isReplaced dialect span = true := by simp [isReplaced, isInlined]
          rw [List.filter_cons_of_neg notReplaced]
          exact ⟨span.text ++ new, edits, whole.cons_of_kept isChain isInlined,
            parts.prepend span.text, only⟩
      | some chain =>
          rcases inlined?_eq_some_iff_outcome.mp isInlined with ⟨plan, chainEdits, outcome, rfl⟩
          rcases outcome_edits identifiers isChain outcome with ⟨ordered, each, message, calls⟩
          have replaced : isReplaced dialect span = true := by simp [isReplaced, isInlined]
          rw [List.filter_cons_of_pos replaced]
          have spliced := (Edit.replaces_of_inOrder ordered).shift offset
          rw [Nat.zero_add, List.drop_zero] at spliced
          refine ⟨Edit.splice span.text chainEdits ++ new,
            chainEdits.map (Edit.shift offset) ++ edits, whole.cons_of_inlined isChain isInlined,
            spliced.append parts, ?_⟩
          rw [← List.singleton_append, ← atStart]
          refine EditsOnly.append ⟨?_, ?_⟩ only
          · intro edit member
            exact ⟨span, List.mem_singleton_self span, each edit member⟩
          · intro other member
            rw [List.mem_singleton.mp member]
            exact ⟨message, calls⟩
  | @byte scanner before offset byte rest spans noChain behind ih =>
      rcases ih with ⟨new, edits, whole, parts, only⟩
      exact ⟨byte :: new, edits, whole.prepend [byte], parts.prepend [byte], only⟩

theorem Locates.standsIn {scanner : Scanner} {before : Option UInt8} {offset : Nat}
    {text : Bytes} {spans : List Span}
    (located : Locates dialect scanner before offset text spans) (front : Bytes)
    (atOffset : front.length = offset) : ∀ span ∈ spans, span.StandsIn (front ++ text) := by
  induction located generalizing front with
  | done => exact fun _ member => absurd member List.not_mem_nil
  | @chain scanner before offset rest span spans outside isChain behind ih =>
      have atStart := start_of_chainAt? isChain
      intro other member
      rcases List.mem_cons.mp member with rfl | inSpans
      · refine ⟨front, rest, ?_, ?_⟩
        · rw [List.append_assoc]
        · rw [atOffset, atStart]
      · have standing := ih (front ++ span.text) (by
          rw [List.length_append, Span.stop, atOffset, atStart]) other inSpans
        rw [List.append_assoc] at standing
        exact standing
  | @byte scanner before offset byte rest spans noChain behind ih =>
      intro other member
      have standing := ih (front ++ [byte]) (by
        rw [List.length_append, atOffset, List.length_singleton]) other member
      rw [List.append_assoc] at standing
      exact standing

/-- Two chains, the second of which has a call that is kept between its
suppliers. -/
def twoChains : String :=
  "log.atInfo().setMessage(\"\x7b\x7d\").addArgument(() -> \"a=\" + a).log();\n" ++
    "LOG; logger . atWarn()\n  .setMessage(\"\x7b\x7d\")\n  .addArgument(() -> b)" ++
    ".addArgument(c).addArgument(() -> \"d\" + d)\n  .log();"

def twoChainsInlined : String :=
  "log.atInfo().setMessage(\"a=\x7b\x7d\").addArgument(a).log();\n" ++
    "LOG; logger . atWarn()\n  .setMessage(\"\x7b\x7d d\x7b\x7d\")\n  .addArgument(b)" ++
    ".addArgument(c).addArgument(d)\n  .log();"

/-- Inlining changes nothing of a source text but the messages of the chains
that it replaces and their supplier calls, all of which stand apart from each
other. -/
theorem inlineChains_frame (identifiers : dialect.HasIdentifierWords) {source text : Bytes}
    {chains : Nat} (inlined : inlineChains dialect source = .inlined text chains) :
    ∃ spans edits, spans.Sublist (locate dialect source) ∧ spans.length = chains ∧
      (∀ span ∈ spans, span.StandsIn source) ∧ Edit.Replaces 0 edits source text ∧
      EditsOnly dialect spans edits := by
  have located := locates_locate identifiers source
  rcases located.replaces identifiers with ⟨new, edits, whole, parts, only⟩
  have standing := located.standsIn [] rfl
  have spliced := whole.splice_eq
  rw [inlineChains] at inlined
  split at inlined
  · cases inlined
  · injection inlined with sameText sameChains
    refine ⟨(locate dialect source).filter (isReplaced dialect), edits, List.filter_sublist, ?_, ?_,
      ?_, only⟩
    · rw [← sameChains, List.length_filterMap_eq_countP, List.countP_eq_length_filter]
      congr 1
      apply List.filter_congr
      intro span _
      rw [isReplaced, Span.edit?, Option.isSome_map]
    · intro span member
      exact standing span (List.mem_of_mem_filter member)
    · rw [← sameText, spliced]
      exact parts

theorem inlineChains_frame_of_two_chains :
    Dialect.HasIdentifierWords {} ∧
      inlineChains {} (Utf8.ofString twoChains) = .inlined (Utf8.ofString twoChainsInlined) 2 ∧
      ∃ spans edits, spans.Sublist (locate {} (Utf8.ofString twoChains)) ∧ spans.length = 2 ∧
        (∀ span ∈ spans, span.StandsIn (Utf8.ofString twoChains)) ∧
        Edit.Replaces 0 edits (Utf8.ofString twoChains) (Utf8.ofString twoChainsInlined) ∧
        EditsOnly {} spans edits :=
  have inlined : inlineChains {} (Utf8.ofString twoChains) =
      .inlined (Utf8.ofString twoChainsInlined) 2 := by decide +kernel
  ⟨Dialect.hasIdentifierWords_default, inlined,
    inlineChains_frame Dialect.hasIdentifierWords_default inlined⟩

/-- For a dialect of identifiers the edits of every chain that is replaced are
in order.  Their slices can be made then. -/
theorem editsInOrder_of_hasIdentifierWords (identifiers : dialect.HasIdentifierWords)
    (source : Bytes) : editsInOrder dialect source = true := by
  rw [editsInOrder, List.all_eq_true]
  intro span member
  rcases (locates_locate identifiers source).exists_chainAt? span member with
    ⟨before, offset, text, isChain⟩
  cases outcome : span.outcome dialect with
  | plain => rfl
  | unrenderable template => rfl
  | inlined plan edits => exact (outcome_edits identifiers isChain outcome).1

end FluentLog
