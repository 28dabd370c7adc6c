import FluentLog.Chain.Event
import FluentLog.Proofs.Chain.SupplierCalls
import FluentLog.Proofs.Code.CodeBytes

namespace FluentLog

/-!
# Which supplier calls are inlined

The walk that looks for supplier calls does not ask how deep a call is nested.  It takes
each argument call that it meets, at whatever depth, and passes over what stands between
the parentheses of that call.  So the calls that it gives are the *outer* ones: those that
no other argument call encloses.  A supplier call between the parentheses of some other
method of the chain is one of them, and it is inlined into the message of the chain around
it.  All of the edited calls stand at the chain's own level exactly when every supplier
call on a deeper level is enclosed by an argument call.
-/

variable {dialect : Dialect}

/-! ## Parentheses that are closed again -/

/-- A stretch that closes a parenthesis which it does not open has a first one
of these. -/
theorem Scanner.exists_unmatched {scanner : Scanner} {ahead : Option UInt8} {bytes : Bytes}
    (closes : ¬ scanner.ClosesOwn ahead bytes) :
    ∃ inside after, bytes = inside ++ Byte.closeParen :: after ∧
      scanner.ClosesOwn (some Byte.closeParen) inside ∧
      scanner.run (some Byte.closeParen) inside = Scanner.atRest 0 := by
  induction bytes generalizing scanner with
  | nil => exact absurd True.intro closes
  | cons byte rest ih =>
      by_cases here : byte = Byte.closeParen ∧
        (scanner.step byte (rest.head?.or ahead)).1 = some 0
      · rcases here with ⟨rfl, reported⟩
        exact ⟨[], rest, rfl, True.intro, Scanner.eq_atRest_of_step reported⟩
      · rcases ih fun own => closes ⟨here, own⟩ with ⟨inside, after, rfl, own, atRest⟩
        have sameAhead : (inside ++ Byte.closeParen :: after).head?.or ahead =
            inside.head?.or (some Byte.closeParen) := by
          cases inside <;> rfl
        rw [sameAhead] at here own atRest
        exact ⟨byte :: inside, after, rfl, ⟨here, own⟩, atRest⟩

theorem IsEnclosed.closes {front inner : Bytes} {depth : Nat}
    (enclosed : IsEnclosed (front ++ Byte.openParen :: inner))
    (atRest : (Scanner.start.run (some Byte.openParen) front) = Scanner.atRest depth) :
    ∃ inside after, inner = inside ++ Byte.closeParen :: after ∧ IsEnclosed inside := by
  have whole := enclosed.2
  rw [Scanner.run_append, List.head?_cons, Option.some_or, atRest, Scanner.run_cons,
    Scanner.step_atRest_open] at whole
  apply Scanner.exists_unmatched
  intro own
  have deeper := Scanner.run_deepen own (depth + 1)
  rw [Scanner.start_eq_atRest, Scanner.deepen_atRest, Nat.zero_add, whole] at deeper
  have depths := congrArg (fun scanner : Scanner => scanner.cursor.depth) deeper
  simp only [Scanner.deepen_depth, Scanner.atRest] at depths
  omega

/-! ## Argument calls -/

/-- Whether an argument call begins at `start` in a text at an offset, read by
a scanner: its dot is a code byte at this depth, and its parenthesis opens in
front of `opened`. -/
def OpensArgument (dialect : Dialect) (scanner : Scanner) (offset : Nat) (text : Bytes)
    (start depth : Nat) (opened : Place) : Prop :=
  ∃ before rest, text = before ++ Byte.dot :: rest ∧ start = offset + before.length ∧
    scanner.run (some Byte.dot) before = Scanner.atRest depth ∧
    Call.argument? dialect ⟨start + 1, rest⟩ = some opened

/-- Whether an argument call that is opened at a place is closed in front of
an offset. -/
def Place.ClosesBefore (opened : Place) (bound : Nat) : Prop :=
  ∃ length, closingParen? opened.rest = some length ∧ opened.offset + length < bound

/-- Whether no argument call of a text encloses what stands at an offset: each
one that begins in front of it is closed in front of it.  An argument call
that is never closed encloses all that follows. -/
def IsOuter (dialect : Dialect) (scanner : Scanner) (offset : Nat) (text : Bytes)
    (bound : Nat) : Prop :=
  forall start depth opened, OpensArgument dialect scanner offset text start depth opened ->
    start < bound -> opened.ClosesBefore bound

variable {scanner : Scanner} {offset start depth : Nat} {text : Bytes} {opened : Place}
  {call : SupplierCall}

namespace OpensArgument

theorem le_start (opens : OpensArgument dialect scanner offset text start depth opened) :
    offset ≤ start := by
  rcases opens with ⟨before, rest, -, rfl, -, -⟩
  exact Nat.le_add_right offset before.length

/-- The calls that begin behind a stretch are those of the text behind it. -/
theorem append_iff {front : Bytes} (behind : offset + front.length ≤ start) :
    OpensArgument dialect scanner offset (front ++ text) start depth opened ↔
      OpensArgument dialect (scanner.run text.head? front) (offset + front.length) text start
        depth opened := by
  have sameAhead : forall before rest : Bytes,
      (before ++ Byte.dot :: rest).head? = before.head?.or (some Byte.dot) := by
    intro before rest
    cases before <;> rfl
  constructor
  · rintro ⟨before, rest, same, rfl, atRest, isOpened⟩
    rcases List.append_eq_append_iff.mp same with ⟨middle, rfl, rfl⟩ | ⟨middle, rfl, isRest⟩
    · rw [Scanner.run_append, ← sameAhead middle rest] at atRest
      refine ⟨middle, rest, rfl, ?_, atRest, isOpened⟩
      rw [List.length_append, Nat.add_assoc]
    · -- The stretch is no longer than what stands in front of the dot.
      rw [List.length_append] at behind
      have noMiddle : middle = [] := List.eq_nil_of_length_eq_zero (by omega)
      subst noMiddle
      rw [List.nil_append] at isRest
      subst isRest
      rw [List.append_nil]
      exact ⟨[], rest, rfl, rfl, atRest, isOpened⟩
  · rintro ⟨before, rest, rfl, rfl, atRest, isOpened⟩
    rw [sameAhead, ← Scanner.run_append] at atRest
    refine ⟨front ++ before, rest, (List.append_assoc _ _ _).symm, ?_, atRest, isOpened⟩
    rw [List.length_append, Nat.add_assoc]

theorem cons_iff {byte : UInt8} {rest : Bytes} :
    OpensArgument dialect scanner offset (byte :: rest) start depth opened ↔
      (byte = Byte.dot ∧ start = offset ∧ scanner = Scanner.atRest depth ∧
        Call.argument? dialect ⟨offset + 1, rest⟩ = some opened) ∨
      OpensArgument dialect (scanner.step byte rest.head?).2 (offset + 1) rest start depth
        opened := by
  constructor
  · rintro ⟨before, others, same, rfl, atRest, isOpened⟩
    cases before with
    | nil =>
        rcases List.cons.inj same with ⟨rfl, rfl⟩
        exact .inl ⟨rfl, rfl, atRest, isOpened⟩
    | cons first before =>
        have behind : offset + [byte].length ≤ offset + (first :: before).length := by
          simp only [List.length_cons, List.length_nil]
          omega
        exact .inr ((append_iff behind).mp ⟨first :: before, others, same, rfl, atRest, isOpened⟩)
  · rintro (⟨rfl, rfl, atRest, isOpened⟩ | opens)
    · exact ⟨[], rest, rfl, rfl, atRest, isOpened⟩
    · exact (@append_iff dialect scanner offset start depth rest opened [byte] opens.le_start).mpr
        opens

theorem eq_of_dot {rest : Bytes} {outer : Place}
    (opens : OpensArgument dialect scanner offset (Byte.dot :: rest) offset depth opened)
    (isOpened : Call.argument? dialect ⟨offset + 1, rest⟩ = some outer) : opened = outer := by
  rcases cons_iff.mp opens with ⟨-, -, -, same⟩ | behind
  · rw [isOpened] at same
    exact (Option.some.inj same).symm
  · exact absurd behind.le_start (Nat.not_succ_le_self offset)

end OpensArgument

/-- Nothing stands in front of the first byte. -/
theorem isOuter_self : IsOuter dialect scanner offset text offset := by
  intro start depth opened opens inFront
  exact absurd opens.le_start (Nat.not_le_of_lt inFront)

theorem isSupplierCall_iff (identifiers : dialect.HasIdentifierWords) :
    IsSupplierCall dialect scanner offset text call ↔
      ∃ depth opened length body extras,
        OpensArgument dialect scanner offset text call.extent.start depth opened ∧
        closingParen? opened.rest = some length ∧
        CallContent.ofText (Utf8.decode (opened.rest.take length)) = .supplier body extras ∧
        call = ⟨⟨call.extent.start, opened.offset + length + 1⟩,
          (Fragment.ofConcatenation body).addArguments extras⟩ := by
  constructor
  · rintro ⟨before, lead, inside, after, body, extras, depth, rfl, named, enclosed, atRest,
      content, rfl⟩
    refine ⟨depth, ⟨offset + before.length + 1 + lead.length + 1,
      inside ++ Byte.closeParen :: after⟩, inside.length, body, extras,
      ⟨before, lead ++ Byte.openParen :: inside ++ Byte.closeParen :: after, ?_, rfl, atRest,
        (Call.argument?_eq_some_iff identifiers).mpr ⟨lead, named, ?_, rfl⟩⟩,
      closingParen?_eq_some_iff.mpr ⟨inside, after, rfl, rfl, enclosed⟩, ?_, ?_⟩
    · simp
    · simp
    · rw [List.take_left' rfl]
      exact content
    · simp only [SupplierCall.mk.injEq, Extent.mk.injEq, true_and, and_true]
      omega
  · rintro ⟨depth, opened, length, body, extras,
      ⟨before, rest, rfl, atStart, atRest, isOpened⟩, closes, content, isCall⟩
    rcases exists_call_of_argument? identifiers isOpened closes with
      ⟨lead, inside, after, named, enclosed, rfl, taken, atStop, -⟩
    rw [taken] at content
    refine ⟨before, lead, inside, after, body, extras, depth, by simp, named, enclosed, atRest,
      content, ?_⟩
    rw [isCall, atStop, atStart]

theorem isSupplierCall_at_dot_iff (identifiers : dialect.HasIdentifierWords) {length : Nat}
    {rest : Bytes} (atRest : scanner = Scanner.atRest depth)
    (isOpened : Call.argument? dialect ⟨offset + 1, rest⟩ = some opened)
    (closes : closingParen? opened.rest = some length) (atDot : call.extent.start = offset) :
    IsSupplierCall dialect scanner offset (Byte.dot :: rest) call ↔
      call ∈ (CallContent.ofText (Utf8.decode (opened.rest.take length))).supplierCalls
        ⟨offset, opened.offset + length + 1⟩ := by
  rw [isSupplierCall_iff identifiers, atDot]
  constructor
  · rintro ⟨_, other, otherLength, body, extras, opens, otherCloses, content, isCall⟩
    have same := opens.eq_of_dot isOpened
    subst same
    rw [closes] at otherCloses
    cases otherCloses
    rw [content, isCall]
    exact List.mem_cons_self
  · intro member
    cases content : CallContent.ofText (Utf8.decode (opened.rest.take length)) with
    | plain =>
        rw [content] at member
        cases member
    | supplier body extras =>
        rw [content] at member
        exact ⟨depth, opened, length, body, extras, ⟨[], rest, rfl, rfl, atRest, isOpened⟩, closes,
          content, List.mem_singleton.mp member⟩

/-- The calls that an argument call holds begin with it. -/
theorem CallContent.start_of_mem_supplierCalls {extent : Extent} {content : CallContent}
    (member : call ∈ content.supplierCalls extent) : call.extent.start = extent.start := by
  cases content with
  | plain => cases member
  | supplier body extras => rw [List.mem_singleton.mp member]

/-! ## Calls between the parentheses of a call -/

theorem IsEnclosed.closes_call {word : String} {middle others lead rest after : Bytes}
    {depth : Nat} (identifier : isIdentifierWord word = true)
    (enclosed : IsEnclosed (middle ++ Byte.dot :: others)) (named : Call.IsNamed word lead)
    (atRest : Scanner.start.run (some Byte.dot) middle = Scanner.atRest depth)
    (same : lead ++ Byte.openParen :: rest = others ++ Byte.closeParen :: after) :
    ∃ length, closingParen? rest = some length ∧ lead.length + 1 + length < others.length := by
  have notInLead : Byte.closeParen ∉ lead :=
    fun member => absurd (named.plain identifier _ member) (by decide)
  rcases split_behind_cons notInLead (by decide) same.symm with ⟨inner, rfl, isRest⟩
  have split : middle ++ Byte.dot :: (lead ++ Byte.openParen :: inner) =
      (middle ++ Byte.dot :: lead) ++ Byte.openParen :: inner := by
    simp
  rw [split] at enclosed
  have opened : Scanner.start.run (some Byte.openParen) (middle ++ Byte.dot :: lead) =
      Scanner.atRest depth := by
    rw [Scanner.run_append, List.head?_cons, Option.some_or, atRest]
    apply Scanner.run_atRest_plain
    intro byte member
    rcases List.mem_cons.mp member with rfl | inLead
    · rfl
    · exact named.plain identifier byte inLead
  rcases enclosed.closes opened with ⟨inside, behind, rfl, isInside⟩
  refine ⟨inside.length, closingParen?_eq_some_iff.mpr ⟨inside, behind ++ Byte.closeParen :: after,
    by rw [isRest]; simp, rfl, isInside⟩, ?_⟩
  simp only [List.length_append, List.length_cons]
  omega

/-- An argument call that begins behind the dot of another one, and in front
of its end, is closed in front of its end. -/
theorem OpensArgument.closesBefore (identifiers : dialect.HasIdentifierWords)
    {lead inside after : Bytes} {outerDepth : Nat}
    (named : Call.IsNamed dialect.argumentMethod lead) (enclosed : IsEnclosed inside)
    (opens : OpensArgument dialect (Scanner.atRest outerDepth) offset
      (Byte.dot :: lead ++ Byte.openParen :: inside ++ Byte.closeParen :: after) start depth
      opened)
    (behindDot : offset < start) (inFront : start < offset + lead.length + inside.length + 3) :
    opened.ClosesBefore (offset + lead.length + inside.length + 3) := by
  rcases opens with ⟨before, rest, same, rfl, atRest, isOpened⟩
  rcases (Call.argument?_eq_some_iff identifiers).mp isOpened with
    ⟨innerLead, innerNamed, isRest, atOpened⟩
  simp only at isRest atOpened
  have whole : before ++ Byte.dot :: rest =
      (Byte.dot :: lead ++ [Byte.openParen]) ++ (inside ++ Byte.closeParen :: after) := by
    rw [← same]
    simp
  rcases split_at whole with ⟨middle, rfl, isInside⟩ | ⟨middle, isLead, -⟩
  · rw [Scanner.run_append, Scanner.run_opened identifiers.argumentMethod named] at atRest
    have lengths := congrArg List.length isInside
    simp only [List.length_append, List.length_cons, List.length_nil] at lengths inFront atOpened
    rcases split_at isInside.symm with ⟨others, rfl, isAfter⟩ | ⟨others, rfl, isBehind⟩
    · -- The dot does not stand behind the enclosed text.
      rw [List.length_append] at inFront
      have noOthers : others = [] := List.eq_nil_of_length_eq_zero (by omega)
      subst noOthers
      exact absurd (List.cons.inj isAfter).1 (by decide)
    · have fromStart : Scanner.start.run (some Byte.dot) middle =
          Scanner.atRest (Scanner.start.run (some Byte.dot) middle).cursor.depth := by
        have agree := (Scanner.agree_atRest 0 (outerDepth + 1)).run (some Byte.dot) middle
        rw [atRest] at agree
        exact agree.eq_atRest
      rcases enclosed.closes_call identifiers.argumentMethod innerNamed fromStart
        (isRest.symm.trans isBehind) with ⟨length, closes, within⟩
      refine ⟨length, closes, ?_⟩
      simp only [List.length_append, List.length_cons]
      omega
  · -- The name in front of the parenthesis holds no dot.
    cases before with
    | nil => exact absurd behindDot (Nat.lt_irrefl offset)
    | cons first before =>
        rw [List.cons_append, List.cons_append] at isLead
        have inLead : Byte.dot ∈ lead ++ [Byte.openParen] := by
          rw [(List.cons.inj isLead).2]
          exact List.mem_append_right before List.mem_cons_self
        rcases List.mem_append.mp inLead with inName | isParen
        · exact absurd inName (named.dot_not_mem identifiers.argumentMethod)
        · exact absurd isParen (by decide)

/-! ## Calls behind a call -/

section

variable {outerDepth length : Nat} {rest : Bytes} {outer : Place}

/-- Behind a closed argument call the walk goes on with the scanner at the dot
of the call. -/
theorem OpensArgument.behind_call_iff (identifiers : dialect.HasIdentifierWords)
    (isOpened : Call.argument? dialect ⟨offset + 1, rest⟩ = some outer)
    (closes : closingParen? outer.rest = some length)
    (reached : outer.offset + length + 1 ≤ start) :
    OpensArgument dialect (Scanner.atRest outerDepth) offset (Byte.dot :: rest) start depth opened ↔
      OpensArgument dialect (Scanner.atRest outerDepth) (outer.offset + length + 1)
        (rest.drop (outer.offset + length + 1 - (offset + 1))) start depth opened := by
  rcases exists_call_of_argument? identifiers isOpened closes with
    ⟨lead, inside, after, named, enclosed, rfl, -, atStop, dropped⟩
  rw [dropped, atStop]
  rw [atStop] at reached
  have whole : Byte.dot :: (lead ++ Byte.openParen :: inside ++ Byte.closeParen :: after) =
      (Byte.dot :: lead ++ Byte.openParen :: inside ++ [Byte.closeParen]) ++ after := by
    simp
  have length : (Byte.dot :: lead ++ Byte.openParen :: inside ++ [Byte.closeParen]).length =
      lead.length + inside.length + 3 := by
    simp only [List.length_append, List.length_cons, List.length_nil]
    omega
  have behind := @append_iff dialect (Scanner.atRest outerDepth) offset start depth after opened
    (Byte.dot :: lead ++ Byte.openParen :: inside ++ [Byte.closeParen]) (by omega)
  rw [Scanner.run_call identifiers.argumentMethod named enclosed, length, ← Nat.add_assoc,
    ← Nat.add_assoc] at behind
  rw [whole]
  exact behind

/-- What stands behind a closed argument call is outer there if it is so in
the text behind that call. -/
theorem isOuter_behind_call_iff (identifiers : dialect.HasIdentifierWords)
    (isOpened : Call.argument? dialect ⟨offset + 1, rest⟩ = some outer)
    (closes : closingParen? outer.rest = some length) {bound : Nat}
    (reached : outer.offset + length + 1 ≤ bound) :
    IsOuter dialect (Scanner.atRest outerDepth) offset (Byte.dot :: rest) bound ↔
      IsOuter dialect (Scanner.atRest outerDepth) (outer.offset + length + 1)
        (rest.drop (outer.offset + length + 1 - (offset + 1))) bound := by
  constructor
  · intro isOuter start depth opened opens inFront
    exact isOuter start depth opened
      ((OpensArgument.behind_call_iff identifiers isOpened closes opens.le_start).mpr opens) inFront
  · intro isOuter start depth opened opens inFront
    by_cases isBehind : outer.offset + length + 1 ≤ start
    · exact isOuter start depth opened
        ((OpensArgument.behind_call_iff identifiers isOpened closes isBehind).mp opens) inFront
    · rcases Nat.eq_or_lt_of_le opens.le_start with rfl | behindDot
      · rw [opens.eq_of_dot isOpened]
        exact ⟨length, closes, reached⟩
      · rcases exists_call_of_argument? identifiers isOpened closes with
          ⟨lead, inside, after, named, enclosed, rfl, -, atStop, -⟩
        rcases opens.closesBefore identifiers named enclosed behindDot (by omega) with
          ⟨inner, innerCloses, within⟩
        exact ⟨inner, innerCloses, by omega⟩

end

/-! ## The calls that the walk gives -/

/-- Whether a call is a supplier call of the text at an offset that no
argument call encloses.  Parentheses of other methods do not matter. -/
def IsOuterCall (dialect : Dialect) (scanner : Scanner) (offset : Nat) (text : Bytes)
    (call : SupplierCall) : Prop :=
  IsSupplierCall dialect scanner offset text call ∧
    IsOuter dialect scanner offset text call.extent.start

/-- A byte at which no argument call begins changes nothing. -/
theorem isOuterCall_cons_iff (identifiers : dialect.HasIdentifierWords) {byte : UInt8}
    {rest : Bytes} (notHere : forall opened depth, byte = Byte.dot -> scanner = Scanner.atRest depth ->
      Call.argument? dialect ⟨offset + 1, rest⟩ ≠ some opened) :
    IsOuterCall dialect scanner offset (byte :: rest) call ↔
      IsOuterCall dialect (scanner.step byte rest.head?).2 (offset + 1) rest call := by
  have same : forall start depth opened,
      OpensArgument dialect scanner offset (byte :: rest) start depth opened ↔
        OpensArgument dialect (scanner.step byte rest.head?).2 (offset + 1) rest start depth
          opened := by
    intro start depth opened
    rw [OpensArgument.cons_iff]
    constructor
    · rintro (⟨isDot, -, atRest, isOpened⟩ | opens)
      · exact absurd isOpened (notHere opened depth isDot atRest)
      · exact opens
    · exact .inr
  rw [IsOuterCall, IsOuterCall, isSupplierCall_iff identifiers, isSupplierCall_iff identifiers]
  simp only [IsOuter, same]

section

variable {outerDepth length : Nat} {rest : Bytes} {outer : Place}

/-- A closed argument call encloses all calls that begin in front of its end,
except itself. -/
theorem isOuterCall_behind_call_iff (identifiers : dialect.HasIdentifierWords)
    (isOpened : Call.argument? dialect ⟨offset + 1, rest⟩ = some outer)
    (closes : closingParen? outer.rest = some length) (notHere : call.extent.start ≠ offset) :
    IsOuterCall dialect (Scanner.atRest outerDepth) offset (Byte.dot :: rest) call ↔
      IsOuterCall dialect (Scanner.atRest outerDepth) (outer.offset + length + 1)
        (rest.drop (outer.offset + length + 1 - (offset + 1))) call := by
  have opensHere : OpensArgument dialect (Scanner.atRest outerDepth) offset (Byte.dot :: rest) offset
      outerDepth outer := ⟨[], rest, rfl, rfl, rfl, isOpened⟩
  rw [IsOuterCall, IsOuterCall, isSupplierCall_iff identifiers, isSupplierCall_iff identifiers]
  constructor
  · rintro ⟨⟨callDepth, opened, callLength, body, extras, opens, isCall⟩, isOuter⟩
    have reached : outer.offset + length + 1 ≤ call.extent.start := by
      have behindDot := opens.le_start
      rcases isOuter offset outerDepth outer opensHere (by omega) with
        ⟨other, otherCloses, inFront⟩
      rw [closes] at otherCloses
      cases otherCloses
      exact inFront
    exact ⟨⟨callDepth, opened, callLength, body, extras,
      (OpensArgument.behind_call_iff identifiers isOpened closes reached).mp opens, isCall⟩,
      (isOuter_behind_call_iff identifiers isOpened closes reached).mp isOuter⟩
  · rintro ⟨⟨callDepth, opened, callLength, body, extras, opens, isCall⟩, isOuter⟩
    have reached := opens.le_start
    exact ⟨⟨callDepth, opened, callLength, body, extras,
      (OpensArgument.behind_call_iff identifiers isOpened closes reached).mpr opens, isCall⟩,
      (isOuter_behind_call_iff identifiers isOpened closes reached).mpr isOuter⟩

theorem IsSupplierCall.start_ne (identifiers : dialect.HasIdentifierWords)
    (isOpened : Call.argument? dialect ⟨offset + 1, rest⟩ = some outer)
    (isCall : IsSupplierCall dialect scanner (outer.offset + length + 1) text call) :
    call.extent.start ≠ offset := by
  rcases (isSupplierCall_iff identifiers).mp isCall with ⟨_, _, _, _, _, opens, -⟩
  rcases Call.exists_passes_of_argument? isOpened with ⟨word, -, passes⟩
  have reached := opens.le_start
  have passed := passes.le
  simp only at passed
  omega

/-- From a closed argument call on, the outer calls are that call itself, if
it is a supplier call, and the outer ones behind it. -/
theorem isOuterCall_at_call_iff (identifiers : dialect.HasIdentifierWords)
    (isOpened : Call.argument? dialect ⟨offset + 1, rest⟩ = some outer)
    (closes : closingParen? outer.rest = some length) :
    IsOuterCall dialect (Scanner.atRest outerDepth) offset (Byte.dot :: rest) call ↔
      call ∈ (CallContent.ofText (Utf8.decode (outer.rest.take length))).supplierCalls
        ⟨offset, outer.offset + length + 1⟩ ∨
      IsOuterCall dialect (Scanner.atRest outerDepth) (outer.offset + length + 1)
        (rest.drop (outer.offset + length + 1 - (offset + 1))) call := by
  by_cases here : call.extent.start = offset
  · rw [IsOuterCall, isSupplierCall_at_dot_iff identifiers rfl isOpened closes here, here]
    constructor
    · exact fun isOuter => .inl isOuter.1
    · rintro (isFirst | isLater)
      · exact ⟨isFirst, isOuter_self⟩
      · exact absurd here (isLater.1.start_ne identifiers isOpened)
  · rw [isOuterCall_behind_call_iff identifiers isOpened closes here]
    constructor
    · exact .inr
    · rintro (isFirst | isLater)
      · exact absurd (CallContent.start_of_mem_supplierCalls isFirst) here
      · exact isLater

/-- What is never closed is no supplier call, and it encloses all that
follows. -/
theorem not_isOuterCall_of_notClosed (identifiers : dialect.HasIdentifierWords)
    (isOpened : Call.argument? dialect ⟨offset + 1, rest⟩ = some outer)
    (notClosed : closingParen? outer.rest = none) :
    ¬ IsOuterCall dialect (Scanner.atRest outerDepth) offset (Byte.dot :: rest) call := by
  rintro ⟨isCall, isOuter⟩
  rcases (isSupplierCall_iff identifiers).mp isCall with
    ⟨callDepth, opened, length, _, _, opens, closes, -⟩
  rcases Nat.eq_or_lt_of_le opens.le_start with atDot | behindDot
  · rw [← atDot] at opens
    rw [opens.eq_of_dot isOpened, notClosed] at closes
    cases closes
  · rcases isOuter offset outerDepth outer ⟨[], rest, rfl, rfl, rfl, isOpened⟩ behindDot with
      ⟨_, closesOuter, -⟩
    rw [notClosed] at closesOuter
    cases closesOuter

end

/-- No call begins in an empty text. -/
theorem not_isOuterCall_nil : ¬ IsOuterCall dialect scanner offset [] call := by
  rintro ⟨⟨before, lead, inside, after, _, _, _, same, -⟩, -⟩
  cases before <;> cases same

/-- The supplier calls that the walk gives are those that no argument call
encloses.  The induction is on the recursion of the walk, which is moved
behind every argument call that is closed. -/
theorem mem_supplierCallsFrom_iff (identifiers : dialect.HasIdentifierWords) :
    call ∈ supplierCallsFrom dialect scanner offset text ↔
      IsOuterCall dialect scanner offset text call := by
  fun_induction supplierCallsFrom dialect scanner offset text with
  | case1 => exact iff_of_false List.not_mem_nil not_isOuterCall_nil
  | case2 scanner offset byte rest next read ih =>
      rw [isOuterCall_cons_iff identifiers, read]
      · exact ih
      · rintro opened depth rfl rfl
        rw [Scanner.step_atRest_plain rfl] at read
        cases read
  | case3 scanner offset rest depth next notOpened read ih =>
      rw [isOuterCall_cons_iff identifiers, read]
      · exact ih
      · rintro opened depth - - isOpened
        rw [notOpened] at isOpened
        cases isOpened
  | case4 scanner offset rest depth next outer isOpened notClosed read =>
      rcases Scanner.eq_atRest_of_dot read with ⟨rfl, rfl⟩
      exact iff_of_false List.not_mem_nil
        (not_isOuterCall_of_notClosed identifiers isOpened notClosed)
  | case5 scanner offset rest depth next outer isOpened length closes stop later body extras
      content fragment read ih =>
      rcases Scanner.eq_atRest_of_dot read with ⟨rfl, rfl⟩
      rw [isOuterCall_at_call_iff identifiers isOpened closes, content, CallContent.supplierCalls,
        List.mem_singleton, List.mem_cons, ← ih]
  | case6 scanner offset rest depth next outer isOpened length closes stop later content read
      ih =>
      rcases Scanner.eq_atRest_of_dot read with ⟨rfl, rfl⟩
      rw [isOuterCall_at_call_iff identifiers isOpened closes, content, CallContent.supplierCalls,
        ← ih]
      exact (or_iff_right List.not_mem_nil).symm
  | case7 scanner offset byte rest depth next read notDot ih =>
      rw [isOuterCall_cons_iff identifiers, read]
      · exact ih
      · rintro opened depth isDot
        exact absurd isDot notDot

/-! ## The edits of a plan -/

/-- Whether the dot of a call stands outside all parentheses of a chain. -/
def IsUnnestedDot (chain : Bytes) (offset : Nat) : Prop :=
  ∃ point ∈ codeBytes chain, point.offset = offset ∧ point.byte = Byte.dot ∧ point.depth = 0

instance (chain : Bytes) (offset : Nat) : Decidable (IsUnnestedDot chain offset) :=
  inferInstanceAs (Decidable (∃ point ∈ codeBytes chain, _))

/-- Whether an argument call of a chain encloses what stands at an offset: it
begins in front of it and is not closed in front of it. -/
def IsInArgument (dialect : Dialect) (chain : Bytes) (bound : Nat) : Prop :=
  ∃ start depth opened, OpensArgument dialect .start 0 chain start depth opened ∧
    start < bound ∧ ¬ opened.ClosesBefore bound

theorem isOuter_iff_not_isInArgument {chain : Bytes} {bound : Nat} :
    IsOuter dialect .start 0 chain bound ↔ ¬ IsInArgument dialect chain bound := by
  constructor
  · rintro isOuter ⟨start, depth, opened, opens, inFront, notClosed⟩
    exact notClosed (isOuter start depth opened opens inFront)
  · intro notInside start depth opened opens inFront
    by_contra notClosed
    exact notInside ⟨start, depth, opened, opens, inFront, notClosed⟩

/-- A plan edits the supplier calls of its chain that stand in no argument
call, each of them once and in order.  So all edited calls stand outside of
the parentheses of the chain exactly when its other supplier calls stand in
argument calls. -/
theorem callEdits_are_outer (identifiers : dialect.HasIdentifierWords) (span : Span) :
    (forall edit, edit ∈ (Plan.ofSpan dialect span).callEdits ↔
      ∃ call, IsSupplierCall dialect .start 0 span.text call ∧
        ¬ IsInArgument dialect span.text call.extent.start ∧ edit = call.edit dialect) ∧
    Edit.inOrder span.text.length 0 (Plan.ofSpan dialect span).callEdits = true ∧
    ((∀ edit ∈ (Plan.ofSpan dialect span).callEdits, IsUnnestedDot span.text edit.extent.start) ↔
      forall call, IsSupplierCall dialect .start 0 span.text call ->
        ¬ IsUnnestedDot span.text call.extent.start ->
        IsInArgument dialect span.text call.extent.start) := by
  have edited : forall edit, edit ∈ (Plan.ofSpan dialect span).callEdits ↔
      ∃ call, IsSupplierCall dialect .start 0 span.text call ∧
        ¬ IsInArgument dialect span.text call.extent.start ∧ edit = call.edit dialect := by
    intro edit
    rw [Plan.callEdits_ofSpan, List.mem_map]
    simp only [supplierCalls, mem_supplierCallsFrom_iff identifiers, IsOuterCall,
      isOuter_iff_not_isInArgument, and_assoc, eq_comm]
  refine ⟨edited, ?_, ?_⟩
  · have ordered := inOrder_supplierCallsFrom dialect .start 0 span.text
    rw [Nat.zero_add] at ordered
    rw [Plan.callEdits_ofSpan]
    exact ordered
  · constructor
    · intro unnested call isCall isNested
      by_contra isOuter
      exact isNested (unnested _ ((edited _).mpr ⟨call, isCall, isOuter, rfl⟩))
    · intro enclosed edit member
      rcases (edited edit).mp member with ⟨call, isCall, isOuter, rfl⟩
      by_contra isNested
      exact isOuter (enclosed call isCall isNested)

def chainInSupplier : Span where
  start := 0
  text := Utf8.ofString ("log.atInfo().setMessage(\"\x7b\x7d\").addArgument(() -> \"a\" + " ++
    "f(() -> log.atInfo().setMessage(\"\x7b\x7d\").addArgument(() -> \"b\").log())).log()")
  receiver := "log"
  level := "Info"
  message := ⟨24, 28⟩

theorem callEdits_of_chainInSupplier :
    Dialect.HasIdentifierWords {} ∧
      (Plan.ofSpan {} chainInSupplier).callEdits.map (·.extent) = [⟨29, 122⟩] ∧
      (forall call, IsSupplierCall {} .start 0 chainInSupplier.text call ->
        ¬ IsUnnestedDot chainInSupplier.text call.extent.start ->
        IsInArgument {} chainInSupplier.text call.extent.start) :=
  ⟨Dialect.hasIdentifierWords_default, by decide +kernel,
    (callEdits_are_outer Dialect.hasIdentifierWords_default chainInSupplier).2.2.mp
      (by decide +kernel)⟩

/-- A chain with a supplier in the argument of a method that is none of its
own. -/
def builderArgument : String :=
  "log.atInfo().setMessage(\"\x7b\x7d\").addKeyValue(\"k\", b.addArgument(() -> \"v\" + v)).log();"

def builderArgumentInlined : String :=
  "log.atInfo().setMessage(\"v\x7b\x7d\").addKeyValue(\"k\", b.addArgument(v)).log();"

/-- The supplier call between the parentheses of the other method is inlined,
so a part of that method's argument becomes a part of the message. -/
theorem nestedArgument_inlined :
    (∃ span ∈ locate {} (Utf8.ofString builderArgument),
      ∃ edit ∈ (Plan.ofSpan {} span).callEdits,
        (∃ point ∈ codeBytes span.text, point.offset = edit.extent.start ∧ point.depth = 1) ∧
          ¬ IsUnnestedDot span.text edit.extent.start) ∧
      inlineChains {} (Utf8.ofString builderArgument) =
        .inlined (Utf8.ofString builderArgumentInlined) 1 := by
  decide +kernel

end FluentLog
