import FluentLog.Proofs.Chain.Frame
import FluentLog.Proofs.Chain.Nesting
import FluentLog.Proofs.Code.CodeBytes

namespace FluentLog

/-!
# The chains of a source text, by its code bytes

What a chain is can be said without a search.  A candidate begins at a code byte of the
source text, and the code bytes behind its initial call decide whether it is complete: a
message call has to come before anything that ends the expression, and a terminal call
behind it.  `locate` finds the complete candidates that begin in no chain found before.

This is so for a source text in which no quoted braces are broken over a line end.  Where
they are, the search jumps behind the message call, while the scan of the same bytes drops
the literal at the line end and takes the quote behind the braces for an opening one.
-/

variable {dialect : Dialect}

/-! ## Complete candidates -/

def messageAt? (dialect : Dialect) (source : Bytes) (point : CodeByte) : Option Call.Message :=
  if point.byte = Byte.dot then
    Call.message? dialect ⟨point.offset + 1, source.drop (point.offset + 1)⟩
  else none

/-- Where the terminal call ends whose dot a code byte is.  There is none at a
byte that is no dot. -/
def terminalAt? (dialect : Dialect) (source : Bytes) (point : CodeByte) : Option Nat :=
  if point.byte = Byte.dot then
    Call.terminal? dialect ⟨point.offset + 1, source.drop (point.offset + 1)⟩
  else none

/-- Whether an initial call begins at a code byte of a source text, on a word
boundary.  A candidate need not become a chain. -/
structure IsCandidate (dialect : Dialect) (source : Bytes) (start : Nat)
    (call : Call.Initial) : Prop where
  inCode : ∃ point ∈ codeBytes source, point.offset = start
  boundary : (source.take start).getLast?.any isIdentifierByte = false
  isCall : Call.initial? dialect ⟨start, source.drop start⟩ = some call

/-- The code bytes outside all parentheses that count for a candidate: those
behind its initial call, in front of the bound. -/
def decisivePoints (dialect : Dialect) (source : Bytes) (start : Nat) (call : Call.Initial) :
    List CodeByte :=
  (Scanner.start.codeBytes call.stop (source.drop call.stop)).filter fun point =>
    point.depth = 0 && point.offset < start + dialect.maxChainLength

/-- Whether the first terminal call among code bytes ends at an offset, with
nothing that ends the expression in front of it. -/
def EndsAt (dialect : Dialect) (source : Bytes) (points : List CodeByte) (stop : Nat) : Prop :=
  ∃ between terminal after, points = between ++ terminal :: after ∧
    (∀ point ∈ between, endsExpression point.byte = false ∧
      terminalAt? dialect source point = none) ∧
    terminalAt? dialect source terminal = some stop

/-- Whether code bytes complete a candidate: the first message call comes
before any terminal call and before anything that ends the expression, and
behind it the candidate ends at an offset. -/
def CompletesAt (dialect : Dialect) (source : Bytes) (points : List CodeByte)
    (message : Extent) (stop : Nat) : Prop :=
  ∃ before point call behind, points = before ++ point :: behind ∧
    (∀ point ∈ before, endsExpression point.byte = false ∧
      messageAt? dialect source point = none ∧ terminalAt? dialect source point = none) ∧
    messageAt? dialect source point = some call ∧ call.argument = message ∧
    EndsAt dialect source behind stop

def IsCompleteCandidate (dialect : Dialect) (source : Bytes) (span : Span) : Prop :=
  ∃ call, IsCandidate dialect source span.start call ∧
    CompletesAt dialect source (decisivePoints dialect source span.start call) span.message
      span.stop ∧
    span.text = (source.drop span.start).take (span.stop - span.start) ∧
    span.receiver = call.receiver ∧ span.level = call.level

/-! ## Code bytes one by one -/

section

variable {source : Bytes} {point : CodeByte} {points : List CodeByte} {stop : Nat}

theorem endsAt_cons :
    EndsAt dialect source (point :: points) stop ↔
      terminalAt? dialect source point = some stop ∨
        endsExpression point.byte = false ∧ terminalAt? dialect source point = none ∧
          EndsAt dialect source points stop := by
  constructor
  · rintro ⟨between, terminal, after, same, quiet, isTerminal⟩
    cases between with
    | nil =>
        cases same
        exact .inl isTerminal
    | cons first between =>
        rcases List.cons.inj same with ⟨rfl, rfl⟩
        rcases quiet point List.mem_cons_self with ⟨goesOn, notTerminal⟩
        exact .inr ⟨goesOn, notTerminal, between, terminal, after, rfl,
          fun other member => quiet other (List.mem_cons_of_mem point member), isTerminal⟩
  · rintro (isTerminal | ⟨goesOn, notTerminal, between, terminal, after, rfl, quiet, isTerminal⟩)
    · exact ⟨[], point, points, rfl, fun _ member => absurd member List.not_mem_nil, isTerminal⟩
    · exact ⟨point :: between, terminal, after, rfl,
        List.forall_mem_cons.mpr ⟨⟨goesOn, notTerminal⟩, quiet⟩, isTerminal⟩

theorem completesAt_cons {message : Extent} :
    CompletesAt dialect source (point :: points) message stop ↔
      (∃ call, messageAt? dialect source point = some call ∧ call.argument = message ∧
        EndsAt dialect source points stop) ∨
      (endsExpression point.byte = false ∧ messageAt? dialect source point = none ∧
        terminalAt? dialect source point = none) ∧
          CompletesAt dialect source points message stop := by
  constructor
  · rintro ⟨before, first, call, behind, same, quiet, isMessage, argument, ends⟩
    cases before with
    | nil =>
        cases same
        exact .inl ⟨call, isMessage, argument, ends⟩
    | cons other before =>
        rcases List.cons.inj same with ⟨rfl, rfl⟩
        exact .inr ⟨quiet point List.mem_cons_self, before, first, call, behind, rfl,
          fun other member => quiet other (List.mem_cons_of_mem point member), isMessage, argument,
          ends⟩
  · rintro (⟨call, isMessage, argument, ends⟩ |
      ⟨isQuiet, before, first, call, behind, rfl, quiet, isMessage, argument, ends⟩)
    · exact ⟨[], point, call, points, rfl, fun _ member => absurd member List.not_mem_nil,
        isMessage, argument, ends⟩
    · exact ⟨point :: before, first, call, behind, rfl, List.forall_mem_cons.mpr ⟨isQuiet, quiet⟩,
        isMessage, argument, ends⟩

end

/-- Whether code bytes bring a candidate from a stage to its end.  In front of
the message that takes the message call as well. -/
def Stage.CompletesAt (dialect : Dialect) (source : Bytes) (points : List CodeByte)
    (message : Extent) (stop : Nat) : Stage -> Prop
  | .beforeMessage => FluentLog.CompletesAt dialect source points message stop
  | .afterMessage found => found = message ∧ EndsAt dialect source points stop

/-- A code byte at which no call begins that the stage looks for, and that
does not end the expression, means nothing to the search. -/
theorem Stage.completesAt_cons_of_passes {source : Bytes} {point : CodeByte}
    {points : List CodeByte} {message : Extent} {stop : Nat} (stage : Stage)
    (goesOn : endsExpression point.byte = false)
    (noMessage : stage = .beforeMessage -> messageAt? dialect source point = none)
    (noTerminal : terminalAt? dialect source point = none) :
    stage.CompletesAt dialect source (point :: points) message stop ↔
      stage.CompletesAt dialect source points message stop := by
  cases stage with
  | beforeMessage =>
      unfold Stage.CompletesAt
      rw [completesAt_cons, noMessage rfl, noTerminal]
      simp [goesOn]
  | afterMessage found =>
      unfold Stage.CompletesAt
      rw [endsAt_cons, noTerminal]
      simp [goesOn]

theorem Stage.completesAt_cons_of_quiet {source : Bytes} {point : CodeByte}
    {points : List CodeByte} {message : Extent} {stop : Nat}
    (goesOn : endsExpression point.byte = false) (notDot : point.byte ≠ Byte.dot)
    (stage : Stage) :
    stage.CompletesAt dialect source (point :: points) message stop ↔
      stage.CompletesAt dialect source points message stop :=
  stage.completesAt_cons_of_passes goesOn (fun _ => if_neg notDot) (if_neg notDot)

/-- The code bytes outside all parentheses in a text at an offset, in front of
a bound. -/
def pointsWithin (limit : Nat) (scanner : Scanner) (offset : Nat) (text : Bytes) :
    List CodeByte :=
  (scanner.codeBytes offset text).filter fun point => point.depth = 0 && point.offset < limit

section

variable {limit offset : Nat} {scanner : Scanner} {byte : UInt8} {rest : Bytes}

theorem pointsWithin_of_le (beyond : limit ≤ offset) (text : Bytes) :
    pointsWithin limit scanner offset text = [] := by
  rw [pointsWithin, List.filter_eq_nil_iff]
  intro point member
  have behind := Scanner.le_of_mem_codeBytes member
  simp only [Bool.and_eq_true, decide_eq_true_eq]
  omega

theorem pointsWithin_cons_of_ne (notOutside : (scanner.step byte rest.head?).1 ≠ some 0) :
    pointsWithin limit scanner offset (byte :: rest) =
      pointsWithin limit (scanner.step byte rest.head?).2 (offset + 1) rest := by
  unfold pointsWithin
  rw [Scanner.codeBytes_cons, List.filter_append]
  cases reported : (scanner.step byte rest.head?).1 with
  | none => rfl
  | some depth =>
      have deeper : depth ≠ 0 := by
        rintro rfl
        exact notOutside reported
      simp [deeper]

theorem pointsWithin_cons (within : offset < limit)
    (outside : (scanner.step byte rest.head?).1 = some 0) :
    pointsWithin limit scanner offset (byte :: rest) =
      ⟨offset, byte, 0⟩ ::
        pointsWithin limit (scanner.step byte rest.head?).2 (offset + 1) rest := by
  unfold pointsWithin
  rw [Scanner.codeBytes_cons, List.filter_append, outside]
  simp [within]

end

/-- A stretch that is silent means nothing to the search. -/
theorem Stage.completesAt_append_of_silent {source : Bytes} {limit offset : Nat}
    {scanner : Scanner} {stretch rest : Bytes} {message : Extent} {stop : Nat}
    (silent : scanner.Silent rest.head? stretch) (stage : Stage) :
    stage.CompletesAt dialect source (pointsWithin limit scanner offset (stretch ++ rest)) message
        stop ↔
      stage.CompletesAt dialect source
        (pointsWithin limit (scanner.run rest.head? stretch) (offset + stretch.length) rest) message
        stop := by
  induction stretch generalizing scanner offset with
  | nil => exact Iff.rfl
  | cons byte stretch ih =>
      have quiet := silent.1
      have later := @ih (offset + 1) _ silent.2
      have sameOffset : offset + (byte :: stretch).length = offset + 1 + stretch.length := by
        rw [List.length_cons]
        omega
      rw [← List.head?_append] at quiet later
      rw [sameOffset, Scanner.run_cons, ← List.head?_append, ← later, List.cons_append]
      by_cases within : offset < limit
      · by_cases outside : (scanner.step byte (stretch ++ rest).head?).1 = some 0
        · rcases quiet outside with ⟨goesOn, notDot⟩
          rw [pointsWithin_cons within outside]
          exact stage.completesAt_cons_of_quiet goesOn notDot
        · rw [pointsWithin_cons_of_ne outside]
      · rw [pointsWithin_of_le (Nat.le_of_not_lt within), pointsWithin_of_le (by omega)]

/-- Without code bytes no candidate is completed. -/
theorem Stage.not_completesAt_nil {source : Bytes} {message : Extent} {stop : Nat}
    (stage : Stage) : ¬ stage.CompletesAt dialect source [] message stop := by
  cases stage with
  | beforeMessage =>
      rintro ⟨before, point, call, behind, isEmpty, -⟩
      exact absurd isEmpty.symm (by simp)
  | afterMessage found =>
      rintro ⟨-, between, terminal, after, isEmpty, -⟩
      exact absurd isEmpty.symm (by simp)

theorem drop_succ_of_cons {source rest : Bytes} {offset : Nat} {byte : UInt8}
    (atOffset : source.drop offset = byte :: rest) : source.drop (offset + 1) = rest := by
  rw [← List.drop_drop, atOffset]
  rfl

section

variable {source rest : Bytes} {offset : Nat}

theorem messageAt?_dot (atOffset : source.drop offset = Byte.dot :: rest) :
    messageAt? dialect source ⟨offset, Byte.dot, 0⟩ =
      Call.message? dialect ⟨offset + 1, rest⟩ := by
  rw [messageAt?, if_pos rfl, drop_succ_of_cons atOffset]

theorem terminalAt?_dot (atOffset : source.drop offset = Byte.dot :: rest) :
    terminalAt? dialect source ⟨offset, Byte.dot, 0⟩ =
      Call.terminal? dialect ⟨offset + 1, rest⟩ := by
  rw [terminalAt?, if_pos rfl, drop_succ_of_cons atOffset]

end

section

variable {source rest : Bytes} {limit offset stop : Nat} {message : Extent} {byte : UInt8}

theorem Stage.not_completesAt_cons_of_ends (ends : endsExpression byte = true)
    (points : List CodeByte) (stage : Stage) :
    ¬ stage.CompletesAt dialect source (⟨offset, byte, 0⟩ :: points) message stop := by
  have notDot : byte ≠ Byte.dot := by
    rintro rfl
    cases ends
  have noMessage : messageAt? dialect source ⟨offset, byte, 0⟩ = none := if_neg notDot
  have noTerminal : terminalAt? dialect source ⟨offset, byte, 0⟩ = none := if_neg notDot
  cases stage <;> simp [Stage.CompletesAt, completesAt_cons, endsAt_cons, noMessage,
    noTerminal, ends]

/-- A message call is silent behind its dot, so the code bytes behind it
decide. -/
theorem Stage.completesAt_behind_message (identifiers : dialect.HasIdentifierWords)
    (within : offset < limit) (atOffset : source.drop offset = Byte.dot :: rest)
    {call : Call.Message} (isMessage : Call.message? dialect ⟨offset + 1, rest⟩ = some call)
    (unbroken : HasUnbrokenBraces rest) :
    ∃ after, rest.drop (call.stop - (offset + 1)) = after ∧ source.drop call.stop = after ∧
      HasUnbrokenBraces after ∧
      (Stage.beforeMessage.CompletesAt dialect source
          (pointsWithin limit (Scanner.atRest 0) offset (Byte.dot :: rest)) message stop ↔
        (Stage.afterMessage call.argument).CompletesAt dialect source
          (pointsWithin limit (Scanner.atRest 0) call.stop after) message stop) := by
  rcases Call.message?_passes identifiers isMessage unbroken with
    ⟨stretch, after, rfl, atStop, dropped, passes⟩
  have atAfter : source.drop call.stop = after := by
    rw [atStop, ← List.drop_drop, drop_succ_of_cons atOffset]
    exact List.drop_left
  have jumped := @Stage.completesAt_append_of_silent dialect source limit (offset + 1)
    (Scanner.atRest 0) stretch after message stop (passes after.head?).1
    (.afterMessage call.argument)
  rw [(passes after.head?).2, ← atStop] at jumped
  rw [← messageAt?_dot atOffset] at isMessage
  have read : ((Scanner.atRest 0).step Byte.dot (stretch ++ after).head?).2 =
      Scanner.atRest 0 := rfl
  refine ⟨after, dropped, atAfter, unbroken.of_append_right, ?_⟩
  rw [pointsWithin_cons within rfl, read, ← jumped]
  simp [Stage.CompletesAt, completesAt_cons, isMessage]

/-- Where the search goes on behind a byte, the byte decides nothing. -/
theorem Stage.completesAt_onward {scanner : Scanner} {stage : Stage}
    (atOffset : source.drop offset = byte :: rest)
    (within : ¬ (scanner.region = .code ∧ limit ≤ offset))
    (quiet : (scanner.step byte rest.head?).1 = some 0 ->
      endsExpression byte = false ∧
        (byte = Byte.dot -> stage.PassesDot dialect ⟨offset + 1, rest⟩)) :
    stage.CompletesAt dialect source (pointsWithin limit scanner offset (byte :: rest)) message
        stop ↔
      stage.CompletesAt dialect source
        (pointsWithin limit (scanner.step byte rest.head?).2 (offset + 1) rest) message stop := by
  by_cases outside : (scanner.step byte rest.head?).1 = some 0
  · rw [pointsWithin_cons (lt_of_step within outside) outside]
    rcases quiet outside with ⟨goesOn, passes⟩
    by_cases isDot : byte = Byte.dot
    · subst isDot
      refine stage.completesAt_cons_of_passes goesOn ?_ ?_
      · rintro rfl
        exact (messageAt?_dot atOffset).trans (passes rfl).1
      · exact (terminalAt?_dot atOffset).trans (passes rfl).terminal?_eq_none
    · exact stage.completesAt_cons_of_quiet goesOn isDot
  · rw [pointsWithin_cons_of_ne outside]

end

/-- The search for the rest of a chain finds what the code bytes complete.
The proof follows the ways of the search: at each step either the first code
byte decides, or it means nothing and the others do. -/
theorem Completes.eq_found_iff (identifiers : dialect.HasIdentifierWords) {source : Bytes}
    {limit offset : Nat} {stage : Stage} {scanner : Scanner} {text : Bytes}
    {completion : Completion} {message : Extent} {stop : Nat}
    (completes : Completes dialect limit stage scanner offset text completion)
    (atOffset : source.drop offset = text) (unbroken : HasUnbrokenBraces text) :
    completion = .found message stop ↔
      stage.CompletesAt dialect source (pointsWithin limit scanner offset text) message stop := by
  induction completes with
  | ended stage scanner offset =>
      exact iff_of_false (by rintro ⟨⟩) stage.not_completesAt_nil
  | @reached stage scanner offset byte rest atBound =>
      rw [pointsWithin_of_le atBound.2]
      exact iff_of_false (by rintro ⟨⟩) stage.not_completesAt_nil
  | @dropped stage offset byte rest within ends =>
      rw [pointsWithin_cons within (step_atRest_ends ends 0 _)]
      exact iff_of_false (by rintro ⟨⟩) (stage.not_completesAt_cons_of_ends ends _)
  | early within noMessage isTerminal =>
      rw [pointsWithin_cons within rfl]
      rw [← messageAt?_dot atOffset] at noMessage
      rw [← terminalAt?_dot atOffset] at isTerminal
      simp [Stage.CompletesAt, completesAt_cons, noMessage, isTerminal]
  | terminal within isTerminal =>
      rw [pointsWithin_cons within rfl]
      rw [← terminalAt?_dot atOffset] at isTerminal
      simp [Stage.CompletesAt, endsAt_cons, isTerminal]
  | message within isMessage behind ih =>
      rcases Stage.completesAt_behind_message identifiers within atOffset isMessage unbroken.tail
        with ⟨after, dropped, atAfter, unbrokenAfter, jumped⟩
      rw [dropped] at ih
      exact (ih atAfter unbrokenAfter).trans jumped.symm
  | onward within quiet behind ih =>
      apply (ih (drop_succ_of_cons atOffset) unbroken.tail).trans
      exact (Stage.completesAt_onward atOffset within quiet).symm

/-! ## The pass over a source text -/

/-- Whether a chain begins somewhere in a text, where a scan of the text is at
rest. -/
def BeginsIn (dialect : Dialect) (scanner : Scanner) (before : Option UInt8) (offset : Nat)
    (text : Bytes) (span : Span) : Prop :=
  ∃ front behind, text = front ++ behind ∧
    Scanner.Agree (scanner.run behind.head? front) .start ∧
    chainAt? dialect (front.getLast?.or before) ⟨offset + front.length, behind⟩ = some span

section

variable {scanner : Scanner} {before : Option UInt8} {offset : Nat} {text : Bytes} {span : Span}

/-- No chain begins in an empty text. -/
theorem not_beginsIn_nil (identifiers : dialect.HasIdentifierWords) :
    ¬ BeginsIn dialect scanner before offset [] span := by
  rintro ⟨front, behind, isEmpty, -, isChain⟩
  rw [(List.append_eq_nil_iff.mp isEmpty.symm).2, chainAt?_nil identifiers] at isChain
  cases isChain

theorem beginsIn_of_chainAt? (outside : Scanner.Agree scanner .start)
    (isChain : chainAt? dialect before ⟨offset, text⟩ = some span) :
    BeginsIn dialect scanner before offset text span :=
  ⟨[], text, rfl, outside, isChain⟩

theorem BeginsIn.chainAt?_of_le
    (begins : BeginsIn dialect scanner before offset text span) (atFirst : span.start ≤ offset) :
    chainAt? dialect before ⟨offset, text⟩ = some span := by
  rcases begins with ⟨front, behind, rfl, -, isChain⟩
  have atStart := start_of_chainAt? isChain
  have noFront : front = [] := List.eq_nil_of_length_eq_zero (by omega)
  subst noFront
  exact isChain

theorem beginsIn_cons_iff {byte : UInt8} {rest : Bytes}
    (noChain : Scanner.Agree scanner .start ->
      chainAt? dialect before ⟨offset, byte :: rest⟩ = none) :
    BeginsIn dialect scanner before offset (byte :: rest) span ↔
      BeginsIn dialect (scanner.step byte rest.head?).2 (some byte) (offset + 1) rest span := by
  have sameOffset : forall front : Bytes,
      offset + (byte :: front).length = offset + 1 + front.length := by
    intro front
    rw [List.length_cons]
    omega
  constructor
  · rintro ⟨front, behind, same, agree, begins⟩
    cases front with
    | nil =>
        rw [List.nil_append] at same
        rw [List.length_nil, List.getLast?_nil, Option.none_or, ← same, Nat.add_zero,
          noChain agree] at begins
        cases begins
    | cons first front =>
        rcases List.cons.inj same with ⟨rfl, rfl⟩
        rw [getLast?_cons_or, sameOffset] at begins
        rw [Scanner.run_cons, ← List.head?_append] at agree
        exact ⟨front, behind, rfl, agree, begins⟩
  · rintro ⟨front, behind, rfl, agree, begins⟩
    refine ⟨byte :: front, behind, rfl, ?_, ?_⟩
    · rw [Scanner.run_cons, ← List.head?_append]
      exact agree
    · rw [getLast?_cons_or, sameOffset]
      exact begins

/-- A chain that begins behind a stretch which leaves the scan outside of
everything is one for a scan that starts there. -/
theorem beginsIn_append_iff {stretch : Bytes} {last : UInt8}
    (isLast : stretch.getLast? = some last)
    (passed : forall ahead, Scanner.Agree (scanner.run ahead stretch) .start)
    (isBehind : offset + stretch.length ≤ span.start) :
    BeginsIn dialect scanner before offset (stretch ++ text) span ↔
      BeginsIn dialect .start (some last) (offset + stretch.length) text span := by
  have sameOffset : forall front : Bytes,
      offset + (stretch ++ front).length = offset + stretch.length + front.length := by
    intro front
    rw [List.length_append, Nat.add_assoc]
  have sameBefore : forall front : Bytes,
      (stretch ++ front).getLast?.or before = front.getLast?.or (some last) := by
    intro front
    rw [List.getLast?_append, isLast, Option.or_assoc, Option.some_or]
  have sameScan : forall front behind : Bytes,
      Scanner.Agree (scanner.run behind.head? (stretch ++ front))
        (Scanner.start.run behind.head? front) := by
    intro front behind
    rw [Scanner.run_append]
    exact (passed _).run behind.head? front
  constructor
  · rintro ⟨front, behind, same, agree, begins⟩
    have atStart := start_of_chainAt? begins
    have reaches : stretch.length ≤ front.length := by omega
    have fromStart : stretch <+: front ++ behind := same ▸ List.prefix_append stretch text
    rcases List.prefix_of_prefix_length_le fromStart (List.prefix_append front behind) reaches with
      ⟨others, rfl⟩
    rw [List.append_assoc] at same
    rw [sameBefore, sameOffset] at begins
    exact ⟨others, behind, List.append_cancel_left same, (sameScan others behind).symm.trans agree,
      begins⟩
  · rintro ⟨front, behind, rfl, agree, begins⟩
    rw [← sameBefore, ← sameOffset] at begins
    exact ⟨stretch ++ front, behind, (List.append_assoc _ _ _).symm,
      (sameScan front behind).trans agree, begins⟩

end

namespace Locates

variable {scanner : Scanner} {before : Option UInt8} {offset : Nat} {text : Bytes}
  {spans : List Span}

/-- Each chain that is found begins behind the ones before it. -/
theorem inOrder (located : Locates dialect scanner before offset text spans) :
    (∀ span ∈ spans, offset ≤ span.start) ∧
      spans.Pairwise fun earlier later => earlier.stop ≤ later.start := by
  induction located with
  | done => exact ⟨fun _ member => absurd member List.not_mem_nil, .nil⟩
  | @chain scanner before offset rest span spans outside isChain behind ih =>
      have atStart := start_of_chainAt? isChain
      constructor
      · rw [List.forall_mem_cons]
        refine ⟨Nat.le_of_eq atStart.symm, ?_⟩
        intro later member
        have isBehind := ih.1 later member
        rw [Span.stop, atStart] at isBehind
        omega
      · exact List.pairwise_cons.mpr ih
  | byte noChain behind ih =>
      exact ⟨fun span member => Nat.le_of_succ_le (ih.1 span member), ih.2⟩

/-- The pass finds the chains that begin in no chain found before. -/
theorem mem_iff (identifiers : dialect.HasIdentifierWords)
    (located : Locates dialect scanner before offset text spans)
    (unbroken : HasUnbrokenBraces text) (span : Span) :
    span ∈ spans ↔ BeginsIn dialect scanner before offset text span ∧
      ∀ earlier ∈ spans, earlier.start < span.start -> earlier.stop ≤ span.start := by
  induction located with
  | done scanner before offset =>
      constructor
      · exact fun member => absurd member List.not_mem_nil
      · exact fun begins => absurd begins.1 (not_beginsIn_nil identifiers)
  | @chain scanner before offset rest first spans outside isChain located ih =>
      rcases isChain_of_chainAt? identifiers isChain unbroken with ⟨-, atStart, asText, -⟩
      have later := (located.inOrder).1
      have atStop : first.stop = offset + first.text.length := by rw [Span.stop, atStart]
      have passed : forall ahead, Scanner.Agree (scanner.run ahead first.text) .start := by
        intro ahead
        have atRest := outside.run ahead first.text
        rw [Scanner.start_eq_atRest, asText.run identifiers 0 ahead] at atRest
        exact atRest
      have behindFirst : first.stop ≤ span.start ->
          (BeginsIn dialect scanner before offset (first.text ++ rest) span ↔
            BeginsIn dialect .start (some Byte.closeParen) first.stop rest span) := by
        intro isBehind
        rw [atStop] at isBehind ⊢
        exact beginsIn_append_iff asText.getLast?_eq passed isBehind
      rw [List.mem_cons, List.forall_mem_cons]
      constructor
      · rintro (rfl | inSpans)
        · refine ⟨beginsIn_of_chainAt? outside isChain,
            fun isEarlier => absurd isEarlier (Nat.lt_irrefl _), ?_⟩
          intro other inSpans isEarlier
          have isBehind := later other inSpans
          omega
        · rcases (ih unbroken.of_append_right).mp inSpans with ⟨begins, notInside⟩
          have isBehind := later span inSpans
          exact ⟨(behindFirst isBehind).mpr begins, fun _ => isBehind, notInside⟩
      · rintro ⟨begins, afterFirst, notInside⟩
        by_cases isLater : first.start < span.start
        · right
          have isBehind := afterFirst isLater
          exact (ih unbroken.of_append_right).mpr ⟨(behindFirst isBehind).mp begins, notInside⟩
        · left
          have isFirst := begins.chainAt?_of_le (by omega)
          exact Option.some.inj (isFirst.symm.trans isChain)
  | byte noChain located ih => rw [ih unbroken.tail, beginsIn_cons_iff noChain]

end Locates

/-- A chain at a place, by the answers of the search. -/
theorem chainAt?_eq_some_iff (identifiers : dialect.HasIdentifierWords) {before : Option UInt8}
    {offset : Nat} {text : Bytes} {span : Span} :
    chainAt? dialect before ⟨offset, text⟩ = some span ↔
      before.any isIdentifierByte = false ∧ ∃ call,
        Call.initial? dialect ⟨offset, text⟩ = some call ∧
        complete dialect (offset + dialect.maxChainLength) .beforeMessage .start call.stop
          (text.drop (call.stop - offset)) = .found span.message span.stop ∧
        span.start = offset ∧ span.text = text.take (span.stop - offset) ∧
        span.receiver = call.receiver ∧ span.level = call.level := by
  rw [chainAt?_eq_some_iff_complete]
  apply and_congr_right
  intro _
  constructor
  · rintro ⟨call, message, stop, isCall, isFound, isSpan⟩
    rcases Call.initial?_spec identifiers isCall with ⟨initial, behind, -, isText, atStop⟩
    simp only at isText atStop isFound isSpan
    have isBehind : text.drop (call.stop - offset) = behind := by
      rw [isText]
      exact List.drop_left' (by omega)
    rcases exists_of_complete_found identifiers isFound with ⟨used, others, isUsed, atEnd⟩
    have stopsAt : span.stop = stop := by
      have length := congrArg List.length (isText.trans (congrArg (initial ++ ·)
        (isBehind.symm.trans isUsed)))
      simp only [List.length_append] at length
      rw [isSpan, Span.stop]
      simp only [List.length_take]
      omega
    rw [stopsAt, isSpan]
    exact ⟨call, isCall, isFound, rfl, rfl, rfl, rfl⟩
  · rintro ⟨call, isCall, isFound, rfl, isText, receiver, level⟩
    refine ⟨call, span.message, span.stop, isCall, isFound, ?_⟩
    simp only
    rw [← isText, ← receiver, ← level]

/-- A candidate begins where a scan of the source text is outside of
everything. -/
theorem isCandidate_iff (identifiers : dialect.HasIdentifierWords) {source : Bytes} {start : Nat}
    {call : Call.Initial} :
    IsCandidate dialect source start call ↔
      ∃ front behind, source = front ++ behind ∧ start = front.length ∧
        Scanner.Agree (Scanner.start.run behind.head? front) .start ∧
        front.getLast?.any isIdentifierByte = false ∧
        Call.initial? dialect ⟨start, behind⟩ = some call := by
  constructor
  · rintro ⟨⟨point, inCode, atOffset⟩, boundary, isCall⟩
    rcases Scanner.mem_codeBytes_iff.mp inCode with ⟨front, rest, rfl, isOffset, reported⟩
    have atStart : start = front.length := by omega
    rw [List.take_left' atStart.symm] at boundary
    rw [List.drop_left' atStart.symm] at isCall
    refine ⟨front, point.byte :: rest, rfl, atStart, ?_, boundary, isCall⟩
    rw [List.head?_cons, Scanner.eq_atRest_of_step reported]
    exact Scanner.agree_atRest point.depth 0
  · rintro ⟨front, behind, rfl, atStart, agree, boundary, isCall⟩
    have taken : (front ++ behind).take start = front := List.take_left' atStart.symm
    have dropped : (front ++ behind).drop start = behind := List.drop_left' atStart.symm
    refine ⟨?_, by rw [taken, boundary], by rw [dropped, isCall]⟩
    rcases Call.initial?_spec identifiers isCall with ⟨initial, after, isInitial, same, -⟩
    simp only at same
    rcases StartsInitial.exists_dot identifiers ⟨initial, after, isInitial, same⟩ with
      ⟨first, word, blanks, others, all, -, isBehind⟩
    have identifier := all first List.mem_cons_self
    have notLineFeed : first ≠ Byte.lineFeed := by
      rintro rfl
      exact absurd identifier (by decide)
    have isHead : behind.head? = some first := by
      rw [isBehind]
      rfl
    rw [isHead] at agree
    have atRest := @Scanner.Agree.eq_atRest _ 0 agree
    refine ⟨⟨start, first, (Scanner.start.run (some first) front).cursor.depth⟩,
      Scanner.mem_codeBytes_iff.mpr ⟨front, word ++ (blanks ++ Byte.dot :: others), ?_, ?_, ?_⟩,
      rfl⟩
    · rw [isBehind, List.cons_append]
    · rw [atStart, Nat.zero_add]
    · simp only
      rw [atRest, Scanner.step_atRest_plain
        (Scanner.isPlainByte_of_isIdentifierByte identifier), if_neg notLineFeed]
      rfl

/-- The search behind an initial call finds what its decisive code bytes
complete. -/
theorem complete_initial_iff (identifiers : dialect.HasIdentifierWords) {source : Bytes}
    (unbroken : HasUnbrokenBraces source) {start : Nat} {call : Call.Initial}
    (isCall : Call.initial? dialect ⟨start, source.drop start⟩ = some call) (message : Extent)
    (stop : Nat) :
    complete dialect (start + dialect.maxChainLength) .beforeMessage .start call.stop
        ((source.drop start).drop (call.stop - start)) = .found message stop ↔
      CompletesAt dialect source (decisivePoints dialect source start call) message stop := by
  rcases Call.initial?_spec identifiers isCall with ⟨initial, behind, -, -, atStop⟩
  have isDropped : (source.drop start).drop (call.stop - start) = source.drop call.stop := by
    rw [List.drop_drop, atStop]
    congr 1
    simp only
    omega
  rw [isDropped]
  rw [← List.take_append_drop call.stop source] at unbroken
  exact (completes_complete ..).eq_found_iff identifiers rfl unbroken.of_append_right

theorem beginsIn_iff_isCompleteCandidate (identifiers : dialect.HasIdentifierWords)
    {source : Bytes} (unbroken : HasUnbrokenBraces source) (span : Span) :
    BeginsIn dialect .start none 0 source span ↔ IsCompleteCandidate dialect source span := by
  constructor
  · rintro ⟨front, behind, rfl, agree, isChain⟩
    rw [Nat.zero_add, Option.or_none, chainAt?_eq_some_iff identifiers] at isChain
    rcases isChain with ⟨boundary, call, isCall, isFound, atStart, isText, sameWords⟩
    rw [← atStart] at isCall isFound isText
    have candidate : IsCandidate dialect (front ++ behind) span.start call :=
      (isCandidate_iff identifiers).mpr
        ⟨front, behind, rfl, atStart, agree, boundary, isCall⟩
    have dropped : (front ++ behind).drop span.start = behind := List.drop_left' atStart.symm
    have completed := complete_initial_iff identifiers unbroken candidate.isCall span.message
      span.stop
    rw [dropped] at completed
    exact ⟨call, candidate, completed.mp isFound, by rw [dropped, isText], sameWords⟩
  · rintro ⟨call, candidate, isComplete, isText, sameWords⟩
    have isFound := (complete_initial_iff identifiers unbroken candidate.isCall _ _).mpr isComplete
    rcases (isCandidate_iff identifiers).mp candidate with
      ⟨front, behind, rfl, atStart, agree, boundary, isCall⟩
    rw [List.drop_left' atStart.symm] at isFound isText
    refine ⟨front, behind, rfl, agree, ?_⟩
    rw [Nat.zero_add, Option.or_none, chainAt?_eq_some_iff identifiers, ← atStart]
    exact ⟨boundary, call, isCall, isFound, rfl, isText, sameWords⟩

/-- Whether spans are the chains of a source text: its complete candidates
that begin in no chain in front of them, in order and apart from each other,
each with its message inside.  No mention is made of how they are found. -/
structure AreChains (dialect : Dialect) (source : Bytes) (spans : List Span) : Prop where
  complete : forall span, span ∈ spans ↔ IsCompleteCandidate dialect source span ∧
    ∀ earlier ∈ spans, earlier.start < span.start -> earlier.stop ≤ span.start
  apart : spans.Pairwise fun earlier later => earlier.stop ≤ later.start
  inside : ∀ span ∈ spans, span.start < span.message.start ∧
    span.message.start < span.message.stop ∧ span.message.stop < span.stop
  sliced : ∀ span ∈ spans, span.text = (source.drop span.start).take (span.stop - span.start)

namespace AreChains

variable {source : Bytes} {spans others : List Span}

theorem ordered (chains : AreChains dialect source spans) :
    spans.Pairwise fun earlier later => earlier.start < later.start := by
  refine chains.apart.imp_of_mem ?_
  intro earlier later member _ apart
  have inside := chains.inside earlier member
  omega

theorem nodup (chains : AreChains dialect source spans) : spans.Nodup := by
  refine chains.ordered.imp ?_
  rintro earlier later before rfl
  exact absurd before (Nat.lt_irrefl _)

theorem mem_iff_mem (chains : AreChains dialect source spans)
    (second : AreChains dialect source others) (span : Span) : span ∈ spans ↔ span ∈ others := by
  induction h : span.start using Nat.strong_induction_on generalizing span with
  | _ start ih =>
    rw [chains.complete, second.complete]
    apply and_congr_right
    intro _
    constructor
    · intro notInside earlier member isEarlier
      exact notInside earlier ((ih earlier.start (h ▸ isEarlier) earlier rfl).mpr member) isEarlier
    · intro notInside earlier member isEarlier
      exact notInside earlier ((ih earlier.start (h ▸ isEarlier) earlier rfl).mp member) isEarlier

theorem unique (chains : AreChains dialect source spans)
    (second : AreChains dialect source others) : spans = others := by
  have perm : spans.Perm others :=
    (List.perm_ext_iff_of_nodup chains.nodup second.nodup).mpr (chains.mem_iff_mem second)
  refine perm.eq_of_pairwise ?_ chains.ordered second.ordered
  intro earlier later _ _ before behind
  omega

end AreChains

/-- What is located are the chains of the source text, if no quoted braces are
broken over a line end.  Otherwise the pass, which jumps behind a message
call, and a scan of the whole text may disagree on what is code. -/
theorem areChains_locate (identifiers : dialect.HasIdentifierWords) {source : Bytes}
    (unbroken : HasUnbrokenBraces source) :
    AreChains dialect source (locate dialect source) := by
  have located := locates_locate identifiers source
  have complete : forall span, span ∈ locate dialect source ↔
      IsCompleteCandidate dialect source span ∧
        ∀ earlier ∈ locate dialect source, earlier.start < span.start ->
          earlier.stop ≤ span.start := by
    intro span
    rw [← beginsIn_iff_isCompleteCandidate identifiers unbroken]
    exact located.mem_iff identifiers unbroken span
  refine ⟨complete, (located.inOrder).2, ?_, ?_⟩
  · intro span member
    rcases located.exists_chainAt? span member with ⟨before, offset, text, isChain⟩
    rcases exists_messageCall identifiers isChain with
      ⟨front, lead, argument, after, isText, -, bare, -, -, message⟩
    have positive := bare.length_pos
    have length := congrArg List.length isText
    simp only [List.length_append, List.length_cons] at length
    rw [message, Span.stop]
    simp only
    omega
  · intro span member
    rcases ((complete span).mp member).1 with ⟨call, -, -, sliced, -⟩
    exact sliced

/-- Two chains with a candidate between them that has no message, and a third
chain in an argument of the first one. -/
def chainInArgument : String :=
  "log.atInfo().setMessage(\"\x7b\x7d\").addArgument(f(() -> logger.atWarn()" ++
    ".setMessage(\"\x7b\x7d\").log())).log(); log.atInfo().log(); " ++
    "LOGGER.atWarn().setMessage(\"\x7b\x7d\").log();"

theorem areChains_chainInArgument :
    Dialect.HasIdentifierWords {} ∧ HasUnbrokenBraces (Utf8.ofString chainInArgument) ∧
      (locate {} (Utf8.ofString chainInArgument)).map Span.receiver = ["log", "LOGGER"] ∧
      AreChains {} (Utf8.ofString chainInArgument) (locate {} (Utf8.ofString chainInArgument)) :=
  have unbroken : HasUnbrokenBraces (Utf8.ofString chainInArgument) :=
    hasUnbrokenBraces_of_not_mem (by decide +kernel)
  ⟨Dialect.hasIdentifierWords_default, unbroken, by decide +kernel,
    areChains_locate Dialect.hasIdentifierWords_default unbroken⟩

/-- A chain whose braces stand on the next line of their literal, in front of
another one. -/
def brokenBraces : String :=
  "log.atInfo().setMessage(\"\n\x7b\x7d\").log(); log.atInfo().setMessage(\"\x7b\x7d\").log();"

/-- To a scan of the whole text the quote behind broken braces opens a
literal, so what follows on its line is no code.  Still a chain is located
there. -/
theorem not_areChains_brokenBraces :
    (locate {} (Utf8.ofString brokenBraces)).map Span.start = [0, 38] ∧
      (∀ point ∈ codeBytes (Utf8.ofString brokenBraces), point.offset ≠ 38) ∧
      ¬ AreChains {} (Utf8.ofString brokenBraces) (locate {} (Utf8.ofString brokenBraces)) := by
  have found : (locate {} (Utf8.ofString brokenBraces)).map Span.start = [0, 38] := by
    decide +kernel
  have noCode : ∀ point ∈ codeBytes (Utf8.ofString brokenBraces), point.offset ≠ 38 := by
    decide +kernel
  refine ⟨found, noCode, ?_⟩
  intro chains
  have isStart : 38 ∈ (locate {} (Utf8.ofString brokenBraces)).map Span.start := by
    rw [found]
    exact List.mem_cons_of_mem 0 List.mem_cons_self
  rcases List.mem_map.mp isStart with ⟨span, member, atStart⟩
  rcases ((chains.complete span).mp member).1 with ⟨call, ⟨⟨point, inCode, atOffset⟩, -, -⟩, -⟩
  exact noCode point inCode (atOffset.trans atStart)

end FluentLog
