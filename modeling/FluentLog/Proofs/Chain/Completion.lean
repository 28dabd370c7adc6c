import FluentLog.Chain.Span
import FluentLog.Proofs.Chain.CallBytes

namespace FluentLog

/-!
# Where the rest of a chain ends

`complete` walks from behind the initial call of a candidate to its message call and
on to its terminal call.  `Completes` lists what can happen on the way, one byte or one
message call at a time, and it is here alone that the search is unfolded.

The theorems behind it read the answer `found` back into the bytes of the text: in front
of either call the scanner is at rest outside all parentheses, and no parenthesis was
closed on the way that was not opened there.
-/

variable {dialect : Dialect}

/-! ## What the search meets -/

theorem step_atRest_ends {byte : UInt8} (isEnd : endsExpression byte = true) (depth : Nat)
    (ahead : Option UInt8) : ((Scanner.atRest depth).step byte ahead).1 = some depth := by
  simp only [endsExpression, Bool.or_eq_true, decide_eq_true_eq] at isEnd
  rcases isEnd with (((rfl | rfl) | rfl) | rfl) | rfl <;> rfl

/-- Whether a stage takes no notice of a dot, by what stands behind it.
Behind the message a second message call means nothing. -/
def Stage.PassesDot (dialect : Dialect) (behind : Place) : Stage -> Prop
  | .beforeMessage =>
      Call.message? dialect behind = none ∧ Call.terminal? dialect behind = none
  | .afterMessage _ => Call.terminal? dialect behind = none

theorem Stage.PassesDot.terminal?_eq_none {stage : Stage} {behind : Place}
    (passes : stage.PassesDot dialect behind) : Call.terminal? dialect behind = none := by
  cases stage with
  | beforeMessage => exact passes.2
  | afterMessage message => exact passes

/-- The ways of a search for the rest of a chain, and how they end.  Each step
of the search is a constructor, so that proofs about the search go by the ways
it can take. -/
inductive Completes (dialect : Dialect) (limit : Nat) :
    Stage -> Scanner -> Nat -> Bytes -> Completion -> Prop
  /-- The text ends. -/
  | ended (stage : Stage) (scanner : Scanner) (offset : Nat) :
      Completes dialect limit stage scanner offset [] .exhausted
  /-- The bound is reached. -/
  | reached {stage : Stage} {scanner : Scanner} {offset : Nat} {byte : UInt8} {rest : Bytes}
      (atBound : scanner.region = .code ∧ limit ≤ offset) :
      Completes dialect limit stage scanner offset (byte :: rest) .exhausted
  /-- The expression ends. -/
  | dropped {stage : Stage} {offset : Nat} {byte : UInt8} {rest : Bytes}
      (within : offset < limit) (ends : endsExpression byte = true) :
      Completes dialect limit stage (Scanner.atRest 0) offset (byte :: rest) .dropped
  /-- A terminal call comes in front of any message call. -/
  | early {offset stop : Nat} {rest : Bytes} (within : offset < limit)
      (noMessage : Call.message? dialect ⟨offset + 1, rest⟩ = none)
      (isTerminal : Call.terminal? dialect ⟨offset + 1, rest⟩ = some stop) :
      Completes dialect limit .beforeMessage (Scanner.atRest 0) offset (Byte.dot :: rest) .dropped
  /-- The search comes to the terminal call. -/
  | terminal {offset stop : Nat} {rest : Bytes} {message : Extent} (within : offset < limit)
      (isTerminal : Call.terminal? dialect ⟨offset + 1, rest⟩ = some stop) :
      Completes dialect limit (.afterMessage message) (Scanner.atRest 0) offset
        (Byte.dot :: rest) (.found message stop)
  /-- The search comes to the message call and goes on behind it. -/
  | message {offset : Nat} {rest : Bytes} {call : Call.Message} {completion : Completion}
      (within : offset < limit)
      (isMessage : Call.message? dialect ⟨offset + 1, rest⟩ = some call)
      (behind : Completes dialect limit (.afterMessage call.argument) (Scanner.atRest 0) call.stop
        (rest.drop (call.stop - (offset + 1))) completion) :
      Completes dialect limit .beforeMessage (Scanner.atRest 0) offset (Byte.dot :: rest)
        completion
  /-- The search goes on behind any other byte. -/
  | onward {stage : Stage} {scanner : Scanner} {offset : Nat} {byte : UInt8} {rest : Bytes}
      {completion : Completion} (within : ¬ (scanner.region = .code ∧ limit ≤ offset))
      (quiet : (scanner.step byte rest.head?).1 = some 0 ->
        endsExpression byte = false ∧
          (byte = Byte.dot -> stage.PassesDot dialect ⟨offset + 1, rest⟩))
      (behind : Completes dialect limit stage (scanner.step byte rest.head?).2 (offset + 1) rest
        completion) :
      Completes dialect limit stage scanner offset (byte :: rest) completion

/-- A byte outside parentheses that is looked at stands in front of the bound. -/
theorem lt_of_step {limit offset : Nat} {scanner : Scanner} {byte : UInt8} {ahead : Option UInt8}
    {depth : Nat}
    (within : ¬ (scanner.region = .code ∧ limit ≤ offset))
    (reported : (scanner.step byte ahead).1 = some depth) : offset < limit := by
  rw [Scanner.eq_atRest_of_step reported] at within
  exact Nat.lt_of_not_le fun beyond => within ⟨rfl, beyond⟩

theorem completes_complete (dialect : Dialect) (limit : Nat) (stage : Stage) (scanner : Scanner)
    (offset : Nat) (text : Bytes) :
    Completes dialect limit stage scanner offset text
      (complete dialect limit stage scanner offset text) := by
  fun_induction complete dialect limit stage scanner offset text with
  | case1 stage scanner offset => exact .ended stage scanner offset
  | case2 stage scanner offset byte rest reached => exact .reached reached
  | case3 stage scanner offset byte rest within next read ends =>
      have reported := congrArg Prod.fst read
      rw [Scanner.eq_atRest_of_step reported]
      exact .dropped (lt_of_step within reported) ends
  | case4 scanner offset rest within next call isMessage read goesOn ih =>
      have isBelow := lt_of_step within (congrArg Prod.fst read)
      rcases Scanner.eq_atRest_of_dot read with ⟨rfl, rfl⟩
      exact .message isBelow isMessage ih
  | case5 scanner offset rest within next noMessage isTerminal read goesOn =>
      have isBelow := lt_of_step within (congrArg Prod.fst read)
      rcases Scanner.eq_atRest_of_dot read with ⟨rfl, rfl⟩
      rcases Option.isSome_iff_exists.mp isTerminal with ⟨stop, isTerminal⟩
      exact .early isBelow noMessage isTerminal
  | case6 scanner offset rest within next noMessage noTerminal read goesOn ih =>
      refine .onward within (fun _ => ⟨rfl, fun _ => ⟨noMessage, ?_⟩⟩) ?_
      · exact Option.not_isSome_iff_eq_none.mp noTerminal
      · rw [read]
        exact ih
  | case7 scanner offset rest within next message stop isTerminal read goesOn =>
      have isBelow := lt_of_step within (congrArg Prod.fst read)
      rcases Scanner.eq_atRest_of_dot read with ⟨rfl, rfl⟩
      exact .terminal isBelow isTerminal
  | case8 scanner offset rest within next message noTerminal read goesOn ih =>
      refine .onward within (fun _ => ⟨rfl, fun _ => noTerminal⟩) ?_
      rw [read]
      exact ih
  | case9 stage scanner offset byte rest within next read goesOn notDot ih =>
      refine .onward within (fun _ => ⟨Bool.eq_false_iff.mpr goesOn, fun isDot => absurd isDot notDot⟩) ?_
      rw [read]
      exact ih
  | case10 stage scanner offset byte rest within reported next notOutside read ih =>
      refine .onward within (fun outside => ?_) ?_
      · rw [read] at outside
        exact absurd outside notOutside
      · rw [read]
        exact ih

/-- Each way of a search is the one that is taken.  So what is proved of the
ways holds of the search. -/
theorem Completes.complete_eq {limit offset : Nat} {stage : Stage} {scanner : Scanner}
    {text : Bytes} {completion : Completion}
    (completes : Completes dialect limit stage scanner offset text completion) :
    complete dialect limit stage scanner offset text = completion := by
  have dotGoesOn : ¬ endsExpression Byte.dot = true := by decide
  have readDot : forall ahead, (Scanner.atRest 0).step Byte.dot ahead =
      (some 0, Scanner.atRest 0) := fun _ => rfl
  have notReached : forall {offset : Nat}, offset < limit ->
      ¬ ((Scanner.atRest 0).region = .code ∧ limit ≤ offset) :=
    fun within reached => absurd reached.2 (Nat.not_le_of_lt within)
  induction completes with
  | ended => rw [complete]
  | reached atBound => rw [complete, if_pos atBound]
  | @dropped stage offset byte rest within ends =>
      rw [complete, if_neg (notReached within)]
      split
      · rw [if_pos ends]
      · rename_i notOutside read
        exact absurd ((congrArg Prod.fst read).symm.trans (step_atRest_ends ends 0 _))
          notOutside
  | early within noMessage isTerminal =>
      rw [complete, if_neg (notReached within), readDot]
      simp only [if_neg dotGoesOn, if_pos, noMessage, isTerminal, Option.isSome_some]
  | terminal within isTerminal =>
      rw [complete, if_neg (notReached within), readDot]
      simp only [if_neg dotGoesOn, if_pos, isTerminal]
  | message within isMessage behind ih =>
      rw [complete, if_neg (notReached within), readDot]
      simp only [if_neg dotGoesOn, if_pos, isMessage]
      exact ih
  | @onward stage scanner offset byte rest completion within quiet behind ih =>
      rw [complete, if_neg within]
      split
      · rename_i next read
        rw [read] at quiet ih
        rcases quiet rfl with ⟨goesOn, passes⟩
        rw [goesOn, if_neg Bool.false_ne_true]
        split
        · rename_i isDot
          have noCall := passes isDot
          cases stage with
          | beforeMessage =>
              simp only [noCall.1, noCall.2, Option.isSome_none, Bool.false_eq_true, if_false]
              exact ih
          | afterMessage message =>
              simp only [noCall.terminal?_eq_none]
              exact ih
        · exact ih
      · rename_i read
        rw [read] at ih
        exact ih

theorem completes_of_complete {limit offset : Nat} {stage : Stage} {scanner : Scanner}
    {text : Bytes} {completion : Completion}
    (same : complete dialect limit stage scanner offset text = completion) :
    Completes dialect limit stage scanner offset text completion := by
  rw [← same]
  exact completes_complete dialect limit stage scanner offset text

theorem complete_of_reached {limit offset : Nat} {scanner : Scanner}
    (reached : scanner.region = .code ∧ limit ≤ offset) (stage : Stage) (text : Bytes) :
    complete dialect limit stage scanner offset text = .exhausted := by
  cases text with
  | nil => exact (Completes.ended stage scanner offset).complete_eq
  | cons byte rest => exact (Completes.reached reached).complete_eq

theorem complete_onward {limit offset : Nat} {stage : Stage} {scanner : Scanner} {byte : UInt8}
    {rest : Bytes} (within : ¬ (scanner.region = .code ∧ limit ≤ offset))
    (quiet : (scanner.step byte rest.head?).1 = some 0 ->
      endsExpression byte = false ∧
        (byte = Byte.dot -> stage.PassesDot dialect ⟨offset + 1, rest⟩)) :
    complete dialect limit stage scanner offset (byte :: rest) =
      complete dialect limit stage (scanner.step byte rest.head?).2 (offset + 1) rest :=
  (Completes.onward within quiet (completes_complete dialect limit stage _ _ rest)).complete_eq

theorem complete_onward_of_not_dot {limit offset : Nat} {stage : Stage} {scanner : Scanner}
    {byte : UInt8} {rest : Bytes} (within : ¬ (scanner.region = .code ∧ limit ≤ offset))
    (quiet : (scanner.step byte rest.head?).1 = some 0 ->
      endsExpression byte = false ∧ byte ≠ Byte.dot) :
    complete dialect limit stage scanner offset (byte :: rest) =
      complete dialect limit stage (scanner.step byte rest.head?).2 (offset + 1) rest :=
  complete_onward within fun outside =>
    ⟨(quiet outside).1, fun isDot => absurd isDot (quiet outside).2⟩

/-! ## What it found -/

/-- The bytes from behind the message call of a chain to its end, read by a
scanner. -/
def IsTail (dialect : Dialect) (scanner : Scanner) (tail : Bytes) : Prop :=
  ∃ middle lead inside, Call.IsNamed dialect.terminalMethod lead ∧ IsBlank inside ∧
    tail = middle ++ Byte.dot :: lead ++ Byte.openParen :: inside ++ [Byte.closeParen] ∧
    scanner.ClosesOwn (some Byte.dot) middle ∧
    scanner.run (some Byte.dot) middle = Scanner.atRest 0

theorem IsTail.cons {scanner : Scanner} {byte : UInt8} {tail after : Bytes}
    (own : ¬ (byte = Byte.closeParen ∧
      (scanner.step byte (tail ++ after).head?).1 = some 0))
    (isTail : IsTail dialect (scanner.step byte (tail ++ after).head?).2 tail) :
    IsTail dialect scanner (byte :: tail) := by
  rcases isTail with ⟨middle, lead, inside, named, blank, rfl, ownMiddle, atRest⟩
  have sameAhead : (middle ++ Byte.dot :: lead ++ Byte.openParen :: inside ++
      [Byte.closeParen] ++ after).head? = middle.head?.or (some Byte.dot) := by
    cases middle <;> rfl
  rw [sameAhead] at own ownMiddle atRest
  exact ⟨byte :: middle, lead, inside, named, blank, rfl, ⟨own, ownMiddle⟩, atRest⟩

/-- Such a text closes only its own parentheses, and all that it opens. -/
theorem IsTail.closesOwn (identifiers : dialect.HasIdentifierWords) {scanner : Scanner}
    {tail : Bytes} (isTail : IsTail dialect scanner tail) (ahead : Option UInt8) :
    scanner.ClosesOwn ahead tail ∧ scanner.run ahead tail = Scanner.atRest 0 := by
  rcases isTail with ⟨middle, lead, inside, named, blank, rfl, own, atRest⟩
  have plain : ∀ byte ∈ Byte.dot :: lead, Scanner.isPlainByte byte = true := by
    intro byte member
    rcases List.mem_cons.mp member with rfl | inLead
    · rfl
    · exact named.plain identifiers.terminalMethod byte inLead
  have enclosed : IsEnclosed inside := isEnclosed_of_plain blank.plain
  have split : middle ++ Byte.dot :: lead ++ Byte.openParen :: inside ++ [Byte.closeParen] =
      middle ++ (Byte.dot :: lead ++ (Byte.openParen :: inside ++ [Byte.closeParen])) := by
    simp
  have sameAhead : (Byte.dot :: lead ++ (Byte.openParen :: inside ++ [Byte.closeParen])).head?.or
      ahead = some Byte.dot := rfl
  rw [split]
  constructor
  · apply Scanner.ClosesOwn.append
    · rw [sameAhead]
      exact own
    · rw [sameAhead, atRest]
      exact Scanner.closesOwn_emptyCall plain blank.plain 0 ahead
  · rw [Scanner.run_append, sameAhead, atRest, ← List.append_assoc]
    exact Scanner.run_call identifiers.terminalMethod named enclosed 0 ahead

theorem IsTail.getLast?_eq {scanner : Scanner} {tail : Bytes}
    (isTail : IsTail dialect scanner tail) : tail.getLast? = some Byte.closeParen := by
  rcases isTail with ⟨middle, lead, inside, -, -, rfl, -, -⟩
  exact List.getLast?_concat

/-- A byte that the search passes over closes no parenthesis of the
surroundings. -/
theorem not_closes_of_quiet {scanner : Scanner} {byte : UInt8} {ahead : Option UInt8}
    {passes : Prop} (quiet : (scanner.step byte ahead).1 = some 0 ->
      endsExpression byte = false ∧ passes) :
    ¬ (byte = Byte.closeParen ∧ (scanner.step byte ahead).1 = some 0) := by
  rintro ⟨rfl, outside⟩
  exact absurd (quiet outside).1 (by decide)

theorem Completes.afterMessage_found (identifiers : dialect.HasIdentifierWords)
    {limit offset stop : Nat} {message found : Extent} {scanner : Scanner} {text : Bytes}
    (completes : Completes dialect limit (.afterMessage message) scanner offset text
      (.found found stop)) :
    found = message ∧ ∃ tail after, text = tail ++ after ∧ stop = offset + tail.length ∧
      IsTail dialect scanner tail := by
  generalize isStage : Stage.afterMessage message = stage at completes
  generalize isFound : Completion.found found stop = completion at completes
  induction completes with
  | ended | reached | dropped | early => cases isFound
  | message => cases isStage
  | @terminal offset stop rest message within isTerminal =>
      cases isStage
      cases isFound
      rcases (Call.terminal?_eq_some_iff identifiers).mp isTerminal with
        ⟨lead, inside, after, named, blank, isRest, atStop⟩
      simp only at isRest atStop
      refine ⟨rfl, Byte.dot :: lead ++ Byte.openParen :: inside ++ [Byte.closeParen], after, ?_, ?_,
        [], lead, inside, named, blank, rfl, True.intro, rfl⟩
      · rw [isRest]
        simp
      · rw [atStop]
        simp only [List.length_append, List.length_cons, List.length_nil]
        omega
  | @onward stage scanner offset byte rest completion within quiet behind ih =>
      rcases ih isStage isFound with ⟨same, tail, after, rfl, atStop, isTail⟩
      refine ⟨same, byte :: tail, after, rfl, ?_, isTail.cons (not_closes_of_quiet quiet)⟩
      rw [atStop, List.length_cons]
      omega

/-- The whole way of a candidate that is completed: what stands in front of
its message call, the call, and the tail with the terminal call. -/
theorem Completes.beforeMessage_found (identifiers : dialect.HasIdentifierWords)
    {limit offset stop : Nat} {message : Extent} {scanner : Scanner} {text : Bytes}
    (completes : Completes dialect limit .beforeMessage scanner offset text
      (.found message stop)) :
    ∃ before lead argument tail after,
      text = before ++ Byte.dot :: lead ++ Byte.openParen :: argument ++
        Byte.closeParen :: tail ++ after ∧
      Call.IsNamed dialect.messageMethod lead ∧ Call.IsBareMessage argument ∧
      scanner.ClosesOwn (some Byte.dot) before ∧
      scanner.run (some Byte.dot) before = Scanner.atRest 0 ∧
      IsTail dialect (Scanner.atRest 0) tail ∧
      message = ⟨offset + before.length + lead.length + 2,
        offset + before.length + lead.length + argument.length + 2⟩ ∧
      stop = offset + before.length + lead.length + argument.length + 3 + tail.length := by
  generalize isStage : Stage.beforeMessage = stage at completes
  generalize isFound : Completion.found message stop = completion at completes
  induction completes with
  | ended | reached | dropped | early => cases isFound
  | terminal => cases isStage
  | @message offset rest call completion within isMessage behind ih =>
      rcases (Call.message?_eq_some_iff identifiers).mp isMessage with
        ⟨lead, argument, others, named, bare, isRest, rfl⟩
      simp only at isRest behind
      have dropped : rest.drop (offset + 1 + lead.length + 1 + argument.length + 1 -
          (offset + 1)) = others := by
        have split : rest =
            (lead ++ Byte.openParen :: argument ++ [Byte.closeParen]) ++ others := by
          rw [isRest]
          simp
        rw [split]
        apply List.drop_left'
        simp only [List.length_append, List.length_cons, List.length_nil]
        omega
      rw [dropped, ← isFound] at behind
      rcases behind.afterMessage_found identifiers with
        ⟨rfl, tail, after, isOthers, atStop, isTail⟩
      refine ⟨[], lead, argument, tail, after, ?_, named, bare, True.intro, rfl, isTail, ?_, ?_⟩
      · rw [isRest, isOthers]
        simp
      · simp only [List.length_nil, Extent.mk.injEq]
        omega
      · rw [atStop, List.length_nil]
        omega
  | @onward stage scanner offset byte rest completion within quiet behind ih =>
      have own := not_closes_of_quiet quiet
      rcases ih isStage isFound with ⟨before, lead, argument, tail, after, rfl, named, bare,
        ownBefore, atRest, isTail, atMessage, atStop⟩
      have sameAhead : (before ++ Byte.dot :: lead ++ Byte.openParen :: argument ++
          Byte.closeParen :: tail ++ after).head? = before.head?.or (some Byte.dot) := by
        cases before <;> rfl
      rw [sameAhead] at own ownBefore atRest
      refine ⟨byte :: before, lead, argument, tail, after, rfl, named, bare, ⟨own, ownBefore⟩,
        atRest, isTail, ?_, ?_⟩
      · rw [atMessage, List.length_cons]
        congr 1 <;> omega
      · rw [atStop, List.length_cons]
        omega

/-- A completed candidate ends within the text. -/
theorem exists_of_complete_found (identifiers : dialect.HasIdentifierWords)
    {limit offset stop : Nat} {message : Extent} {scanner : Scanner} {text : Bytes}
    (isFound : complete dialect limit .beforeMessage scanner offset text = .found message stop) :
    ∃ used after, text = used ++ after ∧ stop = offset + used.length := by
  rcases (completes_of_complete isFound).beforeMessage_found identifiers with ⟨front, lead, argument, tail, after,
    same, -, -, -, -, -, -, atStop⟩
  refine ⟨front ++ Byte.dot :: lead ++ Byte.openParen :: argument ++ Byte.closeParen :: tail,
    after, same, ?_⟩
  rw [atStop]
  simp only [List.length_append, List.length_cons]
  omega

end FluentLog
