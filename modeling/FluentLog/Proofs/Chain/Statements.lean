import FluentLog.Proofs.Chain.Candidates
import FluentLog.Proofs.Chain.Frame
import FluentLog.Proofs.Chain.Idempotence
import FluentLog.Proofs.Chain.Shift
import FluentLog.Proofs.Chain.Stopping

namespace FluentLog

/-!
# Inlining statement by statement

Where a text ends outside of all literals, comments and parentheses, and the last code byte
in front of its end is a semicolon or a brace, no candidate is left open: each one that
begins in the text either ends there or is dropped there, at the last byte at the latest, or
at a parenthesis that closes one around the candidate.  So what is found in the text does not
depend on what follows, and inlining can be done for the text and for what follows one by one.

Quoted braces that are broken over a line end are the exception.  The search for the rest of
a chain jumps behind them, while a scan of the text drops the literal at the line end and
takes the quote behind the braces for the beginning of another.  The two then disagree on
where the code goes on.
-/

variable {dialect : Dialect}

/-! ## Texts that end with a statement -/

def endsStatement (byte : UInt8) : Bool :=
  byte = Byte.semicolon || byte = Byte.openBrace || byte = Byte.closeBrace

theorem endsExpression_of_endsStatement {byte : UInt8} (ends : endsStatement byte = true) :
    endsExpression byte = true := by
  simp only [endsStatement, Bool.or_eq_true, decide_eq_true_eq] at ends
  rcases ends with (rfl | rfl) | rfl <;> rfl

namespace Scanner

/-- Whether a text at an offset ends with a statement: the scanner comes to
rest outside of all parentheses, and the last byte that it reports, if any,
ends a statement. -/
structure EndsWithStatement (scanner : Scanner) (offset : Nat) (text : Bytes) : Prop where
  atRest : scanner.run none text = Scanner.atRest 0
  last : ∀ point ∈ (scanner.codeBytes offset text).getLast?, endsStatement point.byte = true

variable {scanner : Scanner} {offset : Nat} {front rest : Bytes}

/-- To a scanner the end of a text is the same as a line end. -/
theorem step_none_eq (scanner : Scanner) (byte : UInt8) :
    scanner.step byte none = scanner.step byte (some Byte.lineFeed) := by
  have notSlash : ¬ some Byte.lineFeed = some Byte.slash := by decide
  have notAsterisk : ¬ some Byte.lineFeed = some Byte.asterisk := by decide
  have noComment : Comment.opened? byte (some Byte.lineFeed) = Comment.opened? byte none := by
    rw [Comment.opened?, Comment.opened?]
    simp [notSlash, notAsterisk]
  rw [step, step, opened?, opened?, noComment]
  simp [notSlash]

theorem step_append_lineFeed (scanner : Scanner) (byte : UInt8) (front rest : Bytes) :
    scanner.step byte (front ++ Byte.lineFeed :: rest).head? = scanner.step byte front.head? := by
  cases front with
  | nil => exact (step_none_eq scanner byte).symm
  | cons first front => rfl

theorem EndsWithStatement.tail {byte : UInt8}
    (ends : scanner.EndsWithStatement offset (byte :: rest)) :
    (scanner.step byte rest.head?).2.EndsWithStatement (offset + 1) rest := by
  refine ⟨?_, ?_⟩
  · have atRest := ends.atRest
    rw [run_cons, Option.or_none] at atRest
    exact atRest
  · intro point isLast
    apply ends.last
    rw [codeBytes_cons, List.getLast?_append, Option.mem_def.mp isLast]
    rfl

theorem EndsWithStatement.of_append (ends : scanner.EndsWithStatement offset (front ++ rest)) :
    (scanner.run rest.head? front).EndsWithStatement (offset + front.length) rest := by
  induction front generalizing scanner offset with
  | nil => exact ends
  | cons byte front ih =>
      have behind := ih ends.tail
      rw [run_cons, ← List.head?_append, List.length_cons, Nat.add_comm front.length,
        ← Nat.add_assoc]
      exact behind

/-- Without code bytes no parenthesis opens or closes. -/
theorem depth_run_of_codeBytes_eq_nil (noCode : scanner.codeBytes offset rest = []) :
    (scanner.run none rest).cursor.depth = scanner.cursor.depth := by
  induction rest generalizing scanner offset with
  | nil => rfl
  | cons byte rest ih =>
      rw [codeBytes_cons, List.append_eq_nil_iff] at noCode
      have notReported : (scanner.step byte rest.head?).1 = none := by
        cases reported : (scanner.step byte rest.head?).1 with
        | none => rfl
        | some depth =>
            rw [reported] at noCode
            cases noCode.1
      rw [run_cons, Option.or_none, ih noCode.2, depth_step_of_eq_none notReported]

/-- The last byte that is reported ends a statement outside of all
parentheses. -/
theorem EndsWithStatement.last_byte {byte : UInt8} {depth : Nat}
    (ends : scanner.EndsWithStatement offset (byte :: rest))
    (reported : (scanner.step byte rest.head?).1 = some depth)
    (noMore : (scanner.step byte rest.head?).2.codeBytes (offset + 1) rest = []) :
    endsStatement byte = true ∧ depth = 0 := by
  have isEnd : endsStatement byte = true := by
    apply ends.last ⟨offset, byte, depth⟩
    rw [codeBytes_cons, noMore, List.append_nil, reported]
    rfl
  have plain : isPlainByte byte = true := by
    have which := isEnd
    simp only [endsStatement, Bool.or_eq_true, decide_eq_true_eq] at which
    rcases which with (rfl | rfl) | rfl <;> decide
  have isFlat := depth_run_of_codeBytes_eq_nil noMore
  rw [ends.tail.atRest, eq_atRest_of_step reported, step_atRest_plain plain] at isFlat
  exact ⟨isEnd, isFlat.symm⟩

/-- The search behind an initial call at any depth stops in front of the end
of a text that ends with a statement: at the parenthesis that closes one
around the call, or at the last code byte. -/
theorem EndsWithStatement.decides {extra : Nat}
    (ends : (scanner.deepen extra).EndsWithStatement offset rest)
    (hasCode : (scanner.deepen extra).codeBytes offset rest ≠ []) :
    Decides dialect scanner rest := by
  induction rest generalizing scanner offset with
  | nil => exact absurd rfl hasCode
  | cons byte rest ih =>
      by_cases unmatched : byte = Byte.closeParen ∧ (scanner.step byte rest.head?).1 = some 0
      · rcases unmatched with ⟨rfl, reported⟩
        rw [eq_atRest_of_step reported]
        exact Decides.ends rfl
      · have step := step_deepen unmatched extra
        by_cases noMore : ((scanner.step byte rest.head?).2.deepen extra).codeBytes (offset + 1)
            rest = []
        · rw [codeBytes_cons, step, noMore, List.append_nil] at hasCode
          cases reported : (scanner.step byte rest.head?).1 with
          | none =>
              rw [reported] at hasCode
              exact absurd rfl hasCode
          | some depth =>
              have reportedBelow : ((scanner.deepen extra).step byte rest.head?).1 =
                  some (depth + extra) := by
                rw [step, reported]
                rfl
              have isLast := ends.last_byte reportedBelow (by rw [step]; exact noMore)
              have noDepth : depth = 0 := by omega
              rw [eq_atRest_of_step reported, noDepth]
              exact Decides.ends (endsExpression_of_endsStatement isLast.1)
        · have behind := ends.tail
          rw [step] at behind
          exact Decides.byte (ih behind noMore)

end Scanner

/-! ## Chains in front of the end of a statement -/

theorem Call.IsInitial.not_endsStatement (identifiers : dialect.HasIdentifierWords)
    {bytes : Bytes} (isInitial : Call.IsInitial dialect bytes) {byte : UInt8}
    (ends : endsStatement byte = true) : byte ∉ bytes := by
  rcases isInitial with ⟨receiver, isReceiver, level, isLevel, behind, before, last, inside,
    blankBehind, blankBefore, blankLast, blankInside, rfl⟩
  rcases identifierWord_spec (identifiers.receiver isReceiver) with ⟨_, _, _, allReceiver⟩
  rcases identifierWord_spec (identifiers.level isLevel) with ⟨_, _, _, allLevel⟩
  rcases identifierWord_spec identifiers.levelPrefix with ⟨_, _, _, allPrefix⟩
  have other : isIdentifierByte byte = false ∧ isBlankByte byte = false ∧
      byte ∉ [Byte.dot, Byte.openParen, Byte.closeParen] := by
    simp only [endsStatement, Bool.or_eq_true, decide_eq_true_eq] at ends
    rcases ends with (rfl | rfl) | rfl <;> decide
  rcases other with ⟨notIdentifier, notBlank, notSign⟩
  have notInWord : forall {word : Bytes}, (∀ byte ∈ word, isIdentifierByte byte = true) ->
      byte ∉ word := by
    intro word all member
    rw [all byte member] at notIdentifier
    cases notIdentifier
  have notInBlanks : forall {blanks : Bytes}, IsBlank blanks -> byte ∉ blanks := by
    intro blanks blank member
    rw [blank byte member] at notBlank
    cases notBlank
  simp only [List.mem_cons, List.not_mem_nil, or_false, not_or] at notSign
  simp [notInWord allReceiver, notInWord allLevel, notInWord allPrefix, notInBlanks blankBehind,
    notInBlanks blankBefore, notInBlanks blankLast, notInBlanks blankInside, notSign]

namespace Scanner.EndsWithStatement

variable {depth offset : Nat} {stretch : Bytes}

/-- An initial call at the beginning of a text that ends with a statement lies
in the text, and there is code behind it. -/
theorem exists_of_initial (identifiers : dialect.HasIdentifierWords)
    (ends : (Scanner.atRest depth).EndsWithStatement offset stretch) (nonempty : stretch ≠ [])
    {initial rest after : Bytes} (isInitial : Call.IsInitial dialect initial)
    (same : stretch ++ rest = initial ++ after) :
    ∃ others, stretch = initial ++ others ∧ after = others ++ rest ∧
      (Scanner.atRest depth).codeBytes (offset + initial.length) others ≠ [] := by
  -- The first byte of the call is a code byte, so there is a last one, which ends a statement.
  have hasCode : (Scanner.atRest depth).codeBytes offset stretch ≠ [] := by
    rcases StartsInitial.exists_dot identifiers ⟨initial, after, isInitial, rfl⟩ with
      ⟨first, word, blanks, others, all, -, begins⟩
    have identifier := all first List.mem_cons_self
    have notLineFeed : first ≠ Byte.lineFeed := by
      rintro rfl
      exact absurd identifier (by decide)
    cases stretch with
    | nil => exact absurd rfl nonempty
    | cons byte stretch =>
        rw [begins] at same
        rcases List.cons.inj same with ⟨rfl, -⟩
        rw [Scanner.codeBytes_cons, Scanner.step_atRest_plain
          (Scanner.isPlainByte_of_isIdentifierByte identifier), if_neg notLineFeed]
        exact List.cons_ne_nil _ _
  have notAllInitial : ¬ ∀ point ∈ (Scanner.atRest depth).codeBytes offset stretch,
      point.byte ∈ initial := by
    intro inInitial
    have isLast := List.getLast?_eq_some_getLast hasCode
    exact isInitial.not_endsStatement identifiers (ends.last _ isLast)
      (inInitial _ (List.mem_of_getLast? isLast))
  rcases List.append_eq_append_iff.mp same with ⟨others, isInitial, -⟩ | ⟨others, isStretch, isAfter⟩
  · apply absurd _ notAllInitial
    rcases Scanner.exists_codeBytes_append (Scanner.atRest depth) offset stretch [] with
      ⟨points, isPoints, inStretch⟩
    rw [List.append_nil] at isPoints
    intro point member
    rw [isPoints, Scanner.codeBytes, List.append_nil] at member
    rw [isInitial]
    exact List.mem_append_left others (inStretch point member).1
  · refine ⟨others, isStretch, isAfter, ?_⟩
    intro noCode
    rcases Scanner.exists_codeBytes_append (Scanner.atRest depth) offset initial others with
      ⟨points, isPoints, inInitial⟩
    rw [((isInitial.run_atRest identifiers).2 depth _).1, noCode, List.append_nil,
      ← isStretch] at isPoints
    rw [isPoints] at notAllInitial
    exact notAllInitial fun point member => (inInitial point member).1

/-- Which initial call begins a text does not depend on what follows the end
of a statement. -/
theorem initial?_append (identifiers : dialect.HasIdentifierWords)
    (ends : (Scanner.atRest depth).EndsWithStatement offset stretch) (nonempty : stretch ≠ [])
    (start : Nat) (rest : Bytes) :
    Call.initial? dialect ⟨start, stretch ++ rest⟩ = Call.initial? dialect ⟨start, stretch⟩ := by
  cases found : Call.initial? dialect ⟨start, stretch ++ rest⟩ with
  | some call =>
      rcases Call.initial?_spec identifiers found with ⟨initial, after, isInitial, same, -⟩
      rcases ends.exists_of_initial identifiers nonempty isInitial same with ⟨others, rfl, -, -⟩
      rw [← found, List.append_assoc]
      exact isInitial.initial?_congr identifiers start (others ++ rest) others
  | none =>
      cases foundAlone : Call.initial? dialect ⟨start, stretch⟩ with
      | none => rfl
      | some call =>
          rcases Call.initial?_spec identifiers foundAlone with ⟨initial, after, isInitial, same, -⟩
          simp only at same
          rcases isInitial.exists_initial? identifiers start (after ++ rest) with ⟨other, isOther, -⟩
          rw [← List.append_assoc, ← same, found] at isOther
          cases isOther

/-- Behind an initial call that begins a text the search stops in front of the
end of a statement. -/
theorem complete_append (identifiers : dialect.HasIdentifierWords)
    (ends : (Scanner.atRest depth).EndsWithStatement offset stretch) (nonempty : stretch ≠ [])
    (unbroken : HasUnbrokenBraces stretch) {start : Nat} {call : Call.Initial}
    (found : Call.initial? dialect ⟨start, stretch⟩ = some call) (limit : Nat) (rest : Bytes) :
    complete dialect limit .beforeMessage .start call.stop
        ((stretch ++ rest).drop (call.stop - start)) =
      complete dialect limit .beforeMessage .start call.stop (stretch.drop (call.stop - start)) := by
  rcases Call.initial?_spec identifiers found with ⟨initial, after, isInitial, same, atStop⟩
  have sameAlone : stretch ++ [] = initial ++ after := by
    rw [List.append_nil]
    exact same
  rcases ends.exists_of_initial identifiers nonempty isInitial sameAlone with
    ⟨others, rfl, -, hasCode⟩
  simp only at atStop
  have behind := ends.of_append
  rw [((isInitial.run_atRest identifiers).2 depth _).1] at behind
  have sameScanner : Scanner.atRest depth = Scanner.start.deepen depth := by
    rw [Scanner.start_eq_atRest, Scanner.deepen_atRest, Nat.zero_add]
  rw [sameScanner] at behind hasCode
  have decides : Decides dialect .start others := behind.decides hasCode
  have dropped : forall rest : Bytes,
      (initial ++ (others ++ rest)).drop (call.stop - start) = others ++ rest :=
    fun _ => List.drop_left' (by omega)
  have droppedAlone := dropped []
  rw [List.append_nil] at droppedAlone
  rw [List.append_assoc, dropped, droppedAlone]
  exact (decides.completes_append identifiers unbroken.of_append_right (completes_complete ..)
    rest).complete_eq

/-- Which chain begins at a place does not depend on what follows the end of a
statement. -/
theorem chainAt?_append (identifiers : dialect.HasIdentifierWords)
    (ends : (Scanner.atRest depth).EndsWithStatement offset stretch) (nonempty : stretch ≠ [])
    (unbroken : HasUnbrokenBraces stretch) (before : Option UInt8) (start : Nat) (rest : Bytes) :
    chainAt? dialect before ⟨start, stretch ++ rest⟩ =
      chainAt? dialect before ⟨start, stretch⟩ := by
  rw [chainAt?, chainAt?, ends.initial?_append identifiers nonempty]
  split
  · rfl
  · cases found : Call.initial? dialect ⟨start, stretch⟩ with
    | none => rfl
    | some call =>
        have same := ends.complete_append identifiers nonempty unbroken found
          (start + dialect.maxChainLength) rest
        simp only [Option.bind_some, same]
        split
        · rename_i message stop isFound
          rcases Call.initial?_spec identifiers found with ⟨initial, after, -, isStretch, atStop⟩
          rcases exists_of_complete_found identifiers isFound with ⟨used, unused, isUsed, isStop⟩
          have lengths := congrArg List.length isUsed
          have initialLength := congrArg List.length isStretch
          simp only [List.length_append, List.length_drop] at lengths initialLength
          simp only at atStop
          have within : stop - start ≤ stretch.length := by omega
          rw [List.take_append_of_le_length within]
        · rfl

end Scanner.EndsWithStatement

/-- The pass over a text that ends with a statement, and then over the next
line. -/
theorem Locates.append_statement (identifiers : dialect.HasIdentifierWords) {scanner : Scanner}
    {before : Option UInt8} {offset : Nat} {front : Bytes} {spans : List Span}
    (located : Locates dialect scanner before offset front spans)
    (unbroken : HasUnbrokenBraces front) {whole : Scanner}
    (agree : Scanner.Agree scanner whole) (ends : whole.EndsWithStatement offset front)
    {rest : Bytes} {later : List Span}
    (behind : forall before, Locates dialect .start before (offset + front.length)
      (Byte.lineFeed :: rest) later) :
    Locates dialect scanner before offset (front ++ Byte.lineFeed :: rest) (spans ++ later) := by
  induction located generalizing whole with
  | done scanner before offset =>
      have isAtRest := ends.atRest
      rw [Scanner.run_nil] at isAtRest
      subst isAtRest
      exact (behind before).of_agree agree.symm
  | @chain scanner before offset others span spans outside isChain located ih =>
      have sameStop : span.stop = offset + span.text.length := by
        rw [Span.stop, (isChain_of_chainAt? identifiers isChain unbroken).2.1]
      have isAtRest := @Scanner.Agree.eq_atRest _ 0 (agree.symm.trans outside)
      rw [isAtRest] at ends
      have nonempty : span.text ++ others ≠ [] := by
        intro noText
        rw [noText, chainAt?_nil identifiers] at isChain
        cases isChain
      have isChainThere : chainAt? dialect before
          ⟨offset, span.text ++ (others ++ Byte.lineFeed :: rest)⟩ = some span := by
        rw [← List.append_assoc, ends.chainAt?_append identifiers nonempty unbroken before offset]
        exact isChain
      have endsBehind := ends.of_append
      rw [(isChain_of_chainAt? identifiers isChain unbroken).2.2.1.run identifiers,
        ← sameStop] at endsBehind
      rw [List.length_append, ← Nat.add_assoc, ← sameStop] at behind
      rw [List.append_assoc, List.cons_append]
      exact .chain outside isChainThere
        (ih unbroken.of_append_right (Scanner.agree_atRest 0 _) endsBehind behind)
  | @byte scanner before offset byte others spans noChain located ih =>
      have sameOffset : offset + (byte :: others).length = offset + 1 + others.length := by
        rw [List.length_cons]
        omega
      rw [sameOffset] at behind
      have later := ih unbroken.tail (agree.step byte others.head?).2 ends.tail behind
      rw [← Scanner.step_append_lineFeed scanner byte others rest] at later
      refine .byte ?_ later
      intro outside
      have isAtRest := @Scanner.Agree.eq_atRest _ 0 (agree.symm.trans outside)
      rw [isAtRest] at ends
      have same := ends.chainAt?_append identifiers (List.cons_ne_nil byte others) unbroken before
        offset (Byte.lineFeed :: rest)
      exact same.trans (noChain outside)

/-! ## The new text -/

/-- The chains of a text that ends with a statement and of the lines behind
it.  No chain reaches across the end of the statement. -/
theorem locate_append_statement (identifiers : dialect.HasIdentifierWords) {front : Bytes}
    (unbroken : HasUnbrokenBraces front) (ends : Scanner.start.EndsWithStatement 0 front)
    (rest : Bytes) :
    locate dialect (front ++ Byte.lineFeed :: rest) =
      locate dialect front ++ (locate dialect rest).map (Span.shift (front.length + 1)) := by
  have behind : forall before, Locates dialect .start before (0 + front.length)
      (Byte.lineFeed :: rest) ((locate dialect rest).map (Span.shift (front.length + 1))) := by
    intro before
    have notInitial : ¬ StartsInitial dialect (Byte.lineFeed :: rest) := by
      intro starts
      rcases starts.exists_dot identifiers with ⟨first, word, blanks, after, all, -, same⟩
      rcases List.cons.inj same with ⟨rfl, -⟩
      exact absurd (all _ List.mem_cons_self) (by decide)
    have later := (locates_locate identifiers rest).shift (front.length + 1)
    apply Locates.byte
    · exact fun _ => chainAt?_eq_none identifiers (.inr notInitial)
    · rw [Nat.zero_add] at later ⊢
      exact later.of_boundary rfl
  exact (locates_locate identifiers (front ++ Byte.lineFeed :: rest)).unique identifiers
    ((locates_locate identifiers front).append_statement identifiers unbroken (.refl .start) ends
      behind)

theorem inlineChains_of_replaces {source new : Bytes}
    (replaces : Edit.Replaces 0 ((locate dialect source).filterMap (Span.edit? dialect)) source new) :
    (inlineChains dialect source).text source = new ∧
      (inlineChains dialect source).chains =
        ((locate dialect source).filterMap (Span.edit? dialect)).length := by
  have spliced := replaces.splice_eq
  rw [inlineChains]
  split
  · rename_i noEdits
    rw [noEdits] at spliced ⊢
    exact ⟨spliced, rfl⟩
  · exact ⟨spliced, rfl⟩

/-- Where a text ends with a statement, and no quoted braces are broken in it,
the text and what stands on the lines behind it are inlined one by one, and
their chains add up. -/
theorem inlineChains_append_statement (identifiers : dialect.HasIdentifierWords) {front : Bytes}
    (unbroken : HasUnbrokenBraces front)
    (closed : Scanner.start.run none front = Scanner.start)
    (last : ∀ point ∈ (codeBytes front).getLast?, endsStatement point.byte = true)
    (rest : Bytes) :
    (inlineChains dialect (front ++ Byte.lineFeed :: rest)).text
        (front ++ Byte.lineFeed :: rest) =
      (inlineChains dialect front).text front ++
        Byte.lineFeed :: (inlineChains dialect rest).text rest ∧
    (inlineChains dialect (front ++ Byte.lineFeed :: rest)).chains =
      (inlineChains dialect front).chains + (inlineChains dialect rest).chains := by
  rcases (locates_locate identifiers front).replaces identifiers with ⟨newFront, _, inFront, -, -⟩
  rcases (locates_locate identifiers rest).replaces identifiers with ⟨newRest, _, inRest, -, -⟩
  have shifted := inRest.shift (front.length + 1)
  rw [Nat.zero_add] at shifted
  have behind : Edit.Replaces (0 + front.length) _ (Byte.lineFeed :: rest)
      (Byte.lineFeed :: newRest) :=
    Edit.Replaces.prepend [Byte.lineFeed] (by rw [Nat.zero_add]; exact shifted)
  have whole := inFront.append behind
  have located := locate_append_statement identifiers unbroken ⟨closed, last⟩ rest
  rw [← filterMap_edit?_shift, ← List.filterMap_append, ← located] at whole
  rw [(inlineChains_of_replaces whole).1, (inlineChains_of_replaces whole).2,
    (inlineChains_of_replaces inFront).1, (inlineChains_of_replaces inFront).2,
    (inlineChains_of_replaces inRest).1, (inlineChains_of_replaces inRest).2, located,
    List.filterMap_append, filterMap_edit?_shift, List.length_append, List.length_map]
  exact ⟨rfl, rfl⟩

/-- A block that is opened behind a statement whose chain has no terminal
call. -/
def openBlock : String :=
  "log.atInfo().setMessage(\"\x7b\x7d\").addArgument(() -> \"a\" + a); if (b) \x7b/* */"

/-- A chain with a terminal call, behind a call that has one as well. -/
def nextStatement : String :=
  "f().log(); log.atInfo().setMessage(\"\x7b\x7d\").addArgument(() -> \"c\" + c).log();"

theorem inlineChains_append_of_openBlock :
    Dialect.HasIdentifierWords {} ∧ HasUnbrokenBraces (Utf8.ofString openBlock) ∧
      Scanner.start.run none (Utf8.ofString openBlock) = .start ∧
      (∀ point ∈ (codeBytes (Utf8.ofString openBlock)).getLast?,
        endsStatement point.byte = true) ∧
      (inlineChains {} (Utf8.ofString nextStatement)).chains = 1 ∧
      (inlineChains {} (Utf8.ofString openBlock ++ Byte.lineFeed ::
          Utf8.ofString nextStatement)).text
          (Utf8.ofString openBlock ++ Byte.lineFeed :: Utf8.ofString nextStatement) =
        (inlineChains {} (Utf8.ofString openBlock)).text (Utf8.ofString openBlock) ++
          Byte.lineFeed :: (inlineChains {} (Utf8.ofString nextStatement)).text
            (Utf8.ofString nextStatement) :=
  have unbroken : HasUnbrokenBraces (Utf8.ofString openBlock) :=
    hasUnbrokenBraces_of_not_mem (by decide +kernel)
  have closed : Scanner.start.run none (Utf8.ofString openBlock) = .start := by decide +kernel
  have last : ∀ point ∈ (codeBytes (Utf8.ofString openBlock)).getLast?,
      endsStatement point.byte = true := by decide +kernel
  ⟨Dialect.hasIdentifierWords_default, unbroken, closed, last, by decide +kernel,
    (inlineChains_append_statement Dialect.hasIdentifierWords_default unbroken closed last
      (Utf8.ofString nextStatement)).1⟩

/-- A text whose quoted braces stand on the next line of their literal.  For a
scan the quote behind them opens a literal that holds the parenthesis behind
it, so the scan comes to rest. -/
def brokenStatement : String := "log.atInfo().setMessage(\"\n\x7b\x7d\" ) \" );"

def strayCalls : String := ".addArgument(() -> \"a\" + x).log();"

/-- Neither of the two texts holds a chain, but the two together do.  To a
scan the first text is closed, but the search jumps behind the message call,
where the last quote opens a literal that hides the semicolon. -/
theorem brokenStatement_leaks :
    Dialect.HasIdentifierWords {} ∧
      Scanner.start.run none (Utf8.ofString brokenStatement) = .start ∧
      ((codeBytes (Utf8.ofString brokenStatement)).getLast?.map CodeByte.byte) =
        some Byte.semicolon ∧
      (inlineChains {} (Utf8.ofString brokenStatement)).chains = 0 ∧
      (inlineChains {} (Utf8.ofString strayCalls)).chains = 0 ∧
      (inlineChains {} (Utf8.ofString brokenStatement ++ Byte.lineFeed ::
        Utf8.ofString strayCalls)).chains = 1 := by
  decide +kernel

end FluentLog
