import FluentLog.Proofs.Chain.Filling
import FluentLog.Proofs.Chain.Frame
import FluentLog.Proofs.Chain.Passing

namespace FluentLog

/-!
# Chains with a single argument call

A chain `receiver.atLevel().setMessage("{}").addArgument(…).log()` on one line, with a
semicolon behind it, is located as it stands, if it is within the bound.  Its argument
call is its only supplier call, if it is one.
-/

variable {dialect : Dialect}

/-- What stands between the parentheses of a message call without blanks. -/
def bareMessage : Bytes :=
  [Byte.doubleQuote, Byte.openBrace, Byte.closeBrace, Byte.doubleQuote]

theorem isBareMessage_bareMessage : Call.IsBareMessage bareMessage :=
  ⟨[], [], [], [], isBlank_nil, isBlank_nil, isBlank_nil, isBlank_nil, rfl⟩

namespace SingleCall

def initial (dialect : Dialect) (receiver level : String) : Bytes :=
  Utf8.ofString receiver ++ Call.bytes (dialect.levelPrefix ++ level) []

def bytes (dialect : Dialect) (receiver level : String) (inside : Bytes) : Bytes :=
  initial dialect receiver level ++ (Call.bytes dialect.messageMethod bareMessage ++
    (Call.bytes dialect.argumentMethod inside ++ Call.bytes dialect.terminalMethod []))

def messageExtent (dialect : Dialect) (receiver level : String) : Extent :=
  ⟨(initial dialect receiver level).length + 1 + (Utf8.ofString dialect.messageMethod).length + 1,
    (initial dialect receiver level).length + 1 +
      (Utf8.ofString dialect.messageMethod).length + 1 + bareMessage.length⟩

def argumentExtent (dialect : Dialect) (receiver level : String) (inside : Bytes) : Extent :=
  ⟨(initial dialect receiver level).length +
      (Call.bytes dialect.messageMethod bareMessage).length,
    (initial dialect receiver level).length +
      (Call.bytes dialect.messageMethod bareMessage).length +
      (Call.bytes dialect.argumentMethod inside).length⟩

/-- Whether the argument method is named like no other method of a chain. -/
structure NamesApart (dialect : Dialect) (level : String) : Prop where
  level : Utf8.ofString (dialect.levelPrefix ++ level) ≠ Utf8.ofString dialect.argumentMethod
  message : Utf8.ofString dialect.messageMethod ≠ Utf8.ofString dialect.argumentMethod
  terminal : Utf8.ofString dialect.terminalMethod ≠ Utf8.ofString dialect.argumentMethod

variable {receiver level : String} {inside : Bytes}

theorem isInitial (isReceiver : receiver ∈ dialect.receivers) (isLevel : level ∈ dialect.levels) :
    Call.IsInitial dialect (initial dialect receiver level) := by
  refine ⟨receiver, isReceiver, level, isLevel, [], [], [], [], isBlank_nil, isBlank_nil,
    isBlank_nil, isBlank_nil, ?_⟩
  rw [initial, Call.bytes, Utf8.ofString_append]
  simp only [List.append_nil, List.nil_append, List.append_assoc, List.cons_append]

theorem isEnclosed_nil : IsEnclosed [] :=
  isEnclosed_of_plain fun _ member => absurd member List.not_mem_nil

theorem exists_chainAt? (identifiers : dialect.HasIdentifierWords)
    (isReceiver : receiver ∈ dialect.receivers) (isLevel : level ∈ dialect.levels)
    (apart : NamesApart dialect level) (enclosed : IsEnclosed inside)
    (short : (bytes dialect receiver level inside).length ≤ dialect.maxChainLength)
    (rest : Bytes) :
    ∃ span, chainAt? dialect none ⟨0, bytes dialect receiver level inside ++ rest⟩ = some span ∧
      span.start = 0 ∧ span.text = bytes dialect receiver level inside ∧
      span.message = messageExtent dialect receiver level := by
  have split : bytes dialect receiver level inside ++ rest =
      initial dialect receiver level ++ (Call.bytes dialect.messageMethod bareMessage ++
        (Call.bytes dialect.argumentMethod inside ++
          (Call.bytes dialect.terminalMethod [] ++ rest))) := by
    simp only [bytes, List.append_assoc]
  have messageLength := Call.length_bytes dialect.messageMethod bareMessage
  have argumentLength := Call.length_bytes dialect.argumentMethod inside
  have terminalLength := Call.length_bytes dialect.terminalMethod []
  simp only [bytes, List.length_append] at short
  rcases (isInitial isReceiver isLevel).exists_initial? identifiers 0
    (Call.bytes dialect.messageMethod bareMessage ++ (Call.bytes dialect.argumentMethod inside ++
      (Call.bytes dialect.terminalMethod [] ++ rest))) with ⟨call, isCall, atStop⟩
  rw [Nat.zero_add] at atStop
  have behind : (initial dialect receiver level ++ (Call.bytes dialect.messageMethod bareMessage ++
      (Call.bytes dialect.argumentMethod inside ++
        (Call.bytes dialect.terminalMethod [] ++ rest)))).drop (call.stop - 0) =
      Call.bytes dialect.messageMethod bareMessage ++ (Call.bytes dialect.argumentMethod inside ++
        (Call.bytes dialect.terminalMethod [] ++ rest)) :=
    List.drop_left' (by omega)
  have completed : complete dialect (0 + dialect.maxChainLength) .beforeMessage .start call.stop
      (Call.bytes dialect.messageMethod bareMessage ++ (Call.bytes dialect.argumentMethod inside ++
        (Call.bytes dialect.terminalMethod [] ++ rest))) =
      .found (messageExtent dialect receiver level)
        (bytes dialect receiver level inside).length := by
    rw [Scanner.start_eq_atRest, complete_message identifiers isBareMessage_bareMessage (by omega),
      complete_call identifiers identifiers.argumentMethod (Ne.symm apart.terminal) enclosed _
        (by omega),
      complete_terminal identifiers (by omega), atStop]
    congr 1
    simp only [bytes, List.length_append]
    omega
  have boundary : (none : Option UInt8).any isIdentifierByte = false := rfl
  have taken : (bytes dialect receiver level inside ++ rest).take
      ((bytes dialect receiver level inside).length - 0) = bytes dialect receiver level inside :=
    List.take_left' (Nat.sub_zero _).symm
  refine ⟨⟨0, bytes dialect receiver level inside, call.receiver, call.level,
    messageExtent dialect receiver level⟩, ?_, rfl, rfl, rfl⟩
  rw [chainAt?, boundary, if_neg Bool.false_ne_true, split, isCall, Option.bind_some, behind,
    completed]
  simp only
  rw [← split, taken]

theorem exists_locate (identifiers : dialect.HasIdentifierWords)
    (isReceiver : receiver ∈ dialect.receivers) (isLevel : level ∈ dialect.levels)
    (apart : NamesApart dialect level) (enclosed : IsEnclosed inside)
    (short : (bytes dialect receiver level inside).length ≤ dialect.maxChainLength) :
    ∃ span, locate dialect (bytes dialect receiver level inside ++ [Byte.semicolon]) = [span] ∧
      span.start = 0 ∧ span.text = bytes dialect receiver level inside ∧
      span.message = messageExtent dialect receiver level := by
  rcases exists_chainAt? identifiers isReceiver isLevel apart enclosed short [Byte.semicolon] with
    ⟨span, isChain, atStart, spanText, atMessage⟩
  refine ⟨span, ?_, atStart, spanText, atMessage⟩
  have noChain : chainAt? dialect (some Byte.closeParen) ⟨span.stop, [Byte.semicolon]⟩ = none := by
    apply chainAt?_eq_none identifiers
    right
    intro starts
    rcases starts.exists_dot identifiers with ⟨first, word, blanks, after, all, -, same⟩
    have isFirst : Byte.semicolon = first := (List.cons.inj same).1
    exact absurd (all first List.mem_cons_self) (isFirst ▸ by decide)
  rw [← spanText] at isChain ⊢
  have located : Locates dialect .start none 0 (span.text ++ [Byte.semicolon]) [span] :=
    .chain (Scanner.Agree.refl _) isChain (.byte (fun _ => noChain) (.done _ _ _))
  exact (locates_locate identifiers _).unique identifiers located

theorem supplierCalls_eq (identifiers : dialect.HasIdentifierWords)
    (isReceiver : receiver ∈ dialect.receivers) (isLevel : level ∈ dialect.levels)
    (apart : NamesApart dialect level) (enclosed : IsEnclosed inside) {body : Text}
    {extras : List Text}
    (content : CallContent.ofText (Utf8.decode inside) = .supplier body extras) :
    supplierCalls dialect (bytes dialect receiver level inside) =
      [⟨argumentExtent dialect receiver level inside,
        (Fragment.ofConcatenation body).addArguments extras⟩] := by
  rcases identifierWord_spec (identifiers.receiver isReceiver) with ⟨_, _, _, allReceiver⟩
  have noDot : Byte.dot ∉ Utf8.ofString receiver :=
    fun member => absurd (allReceiver _ member) (by decide)
  have plainReceiver : ∀ byte ∈ Utf8.ofString receiver, Scanner.isPlainByte byte = true :=
    fun byte member => Scanner.isPlainByte_of_isIdentifierByte (allReceiver byte member)
  have initialLength : 0 + (Utf8.ofString receiver).length +
      (Call.bytes (dialect.levelPrefix ++ level) []).length =
      (initial dialect receiver level).length := by
    rw [initial, List.length_append, Nat.zero_add]
  have enclosedMessage : IsEnclosed bareMessage :=
    ⟨by simp [bareMessage, Scanner.ClosesOwn, Scanner.start_eq_atRest]; decide, by rfl⟩
  have nothing : supplierCallsFrom dialect (Scanner.atRest 0)
      ((initial dialect receiver level).length +
        (Call.bytes dialect.messageMethod bareMessage).length +
        (Call.bytes dialect.argumentMethod inside).length)
      (Call.bytes dialect.terminalMethod []) = [] := by
    have passed := @supplierCallsFrom_call dialect ((initial dialect receiver level).length +
        (Call.bytes dialect.messageMethod bareMessage).length +
        (Call.bytes dialect.argumentMethod inside).length) 0 [] identifiers dialect.terminalMethod
      identifiers.terminalMethod apart.terminal isEnclosed_nil List.not_mem_nil []
    rw [List.append_nil] at passed
    rw [passed, supplierCallsFrom]
  rw [supplierCalls, bytes, initial, List.append_assoc, supplierCallsFrom_append_of_noDot noDot,
    Scanner.start_eq_atRest, Scanner.run_atRest_plain plainReceiver,
    supplierCallsFrom_call identifiers (identifiers.levelled isLevel) apart.level
      isEnclosed_nil List.not_mem_nil, initialLength,
    supplierCallsFrom_call identifiers identifiers.messageMethod apart.message enclosedMessage
      isBareMessage_bareMessage.dot_not_mem,
    supplierCallsFrom_supplier identifiers enclosed content, nothing, argumentExtent]

theorem splice_edits {span : Span} {plan : Plan} {new : Bytes} (message : Text)
    (spanText : span.text = bytes dialect receiver level inside) (atStart : span.start = 0)
    (atMessage : span.message = messageExtent dialect receiver level)
    (isEdit : plan.callEdits = [⟨argumentExtent dialect receiver level inside, new⟩]) :
    Edit.splice span.text (plan.edits span message) =
      initial dialect receiver level ++ Call.bytes dialect.messageMethod (Utf8.encode message) ++
        new ++ Call.bytes dialect.terminalMethod [] := by
  have messageLength := Call.length_bytes dialect.messageMethod bareMessage
  have inFront : ¬ (initial dialect receiver level).length +
      (Call.bytes dialect.messageMethod bareMessage).length ≤
        (initial dialect receiver level).length + 1 +
          (Utf8.ofString dialect.messageMethod).length + 1 := by
    omega
  generalize isGap : initial dialect receiver level ++
    (Byte.dot :: Utf8.ofString dialect.messageMethod ++ [Byte.openParen]) = gap
  have gapLength : (initial dialect receiver level).length + 1 +
      (Utf8.ofString dialect.messageMethod).length + 1 = 0 + gap.length := by
    rw [← isGap]
    simp only [List.length_append, List.length_cons, List.length_nil]
    omega
  have callStart : (initial dialect receiver level).length +
      (Call.bytes dialect.messageMethod bareMessage).length =
        0 + gap.length + bareMessage.length + [Byte.closeParen].length := by
    simp only [List.length_cons, List.length_nil]
    omega
  have replaces := @Edit.Replaces.edit 0 _ _ _ gap bareMessage (Utf8.encode message)
    (.edit [Byte.closeParen] (Call.bytes dialect.argumentMethod inside) new
      (.done _ (Call.bytes dialect.terminalMethod [])))
  have ordered : plan.edits span message =
      [⟨⟨0 + gap.length, 0 + gap.length + bareMessage.length⟩, Utf8.encode message⟩,
        ⟨⟨0 + gap.length + bareMessage.length + [Byte.closeParen].length,
          0 + gap.length + bareMessage.length + [Byte.closeParen].length +
            (Call.bytes dialect.argumentMethod inside).length⟩, new⟩] := by
    rw [Plan.edits, isEdit, atStart, atMessage, messageExtent, argumentExtent, Edit.insert]
    simp only [Nat.sub_zero, inFront, if_false]
    rw [callStart, gapLength]
  have text : span.text = gap ++ bareMessage ++ ([Byte.closeParen] ++
      Call.bytes dialect.argumentMethod inside ++ Call.bytes dialect.terminalMethod []) := by
    rw [spanText, bytes, ← isGap, Call.bytes]
    simp only [List.append_assoc, List.cons_append, List.nil_append]
  rw [ordered, text, replaces.splice_eq, ← isGap]
  simp only [Call.bytes, List.append_assoc, List.cons_append, List.nil_append]

theorem edit?_eq (identifiers : dialect.HasIdentifierWords)
    (isReceiver : receiver ∈ dialect.receivers) (isLevel : level ∈ dialect.levels)
    (apart : NamesApart dialect level) (enclosed : IsEnclosed inside) {body : Text}
    (content : CallContent.ofText (Utf8.decode inside) = .supplier body []) {span : Span}
    (atStart : span.start = 0) (spanText : span.text = bytes dialect receiver level inside)
    (atMessage : span.message = messageExtent dialect receiver level) :
    span.edit? dialect =
      if (Fragment.ofConcatenation body).template.isEmpty then none
      else (Fragment.ofConcatenation body).template.literal?.map fun message =>
        ⟨⟨span.start, span.stop⟩, initial dialect receiver level ++
          Call.bytes dialect.messageMethod (Utf8.encode message) ++
          Utf8.encode (Plan.argumentCalls dialect (Fragment.ofConcatenation body).arguments) ++
          Call.bytes dialect.terminalMethod []⟩ := by
  have calls := supplierCalls_eq identifiers isReceiver isLevel apart enclosed content
  have normal := Fragment.isNormal_ofConcatenation body
  generalize Fragment.ofConcatenation body = fragment at calls normal ⊢
  have plan : Plan.ofSpan dialect span = ⟨fragment.template, fragment.arguments,
      [⟨argumentExtent dialect receiver level inside,
        Utf8.encode (Plan.argumentCalls dialect fragment.arguments)⟩]⟩ :=
    Plan.ofSpan_eq_of_single (by rw [spanText, calls]) normal
  have spliced := fun message => splice_edits message spanText atStart atMessage
    (congrArg Plan.callEdits plan)
  rw [Span.edit?, Span.inlined?, Span.outcome]
  rw [plan] at spliced ⊢
  by_cases isEmpty : fragment.template.isEmpty = true
  · simp only [isEmpty, if_true, Option.map_none]
  · cases isMessage : fragment.template.literal? with
    | none => simp only [isEmpty, Bool.false_eq_true, if_false, Option.map_none]
    | some message =>
        simp only [isEmpty, Bool.false_eq_true, if_false, Option.map_some, spliced]

/-- An edit of a whole span leaves what stands behind it. -/
theorem splice_behind {span : Span} (atStart : span.start = 0) (rest new : Bytes) :
    Edit.splice (span.text ++ rest) [⟨⟨span.start, span.stop⟩, new⟩] = new ++ rest := by
  have replaces := @Edit.Replaces.edit 0 _ _ _ [] span.text new (.done _ rest)
  have stop : span.stop = 0 + ([] : Bytes).length + span.text.length := by
    rw [Span.stop, atStart]
    rfl
  rw [stop, atStart]
  exact replaces.splice_eq

theorem inlineChains_eq (identifiers : dialect.HasIdentifierWords)
    (isReceiver : receiver ∈ dialect.receivers) (isLevel : level ∈ dialect.levels)
    (apart : NamesApart dialect level) (enclosed : IsEnclosed inside)
    (short : (bytes dialect receiver level inside).length ≤ dialect.maxChainLength) {body : Text}
    (content : CallContent.ofText (Utf8.decode inside) = .supplier body []) :
    inlineChains dialect (bytes dialect receiver level inside ++ [Byte.semicolon]) =
      if (Fragment.ofConcatenation body).template.isEmpty then .unchanged
      else
        match (Fragment.ofConcatenation body).template.literal? with
        | none => .unchanged
        | some message =>
            .inlined (initial dialect receiver level ++
              Call.bytes dialect.messageMethod (Utf8.encode message) ++
              Utf8.encode (Plan.argumentCalls dialect (Fragment.ofConcatenation body).arguments) ++
              Call.bytes dialect.terminalMethod [] ++ [Byte.semicolon]) 1 := by
  rcases exists_locate identifiers isReceiver isLevel apart enclosed short with
    ⟨span, located, atStart, spanText, atMessage⟩
  have edit := edit?_eq identifiers isReceiver isLevel apart enclosed content atStart spanText
    atMessage
  have replaced := splice_behind atStart [Byte.semicolon]
  rw [spanText] at replaced
  rw [inlineChains, located]
  split_ifs at edit ⊢ with isEmpty
  · rw [List.filterMap_cons_none edit]
    rfl
  · cases isMessage : (Fragment.ofConcatenation body).template.literal? with
    | none =>
        rw [isMessage] at edit
        rw [List.filterMap_cons_none edit]
        rfl
    | some message =>
        rw [isMessage] at edit
        rw [List.filterMap_cons_some edit]
        exact congrArg (Inlining.inlined · 1) (replaced _)

end SingleCall
end FluentLog
