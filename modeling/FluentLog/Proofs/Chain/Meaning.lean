import FluentLog.Proofs.Chain.SingleCall
import FluentLog.Proofs.Expression.Concatenation
import FluentLog.Proofs.Expression.Supplier
import FluentLog.Proofs.Message.Concatenation

namespace FluentLog

/-!
# A chain that is inlined logs what its supplier gives

A chain whose supplier concatenates literals and identifiers is inlined to one whose
message, formatted with the values of the identifiers, is the concatenation.  It stays
as it is only if there is nothing to print or if no pattern prints it.
-/

/-! ## The argument of a concatenation -/

namespace Operand

variable {operands : List Operand}

/-- A concatenation begins with a literal or an identifier. -/
theorem exists_head_concatenation (simple : ∀ operand ∈ operands, operand.IsSimple)
    (nonempty : operands ≠ []) :
    ∃ first rest, concatenation operands = first :: rest ∧ isBlank first = false ∧
      first ≠ '(' ∧ first ≠ '{' := by
  have written : forall {operand : Operand}, operand.IsSimple ->
      ∃ first rest, operand.written = first :: rest ∧ isBlank first = false ∧
        first ≠ '(' ∧ first ≠ '{' := by
    intro operand isSimple
    cases operand with
    | literal content => exact ⟨'"', _, rfl, by decide, by decide, by decide⟩
    | expression code =>
        rcases isSimple with ⟨notEmpty, isName⟩
        cases code with
        | nil => exact absurd rfl notEmpty
        | cons first rest =>
            have isFirst := isName first List.mem_cons_self
            exact ⟨first, rest, rfl, not_isBlank_of_isNameCharacter isFirst,
              ne_of_isNameCharacter isFirst (by decide), ne_of_isNameCharacter isFirst (by decide)⟩
  cases operands with
  | nil => exact absurd rfl nonempty
  | cons operand rest =>
      rcases written (simple operand List.mem_cons_self) with ⟨first, others, isWritten, plain⟩
      cases rest with
      | nil => exact ⟨first, others, by rw [concatenation_singleton, isWritten], plain⟩
      | cons second rest =>
          refine ⟨first, others ++ [' ', '+', ' '] ++ concatenation (second :: rest), ?_, plain⟩
          rw [concatenation_cons_cons, isWritten]
          simp

def supplier (operands : List Operand) : Text := "() -> ".toList ++ concatenation operands

theorem ofText_supplier (simple : ∀ operand ∈ operands, operand.IsSimple)
    (nonempty : operands ≠ []) :
    CallContent.ofText (supplier operands) = .supplier (concatenation operands) [] := by
  have supplies : IsSupplierOf (concatenation operands) (supplier operands) :=
    ⟨[], [], [' '], [' '], [], by decide, by decide, by decide, by decide, by decide,
      (List.append_nil _).symm⟩
  rcases exists_head_concatenation simple nonempty with
    ⟨first, rest, isConcatenation, notBlank, notOpen, notBrace⟩
  apply supplies.ofText_eq ((passes_concatenation simple 0).reads (by simp) (by simp))
    (isTight_concatenation simple nonempty)
  · rw [isConcatenation]
    exact Supplier.isSupplier_of_not_paren notBlank notOpen
  · rw [isConcatenation]
    exact Supplier.returned?_of_not_brace notBlank notBrace

theorem isEnclosed_supplier (simple : ∀ operand ∈ operands, operand.IsSimple) :
    IsEnclosed (Utf8.encode (supplier operands)) := by
  have passes := passes_concatenation simple 0
  have inert : Cursor.IsInert ⟨0, .none⟩ (Utf8.encode (concatenation operands)) :=
    passes.1.isInert (by simp) (by simp) (by simp)
  have back : Scanner.run ⟨⟨0, .none⟩, .code⟩ (some Byte.closeParen)
      (Utf8.encode (concatenation operands)) = Scanner.atRest 0 := by
    rw [inert.run, Cursor.feed_encode, passes.2]
    rfl
  have arrowBytes : Utf8.encode "() -> ".toList =
      [Byte.openParen, Byte.closeParen, 0x20, 0x2D, 0x3E, 0x20] := rfl
  have arrow : forall ahead : Option UInt8,
      Scanner.start.run ahead (Utf8.encode "() -> ".toList) = Scanner.atRest 0 ∧
        Scanner.start.ClosesOwn ahead (Utf8.encode "() -> ".toList) := by
    intro ahead
    rw [arrowBytes]
    have plain : ∀ byte ∈ [0x20, 0x2D, 0x3E, 0x20], Scanner.isPlainByte byte = true :=
      List.all_eq_true.mp (by decide)
    refine ⟨rfl, fun closes => absurd closes.1 (by decide), ?_,
      Scanner.closesOwn_plain plain 0 ahead⟩
    exact fun closes => absurd closes.2 (by simp [Scanner.start_eq_atRest,
      Scanner.step_atRest_open, Scanner.step_atRest_close])
  rw [supplier, Utf8.encode_append]
  constructor
  · apply Scanner.ClosesOwn.append (arrow _).2
    rw [(arrow _).1]
    exact inert.closesOwn _
  · rw [Scanner.run_append, (arrow _).1]
    exact back

end Operand

/-! ## The chain before and after -/

def supplierChain (receiver level : String) (operands : List Operand) : Text :=
  receiver.toList ++ ".at".toList ++ level.toList ++ "().setMessage(\"\x7b\x7d\")".toList ++
    ".addArgument(() -> ".toList ++ Operand.concatenation operands ++ ").log()".toList

def directChain (receiver level : String) (message : Text) (arguments : List Text) : Text :=
  receiver.toList ++ ".at".toList ++ level.toList ++ "().setMessage(".toList ++ message ++
    ")".toList ++ (arguments.flatMap fun argument => ".addArgument(".toList ++ argument ++ [')']) ++
    ".log()".toList

theorem encode_supplierChain (receiver level : String) (operands : List Operand) :
    Utf8.encode (supplierChain receiver level operands) =
      SingleCall.bytes {} receiver level (Utf8.encode (Operand.supplier operands)) := by
  have at' : Utf8.encode ".at".toList = Byte.dot :: Utf8.ofString "at" := rfl
  have setMessage : Utf8.encode "().setMessage(\"\x7b\x7d\")".toList =
      Byte.openParen :: Byte.closeParen :: Byte.dot :: (Utf8.ofString "setMessage" ++
        Byte.openParen :: (bareMessage ++ [Byte.closeParen])) := rfl
  have addArgument : Utf8.encode ".addArgument(() -> ".toList =
      Byte.dot :: (Utf8.ofString "addArgument" ++
        Byte.openParen :: Utf8.encode "() -> ".toList) := rfl
  have log : Utf8.encode ").log()".toList =
      Byte.closeParen :: Byte.dot :: (Utf8.ofString "log" ++
        [Byte.openParen, Byte.closeParen]) := rfl
  rw [supplierChain, SingleCall.bytes, SingleCall.initial, Operand.supplier]
  simp only [Utf8.encode_append, at', setMessage, addArgument, log, Call.bytes,
    Utf8.ofString_append, List.append_assoc, List.cons_append, List.nil_append]
  rfl

theorem encode_directChain (receiver level : String) (message : Text) (arguments : List Text) :
    Utf8.encode (directChain receiver level message arguments) =
      SingleCall.initial {} receiver level ++ Call.bytes "setMessage" (Utf8.encode message) ++
        Utf8.encode (Plan.argumentCalls {} arguments) ++ Call.bytes "log" [] := by
  have at' : Utf8.encode ".at".toList = Byte.dot :: Utf8.ofString "at" := rfl
  have setMessage : Utf8.encode "().setMessage(".toList =
      Byte.openParen :: Byte.closeParen :: Byte.dot :: (Utf8.ofString "setMessage" ++
        [Byte.openParen]) := rfl
  have closing : Utf8.encode ")".toList = [Byte.closeParen] := rfl
  have log : Utf8.encode ".log()".toList =
      Byte.dot :: (Utf8.ofString "log" ++ [Byte.openParen, Byte.closeParen]) := rfl
  have calls : (arguments.flatMap fun argument => ".addArgument(".toList ++ argument ++ [')']) =
      Plan.argumentCalls {} arguments := by
    rw [Plan.argumentCalls]
    congr 1
  rw [directChain, calls, SingleCall.initial]
  simp only [Utf8.encode_append, at', setMessage, closing, log, Call.bytes,
    Utf8.ofString_append, List.append_assoc, List.cons_append, List.nil_append]
  rfl

theorem namesApart_default : ∀ level ∈ ({} : Dialect).levels, SingleCall.NamesApart {} level := by
  have levels : ∀ level ∈ ({} : Dialect).levels,
      Utf8.ofString ("at" ++ level) ≠ Utf8.ofString "addArgument" := by
    decide +kernel
  exact fun level isLevel => ⟨levels level isLevel, by decide +kernel, by decide +kernel⟩

/-- A chain within the bound whose supplier concatenates literals and
identifiers stays as it is exactly if all operands are empty literals or a run
of literals in front of an identifier holds a backslash with braces behind it.
Otherwise it is inlined, its argument calls carry the identifiers in order,
and its message is formatted to what the concatenation gives. -/
theorem supplierChain_logs_same_text {receiver level : String} {operands : List Operand}
    (isReceiver : receiver ∈ ({} : Dialect).receivers) (isLevel : level ∈ ({} : Dialect).levels)
    (simple : ∀ operand ∈ operands, operand.IsSimple) (nonempty : operands ≠ [])
    (short : (Utf8.encode (supplierChain receiver level operands)).length ≤
      ({} : Dialect).maxChainLength) :
    (inlineChains {} (Utf8.encode (supplierChain receiver level operands ++ [';'])) = .unchanged ↔
      (∀ operand ∈ operands, operand = .literal []) ∨ Operand.HasUnprintableRun operands) ∧
    (¬ ((∀ operand ∈ operands, operand = .literal []) ∨ Operand.HasUnprintableRun operands) ->
      ∃ message pattern,
        inlineChains {} (Utf8.encode (supplierChain receiver level operands ++ [';'])) =
          .inlined (Utf8.encode (directChain receiver level message
            (Operand.expressions operands) ++ [';'])) 1 ∧
        Literal.decode message = some pattern ∧
        forall value : Text -> Text,
          Formatter.format pattern ((Operand.expressions operands).map value) =
            Operand.evaluate value operands) := by
  have content : CallContent.ofText (Utf8.decode (Utf8.encode (Operand.supplier operands))) =
      .supplier (Operand.concatenation operands) [] := by
    rw [Utf8.decode_encode]
    exact Operand.ofText_supplier simple nonempty
  have semicolon : Utf8.encode [';'] = [Byte.semicolon] := rfl
  have fragment : Fragment.ofConcatenation (Operand.concatenation operands) =
      ⟨⟨Template.segmentsFrom [] operands⟩, Operand.expressions operands⟩ := by
    rw [Fragment.ofConcatenation_eq, Operand.ofConcatenation_concatenation simple nonempty]
  rw [encode_supplierChain] at short
  have whole := SingleCall.inlineChains_eq Dialect.hasIdentifierWords_default isReceiver isLevel
    (namesApart_default level isLevel) (Operand.isEnclosed_supplier simple) short content
  rw [← encode_supplierChain, ← semicolon, ← Utf8.encode_append, fragment] at whole
  have empty := @Template.isEmpty_segmentsFrom_iff operands
  by_cases allEmpty : ∀ operand ∈ operands, operand = .literal []
  · rw [if_pos (empty.mpr allEmpty)] at whole
    exact ⟨⟨fun _ => .inl allEmpty, fun _ => whole⟩, fun printable => absurd (.inl allEmpty) printable⟩
  · rw [if_neg (fun isEmpty => allEmpty (empty.mp isEmpty)), Template.literal?] at whole
    cases isPattern : (Template.mk (Template.segmentsFrom [] operands)).pattern? with
    | none =>
        have unprintable := Template.pattern?_segmentsFrom_eq_none_iff.mp isPattern
        rw [isPattern] at whole
        exact ⟨⟨fun _ => .inr unprintable, fun _ => whole⟩,
          fun printable => absurd (.inr unprintable) printable⟩
    | some pattern =>
        have printable : ¬ Operand.HasUnprintableRun operands := by
          intro unprintable
          have noPattern := Template.pattern?_segmentsFrom_eq_none_iff.mpr unprintable
          cases isPattern.symm.trans noPattern
        rw [isPattern] at whole
        constructor
        · constructor
          · intro unchanged
            cases whole.symm.trans unchanged
          · rintro (isEmpty | unprintable)
            · exact absurd isEmpty allEmpty
            · exact absurd unprintable printable
        · intro _
          refine ⟨Literal.quote pattern, pattern, ?_, Literal.decode_quote pattern, ?_⟩
          · rw [whole, Utf8.encode_append, encode_directChain, semicolon]
            rfl
          · intro value
            rw [Template.format_segmentsFrom isPattern (List.length_map value),
              Operand.fill_expressions]

/-- A message of text with braces, an identifier and a text with a backslash
at its end. -/
theorem supplierChain_logs_same_text_escaped :
    ∃ message pattern,
      inlineChains {} (Utf8.encode (supplierChain "log" "Info"
          [.literal "\x7b\x7d\\".toList, .expression "a".toList, .literal "\"\n".toList] ++ [';'])) =
        .inlined (Utf8.encode (directChain "log" "Info" message ["a".toList] ++ [';'])) 1 ∧
      Literal.decode message = some pattern ∧
      forall value : Text -> Text,
        Formatter.format pattern [value "a".toList] =
          "\x7b\x7d\\".toList ++ (value "a".toList ++ ("\"\n".toList ++ [])) := by
  have printable : ¬ ((∀ operand ∈ [Operand.literal "\x7b\x7d\\".toList, .expression "a".toList,
      .literal "\"\n".toList], operand = .literal []) ∨ Operand.HasUnprintableRun
        [.literal "\x7b\x7d\\".toList, .expression "a".toList, .literal "\"\n".toList]) := by
    rw [← Operand.hasUnprintableRunFrom_nil_iff]
    decide +kernel
  exact (supplierChain_logs_same_text (by decide) (by decide) (by decide +kernel) (by simp)
    (by decide +kernel)).2 printable

end FluentLog
