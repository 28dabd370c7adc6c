import FluentLog.Chain.Plan
import FluentLog.Proofs.Expression.Literal
import FluentLog.Proofs.Message.Concatenation

namespace FluentLog

/-!
# Which argument fills which placeholder

A chain that is inlined keeps its plain argument calls, and at run time they take
placeholders like any others.  The new message therefore prints what the merged
template stands for, whatever the values, exactly if the chain's argument calls begin
with those of the plan, in order, and any further ones find no braces behind the last
placeholder.  A plain call in front of a supplier breaks this, and so does one behind
the suppliers where the text behind the last placeholder has braces of its own.
-/

variable {dialect : Dialect}

/-! ## The arguments of a chain -/

/-- The argument texts of the argument calls outside all parentheses, in
order, without the blanks around them.  What stands behind a call that is
never closed is not read. -/
def argumentTextsFrom (dialect : Dialect) (scanner : Scanner) : Bytes -> List Text
  | [] => []
  | byte :: rest =>
      match scanner.step byte rest.head? with
      | (some 0, next) =>
          if byte = Byte.dot then
            match Call.argument? dialect ⟨0, rest⟩ with
            | none => argumentTextsFrom dialect next rest
            | some opened =>
                match closingParen? opened.rest with
                | none => []
                | some length =>
                    Text.trim (Utf8.decode (opened.rest.take length)) ::
                      argumentTextsFrom dialect next (rest.drop (opened.offset + length + 1))
          else argumentTextsFrom dialect next rest
      | (_, next) => argumentTextsFrom dialect next rest
termination_by text => text.length
decreasing_by all_goals grind

/-- The arguments that a chain passes at run time, in order. -/
def argumentTexts (dialect : Dialect) (chain : Bytes) : List Text :=
  argumentTextsFrom dialect .start chain

/-! ## Plans -/

theorem isNormal_of_mem_supplierCallsFrom {scanner : Scanner} {offset : Nat} {text : Bytes}
    {call : SupplierCall} (member : call ∈ supplierCallsFrom dialect scanner offset text) :
    call.fragment.IsNormal := by
  fun_induction supplierCallsFrom dialect scanner offset text with
  | case1 => cases member
  | case2 scanner offset byte rest next read ih => exact ih member
  | case3 scanner offset rest depth next notOpened read ih => exact ih member
  | case4 => cases member
  | case5 scanner offset rest depth next opened isOpened length closes stop later body extras
      content fragment read ih =>
      rcases List.mem_cons.mp member with rfl | inLater
      · exact (Fragment.isNormal_ofConcatenation body).addArguments extras
      · exact ih inLater
  | case6 scanner offset rest depth next opened isOpened length closes stop later content read
      ih => exact ih member
  | case7 scanner offset byte rest depth next read notDot ih => exact ih member

theorem Plan.isNormal_ofSpan (span : Span) :
    (Plan.ofSpan dialect span).template.IsNormal ∧
      (Plan.ofSpan dialect span).template.placeholderCount =
        (Plan.ofSpan dialect span).arguments.length := by
  have merged : forall (calls : List SupplierCall) (plan : Plan),
      (∀ call ∈ calls, call.fragment.IsNormal) -> plan.template.IsNormal ->
      plan.template.placeholderCount = plan.arguments.length ->
      (calls.foldl (Plan.addCall dialect) plan).template.IsNormal ∧
        (calls.foldl (Plan.addCall dialect) plan).template.placeholderCount =
          (calls.foldl (Plan.addCall dialect) plan).arguments.length := by
    intro calls
    induction calls with
    | nil => exact fun plan _ normal count => ⟨normal, count⟩
    | cons call calls ih =>
        intro plan fragments normal count
        apply ih
        · exact fun other member => fragments other (List.mem_cons_of_mem call member)
        · exact normal.separate.append call.fragment.template
        · have fragment := fragments call List.mem_cons_self
          rw [Plan.addCall, Template.placeholderCount_append, Template.placeholderCount_separate,
            count, fragment.placeholderCount, List.length_append]
  exact merged _ Plan.empty (fun _ member => isNormal_of_mem_supplierCallsFrom member)
    Template.isNormal_empty rfl

theorem Plan.ofSpan_eq_of_single {span : Span} {call : SupplierCall}
    (single : supplierCalls dialect span.text = [call]) (normal : call.fragment.IsNormal) :
    Plan.ofSpan dialect span = ⟨call.fragment.template, call.fragment.arguments,
      [⟨call.extent, Utf8.encode (Plan.argumentCalls dialect call.fragment.arguments)⟩]⟩ := by
  have template : Template.empty.separate.append call.fragment.template = call.fragment.template :=
    Template.empty_append normal.template
  rw [Plan.ofSpan, single, List.foldl_cons, List.foldl_nil, Plan.addCall]
  simp only [Plan.empty, template, List.nil_append]

/-! ## The new message -/

/-- A chain that is inlined prints what its merged template stands for, for
all values of its arguments, exactly if its argument calls begin with the
plan's arguments and the others find no braces behind the last placeholder. -/
theorem forall_prints_template_iff {span : Span} {plan : Plan} {edits : List Edit}
    (isInlined : span.outcome dialect = .inlined plan edits) :
    ∃ message pattern, edits = plan.edits span message ∧ Literal.decode message = some pattern ∧
      ((forall value : Text -> Text,
          Formatter.format pattern
              ((argumentTexts dialect (Edit.splice span.text edits)).map value) =
            plan.template.fill (plan.arguments.map value)) ↔
        (argumentTexts dialect (Edit.splice span.text edits)).take plan.arguments.length =
            plan.arguments ∧
          ((argumentTexts dialect (Edit.splice span.text edits)).length = plan.arguments.length ∨
            ¬ placeholderMark <:+: plan.template.trailing)) := by
  rw [Span.outcome] at isInlined
  split at isInlined
  · cases isInlined
  · split at isInlined
    · cases isInlined
    · rename_i message isMessage
      injection isInlined with isPlan isEdits
      rcases Option.map_eq_some_iff.mp isMessage with ⟨pattern, isPattern, rfl⟩
      rcases @Plan.isNormal_ofSpan dialect span with ⟨normal, count⟩
      rw [isPlan] at isPattern normal count isEdits
      exact ⟨Literal.quote pattern, pattern, isEdits.symm, Literal.decode_quote pattern,
        Formatter.forall_format_eq_fill_iff normal isPattern count _⟩

/-- A chain with a plain argument call behind its supplier. -/
def supplierFirst : Span where
  start := 0
  text := Utf8.ofString ("log.atInfo().setMessage(\"\x7b\x7d\").addArgument(() -> \"a=\" + a)" ++
    ".addArgument(x).log()")
  receiver := "log"
  level := "Info"
  message := ⟨24, 28⟩

/-- Behind the suppliers a plain call takes no placeholder of theirs. -/
theorem supplierFirst_prints_template :
    supplierFirst.outcome {} = .inlined (Plan.ofSpan {} supplierFirst)
      ((Plan.ofSpan {} supplierFirst).edits supplierFirst "\"a=\x7b\x7d\"".toList) ∧
    ∃ pattern, forall value : Text -> Text,
      Formatter.format pattern ((argumentTexts {} (Edit.splice supplierFirst.text
        ((Plan.ofSpan {} supplierFirst).edits supplierFirst
          "\"a=\x7b\x7d\"".toList))).map value) =
        (Plan.ofSpan {} supplierFirst).template.fill
          ((Plan.ofSpan {} supplierFirst).arguments.map value) := by
  have isInlined : supplierFirst.outcome {} = .inlined (Plan.ofSpan {} supplierFirst)
      ((Plan.ofSpan {} supplierFirst).edits supplierFirst "\"a=\x7b\x7d\"".toList) := by
    decide +kernel
  refine ⟨isInlined, ?_⟩
  rcases forall_prints_template_iff isInlined with ⟨message, pattern, -, -, prints⟩
  exact ⟨pattern, prints.mpr (by decide +kernel)⟩

/-- A chain with a supplier behind a plain argument call, on its own. -/
def plainCallFirst : Span where
  start := 0
  text := Utf8.ofString ("log.atInfo().setMessage(\"\x7b\x7d\").addArgument(x)" ++
    ".addArgument(() -> \"a=\" + a).log()")
  receiver := "log"
  level := "Info"
  message := ⟨24, 28⟩

/-- A plain call in front of a supplier takes the placeholder of the
supplier's argument.  Its own value is shown in the message, and the argument
is not shown. -/
theorem plainCallFirst_prints_other :
    plainCallFirst ∈ locate {} (plainCallFirst.text ++ [Byte.semicolon]) ∧
    ∃ plan edits message pattern, plainCallFirst.outcome {} = .inlined plan edits ∧
      edits = plan.edits plainCallFirst message ∧ Literal.decode message = some pattern ∧
      ∃ value : Text -> Text,
        Formatter.format pattern
            ((argumentTexts {} (Edit.splice plainCallFirst.text edits)).map value) ≠
          plan.template.fill (plan.arguments.map value) := by
  refine ⟨by decide +kernel, Plan.ofSpan {} plainCallFirst,
    (Plan.ofSpan {} plainCallFirst).edits plainCallFirst "\"a=\x7b\x7d\"".toList,
    "\"a=\x7b\x7d\"".toList, "a=\x7b\x7d".toList, by decide +kernel, rfl, by decide +kernel,
    id, by decide +kernel⟩

end FluentLog
