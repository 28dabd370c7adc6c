import FluentLog.Proofs.Chain.Filling
import FluentLog.Proofs.Chain.Structure
import FluentLog.Proofs.Expression.Reading
import FluentLog.Proofs.Expression.Supplier

namespace FluentLog

/-!
# When a chain logs what its supplier evaluates to

A supplier's body is cut at its own plus signs, and each piece that is no literal becomes
an argument.  At run time the message shows the pieces one by one.  That is what the body
evaluates to if there is a text among its first two operands, but not if it begins with
numbers, which are added, and not if it is the second choice of a test that takes in more
than one piece.
-/

variable {dialect : Dialect}

/-! ## Suppliers of a body -/

/-- No operand begins a supplier, since its parentheses are not empty. -/
theorem Term.isSupplier_append (term : Term) (proper : term.IsProper) (more : Text) :
    Supplier.isSupplier (term.written ++ more) = false := by
  have word : forall {number : Bool} {code : Text}, IsWord number code ->
      Supplier.isSupplier (code ++ more) = false := by
    intro number code word
    rcases word.exists_head with ⟨first, rest, rfl, isWord⟩
    exact Supplier.isSupplier_of_not_paren (not_isBlank_of_isWordCharacter isWord)
      (ne_of_isWordCharacter isWord (by decide))
  have quoted : forall {code : Text} {quote : Char}, code.head? = some quote ->
      isBlank quote = false -> quote ≠ '(' -> Supplier.isSupplier (code ++ more) = false := by
    intro code quote isHead
    rcases List.head?_eq_some_iff.mp isHead with ⟨rest, rfl⟩
    exact Supplier.isSupplier_of_not_paren
  cases term with
  | string code content => exact quoted proper.2 (by decide) (by decide)
  | character code content => exact quoted proper.2 (by decide) (by decide)
  | integer code number => exact word proper.1
  | name code => exact word proper
  | parens left inner right =>
      rcases proper with ⟨blankLeft, proper, -⟩
      rcases inner.exists_head proper with ⟨first, rest, isInner, opens⟩
      have notParen : first ≠ ')' := ne_of_isOpener opens (by decide)
      have whole : (Term.parens left inner right).written ++ more =
          '(' :: (left ++ (first :: (rest ++ right ++ [')'] ++ more))) := by
        rw [Term.written, isInner]
        simp only [List.append_assoc, List.cons_append]
      rw [whole]
      exact Supplier.isSupplier_of_not_empty blankLeft (not_isBlank_of_isOpener opens) notParen

namespace Body

variable {body : Body}

/-- What stands in a supplier of a body is read as that, without further
arguments. -/
theorem ofText_supplier (proper : body.IsProper) {argument : Text}
    (supplies : IsSupplierOf body.written argument) :
    CallContent.ofText argument = .supplier body.written [] := by
  rcases proper.exists_term with ⟨term, more, properTerm, isWritten⟩
  apply supplies.ofText_eq proper.reads proper.isTight
  · rw [isWritten]
    exact term.isSupplier_append properTerm more
  · rcases term.exists_head properTerm with ⟨first, rest, isTerm, opens⟩
    have notBrace : first ≠ '{' := ne_of_isOpener opens (by decide)
    rw [isWritten, isTerm, List.cons_append]
    exact Supplier.returned?_of_not_brace (not_isBlank_of_isOpener opens) notBrace

/-! ## The pieces as arguments -/

/-- The arguments that pieces become: all but the literals, with collapsed
blanks. -/
def argumentsOf (pieces : List Body) : List Body :=
  (pieces.filter fun piece => piece.literal?.isNone).map collapsed

theorem isProper_of_mem_argumentsOf {pieces : List Body}
    (proper : ∀ piece ∈ pieces, piece.IsProper) :
    ∀ argument ∈ argumentsOf pieces, argument.IsProper := by
  intro argument member
  rcases List.mem_map.mp member with ⟨piece, isPiece, rfl⟩
  exact (proper piece (List.mem_filter.mp isPiece).1).collapsed

theorem expressions_map_operand (pieces : List Body) :
    Operand.expressions (pieces.map operand) = (argumentsOf pieces).map written := by
  induction pieces with
  | nil => rfl
  | cons piece pieces ih =>
      rw [List.map_cons, operand, argumentsOf, List.filter_cons]
      cases piece.literal? with
      | none => exact congrArg _ ih
      | some content => exact ih

theorem display_evaluate_of_literal? (environment : Environment) {piece : Body} {content : Text}
    (isLiteral : piece.literal? = some content) :
    (piece.evaluate environment).display = content := by
  rcases piece with ⟨test, sum⟩
  cases test with
  | some test => cases isLiteral
  | none =>
      cases sum with
      | more term left right rest => cases isLiteral
      | last term =>
          cases term with
          | string code text => exact Option.some.inj isLiteral
          | character code letter => exact Option.some.inj isLiteral
          | integer code number => cases isLiteral
          | name code => cases isLiteral
          | parens left inner right => cases isLiteral

/-- With the values of the arguments in their places the pieces are shown one
by one. -/
theorem fill_map_operand (environment : Environment) (pieces : List Body) :
    Operand.fill (pieces.map operand)
        ((argumentsOf pieces).map fun argument => (argument.evaluate environment).display) =
      pieces.flatMap fun piece => (piece.evaluate environment).display := by
  induction pieces with
  | nil => rfl
  | cons piece pieces ih =>
      rw [List.map_cons, operand, argumentsOf, List.filter_cons, List.flatMap_cons, ← ih]
      cases isLiteral : piece.literal? with
      | none =>
          have same := evaluate_collapsed environment piece
          simp only [Option.isNone_none, if_true, List.map_cons, Operand.fill, same]
          rfl
      | some content =>
          rw [display_evaluate_of_literal? environment isLiteral]
          rfl

end Body

/-! ## The chain -/

theorem plan_of_supplier (identifiers : dialect.HasIdentifierWords) {calls : CallSequence}
    (proper : calls.IsProper dialect) (flat : HasFlatArguments dialect .start calls.text)
    {body : Text} {call : ArgumentCall}
    (only : outerArguments dialect calls.text = [call])
    (content : CallContent.ofText (Utf8.decode call.inside) = .supplier body [])
    {span : Span} (isText : span.text = calls.text) :
    (Plan.ofSpan dialect span).template = ⟨Template.segmentsFrom [] (Operand.ofConcatenation body)⟩ ∧
      call.replacement dialect = (Operand.expressions (Operand.ofConcatenation body)).map
        fun code => ⟨Utf8.ofString dialect.argumentMethod, Utf8.encode code⟩ := by
  have fragment : call.fragment? = some (Fragment.ofConcatenation body) := by
    rw [ArgumentCall.fragment?, content]
    rfl
  have fragments : (supplierCalls dialect span.text).map SupplierCall.fragment =
      [Fragment.ofConcatenation body] := by
    rw [isText, CallSequence.supplierCalls_text identifiers proper flat,
      Item.map_fragment_supplierCalls, ← proper.outerArguments_text identifiers, only,
      List.filterMap_cons, fragment]
    rfl
  rcases List.map_eq_singleton_iff.mp fragments with ⟨supplier, single, isFragment⟩
  have normal := Fragment.isNormal_ofConcatenation body
  constructor
  · rw [Plan.ofSpan_eq_of_single single (isFragment ▸ normal), isFragment,
      Fragment.ofConcatenation_eq]
  · rw [ArgumentCall.replacement, fragment, Fragment.ofConcatenation_eq]

/-- With the values of the arguments in their places the pattern of a body
with a single choice prints what the body evaluates to, if the body is shown
by its pieces. -/
theorem Body.format_eq_display_iff {body : Body} (proper : body.IsProper)
    (single : body.HasSingleChoice) {pattern : Text}
    (isPattern : Template.pattern?
      ⟨Template.segmentsFrom [] (Operand.ofConcatenation body.written)⟩ = some pattern)
    (environment : Environment) :
    Formatter.format pattern ((Body.argumentsOf body.pieces).map fun expression =>
        (expression.evaluate environment).display) = (body.evaluate environment).display ↔
      body.IsShownByPieces environment := by
  rw [Body.ofConcatenation_written proper single] at isPattern
  have count : ((Body.argumentsOf body.pieces).map fun expression =>
      (expression.evaluate environment).display).length =
        (Operand.expressions (body.pieces.map Body.operand)).length := by
    rw [Body.expressions_map_operand, List.length_map, List.length_map]
  rw [Template.format_segmentsFrom isPattern count, Body.fill_map_operand]
  exact Body.flatMap_pieces_iff environment body

/-- The chain with one argument call, and nothing between its calls. -/
def chainOf (argument : Text) : Span where
  start := 0
  text := Utf8.ofString "log.atInfo().setMessage(\"\x7b\x7d\").addArgument(" ++
    Utf8.encode argument ++ Utf8.ofString ").log()"
  receiver := "log"
  level := "Info"
  message := ⟨24, 28⟩

def textFirst : Body where
  test := none
  sum := .more (.string "\"a=\"".toList "a=".toList) [' '] [' ']
    (.more (.parens [] (.more (.name ['a']) [' '] [' '] (.last (.integer ['1'] 1))) [])
      [' '] [' '] (.last (.character ['\'', ',', '\''] ',')))

theorem isProper_textFirst : textFirst.IsProper where
  test := fun _ isTest => by cases isTest
  sum := by
    have space : Text.IsBlank [' '] := by decide
    have nothing : Text.IsBlank [] := by decide
    have word : forall character : Char, isWordCharacter character = true ->
        IsWord character.isDigit [character] := fun character isWord =>
      ⟨List.cons_ne_nil _ _, by simpa using isWord, rfl⟩
    exact ⟨⟨⟨by decide +kernel, ⟨⟨'"', _, rfl, by decide⟩, ⟨"\"a=".toList, '"', rfl, by decide⟩⟩,
      by decide⟩, rfl⟩, space, space,
      ⟨nothing, ⟨word 'a' (by decide), space, space, word '1' (by decide), by decide⟩, nothing⟩,
      space, space, ⟨by decide +kernel, ⟨⟨'\'', _, rfl, by decide⟩,
        ⟨"',".toList, '\'', rfl, by decide⟩⟩, by decide⟩, rfl⟩

def textFirstSupplier : Text := "() -> \"a=\" + (a + 1) + ','".toList

theorem isSupplierOf_textFirst : IsSupplierOf textFirst.written textFirstSupplier := by
  have space : Text.IsBlank [' '] := by decide
  have nothing : Text.IsBlank [] := by decide
  exact ⟨[], [], [' '], [' '], [], nothing, nothing, space, space, nothing, by decide⟩

theorem hasCallsOnly_textFirst : HasCallsOnly {} (chainOf textFirstSupplier).text := by
  refine ⟨⟨"log", "Info", 12⟩,
    [.call (Utf8.ofString "setMessage") (Utf8.ofString "\"\x7b\x7d\""),
      .call (Utf8.ofString "addArgument") (Utf8.encode textFirstSupplier),
      .call (Utf8.ofString "log") []], by decide +kernel, by decide +kernel, ?_⟩
  simp only [List.forall_mem_cons]
  exact ⟨Item.isProper_call (by decide) (by decide +kernel),
    Item.isProper_call (by decide) (by decide +kernel),
    Item.isProper_call (by decide) (by decide +kernel), List.forall_mem_nil _⟩

def numbersFirst : Body where
  test := none
  sum := .more (.integer ['1'] 1) [' '] [' '] (.last (.integer ['2'] 2))

def numbersFirstSupplier : Text := "() -> 1 + 2".toList

end FluentLog
