import FluentLog.Proofs.Expression.Body

namespace FluentLog

/-!
# How a body is read

All scans pass over the operands of a sum, whatever stands in their literals and between
their parentheses.  So a body is split at its own plus signs, and each of its pieces is
read as the literal that it is or as an expression with collapsed blanks.
-/

/-! ## Words -/

section

variable {character : Char}

theorem not_isBlank_of_isWordCharacter (isWord : isWordCharacter character = true) :
    isBlank character = false := by
  rw [isWordCharacter, Bool.or_eq_true] at isWord
  rcases isWord with isName | beyond
  · exact Operand.not_isBlank_of_isNameCharacter isName
  · rw [Bool.and_eq_true, Bool.not_eq_true'] at beyond
    exact beyond.2

theorem ne_of_isWordCharacter {other : Char} (isWord : isWordCharacter character = true)
    (notWord : isWordCharacter other = false) : character ≠ other := by
  rintro rfl
  rw [isWord] at notWord
  cases notWord

theorem not_mem_of_isWordCharacter {others : Text} (isWord : isWordCharacter character = true)
    (noWord : others.all (fun other => !isWordCharacter other) = true) : character ∉ others := by
  intro member
  have notWord := List.all_eq_true.mp noWord character member
  rw [isWord] at notWord
  cases notWord

end

/-- Whether a character can stand at the beginning of an expression. -/
def isOpener (character : Char) : Bool :=
  character = '"' || character = '\'' || character = '(' || isWordCharacter character

theorem ne_of_isOpener {character other : Char} (opens : isOpener character = true)
    (notOpener : isOpener other = false) : character ≠ other := by
  rintro rfl
  rw [opens] at notOpener
  cases notOpener

theorem not_isBlank_of_isOpener {character : Char} (opens : isOpener character = true) :
    isBlank character = false := by
  simp only [isOpener, Bool.or_eq_true, decide_eq_true_eq] at opens
  rcases opens with ((rfl | rfl) | rfl) | isWord
  · decide
  · decide
  · decide
  · exact not_isBlank_of_isWordCharacter isWord

variable {separators : Text}

namespace IsWord

variable {number : Bool} {code : Text}

theorem exists_head (word : IsWord number code) :
    ∃ first rest, code = first :: rest ∧ isWordCharacter first = true := by
  cases code with
  | nil => exact absurd rfl word.nonempty
  | cons first rest => exact ⟨first, rest, rfl, word.all first List.mem_cons_self⟩

theorem reads (word : IsWord number code) (depth : Nat) (subset : separators ⊆ signs) :
    Cursor.Reads (IsCode separators) ⟨depth, .none⟩ code := by
  apply Cursor.reads_of_forall
  intro character member
  have isWord := word.all character member
  refine ⟨isCode_outside depth (ne_of_isWordCharacter isWord (by decide))
    fun isSeparator => ?_, not_mem_of_isWordCharacter isWord (by decide)⟩
  exact absurd (subset isSeparator) (not_mem_of_isWordCharacter isWord (by decide))

theorem collapses (word : IsWord number code) (depth : Nat) : Collapses depth code code := by
  apply Collapses.of_reads _ word.nonempty
  apply Cursor.reads_of_forall
  intro character member
  have isWord := word.all character member
  exact ⟨fun _ => not_isBlank_of_isWordCharacter isWord,
    not_mem_of_isWordCharacter isWord (by decide)⟩

end IsWord

theorem Literal.IsToken.collapses {code content : Text} (token : Literal.IsToken code content)
    (depth : Nat) : Collapses depth code code := by
  apply Collapses.of_reads
  · apply token.reads depth
    · intro cursor character inside _ outside
      rw [inside] at outside
      cases outside
    · exact ⟨fun _ => by decide, fun _ => by decide⟩
  · rcases token.tight.head with ⟨first, rest, rfl, -⟩
    exact List.cons_ne_nil _ _

theorem collapses_single (depth : Nat) {sign : Char}
    (plain : isBlank sign = false ∧ sign ∉ ['"', '\'', '(', ')']) :
    Collapses depth [sign] [sign] := by
  apply Collapses.of_reads _ (List.cons_ne_nil sign [])
  apply Cursor.reads_of_forall
  intro character member
  rw [List.mem_singleton.mp member]
  exact ⟨fun _ => plain.1, plain.2⟩

/-! ## Reading operands and sums -/

mutual

/-- Scans for separators pass over an operand. -/
theorem Term.reads : (term : Term) -> term.IsProper -> forall depth, separators ⊆ signs ->
    Cursor.Reads (IsCode separators) ⟨depth, .none⟩ term.written
  | .string _ _, proper, depth, subset => proper.1.reads_code depth subset
  | .character _ _, proper, depth, subset => proper.1.reads_code depth subset
  | .integer _ _, proper, depth, subset => proper.1.reads depth subset
  | .name _, proper, depth, subset => IsWord.reads proper depth subset
  | .parens left inner right, ⟨blankLeft, proper, blankRight⟩, depth, subset => by
      have inside := inner.reads proper (depth + 1) subset fun _ => .inl (Nat.succ_pos depth)
      have whole := ((blankLeft.reads (depth + 1) subset).append inside).append
        (blankRight.reads (depth + 1) subset)
      have opening : IsCode separators ⟨depth, .none⟩ '(' :=
        isCode_outside depth (by decide) fun member => absurd (subset member) (by decide)
      have closing : IsCode separators ⟨depth + 1, .none⟩ ')' :=
        isCode_outside (depth + 1) (by decide) fun member => absurd (subset member) (by decide)
      exact Cursor.reads_parens opening whole closing

/-- Scans for commas pass over a sum, and all scans do inside parentheses or
if the sum is a single operand. -/
theorem Addition.reads : (addition : Addition) -> addition.IsProper -> forall depth,
    separators ⊆ signs ->
    ('+' ∈ separators -> 0 < depth ∨ ∃ term, addition = .last term) ->
    Cursor.Reads (IsCode separators) ⟨depth, .none⟩ addition.written
  | .last term, proper, depth, subset, _ => term.reads proper depth subset
  | .more term left right rest, ⟨proper, blankLeft, blankRight, properRest⟩, depth, subset,
      insideOrSingle => by
      have inside : '+' ∈ separators -> 0 < depth := fun member =>
        (insideOrSingle member).resolve_right fun single => by rcases single with ⟨_, ⟨⟩⟩
      have plus : Cursor.Reads (IsCode separators) ⟨depth, .none⟩ ['+'] := by
        apply Cursor.reads_of_forall
        intro character member
        rw [List.mem_singleton.mp member]
        exact ⟨isCode_outside depth (by decide) inside, by decide⟩
      exact ((((term.reads proper depth subset).append (blankLeft.reads depth subset)).append
        plus).append (blankRight.reads depth subset)).append
          (rest.reads properRest depth subset fun member => .inl (inside member))

end

mutual

theorem Term.collapses : (term : Term) -> term.IsProper -> forall depth,
    Collapses depth term.written term.collapsed.written
  | .string _ _, proper, depth => proper.1.collapses depth
  | .character _ _, proper, depth => proper.1.collapses depth
  | .integer _ _, proper, depth => proper.1.collapses depth
  | .name _, proper, depth => IsWord.collapses proper depth
  | .parens _ inner _, ⟨blankLeft, proper, blankRight⟩, depth =>
      (inner.collapses proper (depth + 1)).parens blankLeft blankRight

theorem Addition.collapses : (addition : Addition) -> addition.IsProper -> forall depth,
    Collapses depth addition.written addition.collapsed.written
  | .last term, proper, depth => term.collapses proper depth
  | .more term left right rest, ⟨proper, blankLeft, blankRight, properRest⟩, depth =>
      ((term.collapses proper depth).append blankLeft (collapses_single depth (by decide))).append
        blankRight (rest.collapses properRest depth)

end

/-! ## Beginnings and ends -/

theorem Term.exists_head (term : Term) (proper : term.IsProper) :
    ∃ first rest, term.written = first :: rest ∧ isOpener first = true := by
  have quoted : forall {code : Text} {quote : Char}, code.head? = some quote ->
      isOpener quote = true -> ∃ first rest, code = first :: rest ∧ isOpener first = true := by
    intro code quote isHead opens
    rcases List.head?_eq_some_iff.mp isHead with ⟨rest, rfl⟩
    exact ⟨quote, rest, rfl, opens⟩
  have word : forall {number : Bool} {code : Text}, IsWord number code ->
      ∃ first rest, code = first :: rest ∧ isOpener first = true := by
    intro number code word
    rcases word.exists_head with ⟨first, rest, isCode, isWord⟩
    exact ⟨first, rest, isCode, by rw [isOpener, isWord, Bool.or_true]⟩
  cases term with
  | string code content => exact quoted proper.2 (by decide)
  | character code content => exact quoted proper.2 (by decide)
  | integer code number => exact word proper.1
  | name code => exact word proper
  | parens left inner right => exact ⟨'(', _, rfl, by decide⟩

theorem Term.isTight (term : Term) (proper : term.IsProper) : Text.IsTight term.written := by
  have word : forall {number : Bool} {code : Text}, IsWord number code -> Text.IsTight code :=
    fun word => Text.isTight_of_forall word.nonempty fun character member =>
      not_isBlank_of_isWordCharacter (word.all character member)
  cases term with
  | string code content => exact proper.1.tight
  | character code content => exact proper.1.tight
  | integer code number => exact word proper.1
  | name code => exact word proper
  | parens left inner right =>
      exact ⟨⟨'(', _, rfl, by decide⟩, ⟨'(' :: left ++ inner.written ++ right, ')', rfl, by decide⟩⟩

/-- A sum begins with its first operand. -/
theorem Addition.exists_first (addition : Addition) :
    ∃ more, addition.written = addition.first.written ++ more := by
  cases addition with
  | last term => exact ⟨[], (List.append_nil _).symm⟩
  | more term left right rest =>
      refine ⟨left ++ ['+'] ++ right ++ rest.written, ?_⟩
      rw [Addition.written, first]
      simp only [List.append_assoc]

theorem Addition.exists_head (addition : Addition) (proper : addition.IsProper) :
    ∃ first rest, addition.written = first :: rest ∧ isOpener first = true := by
  rcases addition.first.exists_head (addition.isProper_first proper) with
    ⟨first, rest, isFirst, opens⟩
  rcases addition.exists_first with ⟨more, isWritten⟩
  exact ⟨first, rest ++ more, by rw [isWritten, isFirst, List.cons_append], opens⟩

theorem Addition.isTight (addition : Addition) (proper : addition.IsProper) :
    Text.IsTight addition.written := by
  cases addition with
  | last term => exact term.isTight proper
  | more term left right rest =>
      have whole := (term.isTight proper.1).between (rest.isTight proper.2.2.2)
        (left ++ ['+'] ++ right)
      rw [Addition.written]
      simpa using whole

/-! ## Splitting at plus signs -/

/-- The parts of a text between its plus signs outside of literals and
parentheses. -/
def summands (text : Text) : List Text :=
  ((splitFrom '+' .start text).1 :: (splitFrom '+' .start text).2).map Text.trim

/-- A piece without plus signs is not split. -/
theorem summands_last {lead piece : Text} (blankLead : Text.IsBlank lead)
    (code : Cursor.Reads (IsCode [',', '+']) .start piece) (tight : Text.IsTight piece) :
    summands (lead ++ piece) = [piece] := by
  have read : Cursor.Reads (IsCode [',', '+']) .start (lead ++ piece) :=
    (blankLead.reads 0 (by decide)).append code
  have isSeparator : '+' ∈ [',', '+'] := by decide
  have split := splitFrom_append_of_noCut (noCut_of_isCode isSeparator read.1) []
  rw [List.append_nil] at split
  rw [summands, split, splitFrom, List.append_nil, List.map_cons, List.map_nil]
  have trimmed := tight.trim_eq blankLead (by decide : Text.IsBlank [])
  rw [List.append_nil] at trimmed
  rw [trimmed]

section

variable {lead opening : Text} (blankLead : Text.IsBlank lead)
  (code : Cursor.Reads (IsCode [',', '+']) .start opening)

include blankLead code

/-- The first operand of a sum, with an opening without plus signs in front of
it, is the first part, whatever stands behind the sum. -/
theorem summands_more {term : Term} {left right : Text} {rest : Addition}
    (proper : (Addition.more term left right rest).IsProper)
    (tight : Text.IsTight (opening ++ term.written)) (behind : Text) :
    summands (lead ++ (opening ++ (Addition.more term left right rest).written) ++ behind) =
      (opening ++ term.written) :: summands (right ++ (rest.written ++ behind)) := by
  rcases proper with ⟨proper, blankLeft, blankRight, properRest⟩
  have read : Cursor.Reads (IsCode [',', '+']) .start (lead ++ (opening ++ term.written) ++ left) :=
    ((blankLead.reads 0 (by decide)).append (code.append (term.reads proper 0 (by decide)))).append
      (blankLeft.reads 0 (by decide))
  have isSeparator : '+' ∈ [',', '+'] := by decide
  have split := splitFrom_append_of_noCut (noCut_of_isCode isSeparator read.1)
    ('+' :: (right ++ (rest.written ++ behind)))
  have cut : splitFrom '+' .start ('+' :: (right ++ (rest.written ++ behind))) =
      ([], (splitFrom '+' .start (right ++ (rest.written ++ behind))).1 ::
        (splitFrom '+' .start (right ++ (rest.written ++ behind))).2) := by
    rcases rest.exists_head properRest with ⟨first, others, isRest, opens⟩
    have notPlus : ∀ following others', right ++ (rest.written ++ behind) = following :: others' ->
        following ≠ '+' := by
      rintro following others' same rfl
      cases right with
      | nil =>
          rw [List.nil_append, isRest] at same
          exact ne_of_isOpener opens (by decide) (List.cons.inj same).1
      | cons character right =>
          have isPlus : character = '+' := (List.cons.inj same).1
          exact absurd (blankRight character List.mem_cons_self) (isPlus ▸ by decide)
    cases isText : right ++ (rest.written ++ behind) with
    | nil =>
        rw [isRest] at isText
        simp at isText
    | cons following others' =>
        rw [splitFrom, if_pos ⟨rfl, rfl⟩, if_neg fun same => notPlus following others' isText same.2]
  have whole : lead ++ (opening ++ (Addition.more term left right rest).written) ++ behind =
      lead ++ (opening ++ term.written) ++ left ++ '+' :: (right ++ (rest.written ++ behind)) := by
    rw [Addition.written]
    simp
  have trimmed := tight.trim_eq blankLead blankLeft
  rw [whole, summands, split, read.2, cut, List.append_nil, List.map_cons, trimmed, summands]

end

/-- A sum behind an opening without plus signs is split into its operands, the
first one with the opening in front. -/
theorem Addition.summands_eq : (addition : Addition) -> addition.IsProper ->
    {lead opening : Text} -> Text.IsBlank lead ->
    Cursor.Reads (IsCode [',', '+']) .start opening ->
    Text.IsTight (opening ++ addition.first.written) ->
    summands (lead ++ (opening ++ addition.written)) =
      (opening ++ addition.first.written) :: addition.others.map Term.written
  | .last term, proper, _, _, blankLead, code, tight =>
      summands_last blankLead (code.append (term.reads proper 0 (by decide))) tight
  | .more term left right rest, proper, lead, opening, blankLead, code, tight => by
      have step := summands_more blankLead code proper tight []
      have later := rest.summands_eq proper.2.2.2 proper.2.2.1
        (⟨True.intro, rfl⟩ : Cursor.Reads (IsCode [',', '+']) .start [])
        (rest.first.isTight (rest.isProper_first proper.2.2.2))
      rw [List.append_nil, List.append_nil] at step
      rw [step]
      exact congrArg _ later

/-- The operands of a sum but the last are parts on their own, whatever stands
behind. -/
theorem Addition.exists_summands_append (behind : Text) : (addition : Addition) ->
    addition.IsProper -> forall {lead : Text}, Text.IsBlank lead ->
    ∃ blanks, Text.IsBlank blanks ∧ summands (lead ++ (addition.written ++ behind)) =
      addition.front.map Term.written ++
        summands (blanks ++ (addition.final.written ++ behind))
  | .last _, _, lead, blankLead => ⟨lead, blankLead, rfl⟩
  | .more term left right rest, proper, lead, blankLead => by
      rcases rest.exists_summands_append behind proper.2.2.2 proper.2.2.1 with
        ⟨blanks, blank, later⟩
      refine ⟨blanks, blank, ?_⟩
      have step := summands_more blankLead
        (⟨True.intro, rfl⟩ : Cursor.Reads (IsCode [',', '+']) .start []) proper
        (term.isTight proper.1) behind
      rw [List.nil_append, List.append_assoc] at step
      rw [step, later]
      rfl

/-! ## Tests -/

namespace Test

variable {test : Test}

/-- Scans for other signs pass over a question, and those for plus signs do if
it has none. -/
theorem IsProper.reads_question (proper : test.IsProper) (subset : separators ⊆ [',', '+', ':'])
    (single : '+' ∈ separators -> ∃ term, test.condition = .last term) :
    Cursor.Reads (IsCode separators) .start test.question := by
  have within : separators ⊆ signs := fun _ member => by
    have isSign : [',', '+', ':'] ⊆ signs := by decide
    exact isSign (subset member)
  have condition := test.condition.reads proper.condition 0 within fun member => .inr (single member)
  exact ((condition.append (proper.beforeMark.reads 0 within)).append
    (reads_sign (by decide) fun member => absurd (subset member) (by decide))).append
      (proper.afterMark.reads 0 within)

/-- Scans for commas pass over a test, and those for plus signs do if it has
none. -/
theorem IsProper.reads (proper : test.IsProper) (subset : separators ⊆ [',', '+'])
    (single : '+' ∈ separators ->
      (∃ term, test.condition = .last term) ∧ ∃ term, test.whenTrue = .last term) :
    Cursor.Reads (IsCode separators) .start (test.written ++ test.afterColon) := by
  have within : separators ⊆ signs := fun _ member => by
    have isSign : [',', '+'] ⊆ signs := by decide
    exact isSign (subset member)
  have question := proper.reads_question
    (fun _ member => List.mem_append_left [':'] (subset member) : separators ⊆ [',', '+', ':'])
    fun member => (single member).1
  have whenTrue := test.whenTrue.reads proper.whenTrue 0 within fun member =>
    .inr (single member).2
  exact (((question.append whenTrue).append (proper.beforeColon.reads 0 within)).append
    (reads_sign (by decide) fun member => absurd (subset member) (by decide))).append
      (proper.afterColon.reads 0 within)

theorem IsProper.collapses_question (proper : test.IsProper) {term : Term}
    (properTerm : term.IsProper) : Collapses 0 (test.question ++ term.written)
      (test.collapsed.question ++ term.collapsed.written) :=
  ((test.condition.collapses proper.condition 0).append proper.beforeMark
    (collapses_single 0 (by decide))).append proper.afterMark (term.collapses properTerm 0)

theorem IsProper.collapses (proper : test.IsProper) :
    Collapses 0 test.written test.collapsed.written :=
  (((test.condition.collapses proper.condition 0).append proper.beforeMark
    (collapses_single 0 (by decide))).append proper.afterMark
      (test.whenTrue.collapses proper.whenTrue 0)).append proper.beforeColon
        (collapses_single 0 (by decide))

theorem exists_first_question (test : Test) :
    ∃ more, more ≠ [] ∧ test.question = test.condition.first.written ++ more := by
  rcases test.condition.exists_first with ⟨more, isCondition⟩
  refine ⟨more ++ test.beforeMark ++ ['?'] ++ test.afterMark, by simp, ?_⟩
  rw [question, isCondition]
  simp only [List.append_assoc]

theorem exists_first (test : Test) :
    ∃ more, more ≠ [] ∧ test.written = test.condition.first.written ++ more := by
  rcases test.exists_first_question with ⟨more, -, isQuestion⟩
  refine ⟨more ++ test.whenTrue.written ++ test.beforeColon ++ [':'], by simp, ?_⟩
  rw [written, isQuestion]
  simp only [List.append_assoc]

theorem IsProper.isTight_first (proper : test.IsProper) :
    Text.IsTight test.condition.first.written :=
  test.condition.first.isTight (test.condition.isProper_first proper.condition)

theorem IsProper.isTight_question (proper : test.IsProper) {text : Text}
    (tight : Text.IsTight text) : Text.IsTight (test.question ++ text) := by
  rcases test.exists_first_question with ⟨more, -, isQuestion⟩
  rw [isQuestion]
  exact proper.isTight_first.between tight more

theorem IsProper.isTight (proper : test.IsProper) {text : Text} (tight : Text.IsTight text) :
    Text.IsTight (test.written ++ test.afterColon ++ text) := by
  rcases test.exists_first with ⟨more, -, isWritten⟩
  rw [isWritten, List.append_assoc _ more]
  exact proper.isTight_first.between tight (more ++ test.afterColon)

theorem IsProper.narrowed (proper : test.IsProper) : test.narrowed.IsProper :=
  { proper with condition := test.condition.isProper_final proper.condition }

end Test

/-! ## Bodies -/

namespace Body

variable {body : Body}

theorem IsProper.reads (proper : body.IsProper) :
    Cursor.Reads (IsCode [',']) .start body.written := by
  have sum := body.sum.reads proper.sum 0 (by decide : [','] ⊆ signs) (by simp)
  rcases body with ⟨test, sum⟩
  cases test with
  | none => exact sum
  | some test => exact ((proper.test test rfl).reads (by simp) (by simp)).append sum

/-- Scans pass over what stands in front of the first operand of the sum, if
the first choice is one operand. -/
theorem IsProper.reads_opening (proper : body.IsProper) (single : body.HasSingleChoice) :
    Cursor.Reads (IsCode [',', '+']) .start body.middle.opening := by
  rcases body with ⟨test, sum⟩
  cases test with
  | none => exact ⟨True.intro, rfl⟩
  | some test =>
      exact (proper.test test rfl).narrowed.reads (List.Subset.refl _) fun _ =>
        ⟨⟨_, rfl⟩, single test rfl⟩

theorem IsProper.exists_term (proper : body.IsProper) :
    ∃ (term : Term) (more : Text), term.IsProper ∧ body.written = term.written ++ more := by
  rcases body with ⟨test, sum⟩
  cases test with
  | none =>
      rcases sum.exists_first with ⟨more, isWritten⟩
      exact ⟨sum.first, more, sum.isProper_first proper.sum, isWritten⟩
  | some test =>
      rcases test.exists_first with ⟨more, -, isWritten⟩
      have whole : written ⟨some test, sum⟩ = test.written ++ test.afterColon ++ sum.written := rfl
      refine ⟨test.condition.first, more ++ test.afterColon ++ sum.written,
        test.condition.isProper_first (proper.test test rfl).condition, ?_⟩
      rw [whole, isWritten]
      simp only [List.append_assoc]

theorem IsProper.isTight (proper : body.IsProper) : Text.IsTight body.written := by
  have tight := body.sum.isTight proper.sum
  rcases body with ⟨test, sum⟩
  cases test with
  | none => exact tight
  | some test => exact (proper.test test rfl).isTight tight

theorem IsProper.collapses (proper : body.IsProper) :
    Collapses 0 body.written body.collapsed.written := by
  have sum := body.sum.collapses proper.sum 0
  rcases body with ⟨test, addition⟩
  cases test with
  | none => exact sum
  | some test =>
      exact (proper.test test rfl).collapses.append (proper.test test rfl).afterColon sum

end Body

/-! ## Reading the pieces of a body -/

theorem Literal.decode_eq_none {first : Char} {rest : Text}
    (notQuote : first ≠ '"' ∧ first ≠ '\'') (tight : Text.IsTight (first :: rest)) :
    decode (first :: rest) = none := by
  rw [decode, body?, tight.trim_self]
  split
  · rename_i same
    exact absurd (List.cons.inj same).1 notQuote.1
  · rename_i same
    exact absurd (List.cons.inj same).1 notQuote.2
  · rfl

/-- An operand that is a literal is read as one, and with more behind it as
none. -/
theorem Term.decode_append (term : Term) (proper : term.IsProper) {more : Text}
    (tight : Text.IsTight (term.written ++ more)) :
    Literal.decode (term.written ++ more) = if more = [] then term.literal? else none := by
  have token : forall {code content : Text}, Literal.IsToken code content ->
      Text.IsTight (code ++ more) ->
      Literal.decode (code ++ more) = if more = [] then some content else none := by
    intro code content token tight
    split
    · rename_i atEnd
      rw [atEnd, List.append_nil]
      exact token.decodes
    · rename_i goesOn
      exact token.decode_append goesOn tight
  have word : forall {number : Bool} {code : Text}, IsWord number code ->
      Text.IsTight (code ++ more) -> Literal.decode (code ++ more) = none := by
    intro number code word tight
    rcases word.exists_head with ⟨first, rest, rfl, isWord⟩
    exact Literal.decode_eq_none ⟨ne_of_isWordCharacter isWord (by decide),
      ne_of_isWordCharacter isWord (by decide)⟩ tight
  cases term with
  | string code content => exact token proper.1 tight
  | character code content => exact token proper.1 tight
  | integer code number => exact (word proper.1 tight).trans (ite_self none).symm
  | name code => exact (word proper tight).trans (ite_self none).symm
  | parens left inner right =>
      exact (Literal.decode_eq_none (by decide) tight).trans (ite_self none).symm

namespace Body

variable {body : Body}

/-- A piece is taken for the literal that it is, or for an expression. -/
theorem ofText_written (proper : body.IsProper) (single : ∃ term, body.sum = .last term) :
    Operand.ofText body.written = body.operand := by
  have tight := proper.isTight
  have decoded : Literal.decode body.written = body.literal? := by
    rcases body with ⟨test, sum⟩
    rcases single with ⟨term, rfl⟩
    cases test with
    | none =>
        have isTerm : written ⟨none, .last term⟩ = term.written ++ [] :=
          (List.append_nil term.written).symm
        rw [isTerm] at tight ⊢
        exact term.decode_append proper.sum tight
    | some test =>
        rcases test.exists_first with ⟨more, goesOn, isWritten⟩
        have isTest : written ⟨some test, .last term⟩ = test.condition.first.written ++
            (more ++ test.afterColon ++ term.written) := by
          have whole : written ⟨some test, .last term⟩ =
              test.written ++ test.afterColon ++ term.written := rfl
          rw [whole, isWritten]
          simp only [List.append_assoc]
        rw [isTest] at tight ⊢
        have first := test.condition.isProper_first (proper.test test rfl).condition
        rw [test.condition.first.decode_append first tight, if_neg (by simp [goesOn])]
        rfl
  rw [Operand.ofText, decoded, proper.isTight.trim_self, proper.collapses.collapseBlanks_eq]
  rfl

/-- The operands of a condition but the last are parts on their own. -/
theorem exists_summands (proper : body.IsProper) :
    ∃ blanks, Text.IsBlank blanks ∧ summands body.written = body.leading.map Term.written ++
      summands (blanks ++ (body.middle.opening ++ body.sum.written)) := by
  rcases body with ⟨test, sum⟩
  cases test with
  | none => exact ⟨[], by decide, rfl⟩
  | some test =>
      have proper := (proper.test test rfl).condition
      rcases test.condition.exists_summands_append (test.beforeMark ++ ['?'] ++ test.afterMark ++
        test.whenTrue.written ++ test.beforeColon ++ [':'] ++ test.afterColon ++ sum.written)
        proper (by decide : Text.IsBlank []) with ⟨blanks, blank, split⟩
      refine ⟨blanks, blank, ?_⟩
      simpa [written, opening, middle, leading, Test.written, Test.question, Test.narrowed,
        Addition.written] using split

theorem summands_written (proper : body.IsProper) (single : body.HasSingleChoice) :
    summands body.written = body.pieces.map written := by
  rcases exists_summands proper with ⟨blanks, blank, split⟩
  have sum := body.sum.summands_eq proper.sum blank (proper.reads_opening single)
    proper.middle.isTight
  rw [split, sum, pieces, List.map_append, List.map_cons, List.map_map, List.map_map]
  rfl

theorem ofConcatenation_written (proper : body.IsProper) (single : body.HasSingleChoice) :
    Operand.ofConcatenation body.written = body.pieces.map operand := by
  have parts := summands_written proper single
  have kept : (body.pieces.map written).filter (fun part => !part.isEmpty) =
      body.pieces.map written := by
    rw [List.filter_eq_self]
    intro part member
    rcases List.mem_map.mp member with ⟨piece, isPiece, rfl⟩
    rcases (isProper_of_mem_pieces proper isPiece).1.isTight.head with ⟨first, rest, isPart, -⟩
    rw [isPart]
    rfl
  rw [summands] at parts
  rw [Operand.ofConcatenation, splitUnnested_eq, parts, kept, List.map_map]
  apply List.map_congr_left
  intro piece isPiece
  rcases isProper_of_mem_pieces proper isPiece with ⟨properPiece, single⟩
  exact ofText_written properPiece single

/-! ## Pieces that are no bodies -/

theorem not_holds_of_sign {sign : Char} {front : Text}
    (reads : Cursor.Reads (IsCode [sign]) .start front) (behind : Text) :
    ¬ Cursor.Holds (IsCode [sign]) .start (front ++ sign :: behind) := by
  intro holds
  have here := holds.of_append
  rw [reads.2] at here
  exact not_isCode_start (List.mem_singleton_self sign) here.1

/-- A question with an operand behind it is no body, since it has a question
mark and no colon at the top level. -/
theorem IsProper.ne_question (proper : body.IsProper) {test : Test} (properTest : test.IsProper)
    {term : Term} (properTerm : term.IsProper) :
    body.written ≠ test.question ++ term.written := by
  intro same
  have mark : ¬ Cursor.Holds (IsCode ['?']) .start (test.question ++ term.written) := by
    have reads := (test.condition.reads properTest.condition 0 (by decide : ['?'] ⊆ signs)
      (by simp)).append (properTest.beforeMark.reads 0 (by decide))
    have noCode := not_holds_of_sign reads (test.afterMark ++ term.written)
    rw [Test.question]
    simpa using noCode
  have noColon : Cursor.Holds (IsCode [':']) .start (test.question ++ term.written) :=
    ((properTest.reads_question (by simp) (by simp)).append
      (term.reads properTerm 0 (by decide))).1
  rw [← same] at mark noColon
  rcases body with ⟨test, sum⟩
  cases test with
  | none => exact mark (sum.reads proper.sum 0 (by decide) (by simp)).1
  | some test =>
      have properTest := proper.test test rfl
      have reads := ((properTest.reads_question (by simp) (by simp)).append
        (test.whenTrue.reads properTest.whenTrue 0 (by decide : [':'] ⊆ signs)
          (by simp))).append (properTest.beforeColon.reads 0 (by decide))
      have noCode := not_holds_of_sign reads (test.afterColon ++ sum.written)
      have whole : written ⟨some test, sum⟩ = test.question ++ test.whenTrue.written ++
          test.beforeColon ++ ':' :: (test.afterColon ++ sum.written) := by
        simp [written, opening, Test.written]
      rw [whole] at noColon
      exact noCode noColon

theorem ofText_question {test : Test} (proper : test.IsProper) {term : Term}
    (properTerm : term.IsProper) : Operand.ofText (test.question ++ term.written) =
      .expression (test.collapsed.question ++ term.collapsed.written) := by
  have tight := proper.isTight_question (term.isTight properTerm)
  have noLiteral : Literal.decode (test.question ++ term.written) = none := by
    rcases test.exists_first_question with ⟨more, goesOn, isQuestion⟩
    rw [isQuestion, List.append_assoc] at tight ⊢
    rw [test.condition.first.decode_append (test.condition.isProper_first proper.condition) tight,
      if_neg (by simp [goesOn])]
  rw [Operand.ofText, noLiteral, tight.trim_self,
    (proper.collapses_question properTerm).collapseBlanks_eq]

/-- The first operand of a first choice with plus signs is cut off with the
question in front of it. -/
theorem question_mem_summands {test : Test} {sum : Addition}
    (proper : IsProper ⟨some test, sum⟩) {term : Term} {left right : Text} {rest : Addition}
    (isChoice : test.whenTrue = .more term left right rest) :
    test.narrowed.question ++ term.written ∈ summands (written ⟨some test, sum⟩) := by
  rcases exists_summands proper with ⟨blanks, blank, split⟩
  have properTest := (proper.test test rfl).narrowed
  have properChoice := (proper.test test rfl).whenTrue
  rw [isChoice] at properChoice
  have code := properTest.reads_question (by simp : [',', '+'] ⊆ [',', '+', ':'])
    fun _ => ⟨test.condition.final, rfl⟩
  have cut := summands_more blank code properChoice
    (properTest.isTight_question (term.isTight properChoice.1))
    (test.beforeColon ++ [':'] ++ test.afterColon ++ sum.written)
  have whole : blanks ++ ((middle ⟨some test, sum⟩).opening ++ sum.written) =
      blanks ++ (test.narrowed.question ++ (Addition.more term left right rest).written) ++
        (test.beforeColon ++ [':'] ++ test.afterColon ++ sum.written) := by
    rw [← isChoice]
    have isOpening : (middle ⟨some test, sum⟩).opening = test.narrowed.question ++
      test.whenTrue.written ++ test.beforeColon ++ [':'] ++ test.afterColon := rfl
    rw [isOpening]
    simp only [List.append_assoc]
  rw [split]
  apply List.mem_append_right
  rw [whole, cut]
  exact List.mem_cons_self

/-- If the first choice has plus signs, one of the expressions that the body
is cut into is no body. -/
theorem exists_expression_ne (proper : body.IsProper) (notSingle : ¬ body.HasSingleChoice) :
    ∃ code, .expression code ∈ Operand.ofConcatenation body.written ∧
      forall other : Body, other.IsProper -> other.written ≠ code := by
  rcases body with ⟨test, sum⟩
  cases test with
  | none => exact absurd (fun _ isTest => by cases isTest) notSingle
  | some test =>
      cases isChoice : test.whenTrue with
      | last term =>
          refine absurd (fun other isTest => ?_) notSingle
          cases isTest
          exact ⟨term, isChoice⟩
      | more term left right rest =>
          have properTest := (proper.test test rfl).narrowed
          have properTerm : term.IsProper := by
            have properChoice := (proper.test test rfl).whenTrue
            rw [isChoice] at properChoice
            exact properChoice.1
          refine ⟨test.narrowed.collapsed.question ++ term.collapsed.written, ?_,
            fun other properOther => properOther.ne_question properTest.collapsed
              (term.isProper_collapsed properTerm)⟩
          rw [← ofText_question properTest properTerm, Operand.ofConcatenation, splitUnnested_eq]
          apply List.mem_map_of_mem
          refine List.mem_filter.mpr ⟨question_mem_summands proper isChoice, ?_⟩
          rcases (properTest.isTight_question (term.isTight properTerm)).head with
            ⟨first, rest, isPart, -⟩
          rw [isPart]
          rfl

end Body

end FluentLog
