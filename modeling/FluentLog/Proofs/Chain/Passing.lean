import FluentLog.Proofs.Chain.Completion
import FluentLog.Proofs.Chain.SupplierCalls

namespace FluentLog

/-!
# How the walks over a chain pass over its calls

The walk that completes a candidate and the walk that looks for suppliers read a call of
another name in the same way: they come out behind it as they were in front of it.  So
what they make of a chain is read off its calls, one after the other.
-/

variable {dialect : Dialect}

/-! ## Calls -/

namespace Call

/-- A call without blanks, with its dot. -/
def bytes (name : String) (inside : Bytes) : Bytes :=
  Byte.dot :: Utf8.ofString name ++ Byte.openParen :: inside ++ [Byte.closeParen]

theorem bytes_append (name : String) (inside rest : Bytes) :
    bytes name inside ++ rest =
      Byte.dot :: (Utf8.ofString name ++ Byte.openParen :: (inside ++ Byte.closeParen :: rest)) := by
  simp [bytes]

theorem length_bytes (name : String) (inside : Bytes) :
    (bytes name inside).length = (Utf8.ofString name).length + inside.length + 3 := by
  simp only [bytes, List.length_append, List.length_cons, List.length_nil]
  omega

/-- What stands behind a call, for a walk that jumps there from behind its
dot. -/
theorem drop_bytes (name : String) (inside rest : Bytes) (offset : Nat) :
    (Utf8.ofString name ++ Byte.openParen :: (inside ++ Byte.closeParen :: rest)).drop
      (offset + (bytes name inside).length - (offset + 1)) = rest := by
  have whole : Utf8.ofString name ++ Byte.openParen :: (inside ++ Byte.closeParen :: rest) =
      (Utf8.ofString name ++ Byte.openParen :: (inside ++ [Byte.closeParen])) ++ rest := by
    simp
  rw [whole, length_bytes]
  apply List.drop_left'
  simp only [List.length_append, List.length_cons, List.length_nil]
  omega

theorem isNamed_self (name : String) : IsNamed name (Utf8.ofString name) :=
  ⟨[], [], isBlank_nil, isBlank_nil, by rw [List.nil_append, List.append_nil]⟩

theorem IsNamed.word_unique {word other : String} {bytes : Bytes}
    (identifier : isIdentifierWord word = true) (named : IsNamed word bytes)
    (otherIdentifier : isIdentifierWord other = true) (otherNamed : IsNamed other bytes) :
    Utf8.ofString word = Utf8.ofString other := by
  rcases named with ⟨before, behind, blankBefore, blankBehind, rfl⟩
  rcases otherNamed with ⟨before', behind', blankBefore', blankBehind', same⟩
  rcases identifierWord_spec identifier with ⟨first, others, isWord, all⟩
  rcases identifierWord_spec otherIdentifier with ⟨first', others', isOther, allOther⟩
  have notBlank : forall {word : Bytes} {first : UInt8} {others behind : Bytes},
      word = first :: others -> (∀ byte ∈ word, isIdentifierByte byte = true) ->
      ∀ byte ∈ (word ++ behind).head?, isBlankByte byte = false := by
    rintro word first others behind rfl all byte ⟨rfl⟩
    exact not_isBlankByte_of_isIdentifierByte (all first List.mem_cons_self)
  have stops : forall {behind : Bytes}, IsBlank behind ->
      ∀ byte ∈ behind.head?, isIdentifierByte byte = false := by
    intro behind blank byte isHead
    exact not_isIdentifierByte_of_isBlankByte (blank byte (List.mem_of_mem_head? isHead))
  rw [List.append_assoc, List.append_assoc] at same
  rcases run_unique blankBefore blankBefore' (notBlank isWord all) (notBlank isOther allOther) same
    with ⟨-, sameWord⟩
  exact (run_unique all allOther (stops blankBehind) (stops blankBehind') sameWord).1

theorem IsNamed.not_other {word other : String} {lead otherLead after otherAfter : Bytes}
    (identifier : isIdentifierWord word = true) (named : IsNamed word lead)
    (otherIdentifier : isIdentifierWord other = true)
    (different : Utf8.ofString word ≠ Utf8.ofString other)
    (same : lead ++ Byte.openParen :: after = otherLead ++ Byte.openParen :: otherAfter) :
    ¬ IsNamed other otherLead := by
  intro otherNamed
  rcases named.unique identifier otherIdentifier otherNamed same with ⟨rfl, -⟩
  exact different (named.word_unique identifier otherIdentifier otherNamed)

section

variable {word : String} {lead : Bytes} (identifiers : dialect.HasIdentifierWords)
  (identifier : isIdentifierWord word = true) (named : IsNamed word lead)

include identifiers identifier named

theorem argument?_eq_none (different : Utf8.ofString word ≠ Utf8.ofString dialect.argumentMethod)
    (offset : Nat) (after : Bytes) :
    argument? dialect ⟨offset, lead ++ Byte.openParen :: after⟩ = none := by
  cases found : argument? dialect ⟨offset, lead ++ Byte.openParen :: after⟩ with
  | none => rfl
  | some opened =>
      rcases (argument?_eq_some_iff identifiers).mp found with ⟨otherLead, otherNamed, same, -⟩
      exact absurd otherNamed
        (named.not_other identifier identifiers.argumentMethod different same)

theorem terminal?_eq_none (different : Utf8.ofString word ≠ Utf8.ofString dialect.terminalMethod)
    (offset : Nat) (after : Bytes) :
    terminal? dialect ⟨offset, lead ++ Byte.openParen :: after⟩ = none := by
  cases found : terminal? dialect ⟨offset, lead ++ Byte.openParen :: after⟩ with
  | none => rfl
  | some stop =>
      rcases (terminal?_eq_some_iff identifiers).mp found with
        ⟨otherLead, inside, behind, otherNamed, -, same, -⟩
      simp only [List.append_assoc, List.cons_append] at same
      exact absurd otherNamed
        (named.not_other identifier identifiers.terminalMethod different same)

end

end Call

/-! ## Silent stretches -/

namespace Scanner

/-- Whether a stretch holds nothing that the search for the rest of a chain
looks for: outside all parentheses it has no dot and nothing that ends the
expression.  The search passes over it, whatever it looks for. -/
def Silent (scanner : Scanner) (ahead : Option UInt8) : Bytes -> Prop
  | [] => True
  | byte :: rest =>
      ((scanner.step byte (rest.head?.or ahead)).1 = some 0 ->
        endsExpression byte = false ∧ byte ≠ Byte.dot) ∧
      Silent (scanner.step byte (rest.head?.or ahead)).2 ahead rest

theorem Silent.append {scanner : Scanner} {ahead : Option UInt8} {left right : Bytes}
    (first : scanner.Silent (right.head?.or ahead) left)
    (second : (scanner.run (right.head?.or ahead) left).Silent ahead right) :
    scanner.Silent ahead (left ++ right) := by
  induction left generalizing scanner with
  | nil => exact second
  | cons byte rest ih =>
      rw [List.cons_append, Silent, List.head?_append, Option.or_assoc]
      exact ⟨first.1, ih first.2 second⟩

theorem Silent.closesOwn {scanner : Scanner} {ahead : Option UInt8} {stretch : Bytes}
    (silent : scanner.Silent ahead stretch) : scanner.ClosesOwn ahead stretch := by
  induction stretch generalizing scanner with
  | nil => exact True.intro
  | cons byte rest ih =>
      refine ⟨?_, ih silent.2⟩
      rintro ⟨rfl, outside⟩
      exact absurd (silent.1 outside).1 (by decide)

/-- Between parentheses nothing is outside all parentheses. -/
theorem silent_deepen {scanner : Scanner} {ahead : Option UInt8} {bytes : Bytes}
    (own : scanner.ClosesOwn ahead bytes) (extra : Nat) :
    (scanner.deepen (extra + 1)).Silent ahead bytes := by
  induction bytes generalizing scanner with
  | nil => exact True.intro
  | cons byte rest ih =>
      rw [Silent, step_deepen own.1]
      refine ⟨?_, ih own.2⟩
      intro reported
      rcases Option.map_eq_some_iff.mp reported with ⟨depth, -, isZero⟩
      exact absurd isZero (Nat.succ_ne_zero (depth + extra))

theorem silent_of_names {bytes : Bytes}
    (names : ∀ byte ∈ bytes, isBlankByte byte = true ∨ isIdentifierByte byte = true)
    (depth : Nat) (ahead : Option UInt8) :
    (atRest depth).run ahead bytes = atRest depth ∧ (atRest depth).Silent ahead bytes := by
  have plain : ∀ byte ∈ bytes, isPlainByte byte = true := by
    intro byte member
    rcases names byte member with blank | identifier
    · exact isPlainByte_of_isBlankByte blank
    · exact isPlainByte_of_isIdentifierByte identifier
  refine ⟨run_atRest_plain plain depth ahead, ?_⟩
  induction bytes with
  | nil => exact True.intro
  | cons byte rest ih =>
      rw [Silent, step_atRest_plain (plain byte List.mem_cons_self)]
      refine ⟨fun _ => ?_, ih (fun other member => names other (List.mem_cons_of_mem byte member))
        fun other member => plain other (List.mem_cons_of_mem byte member)⟩
      have named := names byte List.mem_cons_self
      constructor
      · apply Bool.eq_false_iff.mpr
        intro ends
        simp only [endsExpression, Bool.or_eq_true, decide_eq_true_eq] at ends
        rcases ends with (((rfl | rfl) | rfl) | rfl) | rfl <;> exact absurd named (by decide)
      · rintro rfl
        exact absurd named (by decide)

/-- Behind its dot a call is silent and leaves a scanner as it is, if the
bytes in front of its parentheses do so. -/
theorem passes_call {lead inside : Bytes} {depth : Nat}
    (passes : forall ahead, (atRest depth).run ahead lead = atRest depth ∧
      (atRest depth).Silent ahead lead)
    (enclosed : IsEnclosed inside) (ahead : Option UInt8) :
    (atRest depth).run ahead (lead ++ Byte.openParen :: inside ++ [Byte.closeParen]) =
        atRest depth ∧
      (atRest depth).Silent ahead (lead ++ Byte.openParen :: inside ++ [Byte.closeParen]) := by
  have closed := enclosed.run_atRest (depth + 1)
  rw [List.append_assoc]
  constructor
  · rw [run_append, (passes _).1, List.cons_append, run_cons, step_atRest_open, run_append,
      List.head?_cons, Option.some_or, closed]
    rfl
  · apply Silent.append (passes _).2
    rw [(passes _).1, List.cons_append, Silent, step_atRest_open]
    refine ⟨fun _ => by decide, ?_⟩
    have deeper := silent_deepen enclosed.1 depth
    rw [start_eq_atRest, deepen_atRest, Nat.zero_add] at deeper
    apply Silent.append deeper
    rw [List.head?_cons, Option.some_or, closed, Silent, step_atRest_close]
    exact ⟨fun reported => absurd (Option.some.inj reported) (Nat.succ_ne_zero depth), True.intro⟩

theorem silent_call {word : String} {lead inside : Bytes}
    (identifier : isIdentifierWord word = true) (named : Call.IsNamed word lead)
    (enclosed : IsEnclosed inside) (depth : Nat) (ahead : Option UInt8) :
    (atRest depth).Silent ahead (lead ++ Byte.openParen :: inside ++ [Byte.closeParen]) :=
  (passes_call (silent_of_names (named.byte_cases identifier) depth) enclosed ahead).2

end Scanner

/-! ## Completing a candidate -/

theorem complete_append_of_silent {limit offset : Nat} {stage : Stage} {scanner : Scanner}
    {stretch rest : Bytes} (silent : scanner.Silent rest.head? stretch)
    (within : offset + stretch.length ≤ limit) :
    complete dialect limit stage scanner offset (stretch ++ rest) =
      complete dialect limit stage (scanner.run rest.head? stretch) (offset + stretch.length)
        rest := by
  induction stretch generalizing scanner offset with
  | nil => rfl
  | cons byte stretch ih =>
      rw [List.length_cons] at within
      have later := ih silent.2 (by omega : offset + 1 + stretch.length ≤ limit)
      have sameOffset : offset + (byte :: stretch).length = offset + 1 + stretch.length := by
        rw [List.length_cons]
        omega
      have quiet := silent.1
      rw [← List.head?_append] at quiet later
      rw [sameOffset, Scanner.run_cons, ← List.head?_append, ← later, List.cons_append]
      exact complete_onward_of_not_dot (fun reached => absurd reached.2 (by omega)) quiet

section

variable {limit offset : Nat} {message : Extent}

/-- What the search does at a dot outside all parentheses. -/
theorem complete_dot (stage : Stage) (within : offset < limit) (rest : Bytes) :
    complete dialect limit stage (Scanner.atRest 0) offset (Byte.dot :: rest) =
      match stage with
      | .beforeMessage =>
          match Call.message? dialect ⟨offset + 1, rest⟩ with
          | some call =>
              complete dialect limit (.afterMessage call.argument) (Scanner.atRest 0) call.stop
                (rest.drop (call.stop - (offset + 1)))
          | none =>
              if (Call.terminal? dialect ⟨offset + 1, rest⟩).isSome then .dropped
              else complete dialect limit .beforeMessage (Scanner.atRest 0) (offset + 1) rest
      | .afterMessage message =>
          match Call.terminal? dialect ⟨offset + 1, rest⟩ with
          | some stop => .found message stop
          | none =>
              complete dialect limit (.afterMessage message) (Scanner.atRest 0) (offset + 1) rest := by
  have onward : stage.PassesDot dialect ⟨offset + 1, rest⟩ ->
      complete dialect limit stage (Scanner.atRest 0) offset (Byte.dot :: rest) =
        complete dialect limit stage (Scanner.atRest 0) (offset + 1) rest :=
    fun passes => complete_onward (fun reached => absurd reached.2 (Nat.not_le_of_lt within))
      fun _ => ⟨rfl, fun _ => passes⟩
  cases stage with
  | beforeMessage =>
      cases isMessage : Call.message? dialect ⟨offset + 1, rest⟩ with
      | some call =>
          exact (Completes.message within isMessage (completes_complete ..)).complete_eq
      | none =>
          cases isTerminal : Call.terminal? dialect ⟨offset + 1, rest⟩ with
          | some stop => exact (Completes.early within isMessage isTerminal).complete_eq
          | none => exact onward ⟨isMessage, isTerminal⟩
  | afterMessage message =>
      cases isTerminal : Call.terminal? dialect ⟨offset + 1, rest⟩ with
      | some stop => exact (Completes.terminal within isTerminal).complete_eq
      | none => exact onward isTerminal

theorem complete_message (identifiers : dialect.HasIdentifierWords) {argument : Bytes}
    (bare : Call.IsBareMessage argument) (within : offset < limit) (rest : Bytes) :
    complete dialect limit .beforeMessage (Scanner.atRest 0) offset
        (Call.bytes dialect.messageMethod argument ++ rest) =
      complete dialect limit (.afterMessage
          ⟨offset + 1 + (Utf8.ofString dialect.messageMethod).length + 1,
            offset + 1 + (Utf8.ofString dialect.messageMethod).length + 1 + argument.length⟩)
        (Scanner.atRest 0)
        (offset + (Call.bytes dialect.messageMethod argument).length) rest := by
  have isMessage : Call.message? dialect ⟨offset + 1, Utf8.ofString dialect.messageMethod ++
      Byte.openParen :: (argument ++ Byte.closeParen :: rest)⟩ =
      some ⟨⟨offset + 1 + (Utf8.ofString dialect.messageMethod).length + 1,
        offset + 1 + (Utf8.ofString dialect.messageMethod).length + 1 + argument.length⟩,
        offset + 1 + (Utf8.ofString dialect.messageMethod).length + 1 + argument.length + 1⟩ :=
    (Call.message?_eq_some_iff identifiers).mpr ⟨Utf8.ofString dialect.messageMethod, argument,
      rest, Call.isNamed_self _, bare, by simp, rfl⟩
  have sameStop : offset + 1 + (Utf8.ofString dialect.messageMethod).length + 1 +
      argument.length + 1 = offset + (Call.bytes dialect.messageMethod argument).length := by
    rw [Call.length_bytes]
    omega
  rw [Call.bytes_append, complete_dot _ within, isMessage]
  simp only [sameStop, Call.drop_bytes]

theorem complete_call (identifiers : dialect.HasIdentifierWords) {name : String}
    {inside : Bytes} (identifier : isIdentifierWord name = true)
    (different : Utf8.ofString name ≠ Utf8.ofString dialect.terminalMethod)
    (enclosed : IsEnclosed inside) (rest : Bytes)
    (within : offset + (Call.bytes name inside).length ≤ limit) :
    complete dialect limit (.afterMessage message) (Scanner.atRest 0) offset
        (Call.bytes name inside ++ rest) =
      complete dialect limit (.afterMessage message) (Scanner.atRest 0)
        (offset + (Call.bytes name inside).length) rest := by
  have named := Call.isNamed_self name
  have notTerminal := Call.terminal?_eq_none identifiers identifier named different (offset + 1)
    (inside ++ Byte.closeParen :: rest)
  have length := Call.length_bytes name inside
  have whole : Utf8.ofString name ++ Byte.openParen :: (inside ++ Byte.closeParen :: rest) =
      (Utf8.ofString name ++ Byte.openParen :: inside ++ [Byte.closeParen]) ++ rest := by
    simp
  have stretchLength : (Utf8.ofString name ++ Byte.openParen :: inside ++
      [Byte.closeParen]).length = (Utf8.ofString name).length + inside.length + 2 := by
    simp only [List.length_append, List.length_cons, List.length_nil]
    omega
  rw [Call.bytes_append, complete_dot _ (by omega), notTerminal]
  simp only
  rw [whole, complete_append_of_silent (Scanner.silent_call identifier named enclosed 0 _)
    (by omega), Scanner.run_call_behind identifier named enclosed, length, stretchLength]
  congr 1
  omega

theorem complete_terminal (identifiers : dialect.HasIdentifierWords) (within : offset < limit)
    (rest : Bytes) :
    complete dialect limit (.afterMessage message) (Scanner.atRest 0) offset
        (Call.bytes dialect.terminalMethod [] ++ rest) =
      .found message (offset + (Call.bytes dialect.terminalMethod []).length) := by
  have isTerminal : Call.terminal? dialect ⟨offset + 1, Utf8.ofString dialect.terminalMethod ++
      Byte.openParen :: ([] ++ Byte.closeParen :: rest)⟩ =
      some (offset + 1 + (Utf8.ofString dialect.terminalMethod).length + 0 + 2) :=
    (Call.terminal?_eq_some_iff identifiers).mpr ⟨Utf8.ofString dialect.terminalMethod, [], rest,
      Call.isNamed_self _, isBlank_nil, by simp, rfl⟩
  rw [Call.bytes_append, complete_dot _ within, isTerminal, Call.length_bytes]
  simp only [List.length_nil]
  congr 1
  omega

end

/-! ## Looking for suppliers -/

section

variable {scanner : Scanner} {offset depth : Nat} {inside : Bytes}

theorem supplierCallsFrom_append_of_noDot {stretch : Bytes} (noDot : Byte.dot ∉ stretch)
    (rest : Bytes) :
    supplierCallsFrom dialect scanner offset (stretch ++ rest) =
      supplierCallsFrom dialect (scanner.run rest.head? stretch) (offset + stretch.length) rest := by
  induction stretch generalizing scanner offset with
  | nil => rfl
  | cons byte stretch ih =>
      have notDot : Byte.dot ≠ byte := List.ne_of_not_mem_cons noDot
      have noDotBehind : Byte.dot ∉ stretch := List.not_mem_of_not_mem_cons noDot
      have sameOffset : offset + (byte :: stretch).length = offset + 1 + stretch.length := by
        rw [List.length_cons]
        omega
      rw [sameOffset, Scanner.run_cons, ← List.head?_append, ← ih noDotBehind, List.cons_append]
      exact supplierCallsFrom_onward fun isDot => absurd isDot (Ne.symm notDot)

theorem supplierCallsFrom_call (identifiers : dialect.HasIdentifierWords) {name : String}
    (identifier : isIdentifierWord name = true)
    (different : Utf8.ofString name ≠ Utf8.ofString dialect.argumentMethod)
    (enclosed : IsEnclosed inside) (noDot : Byte.dot ∉ inside) (rest : Bytes) :
    supplierCallsFrom dialect (Scanner.atRest depth) offset (Call.bytes name inside ++ rest) =
      supplierCallsFrom dialect (Scanner.atRest depth)
        (offset + (Call.bytes name inside).length) rest := by
  have named := Call.isNamed_self name
  have notArgument := Call.argument?_eq_none identifiers identifier named different (offset + 1)
    (inside ++ Byte.closeParen :: rest)
  have whole : Utf8.ofString name ++ Byte.openParen :: (inside ++ Byte.closeParen :: rest) =
      (Utf8.ofString name ++ Byte.openParen :: inside ++ [Byte.closeParen]) ++ rest := by
    simp
  have noDotBehind : Byte.dot ∉ Utf8.ofString name ++ Byte.openParen :: inside ++
      [Byte.closeParen] := by
    rw [List.append_assoc, List.cons_append]
    exact named.dot_not_mem_call identifier noDot
  have read : forall ahead, (Scanner.atRest depth).step Byte.dot ahead =
      (some depth, Scanner.atRest depth) := fun _ => rfl
  rw [Call.bytes_append, supplierCallsFrom_onward fun _ _ _ => notArgument, read]
  simp only
  rw [whole, supplierCallsFrom_append_of_noDot noDotBehind,
    Scanner.run_call_behind identifier named enclosed, Call.length_bytes]
  congr 1
  simp only [List.length_append, List.length_cons, List.length_nil]
  omega

theorem supplierCallsFrom_supplier (identifiers : dialect.HasIdentifierWords)
    (enclosed : IsEnclosed inside) {body : Text} {extras : List Text}
    (content : CallContent.ofText (Utf8.decode inside) = .supplier body extras) (rest : Bytes) :
    supplierCallsFrom dialect (Scanner.atRest depth) offset
        (Call.bytes dialect.argumentMethod inside ++ rest) =
      ⟨⟨offset, offset + (Call.bytes dialect.argumentMethod inside).length⟩,
          (Fragment.ofConcatenation body).addArguments extras⟩ ::
        supplierCallsFrom dialect (Scanner.atRest depth)
          (offset + (Call.bytes dialect.argumentMethod inside).length) rest := by
  rw [Call.bytes_append, supplierCallsFrom_closed identifiers (Call.isNamed_self _) enclosed,
    content, Call.length_bytes, ← Nat.add_assoc, ← Nat.add_assoc]
  rfl

end

end FluentLog
