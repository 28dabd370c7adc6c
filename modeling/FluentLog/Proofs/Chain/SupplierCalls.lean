import FluentLog.Chain.Plan
import FluentLog.Proofs.Chain.CallBytes
import FluentLog.Proofs.Chain.Passage
import FluentLog.Proofs.Chain.Replacement
import FluentLog.Proofs.Code.Inert
import FluentLog.Proofs.Text.Blank
import FluentLog.Proofs.Text.Utf8

namespace FluentLog

/-!
# The supplier calls of a chain

The walk that looks for supplier calls passes over the whole of each argument call,
supplier or not, and the scanner behind the call is the one in front of it.  So each
supplier call that it gives begins at a dot that a scanner reads as code when it reads
the chain from its beginning, and ends with the parenthesis that closes the call.  The
calls are disjoint and in order.

A supplier call and the message of the chain do not overlap: the message call begins
outside all parentheses, a call has no dot between its own dot and its parenthesis,
and a quoted message is no supplier.
-/

/-! ## Arguments that begin with a literal -/

theorem Supplier.body?_of_quote (rest : Text) : Supplier.body? ('"' :: rest) = none := by
  rw [Supplier.body?, Text.trimLeft_cons_of_not_blank (by decide)]
  rfl

theorem noCut_of_blank {blanks : Text}
    (blank : ∀ character ∈ blanks, isBlank character = true ∧ character ≠ ',') (cursor : Cursor) :
    NoCut ',' cursor blanks :=
  NoCut.of_not_mem (fun member => (blank ',' member).2 rfl) cursor

/-- A call whose first argument begins with a literal is kept as it is. -/
theorem CallContent.ofText_quote {blanks : Text}
    (blank : ∀ character ∈ blanks, isBlank character = true ∧ character ≠ ',') (rest : Text) :
    CallContent.ofText (blanks ++ '"' :: rest) = .plain := by
  have noCut := noCut_of_blank blank
  rw [CallContent.ofText]
  split
  · rfl
  · have notCut (cursor : Cursor) : ¬ ('"' = ',' ∧ cursor.isUnnested = true) :=
      fun cut => absurd cut.1 (by decide)
    rw [splitUnnested, splitFrom_append_of_noCut (noCut _), splitFrom_cons_of_noCut (notCut _)]
    simp only [List.map_cons]
    have trimmed : forall text : Text,
        Text.trim (blanks ++ '"' :: text) = '"' :: Text.trimRight text := by
      intro text
      rw [Text.trim, Text.trimLeft_append_of_blank fun character member =>
        (blank character member).1, Text.trimLeft_cons_of_not_blank (by decide),
        Text.trimRight_cons_of_not_blank (by decide)]
    rw [trimmed, List.filter_cons_of_pos rfl, CallContent.ofArguments, Supplier.body?_of_quote]
    rfl

/-! ## Where supplier calls stand -/

variable {dialect : Dialect}

def IsSupplierCall (dialect : Dialect) (scanner : Scanner) (offset : Nat) (text : Bytes)
    (call : SupplierCall) : Prop :=
  ∃ before lead inside after body extras depth,
    text = before ++ Byte.dot :: lead ++ Byte.openParen :: inside ++ Byte.closeParen :: after ∧
    Call.IsNamed dialect.argumentMethod lead ∧ IsEnclosed inside ∧
    scanner.run (some Byte.dot) before = Scanner.atRest depth ∧
    CallContent.ofText (Utf8.decode inside) = .supplier body extras ∧
    call = ⟨⟨offset + before.length, offset + before.length + lead.length + inside.length + 3⟩,
      (Fragment.ofConcatenation body).addArguments extras⟩

namespace IsSupplierCall

variable {scanner : Scanner} {offset : Nat} {text : Bytes} {call : SupplierCall}

theorem prepend (front : Bytes)
    (isCall : IsSupplierCall dialect (scanner.run text.head? front) (offset + front.length)
      text call) :
    IsSupplierCall dialect scanner offset (front ++ text) call := by
  rcases isCall with ⟨before, lead, inside, after, body, extras, depth, rfl, named, enclosed,
    rest, content, rfl⟩
  have sameAhead : (before ++ Byte.dot :: lead ++ Byte.openParen :: inside ++
      Byte.closeParen :: after).head? = before.head?.or (some Byte.dot) := by
    cases before <;> rfl
  rw [sameAhead, ← Scanner.run_append] at rest
  refine ⟨front ++ before, lead, inside, after, body, extras, depth, ?_, named, enclosed, rest,
    content, ?_⟩
  · simp only [List.append_assoc, List.cons_append]
  · simp only [List.length_append, Nat.add_assoc]

end IsSupplierCall

theorem exists_call_of_argument? (identifiers : dialect.HasIdentifierWords) {offset length : Nat}
    {rest : Bytes} {opened : Place}
    (isOpened : Call.argument? dialect ⟨offset + 1, rest⟩ = some opened)
    (closes : closingParen? opened.rest = some length) :
    ∃ lead inside after, Call.IsNamed dialect.argumentMethod lead ∧ IsEnclosed inside ∧
      rest = lead ++ Byte.openParen :: inside ++ Byte.closeParen :: after ∧
      opened.rest.take length = inside ∧
      opened.offset + length + 1 = offset + lead.length + inside.length + 3 ∧
      rest.drop (opened.offset + length + 1 - (offset + 1)) = after := by
  rcases (Call.argument?_eq_some_iff identifiers).mp isOpened with ⟨lead, named, same, atOffset⟩
  rcases closingParen?_eq_some_iff.mp closes with ⟨inside, after, sameOpened, rfl, enclosed⟩
  simp only at same atOffset
  have sameRest : rest = lead ++ Byte.openParen :: inside ++ Byte.closeParen :: after := by
    rw [same, sameOpened]
    simp
  refine ⟨lead, inside, after, named, enclosed, sameRest, ?_, ?_, ?_⟩
  · rw [sameOpened]
    exact List.take_left' rfl
  · omega
  · have split : rest =
        (lead ++ Byte.openParen :: inside ++ [Byte.closeParen]) ++ after := by
      rw [sameRest]
      simp
    rw [split]
    apply List.drop_left'
    simp only [List.length_append, List.length_cons, List.length_nil]
    omega

theorem run_argumentCall (identifiers : dialect.HasIdentifierWords) {scanner next : Scanner}
    {depth : Nat} {lead inside after : Bytes} (named : Call.IsNamed dialect.argumentMethod lead)
    (enclosed : IsEnclosed inside)
    (read : scanner.step Byte.dot
      (lead ++ Byte.openParen :: inside ++ Byte.closeParen :: after).head? = (some depth, next)) :
    scanner.run after.head?
      (Byte.dot :: lead ++ Byte.openParen :: inside ++ [Byte.closeParen]) = next := by
  have isAtRest : scanner = Scanner.atRest depth :=
    Scanner.eq_atRest_of_step (congrArg Prod.fst read)
  rw [isAtRest, Scanner.step_atRest_plain rfl] at read
  rw [isAtRest, Scanner.run_call identifiers.argumentMethod named enclosed]
  exact congrArg Prod.snd read

/-! ## One step of the walk -/

theorem supplierCallsFrom_onward {scanner : Scanner} {offset : Nat} {byte : UInt8} {rest : Bytes}
    (noCall : byte = Byte.dot -> forall depth,
      (scanner.step byte rest.head?).1 = some depth ->
        Call.argument? dialect ⟨offset + 1, rest⟩ = none) :
    supplierCallsFrom dialect scanner offset (byte :: rest) =
      supplierCallsFrom dialect (scanner.step byte rest.head?).2 (offset + 1) rest := by
  rw [supplierCallsFrom]
  split
  · rename_i next read
    rw [read]
  · rename_i depth next read
    split
    · rename_i isDot
      rw [noCall isDot depth (congrArg Prod.fst read), read]
    · rw [read]

/-- The supplier call that an argument call at an extent is, if it is one, by
the text between its parentheses. -/
def CallContent.supplierCalls (extent : Extent) : CallContent -> List SupplierCall
  | .supplier body extras => [⟨extent, (Fragment.ofConcatenation body).addArguments extras⟩]
  | .plain => []

/-- The walk looks at an argument call and goes on behind it. -/
theorem supplierCallsFrom_closed (identifiers : dialect.HasIdentifierWords) {depth offset : Nat}
    {lead inside : Bytes} (named : Call.IsNamed dialect.argumentMethod lead)
    (enclosed : IsEnclosed inside) (after : Bytes) :
    supplierCallsFrom dialect (Scanner.atRest depth) offset
        (Byte.dot :: (lead ++ Byte.openParen :: (inside ++ Byte.closeParen :: after))) =
      (CallContent.ofText (Utf8.decode inside)).supplierCalls
          ⟨offset, offset + lead.length + inside.length + 3⟩ ++
        supplierCallsFrom dialect (Scanner.atRest depth)
          (offset + lead.length + inside.length + 3) after := by
  have isOpened : Call.argument? dialect
      ⟨offset + 1, lead ++ Byte.openParen :: (inside ++ Byte.closeParen :: after)⟩ =
      some ⟨offset + 1 + lead.length + 1, inside ++ Byte.closeParen :: after⟩ :=
    (Call.argument?_eq_some_iff identifiers).mpr ⟨lead, named, rfl, rfl⟩
  have closes : closingParen? (inside ++ Byte.closeParen :: after) = some inside.length :=
    closingParen?_eq_some_iff.mpr ⟨inside, after, rfl, rfl, enclosed⟩
  have sameStop : offset + 1 + lead.length + 1 + inside.length + 1 =
      offset + lead.length + inside.length + 3 := by
    omega
  have behind : (lead ++ Byte.openParen :: (inside ++ Byte.closeParen :: after)).drop
      (offset + lead.length + inside.length + 3 - (offset + 1)) = after := by
    have whole : lead ++ Byte.openParen :: (inside ++ Byte.closeParen :: after) =
        (lead ++ Byte.openParen :: (inside ++ [Byte.closeParen])) ++ after := by
      simp
    rw [whole]
    apply List.drop_left'
    simp only [List.length_append, List.length_cons, List.length_nil]
    omega
  have read : forall ahead, (Scanner.atRest depth).step Byte.dot ahead =
      (some depth, Scanner.atRest depth) := fun _ => rfl
  rw [supplierCallsFrom, read]
  simp only [if_true, isOpened, closes, List.take_left, sameStop, behind]
  cases CallContent.ofText (Utf8.decode inside) <;> rfl

/-! ## The calls that the walk gives -/

theorem isSupplierCall_of_mem (identifiers : dialect.HasIdentifierWords) {scanner : Scanner}
    {offset : Nat} {text : Bytes} {call : SupplierCall}
    (member : call ∈ supplierCallsFrom dialect scanner offset text) :
    IsSupplierCall dialect scanner offset text call := by
  have step : forall {scanner next : Scanner} {offset : Nat} {byte : UInt8} {rest : Bytes},
      next = (scanner.step byte rest.head?).2 ->
      IsSupplierCall dialect next (offset + 1) rest call ->
      IsSupplierCall dialect scanner offset (byte :: rest) call := by
    rintro scanner next offset byte rest rfl isCall
    exact IsSupplierCall.prepend [byte] isCall
  have jump : forall {scanner next : Scanner} {offset length depth : Nat} {rest : Bytes}
      {opened : Place}, Call.argument? dialect ⟨offset + 1, rest⟩ = some opened ->
      closingParen? opened.rest = some length ->
      scanner.step Byte.dot rest.head? = (some depth, next) ->
      IsSupplierCall dialect next (opened.offset + length + 1)
        (rest.drop (opened.offset + length + 1 - (offset + 1))) call ->
      IsSupplierCall dialect scanner offset (Byte.dot :: rest) call := by
    intro scanner next offset length depth rest opened isOpened closes read isCall
    rcases exists_call_of_argument? identifiers isOpened closes with
      ⟨lead, inside, after, named, enclosed, rfl, taken, atStop, dropped⟩
    rw [dropped, atStop, ← run_argumentCall identifiers named enclosed read] at isCall
    have whole := IsSupplierCall.prepend
      (Byte.dot :: lead ++ Byte.openParen :: inside ++ [Byte.closeParen]) (by
        simpa [Nat.add_assoc, Nat.add_comm, Nat.add_left_comm] using isCall)
    simpa using whole
  fun_induction supplierCallsFrom dialect scanner offset text with
  | case1 => cases member
  | case2 scanner offset byte rest next read ih =>
      exact step (congrArg Prod.snd read).symm (ih member)
  | case3 scanner offset rest depth next notOpened read ih =>
      exact step (congrArg Prod.snd read).symm (ih member)
  | case4 => cases member
  | case5 scanner offset rest depth next opened isOpened length closes stop later body extras
      content fragment read ih =>
      rcases List.mem_cons.mp member with rfl | inLater
      · rcases exists_call_of_argument? identifiers isOpened closes with
          ⟨lead, inside, after, named, enclosed, rfl, taken, atStop, dropped⟩
        rw [taken] at content
        refine ⟨[], lead, inside, after, body, extras, depth, rfl, named, enclosed,
          Scanner.eq_atRest_of_step (congrArg Prod.fst read), content, ?_⟩
        simp only [SupplierCall.mk.injEq, Extent.mk.injEq, List.length_nil, Nat.add_zero,
          true_and]
        exact ⟨atStop, rfl⟩
      · exact jump isOpened closes read (ih inLater)
  | case6 scanner offset rest depth next opened isOpened length closes stop later content read
      ih =>
      exact jump isOpened closes read (ih member)
  | case7 scanner offset byte rest depth next read notDot ih =>
      exact step (congrArg Prod.snd read).symm (ih member)

/-! ## The edits of supplier calls -/

def SupplierCall.edit (dialect : Dialect) (call : SupplierCall) : Edit :=
  ⟨call.extent, Utf8.encode (Plan.argumentCalls dialect call.fragment.arguments)⟩

theorem Plan.callEdits_foldl (plan : Plan) (calls : List SupplierCall) :
    (calls.foldl (Plan.addCall dialect) plan).callEdits =
      plan.callEdits ++ calls.map (SupplierCall.edit dialect) := by
  induction calls generalizing plan with
  | nil => rw [List.foldl_nil, List.map_nil, List.append_nil]
  | cons call calls ih =>
      rw [List.foldl_cons, ih, List.map_cons, ← List.singleton_append, ← List.append_assoc]
      rfl

theorem Plan.callEdits_ofSpan (span : Span) :
    (Plan.ofSpan dialect span).callEdits =
      (supplierCalls dialect span.text).map (SupplierCall.edit dialect) :=
  Plan.callEdits_foldl Plan.empty _

/-- A closed argument call ends behind its dot and within the text, whatever
the words of the dialect are. -/
theorem stop_of_argument? {offset length : Nat} {rest : Bytes} {opened : Place}
    (isOpened : Call.argument? dialect ⟨offset + 1, rest⟩ = some opened)
    (closes : closingParen? opened.rest = some length) :
    offset + 1 < opened.offset ∧ opened.offset + length + 1 ≤ offset + 1 + rest.length := by
  rcases Call.exists_passes_of_argument? isOpened with ⟨word, nonempty, passes⟩
  rcases closingParen?_eq_some_iff.mp closes with ⟨inside, after, sameOpened, rfl, -⟩
  have passed := passes.lt nonempty
  rcases passes with ⟨same, atOffset⟩
  simp only at same atOffset passed
  rw [sameOpened] at same
  have sameLength := congrArg List.length same
  simp only [List.length_append, List.length_cons] at sameLength
  omega

theorem inOrder_supplierCallsFrom (dialect : Dialect) (scanner : Scanner) (offset : Nat)
    (text : Bytes) :
    Edit.inOrder (offset + text.length) offset
      ((supplierCallsFrom dialect scanner offset text).map (SupplierCall.edit dialect)) = true := by
  have step : forall {offset : Nat} {byte : UInt8} {rest : Bytes} {edits : List Edit},
      Edit.inOrder (offset + 1 + rest.length) (offset + 1) edits = true ->
      Edit.inOrder (offset + (byte :: rest).length) offset edits = true := by
    intro offset byte rest edits ordered
    have sameLength : offset + (byte :: rest).length = offset + 1 + rest.length := by
      rw [List.length_cons]
      omega
    rw [sameLength]
    exact Edit.inOrder_of_le (Nat.le_succ offset) ordered
  have jump : forall {offset length : Nat} {rest : Bytes} {opened : Place} {edits : List Edit},
      Call.argument? dialect ⟨offset + 1, rest⟩ = some opened ->
      closingParen? opened.rest = some length ->
      Edit.inOrder (opened.offset + length + 1 +
        (rest.drop (opened.offset + length + 1 - (offset + 1))).length)
        (opened.offset + length + 1) edits = true ->
      offset ≤ opened.offset + length + 1 ∧
        Edit.inOrder (offset + (Byte.dot :: rest).length) (opened.offset + length + 1)
          edits = true := by
    intro offset length rest opened edits isOpened closes ordered
    have bounds := stop_of_argument? isOpened closes
    have sameLength : offset + (Byte.dot :: rest).length = opened.offset + length + 1 +
        (rest.drop (opened.offset + length + 1 - (offset + 1))).length := by
      rw [List.length_cons, List.length_drop]
      omega
    rw [sameLength]
    exact ⟨by omega, ordered⟩
  fun_induction supplierCallsFrom dialect scanner offset text with
  | case1 => exact decide_eq_true (Nat.le_add_right _ _)
  | case2 scanner offset byte rest next read ih => exact step ih
  | case3 scanner offset rest depth next notOpened read ih => exact step ih
  | case4 => exact decide_eq_true (Nat.le_add_right _ _)
  | case5 scanner offset rest depth next opened isOpened length closes stop later body extras
      content fragment read ih =>
      have behind := jump isOpened closes ih
      simp only [List.map_cons, SupplierCall.edit, Edit.inOrder, Bool.and_eq_true,
        decide_eq_true_eq]
      exact ⟨⟨Nat.le_refl offset, behind.1⟩, behind.2⟩
  | case6 scanner offset rest depth next opened isOpened length closes stop later content read
      ih =>
      have behind := jump isOpened closes ih
      exact Edit.inOrder_of_le behind.1 behind.2
  | case7 scanner offset byte rest depth next read notDot ih => exact step ih

/-! ## Supplier calls and the message -/

theorem IsBlank.exists_decode_append {blanks : Bytes} (blank : IsBlank blanks) :
    ∃ characters : Text,
      (∀ character ∈ characters, isBlank character = true ∧ character ≠ ',') ∧
        forall rest : Bytes, Utf8.decode (blanks ++ rest) = characters ++ Utf8.decode rest := by
  rcases blank.exists_encode with ⟨characters, rfl, allBlank⟩
  refine ⟨characters, fun character member => ⟨allBlank character member, ?_⟩,
    Utf8.decode_encode_append characters⟩
  rintro rfl
  exact absurd (allBlank _ member) (by decide)

/-- A call with nothing between its parentheses is kept as it is. -/
theorem CallContent.ofText_of_isBlank {inside : Bytes} (blank : IsBlank inside) :
    CallContent.ofText (Utf8.decode inside) = .plain := by
  rcases blank.exists_decode_append with ⟨characters, allBlank, read⟩
  have decoded := read []
  have noText : Text.trim (characters ++ []) = [] := by
    rw [Text.trim, Text.trimLeft_append_of_blank fun character member =>
      (allBlank character member).1]
    rfl
  have isNil : Utf8.decode [] = [] := rfl
  rw [List.append_nil, isNil] at decoded
  rw [decoded, CallContent.ofText]
  split
  · rfl
  · rw [splitUnnested_eq, splitFrom_append_of_noCut (noCut_of_blank allBlank _), splitFrom,
      List.map_cons, noText]
    rfl

/-- A call whose text begins like a qualifying message is kept as it is. -/
theorem CallContent.ofText_of_isBareMessage {inside after argument other : Bytes}
    (bare : Call.IsBareMessage argument)
    (same : inside ++ Byte.closeParen :: after = argument ++ other) :
    CallContent.ofText (Utf8.decode inside) = .plain := by
  rcases bare with ⟨blanks, left, right, behind, blank, -, -, -, rfl⟩
  have sameQuote : inside ++ Byte.closeParen :: after = blanks ++ Byte.doubleQuote ::
      (left ++ [Byte.openBrace, Byte.closeBrace] ++ right ++ Byte.doubleQuote :: behind ++ other) := by
    rw [same]
    simp
  have notInBlanks : Byte.closeParen ∉ blanks :=
    fun member => absurd (blank Byte.closeParen member) (by decide)
  rcases split_behind_cons notInBlanks (by decide) sameQuote with ⟨rest, rfl, -⟩
  rcases blank.exists_decode_append with ⟨characters, allBlank, read⟩
  rw [read, Utf8.decode_cons_ascii (by decide)]
  exact CallContent.ofText_quote allBlank _

/-- Between the parentheses of a call a scanner is not outside all
parentheses. -/
theorem Scanner.run_within_call {word : String} {lead opened more : Bytes} {next : UInt8}
    (identifier : isIdentifierWord word = true) (named : Call.IsNamed word lead)
    (enclosed : IsEnclosed (opened ++ next :: more)) (depth : Nat) :
    (atRest depth).run (some next) (Byte.dot :: lead ++ [Byte.openParen] ++ opened) ≠
      atRest 0 := by
  rw [run_append, run_opened identifier named]
  intro outside
  have deeper := enclosed.le_depth (depth + 1)
  rw [List.head?_cons, Option.some_or, outside] at deeper
  exact absurd deeper (by simp)

section

variable {lead argument callLead inside after behind middle : Bytes}

theorem le_of_dot_behind_message (identifiers : dialect.HasIdentifierWords)
    (named : Call.IsNamed dialect.messageMethod lead) (bare : Call.IsBareMessage argument)
    (same : lead ++ Byte.openParen :: (argument ++ Byte.closeParen :: after) =
      middle ++ Byte.dot :: behind) :
    lead.length + argument.length + 2 ≤ middle.length := by
  have whole : middle ++ Byte.dot :: behind =
      (lead ++ Byte.openParen :: (argument ++ [Byte.closeParen])) ++ after := by
    rw [← same]
    simp
  rcases split_behind (named.dot_not_mem_call identifiers.messageMethod bare.dot_not_mem)
    whole with ⟨more, rfl, -⟩
  simp only [List.length_append, List.length_cons, List.length_nil]
  omega

/-- A dot behind that of an argument call and outside all parentheses stands
behind the parenthesis that closes the call. -/
theorem le_of_dot_behind_call (identifiers : dialect.HasIdentifierWords)
    (named : Call.IsNamed dialect.argumentMethod callLead) (enclosed : IsEnclosed inside)
    (same : callLead ++ Byte.openParen :: (inside ++ Byte.closeParen :: after) =
      middle ++ Byte.dot :: behind) {depth : Nat}
    (outside : (Scanner.atRest depth).run (some Byte.dot) (Byte.dot :: middle) = Scanner.atRest 0) :
    callLead.length + inside.length + 2 ≤ middle.length := by
  have whole : middle ++ Byte.dot :: behind =
      (callLead ++ [Byte.openParen]) ++ (inside ++ Byte.closeParen :: after) := by
    rw [← same]
    simp
  have notInName : Byte.dot ∉ callLead ++ [Byte.openParen] := by
    have notParen : Byte.dot ≠ Byte.openParen := by decide
    simp [named.dot_not_mem identifiers.argumentMethod, notParen]
  rcases split_behind notInName whole with ⟨opened, rfl, sameInside⟩
  rcases split_at sameInside.symm with ⟨more, rfl, sameBehind⟩ | ⟨more, rfl, -⟩
  · cases more with
    | nil => exact absurd (List.cons.inj sameBehind).1 (by decide)
    | cons first more =>
        simp only [List.length_append, List.length_cons, List.length_nil]
        omega
  · -- Inside the call the dot would not be outside all parentheses.
    exact absurd outside
      (Scanner.run_within_call identifiers.argumentMethod named enclosed depth)

end

/-- A supplier call of a chain and the text of its message do not overlap.  A
call that held the message would hold the whole message call, whose dot stands
outside of all parentheses. -/
theorem IsSupplierCall.apart_message (identifiers : dialect.HasIdentifierWords)
    {before lead argument after : Bytes} {call : SupplierCall}
    (isCall : IsSupplierCall dialect .start 0
      (before ++ Byte.dot :: lead ++ Byte.openParen :: argument ++ Byte.closeParen :: after) call)
    (named : Call.IsNamed dialect.messageMethod lead) (bare : Call.IsBareMessage argument)
    (outside : Scanner.start.run (some Byte.dot) before = Scanner.atRest 0) :
    call.extent.stop ≤ before.length + lead.length + 2 ∨
      before.length + lead.length + argument.length + 2 ≤ call.extent.start := by
  rcases isCall with ⟨front, callLead, inside, behind, body, extras, depth, same, callNamed,
    enclosed, atDot, content, rfl⟩
  -- The two calls do not begin at the same dot, because a quoted message is no supplier.
  have notSame : callLead ++ Byte.openParen :: (inside ++ Byte.closeParen :: behind) ≠
      lead ++ Byte.openParen :: (argument ++ Byte.closeParen :: after) := by
    intro sameCall
    rcases Call.IsNamed.unique identifiers.argumentMethod callNamed identifiers.messageMethod
      named sameCall with ⟨-, sameInside⟩
    rw [CallContent.ofText_of_isBareMessage bare sameInside] at content
    cases content
  simp only [List.append_assoc, List.cons_append] at same
  rcases List.append_eq_append_iff.mp same with
    ⟨middle, rfl, isRest⟩ | ⟨middle, rfl, isRest⟩
  · cases middle with
    | nil => exact absurd (List.cons.inj isRest).2.symm notSame
    | cons first middle =>
        rcases List.cons.inj isRest with ⟨rfl, isMessage⟩
        have isBehind := le_of_dot_behind_message identifiers named bare isMessage
        right
        simp only [List.length_append, List.length_cons]
        omega
  · cases middle with
    | nil => exact absurd (List.cons.inj isRest).2 notSame
    | cons first middle =>
        rcases List.cons.inj isRest with ⟨rfl, isCall⟩
        rw [Scanner.run_append, List.head?_cons, Option.some_or, atDot] at outside
        have isBehind := le_of_dot_behind_call identifiers callNamed enclosed isCall outside
        left
        simp only [List.length_append, List.length_cons]
        omega

/-- No supplier call begins inside the initial call of a chain. -/
theorem IsSupplierCall.behind_initial (identifiers : dialect.HasIdentifierWords)
    {initial tail : Bytes} {call : SupplierCall}
    (isCall : IsSupplierCall dialect .start 0 (initial ++ tail) call)
    (isInitial : Call.IsInitial dialect initial) : initial.length ≤ call.extent.start := by
  rcases isCall with ⟨before, lead, inside, after, body, extras, depth, same, named, enclosed,
    -, content, rfl⟩
  have whole : before ++ Byte.dot :: (lead ++ Byte.openParen :: (inside ++
      Byte.closeParen :: after)) = initial ++ tail := by
    rw [same]
    simp
  rcases split_at whole with ⟨middle, rfl, -⟩ | ⟨others, isFront, isRest⟩
  · simp only [List.length_append]
    omega
  · -- The call would be the first call of the chain, which has no argument.
    rcases isInitial.exists_names with ⟨receiver, isReceiver, level, isLevel, blanks, levelLead,
      empty, blankBehind, levelled, blank, rfl⟩
    have identifier := identifiers.levelled isLevel
    have sameOthers := behind_only_unique
      ((Call.isNamed_append blankBehind).dot_not_mem (identifiers.receiver isReceiver))
      (levelled.dot_not_mem_call identifier blank.dot_not_mem) isFront
    have sameCall : lead ++ Byte.openParen :: (inside ++ Byte.closeParen :: after) =
        levelLead ++ Byte.openParen :: (empty ++ Byte.closeParen :: tail) := by
      rw [isRest, ← sameOthers]
      simp
    rcases named.unique identifiers.argumentMethod identifier levelled sameCall with
      ⟨-, sameInside⟩
    have noContent : inside = empty :=
      enclosed.unique (isEnclosed_of_plain blank.plain) sameInside
    rw [noContent, CallContent.ofText_of_isBlank blank] at content
    cases content

end FluentLog
