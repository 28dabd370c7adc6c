import FluentLog.Proofs.Chain.Frame
import FluentLog.Proofs.Chain.Items
import FluentLog.Proofs.Expression.Closed

namespace FluentLog

/-!
# What the searches find among items

Over a list of items both searches go from call to call.  The search that completes a
candidate stops at the first message call and at the first terminal call behind it, and
the walk that looks for suppliers finds the argument calls among the items with such an
argument, if no other argument call is hidden between parentheses.  The edits of these
calls replace items by items.
-/

variable {dialect : Dialect}

/-! ## The calls that complete a chain -/

section

variable {limit offset stop : Nat} {message : Extent}

theorem complete_of_silent {stage : Stage} {scanner : Scanner} {stretch rest : Bytes}
    (silent : scanner.Silent rest.head? stretch)
    (found : complete dialect limit stage scanner offset (stretch ++ rest) =
      .found message stop) :
    complete dialect limit stage (scanner.run rest.head? stretch) (offset + stretch.length)
      rest = .found message stop := by
  induction stretch generalizing scanner offset with
  | nil => exact found
  | cons byte stretch ih =>
      have quiet := silent.1
      rw [← List.head?_append] at quiet
      have later : complete dialect limit stage
          (scanner.step byte (stretch ++ rest).head?).2 (offset + 1) (stretch ++ rest) =
            .found message stop := by
        by_cases reached : scanner.region = .code ∧ limit ≤ offset
        · rw [complete_of_reached reached] at found
          cases found
        · rw [List.cons_append, complete_onward_of_not_dot reached quiet] at found
          exact found
      rw [List.head?_append] at later
      have behind := ih silent.2 later
      rw [List.length_cons, Scanner.run_cons, Nat.add_comm stretch.length, ← Nat.add_assoc]
      exact behind

theorem lt_of_complete_found {stage : Stage} {depth : Nat} {rest : Bytes}
    (found : complete dialect limit stage (Scanner.atRest depth) offset rest =
      .found message stop) : offset < limit := by
  by_contra reached
  rw [complete_of_reached ⟨rfl, Nat.le_of_not_lt reached⟩] at found
  cases found

namespace Item

variable {items : List Item} {rest : Bytes}

theorem complete_behind_gap {stage : Stage} {bytes : Bytes} (proper : IsProper (.gap bytes))
    (found : complete dialect limit stage (Scanner.atRest 0) offset (bytes ++ rest) =
      .found message stop) :
    complete dialect limit stage (Scanner.atRest 0) (offset + bytes.length) rest =
      .found message stop := by
  rcases proper.2.passes 0 rest.head? with ⟨back, silent⟩
  have behind := complete_of_silent silent found
  rw [back] at behind
  exact behind

theorem complete_behind_call {stage : Stage} {lead inside : Bytes}
    (proper : IsProper (.call lead inside))
    (found : complete dialect limit stage (Scanner.atRest 0) (offset + 1)
      (lead ++ Byte.openParen :: inside ++ [Byte.closeParen] ++ rest) = .found message stop) :
    complete dialect limit stage (Scanner.atRest 0)
      (offset + (bytes (.call lead inside)).length) rest = .found message stop := by
  rcases proper.passes 0 rest.head? with ⟨back, silent⟩
  have behind := complete_of_silent silent found
  rw [back, offset_behind_dot] at behind
  exact behind

theorem not_isTerminal_of_isBareMessage {lead inside : Bytes} (bare : Call.IsBareMessage inside) :
    ¬ IsTerminal dialect (.call lead inside) := by
  rintro ⟨-, blank⟩
  rcases bare with ⟨before, left, right, behind, -, -, -, -, rfl⟩
  exact absurd (blank Byte.doubleQuote (by simp)) (by decide)

/-- Whether the last of some items is a terminal call, and no other one.  A
search that has its message ends there. -/
def EndChain (dialect : Dialect) (items : List Item) : Prop :=
  ∃ front last, items = front ++ [last] ∧ last.IsTerminal dialect ∧
    ∀ item ∈ front, ¬ item.IsTerminal dialect

theorem endChain_singleton {last : Item} (isTerminal : last.IsTerminal dialect) :
    EndChain dialect [last] :=
  ⟨[], last, rfl, isTerminal, List.forall_mem_nil _⟩

theorem EndChain.cons {item : Item} (endChain : EndChain dialect items)
    (notTerminal : ¬ item.IsTerminal dialect) : EndChain dialect (item :: items) := by
  rcases endChain with ⟨front, last, rfl, isTerminal, none⟩
  exact ⟨item :: front, last, rfl, isTerminal, List.forall_mem_cons.mpr ⟨notTerminal, none⟩⟩

/-- Whether items at an offset complete a chain: one of them is the message
call with the message, and the last one, but none before it, is a terminal
call. -/
def CompleteChain (dialect : Dialect) (offset : Nat) (items : List Item) (message : Extent) :
    Prop :=
  ∃ front lead argument middle last,
    items = front ++ .call lead argument :: middle ++ [last] ∧
    Call.IsNamed dialect.messageMethod lead ∧ Call.IsBareMessage argument ∧
    message = ⟨offset + (text front).length + lead.length + 2,
      offset + (text front).length + lead.length + 2 + argument.length⟩ ∧
    last.IsTerminal dialect ∧
    ∀ item ∈ front ++ .call lead argument :: middle, ¬ item.IsTerminal dialect

theorem EndChain.completeChain {lead argument : Bytes} (endChain : EndChain dialect items)
    (named : Call.IsNamed dialect.messageMethod lead) (bare : Call.IsBareMessage argument)
    (offset : Nat) :
    CompleteChain dialect offset (.call lead argument :: items)
      ⟨offset + lead.length + 2, offset + lead.length + 2 + argument.length⟩ := by
  rcases endChain with ⟨middle, last, rfl, isTerminal, none⟩
  exact ⟨[], lead, argument, middle, last, rfl, named, bare, rfl, isTerminal,
    List.forall_mem_cons.mpr ⟨not_isTerminal_of_isBareMessage bare, none⟩⟩

theorem CompleteChain.cons {item : Item}
    (completes : CompleteChain dialect (offset + item.bytes.length) items message)
    (notTerminal : ¬ item.IsTerminal dialect) :
    CompleteChain dialect offset (item :: items) message := by
  rcases completes with
    ⟨front, lead, argument, middle, last, rfl, named, bare, rfl, isTerminal, none⟩
  refine ⟨item :: front, lead, argument, middle, last, rfl, named, bare, ?_, isTerminal,
    List.forall_mem_cons.mpr ⟨notTerminal, none⟩⟩
  simp only [text_cons, List.length_append, ← Nat.add_assoc]

/-- Behind the message the search ends with the last of the items, if it ends
with them: that is a terminal call, and there is none in front of it. -/
theorem complete_afterMessage (identifiers : dialect.HasIdentifierWords) {found : Extent}
    (proper : ∀ item ∈ items, item.IsProper)
    (isFound : complete dialect limit (.afterMessage message) (Scanner.atRest 0) offset
      (text items ++ rest) = .found found stop)
    (atStop : stop = offset + (text items).length) :
    found = message ∧ EndChain dialect items := by
  induction items generalizing offset with
  | nil =>
      rcases (completes_of_complete isFound).afterMessage_found identifiers with
        ⟨-, tail, after, -, atEnd, isTail⟩
      have noTail : tail = [] := by
        apply List.eq_nil_of_length_eq_zero
        rw [text_nil, List.length_nil] at atStop
        omega
      have isLast := isTail.getLast?_eq
      rw [noTail] at isLast
      cases isLast
  | cons item items ih =>
      have properRest : ∀ other ∈ items, other.IsProper :=
        fun other member => proper other (List.mem_cons_of_mem item member)
      rw [text_cons, List.append_assoc] at isFound
      rw [text_cons, List.length_append] at atStop
      have goOn : ¬ item.IsTerminal dialect ->
          complete dialect limit (.afterMessage message) (Scanner.atRest 0)
            (offset + item.bytes.length) (text items ++ rest) = .found found stop ->
          found = message ∧ EndChain dialect (item :: items) := by
        intro notTerminal later
        rcases ih properRest later (by omega) with ⟨same, endChain⟩
        exact ⟨same, endChain.cons notTerminal⟩
      cases item with
      | gap bytes => exact goOn id (complete_behind_gap (proper _ List.mem_cons_self) isFound)
      | call lead inside =>
          have here := proper _ List.mem_cons_self
          have reads := terminal?_call identifiers here (offset + 1) (text items ++ rest)
          rw [bytes_call_append, complete_dot _ (lt_of_complete_found isFound)] at isFound
          simp only at isFound
          split at isFound
          · rename_i terminalStop isTerminal
            rcases (reads terminalStop).mp isTerminal with ⟨terminal, atTerminal⟩
            injection isFound with same sameStop
            rw [length_bytes_call] at atStop
            have noItems := eq_nil_of_text properRest (by omega)
            subst noItems
            exact ⟨same.symm, endChain_singleton terminal⟩
          · rename_i notTerminal
            apply goOn _ (complete_behind_call here isFound)
            intro terminal
            have isTerminal := (reads _).mpr ⟨terminal, rfl⟩
            rw [notTerminal] at isTerminal
            cases isTerminal

/-- If the search comes to a message call, the items behind it end with the
terminal call. -/
theorem complete_behind_message (identifiers : dialect.HasIdentifierWords)
    (proper : ∀ item ∈ items, item.IsProper) {lead inside : Bytes}
    (named : Call.IsNamed dialect.messageMethod lead) (bare : Call.IsBareMessage inside)
    (isFound : complete dialect limit
      (.afterMessage ⟨offset + 1 + lead.length + 1, offset + 1 + lead.length + 1 + inside.length⟩)
      (Scanner.atRest 0) (offset + 1 + lead.length + 1 + inside.length + 1)
      ((lead ++ Byte.openParen :: inside ++ [Byte.closeParen] ++ (text items ++ rest)).drop
        (offset + 1 + lead.length + 1 + inside.length + 1 - (offset + 1))) = .found message stop)
    (atStop : stop = offset + ((bytes (.call lead inside)).length + (text items).length)) :
    CompleteChain dialect offset (.call lead inside :: items) message := by
  have behind : (lead ++ Byte.openParen :: inside ++ [Byte.closeParen] ++
      (text items ++ rest)).drop
        (offset + 1 + lead.length + 1 + inside.length + 1 - (offset + 1)) =
      text items ++ rest := by
    apply List.drop_left'
    simp only [List.length_append, List.length_cons, List.length_nil]
    omega
  rw [behind] at isFound
  rw [length_bytes_call] at atStop
  rcases complete_afterMessage identifiers proper isFound (by omega) with ⟨rfl, endChain⟩
  have atMessage : offset + lead.length + 2 = offset + 1 + lead.length + 1 := by omega
  have completes := endChain.completeChain named bare offset
  rw [atMessage] at completes
  exact completes

/-- In front of the message the search finds the first message call, with no
terminal call in front of it, and then the terminal call.  The induction is on
the items. -/
theorem complete_beforeMessage (identifiers : dialect.HasIdentifierWords)
    (proper : ∀ item ∈ items, item.IsProper)
    (keeps : forall lead inside, .call lead inside ∈ items -> Scanner.start.KeepsLines inside)
    (isFound : complete dialect limit .beforeMessage (Scanner.atRest 0) offset
      (text items ++ rest) = .found message stop)
    (atStop : stop = offset + (text items).length) :
    CompleteChain dialect offset items message := by
  induction items generalizing offset with
  | nil =>
      rcases (completes_of_complete isFound).beforeMessage_found identifiers with
        ⟨before, lead, argument, tail, after, -, -, -, -, -, -, -, atEnd⟩
      rw [text_nil, List.length_nil] at atStop
      omega
  | cons item items ih =>
      have properRest : ∀ other ∈ items, other.IsProper :=
        fun other member => proper other (List.mem_cons_of_mem item member)
      have keepsRest : forall lead inside, .call lead inside ∈ items ->
          Scanner.start.KeepsLines inside :=
        fun lead inside member => keeps lead inside (List.mem_cons_of_mem item member)
      rw [text_cons, List.append_assoc] at isFound
      rw [text_cons, List.length_append] at atStop
      cases item with
      | gap bytes =>
          have later := complete_behind_gap (proper _ List.mem_cons_self) isFound
          rw [Item.bytes, ← Nat.add_assoc] at atStop
          exact (ih properRest keepsRest later atStop).cons id
      | call lead inside =>
          have here := proper _ List.mem_cons_self
          have reads := terminal?_call identifiers here (offset + 1) (text items ++ rest)
          have readsMessage := message?_call identifiers here (offset + 1) (text items ++ rest)
            (keeps lead inside List.mem_cons_self)
          rw [bytes_call_append, complete_dot _ (lt_of_complete_found isFound)] at isFound
          simp only at isFound
          split at isFound
          · rename_i call isMessage
            rcases (readsMessage call).mp isMessage with ⟨named, bare, rfl⟩
            exact complete_behind_message identifiers properRest named bare isFound atStop
          · rename_i notMessage
            split at isFound
            · cases isFound
            · rename_i notTerminal
              have later := complete_behind_call here isFound
              apply (ih properRest keepsRest later (by omega)).cons
              intro terminal
              apply notTerminal
              rw [(reads _).mpr ⟨terminal, rfl⟩]
              rfl

end Item

end

/-! ## The supplier calls among the items -/

def ArgumentCall.fragment? (call : ArgumentCall) : Option Fragment :=
  match CallContent.ofText (Utf8.decode call.inside) with
  | .supplier body extras => some ((Fragment.ofConcatenation body).addArguments extras)
  | .plain => none

/-- The argument calls that take the place of one: for a supplier call one for
each argument of its fragment, with nothing else between its parentheses, and
otherwise the call itself. -/
def ArgumentCall.replacement (dialect : Dialect) (call : ArgumentCall) : List ArgumentCall :=
  match call.fragment? with
  | none => [call]
  | some fragment => fragment.arguments.map fun argument =>
      ⟨Utf8.ofString dialect.argumentMethod, Utf8.encode argument⟩

/-- Whether no argument call stands between the parentheses of another call.
Then the argument calls of a chain are those among its items. -/
def HasFlatArguments (dialect : Dialect) (scanner : Scanner) (text : Bytes) : Prop :=
  forall front rest depth, text = front ++ Byte.dot :: rest ->
    ((scanner.run (some Byte.dot) front).step Byte.dot rest.head?).1 = some depth ->
    forall opened, Call.argument? dialect ⟨0, rest⟩ = some opened -> depth = 0

theorem HasFlatArguments.of_append_right {scanner : Scanner} {left right : Bytes}
    (flat : HasFlatArguments dialect scanner (left ++ right)) :
    HasFlatArguments dialect (scanner.run right.head? left) right := by
  rintro front rest depth rfl reported
  apply flat (left ++ front) rest depth (List.append_assoc _ _ _).symm
  rw [Scanner.run_append]
  rw [List.head?_append, List.head?_cons] at reported
  exact reported

theorem Call.exists_argument?_zero (identifiers : dialect.HasIdentifierWords) {offset : Nat}
    {rest : Bytes} {opened : Place} (isOpened : argument? dialect ⟨offset, rest⟩ = some opened) :
    ∃ opened, argument? dialect ⟨0, rest⟩ = some opened := by
  rcases (argument?_eq_some_iff identifiers).mp isOpened with ⟨lead, named, same, -⟩
  exact ⟨⟨0 + lead.length + 1, opened.rest⟩,
    (argument?_eq_some_iff identifiers).mpr ⟨lead, named, same, rfl⟩⟩

theorem supplierCallsFrom_append_of_silent (identifiers : dialect.HasIdentifierWords)
    {scanner : Scanner} {offset : Nat} {stretch rest : Bytes}
    (silent : scanner.Silent rest.head? stretch)
    (flat : HasFlatArguments dialect scanner (stretch ++ rest)) :
    supplierCallsFrom dialect scanner offset (stretch ++ rest) =
      supplierCallsFrom dialect (scanner.run rest.head? stretch) (offset + stretch.length)
        rest := by
  induction stretch generalizing scanner offset with
  | nil => rfl
  | cons byte stretch ih =>
      have flatBehind : HasFlatArguments dialect
          (scanner.step byte (stretch.head?.or rest.head?)).2 (stretch ++ rest) := by
        rw [← List.head?_append]
        exact @HasFlatArguments.of_append_right dialect scanner [byte] (stretch ++ rest) flat
      have later := @ih _ (offset + 1) silent.2 flatBehind
      have sameOffset : offset + (byte :: stretch).length = offset + 1 + stretch.length := by
        rw [List.length_cons]
        omega
      have quiet := silent.1
      rw [Scanner.run_cons, sameOffset, ← later, List.cons_append, ← List.head?_append]
      apply supplierCallsFrom_onward
      intro isDot depth reported
      apply Option.eq_none_iff_forall_ne_some.mpr
      intro opened isOpened
      rcases Call.exists_argument?_zero identifiers isOpened with ⟨other, isOther⟩
      rw [List.head?_append] at reported
      have atTop : depth = 0 := by
        apply flat [] (stretch ++ rest) depth (by rw [isDot]; rfl) _ other isOther
        rw [List.head?_append, ← isDot]
        exact reported
      rw [atTop] at reported
      exact (quiet reported).2 isDot

namespace Item

def fragment? (dialect : Dialect) (item : Item) : Option Fragment :=
  (item.argument? dialect).bind ArgumentCall.fragment?

def replacement (dialect : Dialect) (item : Item) : List Item :=
  match item.fragment? dialect with
  | none => [item]
  | some fragment => fragment.arguments.map fun argument =>
      .call (Utf8.ofString dialect.argumentMethod) (Utf8.encode argument)

def supplierCalls (dialect : Dialect) (offset : Nat) : List Item -> List SupplierCall
  | [] => []
  | item :: items =>
      ((item.fragment? dialect).map
          (SupplierCall.mk ⟨offset, offset + item.bytes.length⟩)).toList ++
        supplierCalls dialect (offset + item.bytes.length) items

section

variable {offset : Nat} {lead inside : Bytes} (identifiers : dialect.HasIdentifierWords)
  (proper : IsProper (.call lead inside)) (rest : Bytes)

include identifiers proper

/-- At an argument call the walk looks at its argument and goes on behind it. -/
theorem supplierCallsFrom_argument (named : Call.IsNamed dialect.argumentMethod lead) :
    supplierCallsFrom dialect (Scanner.atRest 0) offset (bytes (.call lead inside) ++ rest) =
      ((ArgumentCall.fragment? ⟨lead, inside⟩).map
          (SupplierCall.mk ⟨offset, offset + (bytes (.call lead inside)).length⟩)).toList ++
        supplierCallsFrom dialect (Scanner.atRest 0)
          (offset + (bytes (.call lead inside)).length) rest := by
  have whole : bytes (.call lead inside) ++ rest =
      Byte.dot :: (lead ++ Byte.openParen :: (inside ++ Byte.closeParen :: rest)) := by
    simp [bytes]
  rw [whole, supplierCallsFrom_closed identifiers named proper.2, length_bytes_call,
    ← Nat.add_assoc, ← Nat.add_assoc, ArgumentCall.fragment?]
  cases CallContent.ofText (Utf8.decode inside) <;> rfl

theorem supplierCallsFrom_other (notNamed : ¬ Call.IsNamed dialect.argumentMethod lead)
    (flat : HasFlatArguments dialect (Scanner.atRest 0) (bytes (.call lead inside) ++ rest)) :
    supplierCallsFrom dialect (Scanner.atRest 0) offset (bytes (.call lead inside) ++ rest) =
      supplierCallsFrom dialect (Scanner.atRest 0)
        (offset + (bytes (.call lead inside)).length) rest := by
  have notOpened : Call.argument? dialect
      ⟨offset + 1, lead ++ Byte.openParen :: inside ++ [Byte.closeParen] ++ rest⟩ = none := by
    apply Option.eq_none_iff_forall_ne_some.mpr
    intro opened isOpened
    exact notNamed ((argument?_call identifiers proper (offset + 1) rest opened).mp isOpened).1
  rcases proper.passes 0 rest.head? with ⟨back, silent⟩
  rw [bytes_call_append] at flat ⊢
  have flatBehind := @HasFlatArguments.of_append_right dialect _ [Byte.dot] _ flat
  have passed := @supplierCallsFrom_append_of_silent dialect identifiers _ (offset + 1) _ _ silent
    flatBehind
  rw [back, offset_behind_dot] at passed
  rw [supplierCallsFrom_onward fun _ _ _ => notOpened]
  exact passed

end

/-- The walk that looks for suppliers finds the supplier calls among the
items.  Flat arguments are needed, since the walk looks for calls inside of
other calls too. -/
theorem supplierCallsFrom_text (identifiers : dialect.HasIdentifierWords) {offset : Nat}
    {items : List Item} (proper : ∀ item ∈ items, item.IsProper)
    (flat : HasFlatArguments dialect (Scanner.atRest 0) (text items)) :
    supplierCallsFrom dialect (Scanner.atRest 0) offset (text items) =
      supplierCalls dialect offset items := by
  induction items generalizing offset with
  | nil => rw [text_nil, supplierCallsFrom, supplierCalls]
  | cons item items ih =>
      have here := proper item List.mem_cons_self
      rw [text_cons] at flat ⊢
      have flatBehind := flat.of_append_right
      rw [here.run] at flatBehind
      have later := @ih (offset + item.bytes.length)
        (fun other member => proper other (List.mem_cons_of_mem item member)) flatBehind
      rw [supplierCalls, ← later]
      cases item with
      | gap bytes =>
          rcases here.2.passes 0 (text items).head? with ⟨back, silent⟩
          have passed := @supplierCallsFrom_append_of_silent dialect identifiers _ offset _ _
            silent flat
          rw [back] at passed
          exact passed
      | call lead inside =>
          have reads := argument?_eq_some_iff identifiers here
          have fragment : fragment? dialect (.call lead inside) =
              (argument? dialect (.call lead inside)).bind ArgumentCall.fragment? := rfl
          by_cases named : Call.IsNamed dialect.argumentMethod lead
          · rw [supplierCallsFrom_argument identifiers here _ named, fragment,
              (reads _).mpr ⟨named, rfl⟩, Option.bind_some]
          · have notArgument : argument? dialect (.call lead inside) = none :=
              Option.eq_none_iff_forall_ne_some.mpr fun call isCall =>
                named ((reads call).mp isCall).1
            rw [supplierCallsFrom_other identifiers here _ named flat, fragment, notArgument]
            rfl

/-- The supplier calls contribute the fragments of the argument calls, in
order. -/
theorem map_fragment_supplierCalls (offset : Nat) (items : List Item) :
    (supplierCalls dialect offset items).map SupplierCall.fragment =
      (items.filterMap (argument? dialect)).filterMap ArgumentCall.fragment? := by
  induction items generalizing offset with
  | nil => rfl
  | cons item items ih =>
      rw [supplierCalls, List.map_append, ih, List.filterMap_cons, fragment?]
      cases item.argument? dialect with
      | none => rfl
      | some call =>
          rw [List.filterMap_cons, Option.bind_some]
          cases call.fragment? <;> rfl

theorem supplierCalls_append (offset : Nat) (left right : List Item) :
    supplierCalls dialect offset (left ++ right) =
      supplierCalls dialect offset left ++
        supplierCalls dialect (offset + (text left).length) right := by
  induction left generalizing offset with
  | nil => rfl
  | cons item left ih =>
      rw [List.cons_append, supplierCalls, ih, supplierCalls, List.append_assoc, text_cons,
        List.length_append, ← Nat.add_assoc]

theorem extent_of_mem_supplierCalls {offset : Nat} {items : List Item} {call : SupplierCall}
    (member : call ∈ supplierCalls dialect offset items) :
    offset ≤ call.extent.start ∧ call.extent.start ≤ call.extent.stop ∧
      call.extent.stop ≤ offset + (text items).length := by
  induction items generalizing offset with
  | nil => cases member
  | cons item items ih =>
      rw [supplierCalls, List.mem_append, Option.mem_toList, Option.map_eq_some_iff] at member
      rw [text_cons, List.length_append]
      rcases member with ⟨fragment, -, rfl⟩ | inItems
      · exact ⟨Nat.le_refl _, Nat.le_add_right _ _, by simp only; omega⟩
      · have within := ih inItems
        omega

theorem encode_argumentCalls (arguments : List Text) :
    Utf8.encode (Plan.argumentCalls dialect arguments) =
      text (arguments.map fun argument =>
        .call (Utf8.ofString dialect.argumentMethod) (Utf8.encode argument)) := by
  induction arguments with
  | nil => rfl
  | cons argument arguments ih =>
      have here : Utf8.encode ('.' :: dialect.argumentMethod.toList ++ '(' :: argument ++ [')']) =
          bytes (.call (Utf8.ofString dialect.argumentMethod) (Utf8.encode argument)) := by
        simp only [Utf8.encode_append, Utf8.encode_cons, List.cons_append]
        rfl
      rw [Plan.argumentCalls, List.flatMap_cons, Utf8.encode_append, here, List.map_cons,
        text_cons, ← ih]
      rfl

theorem replaces_text (offset : Nat) (items : List Item) :
    Edit.Replaces offset ((supplierCalls dialect offset items).map (SupplierCall.edit dialect))
      (text items) (text (items.flatMap (replacement dialect))) := by
  induction items generalizing offset with
  | nil => exact .done offset []
  | cons item items ih =>
      rw [supplierCalls, List.map_append, text_cons, List.flatMap_cons, text_append]
      apply Edit.Replaces.append _ (ih _)
      rw [replacement]
      cases item.fragment? dialect with
      | none =>
          simp only [text_cons, text_nil, List.append_nil]
          exact .done offset item.bytes
      | some fragment =>
          have whole := Edit.Replaces.edit [] item.bytes
            (Utf8.encode (Plan.argumentCalls dialect fragment.arguments))
            (.done (offset + 0 + item.bytes.length) [])
          rw [encode_argumentCalls] at whole
          simpa [SupplierCall.edit, encode_argumentCalls] using whole

/-! ## What takes the place of an item -/

/-- Whether what stands between the parentheses of a call is a text with kept
lines. -/
def IsSound : Item -> Prop
  | .gap _ => True
  | .call _ inside => Scanner.start.KeepsLines inside ∧ ∃ text, inside = Utf8.encode text

/-- The arguments of a supplier call can stand between parentheses on their
own. -/
theorem isEnclosed_of_mem_arguments (identifiers : dialect.HasIdentifierWords) {item : Item}
    (proper : item.IsProper) (sound : item.IsSound) {fragment : Fragment}
    (isSupplier : item.fragment? dialect = some fragment) :
    ∀ argument ∈ fragment.arguments, IsEnclosed (Utf8.encode argument) := by
  cases item with
  | gap bytes => cases isSupplier
  | call lead inside =>
      rcases Option.bind_eq_some_iff.mp isSupplier with ⟨call, isCall, isFragment⟩
      rcases (argument?_eq_some_iff identifiers proper call).mp isCall with ⟨-, rfl⟩
      rcases sound with ⟨keeps, text, rfl⟩
      unfold ArgumentCall.fragment? at isFragment
      simp only [Utf8.decode_encode] at isFragment
      split at isFragment
      · rename_i body extras content
        cases isFragment
        have noComment := (CallContent.exists_of_ofText_eq_supplier content).1
        have closed := isClosed_of_isEnclosed keeps noComment proper.2
        exact fun argument member => (isClosed_of_mem_arguments closed content argument
          member).isEnclosed
      · cases isFragment

theorem isProper_argumentCall (identifiers : dialect.HasIdentifierWords) {argument : Text}
    (enclosed : IsEnclosed (Utf8.encode argument)) :
    IsProper (.call (Utf8.ofString dialect.argumentMethod) (Utf8.encode argument)) :=
  ⟨IsQuiet.of_isNamed identifiers.argumentMethod (Call.isNamed_self _), enclosed⟩

/-- An item is kept, or its place is taken by calls of closed arguments. -/
theorem mem_replacement (identifiers : dialect.HasIdentifierWords) {item other : Item}
    (proper : item.IsProper) (sound : item.IsSound)
    (member : other ∈ item.replacement dialect) :
    other = item ∨ ∃ argument, IsEnclosed (Utf8.encode argument) ∧
      other = .call (Utf8.ofString dialect.argumentMethod) (Utf8.encode argument) := by
  unfold replacement at member
  split at member
  · exact .inl (List.mem_singleton.mp member)
  · rename_i fragment isSupplier
    rcases List.mem_map.mp member with ⟨argument, inArguments, rfl⟩
    exact .inr ⟨argument, isEnclosed_of_mem_arguments identifiers proper sound isSupplier argument
      inArguments, rfl⟩

/-- The argument calls that take the place of an item are those that take the
place of the argument call that it is. -/
theorem filterMap_replacement (identifiers : dialect.HasIdentifierWords) {item : Item}
    (proper : item.IsProper) (sound : item.IsSound) :
    (item.replacement dialect).filterMap (argument? dialect) =
      (item.argument? dialect).toList.flatMap (ArgumentCall.replacement dialect) := by
  have fragment : item.fragment? dialect =
      (item.argument? dialect).bind ArgumentCall.fragment? := rfl
  unfold replacement
  split
  · rename_i noFragment
    rw [noFragment] at fragment
    cases isCall : item.argument? dialect with
    | none => simp [isCall]
    | some call =>
        rw [isCall, Option.bind_some] at fragment
        simp [isCall, ArgumentCall.replacement, ← fragment]
  · rename_i found isSupplier
    have enclosed := isEnclosed_of_mem_arguments identifiers proper sound isSupplier
    rw [isSupplier] at fragment
    rcases Option.bind_eq_some_iff.mp fragment.symm with ⟨call, isCall, isFragment⟩
    have calls : forall arguments : List Text,
        (∀ argument ∈ arguments, IsEnclosed (Utf8.encode argument)) ->
        (arguments.map fun argument => Item.call (Utf8.ofString dialect.argumentMethod)
          (Utf8.encode argument)).filterMap (argument? dialect) =
            arguments.map fun argument =>
              ⟨Utf8.ofString dialect.argumentMethod, Utf8.encode argument⟩ := by
      intro arguments enclosed
      induction arguments with
      | nil => rfl
      | cons argument arguments ih =>
          have here := (argument?_eq_some_iff identifiers (isProper_argumentCall identifiers
            (enclosed argument List.mem_cons_self)) _).mpr ⟨Call.isNamed_self _, rfl⟩
          rw [List.map_cons, List.filterMap_cons, here, List.map_cons,
            ih fun other member => enclosed other (List.mem_cons_of_mem argument member)]
    rw [calls found.arguments enclosed, isCall, Option.toList_some, List.flatMap_singleton,
      ArgumentCall.replacement, isFragment]

theorem filterMap_flatMap_replacement (identifiers : dialect.HasIdentifierWords)
    {items : List Item} (proper : ∀ item ∈ items, item.IsProper)
    (sound : ∀ item ∈ items, item.IsSound) :
    (items.flatMap (replacement dialect)).filterMap (argument? dialect) =
      (items.filterMap (argument? dialect)).flatMap (ArgumentCall.replacement dialect) := by
  induction items with
  | nil => rfl
  | cons item items ih =>
      rw [List.flatMap_cons, List.filterMap_append,
        filterMap_replacement identifiers (proper item List.mem_cons_self)
          (sound item List.mem_cons_self),
        ih (fun other member => proper other (List.mem_cons_of_mem item member))
          (fun other member => sound other (List.mem_cons_of_mem item member)),
        List.filterMap_cons]
      cases item.argument? dialect <;> simp

/-- A call with nothing but blanks between its parentheses is kept. -/
theorem replacement_of_isBlank (identifiers : dialect.HasIdentifierWords) {lead inside : Bytes}
    (proper : IsProper (.call lead inside)) (blank : IsBlank inside) :
    fragment? dialect (.call lead inside) = none := by
  apply Option.eq_none_iff_forall_ne_some.mpr
  intro fragment isSupplier
  rcases Option.bind_eq_some_iff.mp isSupplier with ⟨call, isCall, isFragment⟩
  rcases (argument?_eq_some_iff identifiers proper call).mp isCall with ⟨-, rfl⟩
  rw [ArgumentCall.fragment?, CallContent.ofText_of_isBlank blank] at isFragment
  cases isFragment

end Item

end FluentLog
