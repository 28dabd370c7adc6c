import FluentLog.Proofs.Chain.ItemSearch

namespace FluentLog

/-!
# Inlining keeps the structure of a chain

A `CallSequence` is a chain taken apart into its calls: the initial call, the calls in
front of the message, the message, and the calls from there to the terminal call.  What a
walk over the chain meets is read off it.  Inlining replaces supplier calls by calls whose
arguments are closed texts, and the message by a literal, so from one such sequence it
makes another.
-/

/-- A chain taken apart into its calls and what stands between them. -/
structure CallSequence where
  receiver : Bytes
  /-- The initial call behind the receiver. -/
  initial : Item
  front : List Item
  /-- The message call, with what stands in front of its parentheses and in them. -/
  lead : Bytes
  argument : Bytes
  middle : List Item
  terminal : Item
  deriving DecidableEq, Repr

variable {dialect : Dialect}

namespace CallSequence

def between (calls : CallSequence) : List Item :=
  calls.front ++ .call calls.lead calls.argument :: calls.middle

def items (calls : CallSequence) : List Item :=
  calls.initial :: (calls.between ++ [calls.terminal])

def text (calls : CallSequence) : Bytes :=
  calls.receiver ++ Item.text calls.items

/-- Whether the calls make up a chain: with an initial call in front, and a
message and a terminal call, and with no terminal call in front of that. -/
structure IsProper (dialect : Dialect) (calls : CallSequence) : Prop where
  isInitial : Call.IsInitial dialect (calls.receiver ++ calls.initial.bytes)
  receiver : ∀ byte ∈ calls.receiver, isBlankByte byte = true ∨ isIdentifierByte byte = true
  level : ∃ level ∈ dialect.levels, ∃ lead inside, calls.initial = .call lead inside ∧
    Call.IsNamed (dialect.levelPrefix ++ level) lead ∧ IsBlank inside
  all : ∀ item ∈ calls.items, item.IsProper
  message : Call.IsNamed dialect.messageMethod calls.lead
  isTerminal : calls.terminal.IsTerminal dialect
  noTerminal : ∀ item ∈ calls.between, ¬ item.IsTerminal dialect

namespace IsProper

variable {calls : CallSequence}

theorem passes_receiver (proper : calls.IsProper dialect) (ahead : Option UInt8) :
    (Scanner.atRest 0).run ahead calls.receiver = Scanner.atRest 0 ∧
      (Scanner.atRest 0).Silent ahead calls.receiver :=
  Scanner.silent_of_names proper.receiver 0 ahead

/-- At the end of the chain no literal, no comment and no parenthesis is open. -/
theorem run_text (proper : calls.IsProper dialect) (ahead : Option UInt8) :
    Scanner.start.run ahead calls.text = .start := by
  rw [text, Scanner.run_append, Scanner.start_eq_atRest, (proper.passes_receiver _).1]
  exact Item.run_text proper.all 0 ahead

/-- The chain ends with its terminal call, and closes only its own
parentheses. -/
theorem isTail_text (proper : calls.IsProper dialect) : IsTail dialect .start calls.text := by
  have properFront : ∀ item ∈ calls.initial :: calls.between, item.IsProper := fun item member =>
    proper.all item (List.mem_append_left [calls.terminal] member)
  have receiver := proper.passes_receiver
    ((Item.text (calls.initial :: calls.between)).head?.or (some Byte.dot))
  have isTerminal := proper.isTerminal
  have split : calls.text = calls.receiver ++ Item.text (calls.initial :: calls.between) ++
      calls.terminal.bytes := by
    rw [text, items, ← List.cons_append, Item.text_append, Item.text_cons calls.terminal,
      Item.text_nil, List.append_nil, List.append_assoc]
  cases isCall : calls.terminal with
  | gap bytes =>
      rw [isCall] at isTerminal
      exact absurd isTerminal id
  | call lead inside =>
      rw [isCall] at isTerminal split
      refine ⟨calls.receiver ++ Item.text (calls.initial :: calls.between), lead, inside,
        isTerminal.1, isTerminal.2, ?_, ?_, ?_⟩
      · rw [split, Item.bytes]
        simp only [List.append_assoc, List.cons_append]
      · apply Scanner.ClosesOwn.append receiver.2.closesOwn
        rw [receiver.1]
        exact Item.closesOwn_text properFront 0 _
      · rw [Scanner.run_append, Scanner.start_eq_atRest, receiver.1]
        exact Item.run_text properFront 0 _

/-- Outside of all parentheses a walk meets the calls. -/
theorem outerDots_text (proper : calls.IsProper dialect) :
    Scanner.start.outerDots 0 calls.text =
      Item.outerDots calls.receiver.length calls.items := by
  rcases proper.passes_receiver (Item.text calls.items).head? with ⟨back, silent⟩
  rw [text, Scanner.start_eq_atRest, Scanner.outerDots_append_of_silent silent, back,
    Nat.zero_add]
  exact Item.outerDots_text proper.all _

theorem drop_receiver (calls : CallSequence) :
    calls.text.drop calls.receiver.length = Item.text calls.items :=
  List.drop_left

/-- The argument calls that a walk meets are those among the items. -/
theorem outerArguments_text (identifiers : dialect.HasIdentifierWords)
    (proper : calls.IsProper dialect) :
    outerArguments dialect calls.text = calls.items.filterMap (Item.argument? dialect) := by
  rw [outerArguments, proper.outerDots_text]
  exact Item.filterMap_outerDots identifiers proper.all (drop_receiver calls)

theorem findSome?_behind_initial (identifiers : dialect.HasIdentifierWords)
    (proper : calls.IsProper dialect) :
    ((Scanner.start.outerDots 0 calls.text).filter fun point =>
        (calls.receiver ++ calls.initial.bytes).length ≤ point.offset).findSome?
      (terminalAt? dialect calls.text) = some calls.text.length := by
  rcases proper.level with ⟨level, -, lead, inside, isCall, -, -⟩
  have atOffset := Item.drop_text (drop_receiver calls)
  have found := Item.findSome?_outerDots identifiers
    (fun item member => proper.all item (List.mem_cons_of_mem _ member)) proper.noTerminal
    proper.isTerminal atOffset
  have positive := (proper.all calls.initial List.mem_cons_self).length_pos
  have notInitial : ¬ calls.receiver.length + calls.initial.bytes.length ≤
      calls.receiver.length := by omega
  have behind := List.filter_eq_self.mpr fun point member =>
    decide_eq_true (@Item.offset_of_mem_outerDots
      (calls.receiver.length + calls.initial.bytes.length) (calls.between ++ [calls.terminal])
      point member)
  have whole : calls.text.length = calls.receiver.length + calls.initial.bytes.length +
      (Item.text (calls.between ++ [calls.terminal])).length := by
    rw [text, items, Item.text_cons, List.length_append, List.length_append, Nat.add_assoc]
  rw [proper.outerDots_text, whole, ← found, ← behind, List.length_append]
  rw [isCall] at notInitial
  rw [items, isCall, Item.outerDots, List.filter_cons, if_neg (by simpa using notInitial)]

/-- No first call is a terminal call, if none is named like one. -/
theorem not_isTerminal_initial (identifiers : dialect.HasIdentifierWords)
    (own : dialect.HasOwnTerminal) (proper : calls.IsProper dialect) :
    ¬ calls.initial.IsTerminal dialect := by
  rcases proper.level with ⟨level, isLevel, lead, inside, isCall, named, -⟩
  rw [isCall]
  rintro ⟨terminal, -⟩
  exact own level isLevel
    (named.word_unique (identifiers.levelled isLevel) identifiers.terminalMethod terminal)

/-- If no first call is named like the terminal call, that is the first of
all. -/
theorem findSome?_terminal (identifiers : dialect.HasIdentifierWords)
    (own : dialect.HasOwnTerminal) (proper : calls.IsProper dialect) :
    (Scanner.start.outerDots 0 calls.text).findSome? (terminalAt? dialect calls.text) =
      some calls.text.length := by
  have split : calls.items = (calls.initial :: calls.between) ++ [calls.terminal] := rfl
  have found := Item.findSome?_outerDots identifiers proper.all (fun item member => by
    rcases List.mem_cons.mp member with rfl | inBetween
    · exact proper.not_isTerminal_initial identifiers own
    · exact proper.noTerminal item inBetween) proper.isTerminal (drop_receiver calls)
  rw [proper.outerDots_text, split, found, text, split, List.length_append]

/-- The initial call is found in every chain that begins alike. -/
theorem initial?_eq (identifiers : dialect.HasIdentifierWords) (proper : calls.IsProper dialect)
    {other : CallSequence} (sameReceiver : other.receiver = calls.receiver)
    (sameInitial : other.initial = calls.initial) :
    Call.initial? dialect ⟨0, other.text⟩ = Call.initial? dialect ⟨0, calls.text⟩ := by
  rw [text, text, CallSequence.items, CallSequence.items, Item.text_cons, Item.text_cons,
    sameReceiver, sameInitial, ← List.append_assoc, ← List.append_assoc]
  exact proper.isInitial.initial?_congr identifiers 0 _ _

end IsProper
/-! ## The inlined chain -/

/-- The chain with another message, and with its supplier calls replaced.
Everything else stays where it is, the gaps between the calls included. -/
def rewrite (dialect : Dialect) (message : Bytes) (calls : CallSequence) : CallSequence :=
  { calls with
    front := calls.front.flatMap (Item.replacement dialect)
    argument := message
    middle := calls.middle.flatMap (Item.replacement dialect) }

/-- Whether the calls stand in a source of kept lines. -/
def IsSound (calls : CallSequence) : Prop :=
  ∀ item ∈ calls.items, item.IsSound

section

variable {calls : CallSequence} (identifiers : dialect.HasIdentifierWords)
  (apart : Utf8.ofString dialect.messageMethod ≠ Utf8.ofString dialect.argumentMethod)
  (proper : calls.IsProper dialect)

include identifiers proper

theorem IsProper.fragment?_initial : calls.initial.fragment? dialect = none := by
  have here := proper.all calls.initial List.mem_cons_self
  rcases proper.level with ⟨-, -, lead, inside, isCall, -, blank⟩
  rw [isCall] at here ⊢
  exact Item.replacement_of_isBlank identifiers here blank

theorem IsProper.fragment?_terminal : calls.terminal.fragment? dialect = none := by
  have here := proper.all calls.terminal (List.mem_cons_of_mem _ (List.mem_append_right _
    List.mem_cons_self))
  have isTerminal := proper.isTerminal
  cases isItem : calls.terminal with
  | gap bytes => rfl
  | call lead inside =>
      rw [isItem] at here isTerminal
      exact Item.replacement_of_isBlank identifiers here isTerminal.2

theorem IsProper.replacement_initial : calls.initial.replacement dialect = [calls.initial] := by
  rw [Item.replacement, proper.fragment?_initial identifiers]

theorem IsProper.replacement_terminal : calls.terminal.replacement dialect = [calls.terminal] := by
  rw [Item.replacement, proper.fragment?_terminal identifiers]

include apart

theorem IsProper.argument?_message (argument : Bytes)
    (properMessage : Item.IsProper (.call calls.lead argument)) :
    Item.argument? dialect (.call calls.lead argument) = none := by
  apply Option.eq_none_iff_forall_ne_some.mpr
  intro call isCall
  have named := ((Item.argument?_eq_some_iff identifiers properMessage call).mp isCall).1
  exact apart (proper.message.word_unique identifiers.messageMethod identifiers.argumentMethod
    named)

end

/-- What stands between the initial and the terminal call of an inlined chain. -/
theorem mem_between_rewrite (identifiers : dialect.HasIdentifierWords) {calls : CallSequence}
    (proper : calls.IsProper dialect) (sound : calls.IsSound) {message : Bytes} {item : Item}
    (member : item ∈ (calls.rewrite dialect message).between) :
    item ∈ calls.between ∨ item = .call calls.lead message ∨
      ∃ argument, IsEnclosed (Utf8.encode argument) ∧
        item = .call (Utf8.ofString dialect.argumentMethod) (Utf8.encode argument) := by
  have replaced : forall {items : List Item}, items ⊆ calls.between ->
      item ∈ items.flatMap (Item.replacement dialect) -> item ∈ calls.between ∨
        ∃ argument, IsEnclosed (Utf8.encode argument) ∧
          item = .call (Utf8.ofString dialect.argumentMethod) (Utf8.encode argument) := by
    intro items within inItems
    rcases List.mem_flatMap.mp inItems with ⟨old, isOld, isItem⟩
    have inAll : old ∈ calls.items :=
      List.mem_cons_of_mem _ (List.mem_append_left _ (within isOld))
    rcases Item.mem_replacement identifiers (proper.all old inAll) (sound old inAll) isItem with
      rfl | isArgument
    · exact .inl (within isOld)
    · exact .inr isArgument
  rcases List.mem_append.mp member with inFront | isMessage
  · rcases replaced (List.subset_append_left _ _) inFront with isOld | isArgument
    · exact .inl isOld
    · exact .inr (.inr isArgument)
  · rcases List.mem_cons.mp isMessage with isMessage | inMiddle
    · exact .inr (.inl isMessage)
    · have within : calls.middle ⊆ calls.between := fun other inMiddle =>
        List.mem_append_right _ (List.mem_cons_of_mem _ inMiddle)
      rcases replaced within inMiddle with isOld | isArgument
      · exact .inl isOld
      · exact .inr (.inr isArgument)

/-- The inlined chain is made up of the same kinds of calls.  Its argument
calls are enclosed, since the arguments are taken from between parentheses. -/
theorem IsProper.rewrite (identifiers : dialect.HasIdentifierWords)
    (argumentApart : Utf8.ofString dialect.argumentMethod ≠ Utf8.ofString dialect.terminalMethod)
    (messageApart : Utf8.ofString dialect.messageMethod ≠ Utf8.ofString dialect.terminalMethod)
    {calls : CallSequence} (proper : calls.IsProper dialect) (sound : calls.IsSound)
    {message : Bytes} (enclosed : IsEnclosed message) :
    (calls.rewrite dialect message).IsProper dialect where
  isInitial := proper.isInitial
  receiver := proper.receiver
  level := proper.level
  all := by
    intro item member
    rcases List.mem_cons.mp member with rfl | behind
    · exact proper.all calls.initial List.mem_cons_self
    · rcases List.mem_append.mp behind with inBetween | isTerminal
      · rcases mem_between_rewrite identifiers proper sound inBetween with
          isOld | rfl | ⟨argument, isEnclosed, rfl⟩
        · exact proper.all item (List.mem_cons_of_mem _ (List.mem_append_left _ isOld))
        · exact ⟨IsQuiet.of_isNamed identifiers.messageMethod proper.message, enclosed⟩
        · exact Item.isProper_argumentCall identifiers isEnclosed
      · exact proper.all item (List.mem_cons_of_mem _ (List.mem_append_right _ isTerminal))
  message := proper.message
  isTerminal := proper.isTerminal
  noTerminal := by
    intro item member
    rcases mem_between_rewrite identifiers proper sound member with
      isOld | rfl | ⟨argument, -, rfl⟩
    · exact proper.noTerminal item isOld
    · rintro ⟨terminal, -⟩
      exact messageApart (proper.message.word_unique identifiers.messageMethod
        identifiers.terminalMethod terminal)
    · rintro ⟨terminal, -⟩
      exact argumentApart ((Call.isNamed_self _).word_unique identifiers.argumentMethod
        identifiers.terminalMethod terminal)

/-- The argument calls of the inlined chain are those of the chain, with each
supplier call replaced by the calls of its arguments. -/
theorem filterMap_items_rewrite (identifiers : dialect.HasIdentifierWords)
    (apart : Utf8.ofString dialect.messageMethod ≠ Utf8.ofString dialect.argumentMethod)
    {calls : CallSequence} (proper : calls.IsProper dialect) (sound : calls.IsSound)
    {message : Bytes} (enclosed : IsEnclosed message) :
    (calls.rewrite dialect message).items.filterMap (Item.argument? dialect) =
      (calls.items.filterMap (Item.argument? dialect)).flatMap
        (ArgumentCall.replacement dialect) := by
  have isMessage : .call calls.lead calls.argument ∈ calls.items :=
    List.mem_cons_of_mem _ (List.mem_append_left _ (List.mem_append_right _ List.mem_cons_self))
  have oldMessage := proper.argument?_message identifiers apart calls.argument
    (proper.all _ isMessage)
  have newMessage := proper.argument?_message identifiers apart message
    ⟨IsQuiet.of_isNamed identifiers.messageMethod proper.message, enclosed⟩
  have kept : Item.replacement dialect (.call calls.lead calls.argument) =
      [.call calls.lead calls.argument] := by
    rw [Item.replacement, Item.fragment?, oldMessage]
    rfl
  rw [← Item.filterMap_flatMap_replacement identifiers proper.all sound]
  simp only [items, between, rewrite, List.flatMap_cons, List.flatMap_append, List.flatMap_nil,
    List.filterMap_cons, List.filterMap_append, proper.replacement_initial identifiers,
    proper.replacement_terminal identifiers, kept, oldMessage, newMessage, List.singleton_append,
    List.append_nil]

/-! ## Making the edits -/

theorem supplierCalls_text (identifiers : dialect.HasIdentifierWords) {calls : CallSequence}
    (proper : calls.IsProper dialect) (flat : HasFlatArguments dialect .start calls.text) :
    supplierCalls dialect calls.text =
      Item.supplierCalls dialect calls.receiver.length calls.items := by
  rcases proper.passes_receiver (Item.text calls.items).head? with ⟨back, silent⟩
  rw [text] at flat
  have flatItems := flat.of_append_right
  rw [Scanner.start_eq_atRest, back] at flatItems
  rw [supplierCalls, text, Scanner.start_eq_atRest,
    supplierCallsFrom_append_of_silent identifiers silent flat, back, Nat.zero_add]
  exact Item.supplierCallsFrom_text identifiers proper.all flatItems

theorem replaces_message (offset : Nat) (lead argument new : Bytes) (items : List Item) :
    Edit.Replaces offset
      (⟨⟨offset + lead.length + 2, offset + lead.length + 2 + argument.length⟩, new⟩ ::
        (Item.supplierCalls dialect (offset + (Item.bytes (.call lead argument)).length)
          items).map (SupplierCall.edit dialect))
      (Item.text (.call lead argument :: items))
      (Item.text (.call lead new :: items.flatMap (Item.replacement dialect))) := by
  have behind := @Item.replaces_text dialect
    (offset + (Item.bytes (.call lead argument)).length) items
  have opened : (Byte.dot :: lead ++ [Byte.openParen]).length = lead.length + 2 := by
    simp only [List.length_append, List.length_cons, List.length_nil]
  have whole := Edit.Replaces.edit (Byte.dot :: lead ++ [Byte.openParen]) argument new
    (@Edit.Replaces.prepend (offset + (Byte.dot :: lead ++ [Byte.openParen]).length +
      argument.length) _ _ _ [Byte.closeParen] (by
        have sameOffset : offset + (Byte.dot :: lead ++ [Byte.openParen]).length +
            argument.length + [Byte.closeParen].length =
              offset + (Item.bytes (.call lead argument)).length := by
          rw [opened, Item.length_bytes_call, List.length_singleton]
          omega
        rw [sameOffset]
        exact behind))
  rw [opened, ← Nat.add_assoc] at whole
  simpa [Item.bytes] using whole

/-- The edits of a chain make the rewritten sequence of calls of it.  The edit
of the message stands between those of the calls in front of it and behind it. -/
theorem splice_edits_eq (identifiers : dialect.HasIdentifierWords)
    (apart : Utf8.ofString dialect.messageMethod ≠ Utf8.ofString dialect.argumentMethod)
    {calls : CallSequence} (proper : calls.IsProper dialect) {span : Span}
    (isText : span.text = calls.text)
    (atMessage : span.message.start - span.start = calls.receiver.length +
        (Item.text (calls.initial :: calls.front)).length + calls.lead.length + 2 ∧
      span.message.stop - span.start = calls.receiver.length +
        (Item.text (calls.initial :: calls.front)).length + calls.lead.length + 2 +
          calls.argument.length)
    (flat : HasFlatArguments dialect .start calls.text) (message : Text) :
    Edit.splice span.text ((Plan.ofSpan dialect span).edits span message) =
      (calls.rewrite dialect (Utf8.encode message)).text := by
  have split : calls.items = (calls.initial :: calls.front) ++
      .call calls.lead calls.argument :: (calls.middle ++ [calls.terminal]) := by
    simp [items, between]
  have isMessage : .call calls.lead calls.argument ∈ calls.items :=
    List.mem_cons_of_mem _ (List.mem_append_left _ (List.mem_append_right _ List.mem_cons_self))
  have noFragment : Item.fragment? dialect (.call calls.lead calls.argument) = none := by
    rw [Item.fragment?, proper.argument?_message identifiers apart calls.argument
      (proper.all _ isMessage)]
    rfl
  have newSplit : (calls.rewrite dialect (Utf8.encode message)).items =
      (calls.initial :: calls.front).flatMap (Item.replacement dialect) ++
        .call calls.lead (Utf8.encode message) ::
          (calls.middle ++ [calls.terminal]).flatMap (Item.replacement dialect) := by
    simp [items, between, rewrite, proper.replacement_initial identifiers,
      proper.replacement_terminal identifiers]
  have noCall : forall offset items, Item.supplierCalls dialect offset
      (.call calls.lead calls.argument :: items) = Item.supplierCalls dialect
        (offset + (Item.bytes (.call calls.lead calls.argument)).length) items := by
    intro offset items
    rw [Item.supplierCalls, noFragment]
    rfl
  have edits := @Plan.callEdits_ofSpan dialect span
  rw [isText, supplierCalls_text identifiers proper flat, split, Item.supplierCalls_append, noCall,
    List.map_append] at edits
  rw [Plan.edits, edits, Edit.insert_append]
  · apply Edit.Replaces.splice_eq
    rw [isText, text, text, split, newSplit, Item.text_append, Item.text_append]
    apply Edit.Replaces.prepend
    rw [Nat.zero_add]
    apply (Item.replaces_text _ _).append
    rw [atMessage.1, atMessage.2]
    exact replaces_message _ _ _ _ _
  · intro other member
    rcases List.mem_map.mp member with ⟨call, isCall, rfl⟩
    have within := Item.extent_of_mem_supplierCalls isCall
    simp only [SupplierCall.edit, atMessage.1]
    omega
  · intro other member
    rcases List.mem_map.mp member with ⟨call, isCall, rfl⟩
    have within := Item.extent_of_mem_supplierCalls isCall
    rw [Item.length_bytes_call] at within
    simp only [SupplierCall.edit, atMessage.1]
    omega

end CallSequence

/-! ## Chains of a source text -/

/-- Whether behind its initial call a chain consists of calls that follow one
another, with nothing but blanks, comments and other quiet code between them. -/
def HasCallsOnly (dialect : Dialect) (chain : Bytes) : Prop :=
  ∃ call items, Call.initial? dialect ⟨0, chain⟩ = some call ∧
    chain.drop call.stop = Item.text items ∧ ∀ item ∈ items, item.IsProper

/-- Whether every argument call in a chain stands outside of all parentheses.
Then the suppliers that are inlined are those of the chain itself. -/
def HasOuterArgumentsOnly (dialect : Dialect) (chain : Bytes) : Prop :=
  ∀ point ∈ codeBytes chain, point.byte = Byte.dot ->
    (Call.argument? dialect ⟨point.offset + 1, chain.drop (point.offset + 1)⟩).isSome = true ->
    point.depth = 0

/-- Whether the methods that make up a chain have different names. -/
structure Dialect.HasDistinctMethods (dialect : Dialect) : Prop where
  messageArgument : dialect.messageMethod ≠ dialect.argumentMethod
  messageTerminal : dialect.messageMethod ≠ dialect.terminalMethod
  argumentTerminal : dialect.argumentMethod ≠ dialect.terminalMethod

theorem HasOuterArgumentsOnly.hasFlatArguments (identifiers : dialect.HasIdentifierWords)
    {chain : Bytes} (outer : HasOuterArgumentsOnly dialect chain) :
    HasFlatArguments dialect .start chain := by
  intro front rest depth same reported opened isOpened
  have member : ⟨front.length, Byte.dot, depth⟩ ∈ codeBytes chain :=
    Scanner.mem_codeBytes_iff.mpr ⟨front, rest, same, (Nat.zero_add _).symm, reported⟩
  apply outer _ member rfl
  have behind : chain.drop (front.length + 1) = rest := by
    rw [same, ← List.drop_drop, List.drop_left, List.drop_one, List.tail_cons]
  rcases (Call.argument?_eq_some_iff identifiers).mp isOpened with ⟨lead, named, isRest, -⟩
  rw [Option.isSome_iff_exists]
  simp only [behind]
  exact ⟨⟨front.length + 1 + lead.length + 1, opened.rest⟩,
    (Call.argument?_eq_some_iff identifiers).mpr ⟨lead, named, isRest, rfl⟩⟩

namespace Item

/-- What stands between the parentheses of a call in a source of kept lines. -/
theorem IsProper.isSound {item : Item} (proper : item.IsProper)
    (keeps : (Scanner.atRest 0).KeepsLines item.bytes) {source : Text} {front back : Bytes}
    (encoded : Utf8.encode source = front ++ item.bytes ++ back) : item.IsSound := by
  cases item with
  | gap bytes => exact True.intro
  | call lead inside =>
      have split : bytes (.call lead inside) =
          (Byte.dot :: lead ++ [Byte.openParen]) ++ (inside ++ [Byte.closeParen]) := by
        simp [bytes]
      have opened : forall ahead, (Scanner.atRest 0).run ahead
          (Byte.dot :: lead ++ [Byte.openParen]) = Scanner.atRest 1 := by
        intro ahead
        have read : forall ahead, ((Scanner.atRest 0).step Byte.dot ahead).2 =
            Scanner.atRest 0 := fun _ => rfl
        rw [List.cons_append, Scanner.run_cons, read, Scanner.run_append, (proper.1.passes 0 _).1]
        rfl
      rw [split] at keeps encoded
      have keepsInside := keeps.of_append_right
      rw [opened] at keepsInside
      refine ⟨keepsInside.of_append_left.of_agree (Scanner.agree_atRest 1 0), ?_⟩
      have atOpen : Utf8.encode source = (front ++ Byte.dot :: lead) ++
          Byte.openParen :: (inside ++ Byte.closeParen :: back) := by
        rw [encoded]
        simp
      rcases Utf8.exists_of_encode_eq (by decide) atOpen with ⟨-, rest, -, isRest, -⟩
      rcases Utf8.exists_of_encode_eq (by decide) isRest.symm with ⟨content, -, isInside, -, -⟩
      exact ⟨content, isInside⟩

theorem isSound_of_keepsLines {items : List Item} (proper : ∀ item ∈ items, item.IsProper)
    (keeps : (Scanner.atRest 0).KeepsLines (text items)) {source : Text} {front back : Bytes}
    (encoded : Utf8.encode source = front ++ text items ++ back) :
    ∀ item ∈ items, item.IsSound := by
  induction items generalizing front with
  | nil => exact List.forall_mem_nil _
  | cons item items ih =>
      have here := proper item List.mem_cons_self
      rw [text_cons] at keeps encoded
      have keepsBehind := keeps.of_append_right
      rw [here.run] at keepsBehind
      have atItem : Utf8.encode source = front ++ item.bytes ++ (text items ++ back) := by
        rw [encoded]
        simp
      have behind : Utf8.encode source = (front ++ item.bytes) ++ text items ++ back := by
        rw [encoded]
        simp
      exact List.forall_mem_cons.mpr ⟨here.isSound keeps.of_append_left atItem,
        ih (fun other member => proper other (List.mem_cons_of_mem item member)) keepsBehind behind⟩

end Item

theorem Call.IsInitial.exists_item (identifiers : dialect.HasIdentifierWords) {bytes : Bytes}
    (isInitial : IsInitial dialect bytes) :
    ∃ receiver level lead inside, bytes = receiver ++ Item.bytes (.call lead inside) ∧
      (∀ byte ∈ receiver, isBlankByte byte = true ∨ isIdentifierByte byte = true) ∧
      level ∈ dialect.levels ∧ IsNamed (dialect.levelPrefix ++ level) lead ∧ IsBlank inside := by
  rcases isInitial.exists_names with ⟨receiver, isReceiver, level, isLevel, blanks, lead, inside,
    blankBehind, levelled, blank, rfl⟩
  refine ⟨Utf8.ofString receiver ++ blanks, level, lead, inside, by simp [Item.bytes],
    (isNamed_append blankBehind).byte_cases (identifiers.receiver isReceiver), isLevel, levelled,
    blank⟩

/-- Behind the initial call of a located chain of calls the search finds its
message and its terminal call among the other calls. -/
theorem exists_complete_items (identifiers : dialect.HasIdentifierWords) {before : Option UInt8}
    {offset : Nat} {text : Bytes} {span : Span}
    (isChain : chainAt? dialect before ⟨offset, text⟩ = some span)
    (callsOnly : HasCallsOnly dialect span.text) :
    ∃ (initial : Bytes) (items : List Item) (after : Bytes),
      Call.IsInitial dialect initial ∧ (∀ item ∈ items, item.IsProper) ∧
      span.text = initial ++ Item.text items ∧
      complete dialect (span.start + dialect.maxChainLength) .beforeMessage (Scanner.atRest 0)
        (span.start + initial.length) (Item.text items ++ after) =
          .found span.message span.stop := by
  rcases callsOnly with ⟨call, items, isCall, behindCall, properItems⟩
  rcases Call.initial?_spec identifiers isCall with ⟨bytes, rest, isInitial, sameText, atStop⟩
  rcases (chainAt?_spec identifiers isChain).2 with
    ⟨-, -, -, -, -, after, whole, -, -, -, -, -, -, -, atStart, -⟩
  rcases (chainAt?_eq_some_iff identifiers).mp isChain with
    ⟨-, found, isFound, completes, -, -, -, -⟩
  simp only [Nat.zero_add] at sameText atStop
  have isRest : rest = Item.text items := by
    rw [← behindCall, atStop, sameText, List.drop_left]
  rw [isRest] at sameText
  rw [sameText, List.append_assoc] at whole
  rw [whole] at isFound completes
  rcases Call.initial?_spec identifiers isFound with ⟨other, others, isOther, sameWhole, atFound⟩
  rcases isInitial.unique identifiers isOther sameWhole with ⟨rfl, -⟩
  simp only at atFound
  have dropped : (bytes ++ (Item.text items ++ after)).drop (found.stop - offset) =
      Item.text items ++ after := by
    apply List.drop_left'
    omega
  rw [dropped, Scanner.start_eq_atRest, atFound, ← atStart] at completes
  exact ⟨bytes, items, after, isInitial, properItems, sameText, completes⟩

/-- A located chain of calls, taken apart. -/
theorem exists_callSequence (identifiers : dialect.HasIdentifierWords) {before : Option UInt8}
    {offset : Nat} {text : Bytes} {span : Span}
    (isChain : chainAt? dialect before ⟨offset, text⟩ = some span)
    (keeps : Scanner.start.KeepsLines span.text) {source : Text} {front back : Bytes}
    (encoded : Utf8.encode source = front ++ span.text ++ back)
    (callsOnly : HasCallsOnly dialect span.text) :
    ∃ calls : CallSequence, calls.IsProper dialect ∧ calls.IsSound ∧ span.text = calls.text ∧
      span.message.start - span.start = calls.receiver.length +
        (Item.text (calls.initial :: calls.front)).length + calls.lead.length + 2 ∧
      span.message.stop - span.start = calls.receiver.length +
        (Item.text (calls.initial :: calls.front)).length + calls.lead.length + 2 +
          calls.argument.length := by
  rcases exists_complete_items identifiers isChain callsOnly with
    ⟨initial, items, after, isInitial, properItems, sameText, completes⟩
  have atEnd : span.stop = span.start + initial.length + (Item.text items).length := by
    rw [Span.stop, sameText, List.length_append, Nat.add_assoc]
  rcases isInitial.exists_item identifiers with
    ⟨receiver, level, lead, inside, rfl, names, isLevel, named, blank⟩
  have properInitial : Item.IsProper (.call lead inside) :=
    ⟨IsQuiet.of_isNamed (identifiers.levelled isLevel) named, isEnclosed_of_plain blank.plain⟩
  have properAll : ∀ item ∈ Item.call lead inside :: items, item.IsProper :=
    List.forall_mem_cons.mpr ⟨properInitial, properItems⟩
  rw [List.append_assoc, ← Item.text_cons] at sameText
  rw [sameText] at keeps encoded
  have keepsAll := keeps.of_append_right
  rw [Scanner.start_eq_atRest, (Scanner.silent_of_names names 0 _).1] at keepsAll
  have encodedAll : Utf8.encode source =
      (front ++ receiver) ++ Item.text (.call lead inside :: items) ++ back := by
    rw [encoded]
    simp
  have sound := Item.isSound_of_keepsLines properAll keepsAll encodedAll
  have keepsInside : forall lead inside, .call lead inside ∈ items ->
      Scanner.start.KeepsLines inside :=
    fun lead inside member => (sound _ (List.mem_cons_of_mem _ member)).1
  rcases Item.complete_beforeMessage identifiers properItems keepsInside completes atEnd with
    ⟨inFront, messageLead, argument, middle, terminal, rfl, isMessage, bare, isExtent, isTerminal,
      noTerminal⟩
  refine ⟨⟨receiver, .call lead inside, inFront, messageLead, argument, middle, terminal⟩,
    ⟨isInitial, names, ⟨level, isLevel, lead, inside, rfl, named, blank⟩, properAll, isMessage,
      isTerminal, noTerminal⟩, sound, sameText, ?_⟩
  rw [isExtent, List.length_append, Item.text_cons, List.length_append]
  simp only
  omega

/-- A located chain of calls, and what its edits make of it with any text for
its message. -/
theorem exists_rewritten (identifiers : dialect.HasIdentifierWords)
    (distinct : dialect.HasDistinctMethods) {source : Text}
    (keeps : Scanner.start.KeepsLines (Utf8.encode source)) {span : Span}
    (located : span ∈ locate dialect (Utf8.encode source))
    (callsOnly : HasCallsOnly dialect span.text)
    (outer : HasOuterArgumentsOnly dialect span.text) :
    ∃ calls : CallSequence, calls.IsProper dialect ∧ span.text = calls.text ∧
      HasFlatArguments dialect .start calls.text ∧
      forall pattern : Text, ∃ message : Bytes,
        Edit.splice span.text ((Plan.ofSpan dialect span).edits span (Literal.quote pattern)) =
          (calls.rewrite dialect message).text ∧
        (calls.rewrite dialect message).IsProper dialect ∧
        outerArguments dialect (calls.rewrite dialect message).text =
          (outerArguments dialect span.text).flatMap (ArgumentCall.replacement dialect) := by
  have locates := locates_locate identifiers (Utf8.encode source)
  rcases locates.exists_chainAt? span located with ⟨before, offset, place, isChain⟩
  rcases locates.standsIn [] rfl span located with ⟨front, back, encoded, -⟩
  have keepsSpan := locates.keepsLines identifiers keeps span located
  rcases exists_callSequence identifiers isChain keepsSpan encoded callsOnly with
    ⟨calls, proper, sound, isText, atMessage⟩
  have messageApart := Utf8.ofString_ne distinct.messageArgument
  have flat := outer.hasFlatArguments identifiers
  rw [isText] at flat
  refine ⟨calls, proper, isText, flat, fun pattern => ?_⟩
  have enclosed : IsEnclosed (Utf8.encode (Literal.quote pattern)) :=
    Cursor.Passes.isEnclosed (by decide) (by decide) (by decide)
      (@Cursor.passes_quote ['/', '(', ')'] (by decide) pattern 0)
  have rewritten := proper.rewrite identifiers (Utf8.ofString_ne distinct.argumentTerminal)
    (Utf8.ofString_ne distinct.messageTerminal) sound enclosed
  refine ⟨Utf8.encode (Literal.quote pattern),
    CallSequence.splice_edits_eq identifiers messageApart proper isText atMessage flat _,
    rewritten, ?_⟩
  rw [isText, rewritten.outerArguments_text identifiers, proper.outerArguments_text identifiers]
  exact CallSequence.filterMap_items_rewrite identifiers messageApart proper sound enclosed

/-- What a chain of calls is inlined to ends where the chain ended, with its
terminal call. -/
theorem isTail_of_inlined? (identifiers : dialect.HasIdentifierWords)
    (distinct : dialect.HasDistinctMethods) {source : Text}
    (keeps : Scanner.start.KeepsLines (Utf8.encode source)) {span : Span}
    (located : span ∈ locate dialect (Utf8.encode source))
    (callsOnly : HasCallsOnly dialect span.text)
    (outer : HasOuterArgumentsOnly dialect span.text) {text : Bytes}
    (inlined : span.inlined? dialect = some text) : IsTail dialect .start text := by
  rcases exists_rewritten identifiers distinct keeps located callsOnly outer with
    ⟨calls, -, -, -, rewrites⟩
  rcases inlined?_eq_some_iff.mp inlined with ⟨-, pattern, -, rfl⟩
  rcases rewrites pattern with ⟨message, same, rewritten, -⟩
  rw [same]
  exact rewritten.isTail_text

/-- Inlining keeps the structure of a chain.  In a source of kept lines take a
chain of calls whose argument calls all stand outside of the parentheses of
other calls.  What it is inlined to begins with the same initial call, and at
its end a walk from its start has no literal, no comment and no parenthesis
open.  Behind the initial call the walk meets the first terminal call at the
very end; that is the first of all where no initial call is named like the
terminal call.  On its way it meets outside of all parentheses the argument
calls of the chain, with each supplier call replaced by one call for each
argument. -/
theorem inlined?_keeps_structure (identifiers : dialect.HasIdentifierWords)
    (distinct : dialect.HasDistinctMethods) {source : Text}
    (keeps : Scanner.start.KeepsLines (Utf8.encode source)) {span : Span}
    (located : span ∈ locate dialect (Utf8.encode source))
    (callsOnly : HasCallsOnly dialect span.text)
    (outer : HasOuterArgumentsOnly dialect span.text) {text : Bytes}
    (inlined : span.inlined? dialect = some text) :
    (∃ call, Call.initial? dialect ⟨0, span.text⟩ = some call ∧
      Call.initial? dialect ⟨0, text⟩ = some call ∧
      ((Scanner.start.outerDots 0 text).filter fun point =>
        call.stop ≤ point.offset).findSome? (terminalAt? dialect text) = some text.length) ∧
    (dialect.HasOwnTerminal ->
      (Scanner.start.outerDots 0 text).findSome? (terminalAt? dialect text) =
        some text.length) ∧
    Scanner.start.run none text = .start ∧
    outerArguments dialect text =
      (outerArguments dialect span.text).flatMap (ArgumentCall.replacement dialect) := by
  rcases exists_rewritten identifiers distinct keeps located callsOnly outer with
    ⟨calls, proper, isText, -, rewrites⟩
  rcases inlined?_eq_some_iff.mp inlined with ⟨-, pattern, -, rfl⟩
  rcases rewrites pattern with ⟨message, same, rewritten, sameArguments⟩
  rw [same]
  have sameInitial := @CallSequence.IsProper.initial?_eq dialect calls identifiers proper
    (calls.rewrite dialect message) rfl rfl
  rcases proper.isInitial.exists_initial? identifiers 0
    (Item.text (calls.between ++ [calls.terminal])) with ⟨call, isCall, atStop⟩
  have whole : calls.receiver ++ calls.initial.bytes ++
      Item.text (calls.between ++ [calls.terminal]) = calls.text := by
    rw [CallSequence.text, CallSequence.items, Item.text_cons, List.append_assoc]
  rw [whole] at isCall
  rw [Nat.zero_add] at atStop
  refine ⟨⟨call, isText ▸ isCall, sameInitial.trans isCall, ?_⟩,
    rewritten.findSome?_terminal identifiers, rewritten.run_text none, sameArguments⟩
  rw [atStop]
  exact rewritten.findSome?_behind_initial identifiers

/-! ## An initial call that is named like the terminal call -/

/-- A dialect of words, all of them different, whose only initial call
`log.atInfo()` is itself a call of the terminal method. -/
def sameNamed : Dialect := { levels := ["Info"], terminalMethod := "atInfo" }

def sameNamedSource : String :=
  "log.atInfo().setMessage(\"\x7b\x7d\").addArgument(() -> \"a\" + x).atInfo()"

def sameNamedInlined : String :=
  "log.atInfo().setMessage(\"a\x7b\x7d\").addArgument(x).atInfo()"

/-- The chain as it is located, from the first byte of its source to the last. -/
def sameNamedChain : Span where
  start := 0
  text := Utf8.ofString sameNamedSource
  receiver := "log"
  level := "Info"
  message := ⟨24, 28⟩

/-- The calls of that chain behind its initial call. -/
def sameNamedItems : List Item :=
  [.call (Utf8.ofString "setMessage") (Utf8.ofString "\"\x7b\x7d\""),
    .call (Utf8.ofString "addArgument") (Utf8.ofString "() -> \"a\" + x"),
    .call (Utf8.ofString "atInfo") []]

theorem hasCallsOnly_sameNamedChain : HasCallsOnly sameNamed sameNamedChain.text := by
  refine ⟨⟨"log", "Info", 12⟩, sameNamedItems, by decide +kernel, by decide +kernel, ?_⟩
  simp only [sameNamedItems, List.forall_mem_cons]
  exact ⟨Item.isProper_call (by decide) (by decide +kernel),
    Item.isProper_call (by decide) (by decide +kernel),
    Item.isProper_call (by decide) (by decide +kernel), List.forall_mem_nil _⟩

/-- Counted from its start, the first terminal call of an inlined chain need
not be the one that ends it.  In this dialect that is the initial call, so a
walk over the 54 bytes of the inlined chain meets its first terminal call at
byte 12. -/
theorem inlined?_initial_is_terminal :
    sameNamed.HasIdentifierWords ∧ sameNamed.HasDistinctMethods ∧ ¬ sameNamed.HasOwnTerminal ∧
      Scanner.start.KeepsLines (Utf8.encode sameNamedSource.toList) ∧
      Scanner.start.run none (Utf8.encode sameNamedSource.toList) = .start ∧
      sameNamedChain ∈ locate sameNamed (Utf8.encode sameNamedSource.toList) ∧
      HasCallsOnly sameNamed sameNamedChain.text ∧
      HasOuterArgumentsOnly sameNamed sameNamedChain.text ∧
      sameNamedChain.inlined? sameNamed = some (Utf8.ofString sameNamedInlined) ∧
      (Utf8.ofString sameNamedInlined).length = 54 ∧
      (Scanner.start.outerDots 0 (Utf8.ofString sameNamedInlined)).findSome?
        (terminalAt? sameNamed (Utf8.ofString sameNamedInlined)) = some 12 := by
  have distinct : sameNamed.HasDistinctMethods := ⟨by decide, by decide, by decide⟩
  have outer : HasOuterArgumentsOnly sameNamed sameNamedChain.text := by
    unfold HasOuterArgumentsOnly
    decide +kernel
  exact ⟨by decide +kernel, distinct, by decide +kernel, by decide +kernel, by decide +kernel,
    by decide +kernel, hasCallsOnly_sameNamedChain, outer, by decide +kernel, by decide +kernel,
    by decide +kernel⟩

/-! ## A chain with comments -/

/-- A chain over several lines, with comments, a supplier of two arguments and
a plain argument call. -/
def commentedChain : Span where
  start := 0
  text := Utf8.ofString ("log.atInfo() // level\n  .setMessage(\"\x7b\x7d\")\n  " ++
    ".addArgument(() -> \x7b return \"a=\" + a; \x7d, b)/* c */\n  .addArgument(c)\n  .log()")
  receiver := "log"
  level := "Info"
  message := ⟨36, 40⟩

def commentedChainInlined : Bytes :=
  Utf8.ofString ("log.atInfo() // level\n  .setMessage(\"a=\x7b\x7d \x7b\x7d\")\n  " ++
    ".addArgument(a).addArgument(b)/* c */\n  .addArgument(c)\n  .log()")

/-- The calls of the chain behind its first one, with what stands between
them. -/
def commentedItems : List Item :=
  [.gap (Utf8.ofString " "),
    .gap (Byte.slash :: Byte.slash :: (Utf8.ofString " level" ++ [Byte.lineFeed] ++ [])),
    .gap (Utf8.ofString "  "),
    .call (Utf8.ofString "setMessage") (Utf8.ofString "\"\x7b\x7d\""),
    .gap (Utf8.ofString "\n  "),
    .call (Utf8.ofString "addArgument") (Utf8.ofString "() -> \x7b return \"a=\" + a; \x7d, b"),
    .gap (Byte.slash :: Byte.asterisk ::
      (Utf8.ofString " c " ++ [Byte.asterisk, Byte.slash] ++ [])),
    .gap (Utf8.ofString "\n  "),
    .call (Utf8.ofString "addArgument") (Utf8.ofString "c"),
    .gap (Utf8.ofString "\n  "),
    .call (Utf8.ofString "log") []]

theorem isProper_commentedItems : ∀ item ∈ commentedItems, item.IsProper := by
  simp only [commentedItems, List.forall_mem_cons]
  exact ⟨Item.isProper_gap (by decide) (by decide),
    ⟨List.cons_ne_nil _ _, .line (by decide) .nil⟩,
    Item.isProper_gap (by decide) (by decide),
    Item.isProper_call (by decide) (by decide +kernel),
    Item.isProper_gap (by decide) (by decide),
    Item.isProper_call (by decide) (by decide +kernel),
    ⟨List.cons_ne_nil _ _, .block (by decide) .nil⟩,
    Item.isProper_gap (by decide) (by decide),
    Item.isProper_call (by decide) (by decide +kernel),
    Item.isProper_gap (by decide) (by decide),
    Item.isProper_call (by decide) (by decide +kernel), List.forall_mem_nil _⟩

/-- The comments and the plain call stay, and the supplier call becomes two
calls. -/
theorem commentedChain_keeps_structure :
    Dialect.HasIdentifierWords {} ∧ Dialect.HasDistinctMethods {} ∧
      (∃ source : Text, Scanner.start.KeepsLines (Utf8.encode source) ∧
        commentedChain ∈ locate {} (Utf8.encode source)) ∧
      HasCallsOnly {} commentedChain.text ∧ HasOuterArgumentsOnly {} commentedChain.text ∧
      commentedChain.inlined? {} = some commentedChainInlined ∧
      Scanner.start.run none commentedChainInlined = .start ∧
      (Scanner.start.outerDots 0 commentedChainInlined).findSome?
        (terminalAt? {} commentedChainInlined) = some commentedChainInlined.length ∧
      (outerArguments {} commentedChainInlined).map ArgumentCall.inside =
        [Utf8.ofString "a", Utf8.ofString "b", Utf8.ofString "c"] := by
  have distinct : Dialect.HasDistinctMethods {} := ⟨by decide, by decide, by decide⟩
  have keeps : Scanner.start.KeepsLines
      (Utf8.encode (Utf8.decode (commentedChain.text ++ [Byte.semicolon]))) := by
    decide +kernel
  have located : commentedChain ∈ locate {}
      (Utf8.encode (Utf8.decode (commentedChain.text ++ [Byte.semicolon]))) := by
    decide +kernel
  have callsOnly : HasCallsOnly {} commentedChain.text :=
    ⟨⟨"log", "Info", 12⟩, commentedItems, by decide +kernel, by decide +kernel, isProper_commentedItems⟩
  have outer : HasOuterArgumentsOnly {} commentedChain.text := by
    unfold HasOuterArgumentsOnly
    decide +kernel
  have inlined : commentedChain.inlined? {} = some commentedChainInlined := by
    decide +kernel
  rcases inlined?_keeps_structure Dialect.hasIdentifierWords_default distinct keeps located
    callsOnly outer inlined with ⟨-, terminal, atEnd, arguments⟩
  refine ⟨Dialect.hasIdentifierWords_default, distinct, ⟨_, keeps, located⟩, callsOnly, outer,
    inlined, atEnd, terminal Dialect.hasOwnTerminal_default, ?_⟩
  rw [arguments]
  decide +kernel

end FluentLog
