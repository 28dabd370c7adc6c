import FluentLog.Chain.Event
import FluentLog.Proofs.Chain.Ending
import FluentLog.Proofs.Chain.Replacement

namespace FluentLog

/-!
# Offsets

Offsets are only counted and never looked at, except where they are compared with the
bound, which is itself counted from the candidate's start.  So the search through a text
that stands further to the right finds the same chains further to the right, and what
becomes of a chain does not depend on where it stands.  None of this asks anything of the
dialect.
-/

variable {dialect : Dialect} (distance : Nat)

/-! ## Places -/

private theorem bind_map_congr {α β γ δ : Type} {before : α -> β} {after : γ -> δ}
    {found : Option α} {first : β -> Option δ} {second : α -> Option γ}
    (same : forall value, first (before value) = (second value).map after) :
    (found.map before).bind first = (found.bind second).map after := by
  cases found with
  | none => rfl
  | some value => exact same value

def Extent.shift (extent : Extent) : Extent :=
  ⟨extent.start + distance, extent.stop + distance⟩

namespace Place

def shift (place : Place) : Place :=
  ⟨place.offset + distance, place.rest⟩

theorem skipBlanks_shift (place : Place) :
    (place.shift distance).skipBlanks = place.skipBlanks.shift distance := by
  rw [skipBlanks, skipBlanks, shift, shift, Nat.add_right_comm]

theorem eat_shift (token : Bytes) (place : Place) :
    (place.shift distance).eat token = (place.eat token).map (shift distance) := by
  rw [eat, eat, Option.map_map]
  apply congrArg (Option.map · _)
  funext rest
  simp only [Function.comp_apply, shift, Nat.add_right_comm]

theorem eatByte_shift (byte : UInt8) (place : Place) :
    (place.shift distance).eatByte byte = (place.eatByte byte).map (shift distance) :=
  eat_shift distance [byte] place

theorem eatWord_shift (word : String) (place : Place) :
    (place.shift distance).eatWord word = (place.eatWord word).map (shift distance) := by
  rw [eatWord, eatWord, eat_shift]
  cases place.eat (Utf8.ofString word) with
  | none => rfl
  | some after =>
      simp only [Option.map_some, Option.bind_eq_bind, Option.bind_some, shift]
      split <;> rfl

theorem eatEmptyParens_shift (place : Place) :
    (place.shift distance).eatEmptyParens = place.eatEmptyParens.map (shift distance) := by
  simp only [eatEmptyParens, Option.bind_eq_bind, skipBlanks_shift, eatByte_shift]
  apply bind_map_congr
  intro opened
  rw [skipBlanks_shift, eatByte_shift]

end Place

/-! ## Calls -/

namespace Call

def Initial.shift (call : Initial) : Initial :=
  { call with stop := call.stop + distance }

def Message.shift (call : Message) : Message :=
  ⟨call.argument.shift distance, call.stop + distance⟩

theorem initial?_shift (place : Place) :
    initial? dialect (place.shift distance) =
      (initial? dialect place).map (Initial.shift distance) := by
  have mapped : forall {α : Type} (items : List α) (first second : α -> Option Initial),
      (forall item, first item = (second item).map (Initial.shift distance)) ->
        items.findSome? first = (items.findSome? second).map (Initial.shift distance) := by
    intro α items first second same
    induction items with
    | nil => rfl
    | cons item items ih =>
        rw [List.findSome?_cons, List.findSome?_cons, same item, ih]
        cases second item <;> rfl
  simp only [initial?, Option.bind_eq_bind]
  apply mapped
  intro receiver
  rw [Place.eatWord_shift]
  apply bind_map_congr
  intro named
  rw [Place.skipBlanks_shift, Place.eatByte_shift]
  apply bind_map_congr
  intro dotted
  rw [Place.skipBlanks_shift, Place.eat_shift]
  apply bind_map_congr
  intro levelled
  apply mapped
  intro level
  rw [Place.eatWord_shift]
  apply bind_map_congr
  intro after
  rw [Place.eatEmptyParens_shift]
  apply bind_map_congr
  intro closed
  rfl

theorem message?_shift (place : Place) :
    message? dialect (place.shift distance) =
      (message? dialect place).map (Message.shift distance) := by
  simp only [message?, Option.bind_eq_bind, Place.skipBlanks_shift, Place.eatWord_shift]
  apply bind_map_congr
  intro named
  rw [Place.skipBlanks_shift, Place.eatByte_shift]
  apply bind_map_congr
  intro opened
  rw [Place.skipBlanks_shift, Place.eatByte_shift]
  apply bind_map_congr
  intro quoted
  rw [Place.skipBlanks_shift, Place.eat_shift]
  apply bind_map_congr
  intro braced
  rw [Place.skipBlanks_shift, Place.eatByte_shift]
  apply bind_map_congr
  intro unquoted
  rw [Place.skipBlanks_shift, Place.eatByte_shift]
  apply bind_map_congr
  intro closed
  rfl

theorem terminal?_shift (place : Place) :
    terminal? dialect (place.shift distance) =
      (terminal? dialect place).map (· + distance) := by
  simp only [terminal?, Option.bind_eq_bind, Place.skipBlanks_shift, Place.eatWord_shift]
  apply bind_map_congr
  intro named
  rw [Place.eatEmptyParens_shift]
  apply bind_map_congr
  intro closed
  rfl

end Call

/-! ## Chains -/

def Stage.shift : Stage -> Stage
  | .beforeMessage => .beforeMessage
  | .afterMessage message => .afterMessage (message.shift distance)

def Completion.shift : Completion -> Completion
  | .found message stop => .found (message.shift distance) (stop + distance)
  | .dropped => .dropped
  | .exhausted => .exhausted

theorem Stage.PassesDot.shift {stage : Stage} {offset : Nat} {rest : Bytes}
    (passes : stage.PassesDot dialect ⟨offset, rest⟩) :
    (stage.shift distance).PassesDot dialect ⟨offset + distance, rest⟩ := by
  have message := @Call.message?_shift dialect distance ⟨offset, rest⟩
  have terminal := @Call.terminal?_shift dialect distance ⟨offset, rest⟩
  cases stage with
  | beforeMessage =>
      rw [passes.1] at message
      rw [passes.2] at terminal
      exact ⟨message, terminal⟩
  | afterMessage found =>
      rw [passes.terminal?_eq_none] at terminal
      exact terminal

theorem Completes.shift {limit offset : Nat} {stage : Stage} {scanner : Scanner} {text : Bytes}
    {completion : Completion}
    (completes : Completes dialect limit stage scanner offset text completion) :
    Completes dialect (limit + distance) (stage.shift distance) scanner (offset + distance) text
      (completion.shift distance) := by
  have sameOffset : forall offset : Nat, offset + distance + 1 = offset + 1 + distance :=
    fun offset => Nat.add_right_comm offset distance 1
  have message : forall {offset : Nat} {rest : Bytes} {found : Option Call.Message},
      Call.message? dialect ⟨offset + 1, rest⟩ = found ->
      Call.message? dialect ⟨offset + distance + 1, rest⟩ =
        found.map (Call.Message.shift distance) := by
    rintro offset rest found rfl
    rw [sameOffset]
    exact Call.message?_shift distance ⟨offset + 1, rest⟩
  have terminal : forall {offset stop : Nat} {rest : Bytes},
      Call.terminal? dialect ⟨offset + 1, rest⟩ = some stop ->
      Call.terminal? dialect ⟨offset + distance + 1, rest⟩ = some (stop + distance) := by
    intro offset stop rest isTerminal
    rw [sameOffset]
    exact (Call.terminal?_shift distance ⟨offset + 1, rest⟩).trans
      (congrArg (Option.map (· + distance)) isTerminal)
  induction completes with
  | ended stage scanner offset => exact .ended _ scanner _
  | reached atBound => exact .reached ⟨atBound.1, Nat.add_le_add_right atBound.2 distance⟩
  | dropped within ends => exact .dropped (Nat.add_lt_add_right within distance) ends
  | early within noMessage isTerminal =>
      exact .early (Nat.add_lt_add_right within distance) (message noMessage) (terminal isTerminal)
  | terminal within isTerminal =>
      exact .terminal (Nat.add_lt_add_right within distance) (terminal isTerminal)
  | @message offset rest call completion within isMessage behind ih =>
      refine .message (Nat.add_lt_add_right within distance) (message isMessage) ?_
      have sameRest : call.stop + distance - (offset + distance + 1) =
          call.stop - (offset + 1) := by
        omega
      rw [Call.Message.shift, sameRest]
      exact ih
  | @onward stage scanner offset byte rest completion within quiet behind ih =>
      refine .onward (fun reached => within ⟨reached.1, Nat.le_of_add_le_add_right reached.2⟩) ?_ ?_
      · intro outside
        refine ⟨(quiet outside).1, fun isDot => ?_⟩
        rw [sameOffset]
        exact ((quiet outside).2 isDot).shift distance
      · rw [sameOffset]
        exact ih

theorem complete_shift (limit : Nat) (stage : Stage) (scanner : Scanner) (offset : Nat)
    (text : Bytes) :
    complete dialect (limit + distance) (stage.shift distance) scanner (offset + distance) text =
      (complete dialect limit stage scanner offset text).shift distance :=
  ((completes_complete dialect limit stage scanner offset text).shift distance).complete_eq

def Span.shift (span : Span) : Span :=
  { span with start := span.start + distance, message := span.message.shift distance }

theorem chainAt?_shift (before : Option UInt8) (offset : Nat) (text : Bytes) :
    chainAt? dialect before ⟨offset + distance, text⟩ =
      (chainAt? dialect before ⟨offset, text⟩).map (Span.shift distance) := by
  have initial : Call.initial? dialect ⟨offset + distance, text⟩ =
      (Call.initial? dialect ⟨offset, text⟩).map (Call.Initial.shift distance) :=
    Call.initial?_shift distance ⟨offset, text⟩
  rw [chainAt?, chainAt?]
  split
  · rfl
  · rw [initial]
    apply bind_map_congr
    intro call
    have sameRest : call.stop + distance - (offset + distance) = call.stop - offset := by omega
    have sameLimit : offset + distance + dialect.maxChainLength =
        offset + dialect.maxChainLength + distance := by omega
    have completes := @complete_shift dialect distance (offset + dialect.maxChainLength)
      .beforeMessage .start call.stop (text.drop (call.stop - offset))
    simp only [Stage.shift] at completes
    simp only [Call.Initial.shift, sameRest, sameLimit, completes]
    cases complete dialect (offset + dialect.maxChainLength) .beforeMessage .start call.stop
        (text.drop (call.stop - offset)) with
    | found message stop =>
        have sameText : stop + distance - (offset + distance) = stop - offset := by omega
        simp only [Completion.shift, sameText]
        rfl
    | dropped => rfl
    | exhausted => rfl

/-- The pass over a text further to the right. -/
theorem Locates.shift {scanner : Scanner} {before : Option UInt8} {offset : Nat} {text : Bytes}
    {spans : List Span} (located : Locates dialect scanner before offset text spans) :
    Locates dialect scanner before (offset + distance) text (spans.map (Span.shift distance)) := by
  induction located with
  | done scanner before offset => exact .done scanner before (offset + distance)
  | @chain scanner before offset rest span spans outside isChain behind ih =>
      have sameStop : span.stop + distance = (span.shift distance).stop := by
        simp only [Span.stop, Span.shift]
        omega
      rw [sameStop] at ih
      have isShifted := @chainAt?_shift dialect distance before offset (span.text ++ rest)
      rw [isChain] at isShifted
      exact @Locates.chain dialect scanner before (offset + distance) rest (span.shift distance) _
        outside isShifted ih
  | @byte scanner before offset byte rest spans noChain behind ih =>
      rw [Nat.add_right_comm] at ih
      refine Locates.byte ?_ ih
      intro outside
      rw [chainAt?_shift, noChain outside]
      rfl

/-! ## What becomes of a chain -/

namespace Span

theorem outcome_shift (span : Span) : (span.shift distance).outcome dialect = span.outcome dialect := by
  have sameStart : span.message.start + distance - (span.start + distance) =
      span.message.start - span.start := by omega
  have sameStop : span.message.stop + distance - (span.start + distance) =
      span.message.stop - span.start := by omega
  have sameEdits : forall (plan : Plan) (message : Text),
      plan.edits (span.shift distance) message = plan.edits span message := by
    intro plan message
    simp only [Plan.edits, shift, Extent.shift, sameStart, sameStop]
  have samePlan : Plan.ofSpan dialect (span.shift distance) = Plan.ofSpan dialect span := rfl
  simp only [outcome, samePlan, sameEdits]

theorem edit?_shift (span : Span) :
    (span.shift distance).edit? dialect = (span.edit? dialect).map (Edit.shift distance) := by
  have sameStop : (span.shift distance).stop = span.stop + distance := by
    simp only [stop, shift]
    omega
  rw [edit?, edit?, inlined?, inlined?, outcome_shift, Option.map_map, sameStop]
  rfl

end Span

theorem filterMap_edit?_shift (spans : List Span) :
    (spans.map (Span.shift distance)).filterMap (Span.edit? dialect) =
      (spans.filterMap (Span.edit? dialect)).map (Edit.shift distance) := by
  rw [List.filterMap_map, List.map_filterMap]
  apply List.filterMap_congr
  intro span _
  exact Span.edit?_shift distance span

end FluentLog
