import FluentLog.Chain.Plan
import FluentLog.Proofs.Chain.Matching
import FluentLog.Proofs.Code.Arrowheads
import FluentLog.Proofs.Expression.Closed
import FluentLog.Proofs.Expression.Cuts

namespace FluentLog

/-!
# The arguments of a supplier shed its arrow

From the text of a supplier call to the arguments that are written back for it there are
several steps: the text is cut at commas, the first part loses `() ->` and the frame of a
block, what is left is cut at plus signs, literals go to the message, and the blanks of
other operands are collapsed.  No step brings in an arrow or a line end, and one of them
drops the arrow of the supplier.  Each step is stated by `Sheds`, so the main statement is
their chain.
-/

/-! ## What is dropped -/

theorem isLoose_of_isBlank {blanks : Text}
    (blank : ∀ character ∈ blanks, isBlank character = true) : IsLoose (Utf8.encode blanks) := by
  apply isLoose_encode
  intro character member special
  have isBlank := blank character member
  simp only [List.mem_cons, List.not_mem_nil, or_false] at special
  rcases special with rfl | rfl | rfl <;> exact absurd isBlank (by decide)

theorem sheds_trim (text : Text) : Sheds 0 (Utf8.encode text) (Utf8.encode (Text.trim text)) := by
  rcases Text.exists_trim text with ⟨lead, trail, whole, blankLead, blankTrail⟩
  rw [whole, Utf8.encode_append, Utf8.encode_append]
  rw [← whole]
  exact ((isLoose_of_isBlank blankTrail).sheds_right _).trans
    ((isLoose_of_isBlank blankLead).sheds_left (Nat.zero_le _) _)

/-- A part that is empty when it is trimmed is dropped, any other one is
trimmed. -/
theorem sheds_part {part : Text} {emit : Text -> Text}
    (each : ∀ kept ∈ [Text.trim part].filter (!·.isEmpty),
      Sheds 0 (Utf8.encode kept) (Utf8.encode (emit kept))) :
    Sheds 0 (Utf8.encode part)
      (Utf8.encode (([Text.trim part].filter (!·.isEmpty)).flatMap emit)) := by
  have trimmed := sheds_trim part
  cases isTrimmed : Text.trim part with
  | nil =>
      rw [isTrimmed] at trimmed
      exact trimmed
  | cons character rest =>
      rw [isTrimmed] at trimmed each
      have emitted := each (character :: rest) List.mem_cons_self
      have whole := trimmed.trans emitted
      rw [List.filter_cons_of_pos rfl, List.filter_nil, List.flatMap_singleton]
      exact whole

variable {separator : Char}

/-- What holds of each part holds of the whole text. -/
theorem sheds_splitUnnested (keeps : Cursor.start.feedChar separator = .start)
    (loose : separator ∉ ['"', '\'', '/']) {emit : Text -> Text} {text : Text}
    (each : ∀ part ∈ splitUnnested separator text,
      Sheds 0 (Utf8.encode part) (Utf8.encode (emit part))) :
    Sheds 0 (Utf8.encode text) (Utf8.encode ((splitUnnested separator text).flatMap emit)) := by
  rcases splitUnnested_peel keeps text with ⟨-, isOnly⟩ | ⟨first, rest, isText, outside, isSplit⟩
  · rw [isOnly] at each ⊢
    exact sheds_part each
  · have shorter : rest.length < text.length := by
      rw [isText, List.length_append, List.length_cons]
      omega
    rw [isSplit] at each ⊢
    have front := sheds_part fun part member => each part (List.mem_append_left _ member)
    have behind := sheds_splitUnnested keeps loose fun part member =>
      each part (List.mem_append_right _ member)
    have isLoose : IsLoose (Utf8.encode [separator]) := by
      apply isLoose_encode
      intro character member
      rw [List.mem_singleton.mp member]
      exact loose
    have dropped := (isLoose.sheds_left (Nat.zero_le _) (Utf8.encode rest)).trans behind
    rw [List.flatMap_append, Utf8.encode_append, isText, Utf8.encode_append,
      ← List.singleton_append (l := rest), Utf8.encode_append]
    exact front.append (Quoting.settles_of_feed outside) dropped
termination_by text.length

theorem sheds_splitUnnested_head (keeps : Cursor.start.feedChar separator = .start)
    (loose : separator ∉ ['"', '\'', '/']) {emit : Text -> Text} {text first new : Text}
    {others : List Text} (isSplit : splitUnnested separator text = first :: others) {count : Nat}
    (head : Sheds count (Utf8.encode first) (Utf8.encode new))
    (each : ∀ part ∈ others, Sheds 0 (Utf8.encode part) (Utf8.encode (emit part))) :
    Sheds count (Utf8.encode text) (Utf8.encode (new ++ others.flatMap emit)) := by
  have isLoose : IsLoose (Utf8.encode [separator]) := by
    apply isLoose_encode
    intro character member
    rw [List.mem_singleton.mp member]
    exact loose
  have trimmed : forall {part : Text}, Text.trim part = first ->
      Sheds count (Utf8.encode part) (Utf8.encode new) := by
    rintro part rfl
    have whole := (sheds_trim part).trans head
    rwa [Nat.zero_add] at whole
  rcases splitUnnested_peel keeps text with ⟨-, isOnly⟩ | ⟨front, rest, isText, outside, isRest⟩
  · rw [isSplit] at isOnly
    cases isTrimmed : Text.trim text with
    | nil =>
        rw [isTrimmed] at isOnly
        cases isOnly
    | cons character tail =>
        rw [isTrimmed, List.filter_cons_of_pos rfl] at isOnly
        rcases List.cons.inj isOnly with ⟨isFirst, rfl⟩
        rw [List.filter_nil, List.flatMap_nil, List.append_nil]
        exact trimmed (isTrimmed.trans isFirst.symm)
  · have shorter : rest.length < text.length := by
      rw [isText, List.length_append, List.length_cons]
      omega
    have split : Utf8.encode text =
        Utf8.encode front ++ (Utf8.encode [separator] ++ Utf8.encode rest) := by
      rw [isText, Utf8.encode_append, ← List.singleton_append, Utf8.encode_append]
    rw [isSplit] at isRest
    cases isTrimmed : Text.trim front with
    | nil =>
        rw [isTrimmed] at isRest
        have later := sheds_splitUnnested_head keeps loose isRest.symm head each
        rcases Text.exists_trim front with ⟨lead, trail, whole, blankLead, blankTrail⟩
        rw [isTrimmed, List.append_nil] at whole
        have looseFront : IsLoose (Utf8.encode front) := by
          rw [whole, Utf8.encode_append]
          exact (isLoose_of_isBlank blankLead).append (isLoose_of_isBlank blankTrail)
        have dropped := ((looseFront.append isLoose).sheds_left (Nat.zero_le _)
          (Utf8.encode rest)).trans later
        rwa [Nat.zero_add, List.append_assoc, ← split] at dropped
    | cons character tail =>
        rw [isTrimmed, List.filter_cons_of_pos rfl] at isRest
        rcases List.cons.inj isRest with ⟨isFirst, others'⟩
        have isOthers : others = splitUnnested separator rest := others'
        have behind := sheds_splitUnnested keeps loose (isOthers ▸ each)
        have dropped := (isLoose.sheds_left (Nat.zero_le _) (Utf8.encode rest)).trans behind
        rw [split, Utf8.encode_append, isOthers]
        exact (trimmed (isTrimmed.trans isFirst.symm)).append (Quoting.settles_of_feed outside)
          dropped
termination_by text.length

/-! ## Operands -/

theorem Quoting.behind?_within_cons {quote byte : UInt8} {escaped : Bool} {rest : Bytes}
    (notLineFeed : byte ≠ Byte.lineFeed) :
    (Quoting.within quote escaped).behind? (byte :: rest) =
      ((Quoting.within quote escaped).next byte).behind? rest := by
  rw [behind?, if_neg]
  simp [endsAt, notLineFeed]

theorem Quoting.next_of_large {quote byte : UInt8} (ascii : quote.toNat < 0x80)
    (isLarge : 0x80 ≤ byte.toNat) (escaped : Bool) :
    byte ≠ Byte.lineFeed ∧ (Quoting.within quote escaped).next byte = .within quote false := by
  have other : byte ≠ Byte.lineFeed ∧ byte ≠ Byte.backslash ∧ byte ≠ quote := by
    refine ⟨?_, ?_, ?_⟩
    · rintro rfl
      exact absurd isLarge (by decide)
    · rintro rfl
      exact absurd isLarge (by decide)
    · rintro rfl
      exact absurd isLarge (Nat.not_le_of_lt ascii)
  refine ⟨other.1, ?_⟩
  simp only [Quoting.next, Cursor.next, Cursor.step, other.2.1, other.2.2, if_false, ite_self]

/-- Bytes of characters beyond the ASCII ones leave a literal open, and end an
escape. -/
theorem Quoting.behind?_of_large {quote : UInt8} (ascii : quote.toNat < 0x80) {byte : UInt8}
    {bytes : Bytes} (large : ∀ other ∈ byte :: bytes, 0x80 ≤ other.toNat) (escaped : Bool) :
    (Quoting.within quote escaped).behind? (byte :: bytes) = some (.within quote false) := by
  rcases next_of_large ascii (large byte List.mem_cons_self) escaped with ⟨notLineFeed, next⟩
  rw [behind?_within_cons notLineFeed, next]
  cases bytes with
  | nil => rfl
  | cons second bytes =>
      exact behind?_of_large ascii
        (fun other member => large other (List.mem_cons_of_mem byte member)) false

/-- A character inside a literal, and the literal behind it. -/
theorem Quoting.behind?_character {character : Char} {quote : UInt8} (ascii : quote.toNat < 0x80)
    (notLineFeed : character ≠ '\n') (escaped : Bool) :
    (Quoting.within quote escaped).behind? (String.utf8EncodeChar character) =
      some (if escaped then .within quote false
        else if character = '\\' then .within quote true
        else if character = Char.ofNat quote.toNat then .none
        else .within quote false) := by
  by_cases small : character.toNat < 0x80
  · rw [Utf8.encodeChar_ascii small, behind?_within_cons]
    · have backslash : UInt8.ofNat character.toNat = Byte.backslash ↔ _ :=
        Utf8.ofNat_toNat_eq_iff small (by decide)
      have isQuote := Utf8.ofNat_toNat_eq_iff small ascii
      simp only [next, Cursor.next, Cursor.step, behind?, backslash, isQuote]
      rfl
    · intro same
      exact notLineFeed ((Utf8.ofNat_toNat_eq_iff small (by decide)).mp same)
  · have large := Utf8.le_of_mem_encodeChar (Nat.le_of_not_lt small)
    have notBackslash : character ≠ '\\' := by
      rintro rfl
      exact small (by decide)
    have notQuote : character ≠ Char.ofNat quote.toNat := by
      rintro rfl
      rw [Utf8.toNat_char_ofNat ascii] at small
      exact small ascii
    rw [if_neg notBackslash, if_neg notQuote, ite_self]
    cases bytes : String.utf8EncodeChar character with
    | nil => exact absurd bytes (by simp)
    | cons byte others =>
        rw [bytes] at large
        exact behind?_of_large ascii large escaped

/-- What stands between the quotes of a literal on one line leads out of the
literal. -/
theorem Quoting.behind?_of_bodyBefore? {quote : UInt8} (ascii : quote.toNat < 0x80)
    (notBackslash : quote ≠ Byte.backslash) {text : Text}
    (isBody : (Literal.bodyBefore? (Char.ofNat quote.toNat) text).isSome = true)
    (oneLine : '\n' ∉ text) :
    (Quoting.within quote false).behind? (Utf8.encode text) = some .none := by
  have quoteOther : ('\\' : Char) ≠ Char.ofNat quote.toNat := by
    intro same
    have numbers := congrArg Char.toNat same
    rw [Utf8.toNat_char_ofNat ascii] at numbers
    exact notBackslash (UInt8.toNat_inj.mp numbers.symm)
  fun_induction Literal.bodyBefore? (Char.ofNat quote.toNat) text with
  | case1 => cases isBody
  | case2 =>
      have notLineFeed : Char.ofNat quote.toNat ≠ '\n' :=
        fun same => oneLine (same ▸ List.mem_cons_self)
      rw [Utf8.encode_cons, Utf8.encode_nil, List.append_nil, behind?_character ascii notLineFeed,
        if_neg Bool.false_ne_true, if_neg (Ne.symm quoteOther), if_pos rfl]
  | case3 => cases isBody
  | case4 => cases isBody
  | case5 => cases isBody
  | case6 following rest notQuote notLineFeed ih =>
      simp only [List.mem_cons, not_or] at oneLine
      rw [Option.isSome_map] at isBody
      rw [Utf8.encode_cons, Utf8.encode_cons, behind?_append,
        behind?_character ascii (by decide), if_neg Bool.false_ne_true, if_pos rfl,
        Option.bind_some, behind?_append, behind?_character ascii (Ne.symm oneLine.2.1), if_pos rfl,
        Option.bind_some]
      exact ih isBody oneLine.2.2
  | case7 character following rest notQuote isPlain ih =>
      rw [List.mem_cons, not_or] at oneLine
      rw [Option.isSome_map] at isBody
      rw [Utf8.encode_cons, behind?_append, behind?_character ascii (Ne.symm oneLine.1),
        if_neg Bool.false_ne_true, if_neg isPlain, if_neg notQuote, Option.bind_some]
      exact ih isBody oneLine.2

theorem sheds_of_bodyBefore? {quote : UInt8} {rest : Text}
    (isQuote : quote = Byte.doubleQuote ∨ quote = Byte.singleQuote)
    (isBody : (Literal.bodyBefore? (Char.ofNat quote.toNat) rest).isSome = true) :
    Sheds 0 (Utf8.encode (Char.ofNat quote.toNat :: rest)) [] := by
  refine ⟨Nat.zero_le _, fun noLineFeed => ?_⟩
  have oneLine : '\n' ∉ rest := by
    intro member
    have inBytes : Byte.lineFeed ∈ Utf8.encode (Char.ofNat quote.toNat :: rest) :=
      List.mem_flatMap.mpr ⟨'\n', List.mem_cons_of_mem _ member, by decide⟩
    exact List.count_eq_zero.mp noLineFeed.symm inBytes
  have outside : Quoting.none.behind? (Utf8.encode (Char.ofNat quote.toNat :: rest)) =
      some .none := by
    rcases isQuote with rfl | rfl
    · exact Quoting.behind?_of_bodyBefore? (by decide) (by decide) isBody oneLine
    · exact Quoting.behind?_of_bodyBefore? (by decide) (by decide) isBody oneLine
  refine ⟨Nat.zero_le _, fun ends => ?_, fun _ behind isBehind => (Option.some.inj isBehind).symm⟩
  rw [outside] at ends
  cases ends

theorem sheds_literal {text : Text} (isLiteral : Literal.isStringLiteral text = true) :
    Sheds 0 (Utf8.encode text) [] := by
  rw [Literal.isStringLiteral, Literal.body?] at isLiteral
  have trimmed := sheds_trim text
  split at isLiteral
  · rename_i rest isText
    rw [isText] at trimmed
    have opened := @sheds_of_bodyBefore? Byte.doubleQuote rest (.inl rfl) isLiteral
    exact trimmed.trans opened
  · rename_i rest isText
    rw [isText] at trimmed
    have opened := @sheds_of_bodyBefore? Byte.singleQuote rest (.inr rfl) isLiteral
    exact trimmed.trans opened
  · cases isLiteral

/-! ## Collapsing blanks -/

/-- Whether a text has no more line ends than another, and is read like it if
it has as many. -/
def Quoting.Condenses (quoting : Quoting) (old new : Bytes) : Prop :=
  new.count Byte.lineFeed ≤ old.count Byte.lineFeed ∧
    (new.count Byte.lineFeed = old.count Byte.lineFeed ->
      quoting.behind? new = quoting.behind? old ∧ quoting.heads new = quoting.heads old)

namespace Quoting.Condenses

variable {quoting : Quoting} {old new : Bytes}

theorem prepend {front : Bytes} {behind : Quoting} (condenses : behind.Condenses old new)
    (reached : ∀ other ∈ quoting.behind? front, other = behind) :
    quoting.Condenses (front ++ old) (front ++ new) := by
  rcases condenses with ⟨fewer, alike⟩
  rw [Condenses, List.count_append, List.count_append, behind?_append, behind?_append,
    heads_append, heads_append]
  refine ⟨Nat.add_le_add_left fewer _, fun same => ?_⟩
  rcases alike (by omega) with ⟨sameBehind, sameHeads⟩
  cases isBehind : quoting.behind? front with
  | none => exact ⟨rfl, rfl⟩
  | some other =>
      rw [reached other isBehind]
      exact ⟨sameBehind, congrArg (quoting.heads front + ·) sameHeads⟩

theorem space (condenses : Quoting.none.Condenses old new) :
    Quoting.none.Condenses old (0x20 :: new) := by
  have noLineFeed : (0x20 :: new).count Byte.lineFeed = new.count Byte.lineFeed := by
    rw [List.count_cons]
    rfl
  rw [Condenses, noLineFeed]
  refine ⟨condenses.1, fun same => ?_⟩
  rcases condenses.2 same with ⟨sameBehind, sameHeads⟩
  exact ⟨sameBehind, (Nat.zero_add _).trans sameHeads⟩

/-- Without a blank outside literals. -/
theorem dropBlank {blank : Char} (isBlank : isBlank blank = true)
    (condenses : Quoting.none.Condenses old new) :
    Quoting.none.Condenses (String.utf8EncodeChar blank ++ old) new := by
  rcases condenses with ⟨fewer, alike⟩
  rw [Condenses, List.count_append]
  refine ⟨Nat.le_trans fewer (Nat.le_add_left _ _), fun same => ?_⟩
  have noLineFeed : Byte.lineFeed ∉ String.utf8EncodeChar blank := by
    rw [← List.count_eq_zero]
    omega
  have loose : IsLoose (String.utf8EncodeChar blank) := by
    have single : IsLoose (Utf8.encode [blank]) :=
      isLoose_of_isBlank fun other member => List.mem_singleton.mp member ▸ isBlank
    rwa [Utf8.encode_cons, Utf8.encode_nil, List.append_nil] at single
  have noGreater : Byte.greater ∉ String.utf8EncodeChar blank := by
    apply Utf8.not_mem_encodeChar (by decide)
    rintro rfl
    exact absurd isBlank (by decide)
  rcases loose.behind?_none noLineFeed with ⟨behind, heads⟩
  rw [behind?_append, heads_append, behind, heads, List.count_eq_zero.mpr noGreater,
    Option.bind_some, Option.map_some, Option.getD_some, Nat.zero_add]
  exact alike (by omega)

end Quoting.Condenses

theorem condenses_collapseBlanksFrom {cursor : Cursor} {pending : Bool} {text : Text}
    (outside : pending = true -> cursor.isInLiteral = false) :
    cursor.quoting.Condenses (Utf8.encode text)
      (Utf8.encode (collapseBlanksFrom cursor pending text)) := by
  induction text generalizing cursor pending with
  | nil => exact ⟨Nat.le_refl _, fun _ => ⟨rfl, rfl⟩⟩
  | cons character rest ih =>
      rw [collapseBlanksFrom, Utf8.encode_cons]
      split
      · rename_i isBlank
        have notInside : cursor.isInLiteral = false := Bool.not_eq_true' _ |>.mp isBlank.2
        have behind : cursor.quoting.Condenses (Utf8.encode rest)
            (Utf8.encode (collapseBlanksFrom cursor true rest)) := ih fun _ => notInside
        rw [Cursor.eq_of_outside notInside] at behind ⊢
        exact behind.dropBlank isBlank.1
      · have notPending : false = true -> (cursor.feedChar character).isInLiteral = false :=
          by simp
        have kept : cursor.quoting.Condenses (String.utf8EncodeChar character ++ Utf8.encode rest)
            (String.utf8EncodeChar character ++
              Utf8.encode (collapseBlanksFrom (cursor.feedChar character) false rest)) := by
          apply (ih notPending).prepend
          intro other isBehind
          exact (Quoting.run_of_behind? cursor isBehind none).2.symm
        cases pending with
        | false => exact kept
        | true =>
            rw [Cursor.eq_of_outside (outside rfl)] at kept ⊢
            exact kept.space

theorem sheds_collapseBlanks (code : Text) :
    Sheds 0 (Utf8.encode code) (Utf8.encode (collapseBlanks code)) := by
  have condenses : Cursor.start.quoting.Condenses (Utf8.encode code)
      (Utf8.encode (collapseBlanks code)) := condenses_collapseBlanksFrom (by simp)
  refine ⟨condenses.1, fun same => ?_⟩
  rcases condenses.2 same with ⟨sameBehind, sameHeads⟩
  refine ⟨Nat.le_of_eq sameHeads, fun ends => sameBehind.trans ends, fun settled behind => ?_⟩
  intro isBehind
  exact settled behind (sameBehind ▸ isBehind)

/-! ## The calls that are written back -/

variable {dialect : Dialect}

theorem argumentCalls_append (left right : List Text) :
    Plan.argumentCalls dialect (left ++ right) =
      Plan.argumentCalls dialect left ++ Plan.argumentCalls dialect right :=
  List.flatMap_append

theorem flatMap_argumentCalls {α : Type} (parts : List α) (arguments : α -> List Text) :
    parts.flatMap (fun part => Plan.argumentCalls dialect (arguments part)) =
      Plan.argumentCalls dialect (parts.flatMap arguments) := by
  rw [Plan.argumentCalls, List.flatMap_assoc]
  rfl

/-- An argument is written back between the parentheses of a call. -/
theorem sheds_argumentCall (identifiers : dialect.HasIdentifierWords) (argument : Text) :
    Sheds 0 (Utf8.encode argument) (Utf8.encode (Plan.argumentCalls dialect [argument])) := by
  have written : Utf8.encode (Plan.argumentCalls dialect [argument]) =
      (Byte.dot :: Utf8.ofString dialect.argumentMethod ++ [Byte.openParen]) ++
        Utf8.encode argument ++ [Byte.closeParen] := by
    have dot : String.utf8EncodeChar '.' = [Byte.dot] := by decide
    have opening : String.utf8EncodeChar '(' = [Byte.openParen] := by decide
    have closing : String.utf8EncodeChar ')' = [Byte.closeParen] := by decide
    simp [Plan.argumentCalls, dot, opening, closing, Utf8.ofString]
  rcases identifierWord_spec identifiers.argumentMethod with ⟨_, _, _, all⟩
  have mem_front : forall {byte : UInt8}, byte ≠ Byte.dot -> byte ≠ Byte.openParen ->
      isIdentifierByte byte = false ->
      byte ∉ Byte.dot :: Utf8.ofString dialect.argumentMethod ++ [Byte.openParen] := by
    intro byte notDot notOpen notIdentifier member
    simp only [List.cons_append, List.mem_cons, List.mem_append, List.not_mem_nil,
      or_false] at member
    rcases member with isDot | inName | isOpen
    · exact notDot isDot
    · rw [all byte inName] at notIdentifier
      cases notIdentifier
    · exact notOpen isOpen
  have isFront :
      IsLoose (Byte.dot :: Utf8.ofString dialect.argumentMethod ++ [Byte.openParen]) := by
    intro byte member
    refine ⟨?_, ?_, ?_⟩ <;>
      · rintro rfl
        exact mem_front (by decide) (by decide) (by decide) member
  have isBack : IsLoose [Byte.closeParen] := by
    intro byte member
    rw [List.mem_singleton.mp member]
    decide
  rw [written]
  apply isFront.sheds_around isBack
  · exact ⟨mem_front (by decide) (by decide) (by decide),
      mem_front (by decide) (by decide) (by decide)⟩
  · decide

/-- An operand is written back as an argument, unless it is a literal. -/
theorem sheds_operand (identifiers : dialect.HasIdentifierWords) (operand : Text) :
    Sheds 0 (Utf8.encode operand) (Utf8.encode
      (Plan.argumentCalls dialect (Operand.expressions [Operand.ofText operand]))) := by
  rw [Operand.ofText]
  cases isDecoded : Literal.decode operand with
  | some content =>
      apply sheds_literal
      rw [Literal.decode] at isDecoded
      rcases Option.map_eq_some_iff.mp isDecoded with ⟨body, isBody, -⟩
      rw [Literal.isStringLiteral, isBody]
      rfl
  | none =>
      exact ((sheds_trim operand).trans (sheds_collapseBlanks _)).trans
        (sheds_argumentCall identifiers _)

theorem sheds_concatenation (identifiers : dialect.HasIdentifierWords) (expression : Text) :
    Sheds 0 (Utf8.encode expression) (Utf8.encode (Plan.argumentCalls dialect
      (Operand.expressions (Operand.ofConcatenation expression)))) := by
  have operands : ∀ part ∈ splitUnnested '+' expression, Sheds 0 (Utf8.encode part)
      (Utf8.encode (Plan.argumentCalls dialect (Operand.expressions [Operand.ofText part]))) :=
    fun part _ => sheds_operand identifiers part
  have each := sheds_splitUnnested (by decide) (by decide) operands
  have flat : forall parts : List Text,
      parts.flatMap (fun part => Operand.expressions [Operand.ofText part]) =
        Operand.expressions (parts.map Operand.ofText) := by
    intro parts
    induction parts with
    | nil => rfl
    | cons part parts ih =>
        rw [List.flatMap_cons, ih, List.map_cons]
        cases Operand.ofText part <;> rfl
  rw [flatMap_argumentCalls, flat] at each
  exact each

theorem sheds_body? {argument body : Text} (isBody : Supplier.body? argument = some body) :
    Sheds 1 (Utf8.encode argument) (Utf8.encode body) := by
  rcases Supplier.exists_of_body? isBody with ⟨lead, inner, outer, after, rfl, blank, rfl⟩
  have loose : IsLoose (Utf8.encode
      (lead ++ ('(' :: inner ++ [')']) ++ (outer ++ ['-', '>']))) := by
    apply isLoose_encode
    intro character member special
    have notBlank : isBlank character = false := by
      simp only [List.mem_cons, List.not_mem_nil, or_false] at special
      rcases special with rfl | rfl | rfl <;> decide
    have notMember : character ∉ lead ++ inner ++ outer := by
      intro inBlanks
      rw [blank character inBlanks] at notBlank
      cases notBlank
    simp only [List.mem_append, List.mem_cons, List.not_mem_nil, or_false, not_or]
      at member notMember special
    rcases special with rfl | rfl | rfl <;> simp_all
  have arrow : 1 ≤ (Utf8.encode
      (lead ++ ('(' :: inner ++ [')']) ++ (outer ++ ['-', '>']))).count Byte.greater := by
    apply List.one_le_count_iff.mpr
    exact List.mem_flatMap.mpr ⟨'>', by simp, by decide⟩
  rw [Utf8.encode_append _ after]
  exact (loose.sheds_left arrow _).trans (sheds_trim after)

theorem sheds_normalize (body : Text) :
    Sheds 0 (Utf8.encode body) (Utf8.encode (Supplier.normalize body)) := by
  unfold Supplier.normalize
  cases isReturned : Supplier.returned? body with
  | none => exact sheds_trim body
  | some expression =>
      rcases Supplier.exists_of_returned? isReturned with ⟨front, trail, rfl, frame, frameTrail⟩
      have loose : forall {text : Text}, Supplier.IsBlockFrame text ->
          IsLoose (Utf8.encode text) := by
        intro text frame
        apply isLoose_encode
        intro character member special
        simp only [List.mem_cons, List.not_mem_nil, or_false] at special
        rcases frame character member with blank | inFrame
        · rcases special with rfl | rfl | rfl <;> exact absurd blank (by decide)
        · rcases special with rfl | rfl | rfl <;> exact absurd inFrame (by decide)
      rw [Utf8.encode_append, Utf8.encode_append]
      exact (((loose frameTrail).sheds_right _).trans
        ((loose frame).sheds_left (Nat.zero_le _) _)).trans (sheds_trim expression)

/-- The calls that are written back for a supplier call shed the arrow of its
supplier. -/
theorem sheds_supplier (identifiers : dialect.HasIdentifierWords) {text body : Text}
    {extras : List Text} (content : CallContent.ofText text = .supplier body extras) :
    Sheds 1 (Utf8.encode text) (Utf8.encode (Plan.argumentCalls dialect
      ((Fragment.ofConcatenation body).addArguments extras).arguments)) := by
  rcases CallContent.exists_of_ofText_eq_supplier content with
    ⟨-, first, raw, isSplit, isBody, rfl⟩
  have head : Sheds 1 (Utf8.encode first) (Utf8.encode (Plan.argumentCalls dialect
      (Operand.expressions (Operand.ofConcatenation (Supplier.normalize raw))))) :=
    ((sheds_body? isBody).trans (sheds_normalize raw)).trans (sheds_concatenation identifiers _)
  have whole := sheds_splitUnnested_head (by decide) (by decide) isSplit head
    fun part _ => sheds_argumentCall identifiers part
  rw [flatMap_argumentCalls, List.flatMap_singleton', ← argumentCalls_append] at whole
  rw [Fragment.arguments_addArguments, Fragment.arguments_ofConcatenation]
  exact whole

end FluentLog
