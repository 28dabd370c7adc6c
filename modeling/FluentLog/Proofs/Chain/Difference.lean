import FluentLog.Proofs.Chain.Frame
import FluentLog.Proofs.Chain.Ending
import FluentLog.Proofs.Code.Quoted
import FluentLog.Proofs.Expression.Shedding

namespace FluentLog

/-!
# What is replaced is changed

A source text is reported as unchanged or as replaced in so many chains.  That a replaced
text differs from its source cannot be read off the edits: the message of a chain with one
placeholder is set to the very literal that stood there, other edits lengthen or shorten
the text, and all that follows is shifted.  But every edit of a supplier call sheds an
arrow, and no other edit brings one in.  So from the first supplier call of the first
replaced chain on the two texts differ, unless the message in front of it was changed
already.
-/

/-! ## Edits that shed arrows -/

namespace Edit

/-- Whether an edit replaces this stretch of a text that begins at an offset.
The text in front and the rest are given as well. -/
def IsAt (edit : Edit) (offset : Nat) (text front old rest : Bytes) : Prop :=
  text = front ++ old ++ rest ∧
    edit.extent = ⟨offset + front.length, offset + front.length + old.length⟩

/-- An edit that begins behind a front replaces a stretch of the rest. -/
theorem IsAt.behind {edit : Edit} {offset : Nat} {gap text front old rest : Bytes}
    (isAt : edit.IsAt offset (gap ++ text) front old rest)
    (later : offset + gap.length ≤ edit.extent.start) :
    ∃ middle, front = gap ++ middle ∧ edit.IsAt (offset + gap.length) text middle old rest := by
  rcases isAt with ⟨same, atExtent⟩
  have longer : gap.length ≤ front.length := by
    rw [atExtent] at later
    simp only at later
    omega
  rw [List.append_assoc] at same
  rcases List.prefix_of_prefix_length_le ⟨text, rfl⟩ ⟨old ++ rest, same.symm⟩ longer with
    ⟨middle, rfl⟩
  refine ⟨middle, rfl, ?_, ?_⟩
  · rw [List.append_assoc] at same
    rw [List.append_cancel_left same, List.append_assoc]
  · rw [atExtent, List.length_append, Extent.mk.injEq]
    omega

theorem IsAt.unique {edit : Edit} {offset : Nat} {text front old rest other otherOld after : Bytes}
    (first : edit.IsAt offset text front old rest)
    (second : edit.IsAt offset text other otherOld after) :
    front = other ∧ old = otherOld ∧ rest = after := by
  rcases first with ⟨same, atExtent⟩
  rcases second with ⟨sameOther, atOther⟩
  rw [atExtent, Extent.mk.injEq] at atOther
  rw [same, List.append_assoc, List.append_assoc] at sameOther
  rcases List.append_inj sameOther (by omega) with ⟨rfl, sameBehind⟩
  rcases List.append_inj sameBehind (by omega) with ⟨rfl, rfl⟩
  exact ⟨rfl, rfl, rfl⟩

/-- Whether an edit replaces a stretch by one with so many arrows less.  A
scanner of the text is at rest in front of the stretch, and behind it if the
number of line ends is kept. -/
def ShedsIn (count : Nat) (scanner : Scanner) (offset : Nat) (text : Bytes) (edit : Edit) : Prop :=
  ∃ front old rest depth, edit.IsAt offset text front old rest ∧
    scanner.run (old ++ rest).head? front = Scanner.atRest depth ∧
    (edit.replacement.count Byte.lineFeed = old.count Byte.lineFeed ->
      (Scanner.atRest depth).run rest.head? old = Scanner.atRest depth) ∧
    Sheds count old edit.replacement

theorem ShedsIn.behind {count : Nat} {scanner : Scanner} {offset : Nat} {gap text : Bytes}
    {edit : Edit} (sheds : edit.ShedsIn count scanner offset (gap ++ text))
    (later : offset + gap.length ≤ edit.extent.start) :
    edit.ShedsIn count (scanner.run text.head? gap) (offset + gap.length) text := by
  rcases sheds with ⟨front, old, rest, depth, isAt, atRest, behind, shedding⟩
  rcases isAt.behind later with ⟨middle, rfl, isBehind⟩
  refine ⟨middle, old, rest, depth, isBehind, ?_, behind, shedding⟩
  have sameHead : text.head? = middle.head?.or (old ++ rest).head? := by
    rw [isBehind.1, List.append_assoc, List.head?_append]
  rw [sameHead, ← Scanner.run_append]
  exact atRest

theorem ShedsIn.mono {count : Nat} {scanner : Scanner} {offset : Nat} {text : Bytes} {edit : Edit}
    (sheds : edit.ShedsIn count scanner offset text) : edit.ShedsIn 0 scanner offset text := by
  rcases sheds with ⟨front, old, rest, depth, isAt, atRest, behind, shedding⟩
  exact ⟨front, old, rest, depth, isAt, atRest, behind, shedding.mono⟩

namespace Replaces

variable {scanner : Scanner} {offset : Nat} {edits : List Edit} {text new : Bytes}

theorem le_start (replaces : Replaces offset edits text new) :
    ∀ edit ∈ edits, offset ≤ edit.extent.start := by
  induction replaces with
  | done => exact List.forall_mem_nil _
  | edit gap old new behind ih =>
      intro edit member
      rcases List.mem_cons.mp member with rfl | isLater
      · exact Nat.le_add_right _ _
      · have later := ih edit isLater
        omega

theorem exists_of_cons {edit : Edit} (replaces : Replaces offset (edit :: edits) text new) :
    ∃ gap old rest newRest, edit.IsAt offset text gap old rest ∧
      new = gap ++ edit.replacement ++ newRest ∧
      Replaces (offset + (gap ++ old).length) edits rest newRest := by
  cases replaces with
  | @edit _ _ rest newRest gap old new behind =>
      refine ⟨gap, old, rest, newRest, ⟨rfl, rfl⟩, rfl, ?_⟩
      rw [List.length_append, ← Nat.add_assoc]
      exact behind

/-- What edits that shed arrows make of a text has no more line ends and no
more arrows.  If as many line ends are left, then every edit has kept its own. -/
theorem sheds (replaces : Replaces offset edits text new)
    (each : ∀ edit ∈ edits, edit.ShedsIn 0 scanner offset text) :
    new.count Byte.lineFeed ≤ text.count Byte.lineFeed ∧
      (new.count Byte.lineFeed = text.count Byte.lineFeed ->
        (∀ edit ∈ edits, forall front old rest, edit.IsAt offset text front old rest ->
          edit.replacement.count Byte.lineFeed = old.count Byte.lineFeed) ∧
        forall depth, scanner = Scanner.atRest depth -> Quoting.none.Loses 0 text new) := by
  induction replaces generalizing scanner with
  | done offset text =>
      exact ⟨Nat.le_refl _, fun _ => ⟨List.forall_mem_nil _, fun _ _ => .refl .none text⟩⟩
  | @edit offset edits rest newRest gap old new behind ih =>
      have isFirst : (Edit.mk ⟨offset + gap.length, offset + gap.length + old.length⟩ new).IsAt
          offset (gap ++ old ++ rest) gap old rest := ⟨rfl, rfl⟩
      have startsBehind : ∀ edit ∈ edits, offset + (gap ++ old).length ≤ edit.extent.start := by
        intro edit member
        rw [List.length_append, ← Nat.add_assoc]
        exact behind.le_start edit member
      rcases each _ List.mem_cons_self with
        ⟨front, old', rest', depth, isAt, atRest, closes, shedding⟩
      rcases isFirst.unique isAt with ⟨rfl, rfl, rfl⟩
      have offsets : offset + gap.length + old.length = offset + (gap ++ old).length := by
        rw [List.length_append, Nat.add_assoc]
      rw [offsets] at ih
      rcases ih fun edit member => (each edit (List.mem_cons_of_mem _ member)).behind
        (startsBehind edit member) with ⟨fewer, later⟩
      have fewerHere := shedding.1
      simp only at fewerHere closes
      simp only [List.count_append]
      refine ⟨by omega, fun same => ?_⟩
      have sameHere : new.count Byte.lineFeed = old.count Byte.lineFeed := by omega
      rcases later (by omega) with ⟨each', loses⟩
      constructor
      · intro edit member front old' rest' isAtOther
        rcases List.mem_cons.mp member with rfl | isLater
        · rcases isAtOther.unique isFirst with ⟨-, rfl, -⟩
          exact sameHere
        · rcases isAtOther.behind (startsBehind edit isLater) with ⟨middle, -, isBehind⟩
          exact each' edit isLater middle old' rest' isBehind
      · rintro start rfl
        have settledGap : Quoting.none.Settles gap := Quoting.settles_of_run atRest
        have settledOld : Quoting.none.Settles old := Quoting.settles_of_run (closes sameHere)
        have run : (Scanner.atRest start).run rest.head? (gap ++ old) = Scanner.atRest depth := by
          rw [List.head?_append] at atRest
          rw [Scanner.run_append, atRest, closes sameHere]
        rw [List.append_assoc, List.append_assoc]
        exact .append settledGap (.refl .none gap)
          (.append settledOld (shedding.2 sameHere) (loses depth run))

/-- Edits of which the first one sheds an arrow change a text, also if what
stands behind it sheds arrows too. -/
theorem ne_of_sheds {edit : Edit} {depth : Nat} {tail newTail : Bytes}
    (replaces : Replaces offset (edit :: edits) text new)
    (first : edit.ShedsIn 1 (Scanner.atRest depth) offset text)
    (each : ∀ other ∈ edits, other.ShedsIn 0 (Scanner.atRest depth) offset text)
    {final : Nat} (run : (Scanner.atRest depth).run none text = Scanner.atRest final)
    (sheds : Sheds 0 tail newTail) : new ++ newTail ≠ text ++ tail := by
  intro unchanged
  rcases replaces.exists_of_cons with ⟨gap, old, rest, newRest, isFirst, rfl, behind⟩
  rcases first with ⟨front, old', rest', depth', isAt, atRest, closes, shedding⟩
  rcases isFirst.unique isAt with ⟨rfl, rfl, rfl⟩
  rw [isFirst.1] at each run unchanged
  rcases behind.sheds fun other member =>
    (each other member).behind (behind.le_start other member) with ⟨fewer, later⟩
  have fewerHere := shedding.1
  have fewerTail := sheds.1
  have counts := congrArg (List.count Byte.lineFeed) unchanged
  simp only [List.count_append] at counts
  have sameHere : edit.replacement.count Byte.lineFeed = old.count Byte.lineFeed := by omega
  have settledOld : Quoting.none.Settles old := Quoting.settles_of_run (closes sameHere)
  have reached : (Scanner.atRest depth).run rest.head? (gap ++ old) = Scanner.atRest depth' := by
    rw [List.head?_append] at atRest
    rw [Scanner.run_append, atRest, closes sameHere]
  have settledRest : Quoting.none.Settles rest := by
    rw [Scanner.run_append, Option.or_none, reached] at run
    exact Quoting.settles_of_run run
  have shedsRest : Sheds 0 rest newRest := ⟨fewer, fun same => (later same).2 depth' reached⟩
  have whole := shedding.append settledOld (shedsRest.append settledRest sheds)
  simp only [List.append_assoc] at unchanged
  exact whole.ne (List.append_cancel_left unchanged)

end Replaces
end Edit

/-! ## The edits of a chain -/

/-- Whether bytes stand in the encoding of a text.  Such bytes need not be the
encoding of a text themselves. -/
def IsPiece (source : Text) (bytes : Bytes) : Prop :=
  ∃ left right, Utf8.encode source = left ++ bytes ++ right

theorem IsPiece.left {source : Text} {left right : Bytes}
    (piece : IsPiece source (left ++ right)) : IsPiece source left := by
  rcases piece with ⟨front, rest, same⟩
  exact ⟨front, right ++ rest, by simp [same]⟩

theorem IsPiece.right {source : Text} {left right : Bytes}
    (piece : IsPiece source (left ++ right)) : IsPiece source right := by
  rcases piece with ⟨front, rest, same⟩
  exact ⟨front ++ left, rest, by simp [same]⟩

theorem IsPiece.exists_encode {source : Text} {left inside right : Bytes} {first last : UInt8}
    (piece : IsPiece source (left ++ first :: inside ++ last :: right))
    (asciiFirst : first.toNat < 0x80) (asciiLast : last.toNat < 0x80) :
    ∃ inner, inside = Utf8.encode inner ∧ inner <:+: source := by
  rcases piece with ⟨front, rest, same⟩
  have split : Utf8.encode source =
      (front ++ left) ++ first :: (inside ++ last :: (right ++ rest)) := by
    rw [same]
    simp
  rcases Utf8.exists_of_encode_eq asciiFirst split with ⟨before, behind, -, isBehind, rfl⟩
  rcases Utf8.exists_of_encode_eq asciiLast isBehind.symm with ⟨inner, after, isInner, -, rfl⟩
  refine ⟨inner, isInner, before ++ [Char.ofNat first.toNat], Char.ofNat last.toNat :: after, ?_⟩
  simp

variable {dialect : Dialect}

theorem IsSupplierCall.shedsIn (identifiers : dialect.HasIdentifierWords) {scanner : Scanner}
    {offset : Nat} {text : Bytes} {call : SupplierCall}
    (isCall : IsSupplierCall dialect scanner offset text call) {source : Text}
    (piece : IsPiece source text) : (call.edit dialect).ShedsIn 1 scanner offset text := by
  rcases isCall with ⟨before, lead, inside, after, body, extras, depth, rfl, named, enclosed,
    atRest, content, rfl⟩
  rcases piece.exists_encode (by decide) (by decide) with ⟨inner, rfl, -⟩
  rw [Utf8.decode_encode] at content
  refine ⟨before, Byte.dot :: lead ++ Byte.openParen :: Utf8.encode inner ++ [Byte.closeParen],
    after, depth, ⟨?_, ?_⟩, atRest, fun _ => ?_, ?_⟩
  · simp
  · simp only [SupplierCall.edit, Extent.mk.injEq, List.length_append, List.length_cons,
      List.length_nil, true_and]
    omega
  · exact Scanner.run_call identifiers.argumentMethod named enclosed depth _
  · have looseFront : IsLoose (Byte.dot :: lead ++ [Byte.openParen]) := by
      intro byte member
      simp only [List.cons_append, List.mem_cons, List.mem_append, List.not_mem_nil,
        or_false] at member
      rcases member with rfl | inLead | rfl
      · decide
      · have plain := named.plain identifiers.argumentMethod byte inLead
        simp only [Scanner.isPlainByte, Bool.and_eq_true, bne_iff_ne] at plain
        exact ⟨plain.1.1.1.1, plain.1.1.1.2, plain.1.1.2⟩
      · decide
    have looseBack : IsLoose [Byte.closeParen] := by
      intro byte member
      rw [List.mem_singleton.mp member]
      decide
    have split : Byte.dot :: lead ++ Byte.openParen :: Utf8.encode inner ++ [Byte.closeParen] =
        (Byte.dot :: lead ++ [Byte.openParen]) ++ Utf8.encode inner ++ [Byte.closeParen] := by
      simp
    rw [split]
    exact ((looseBack.sheds_right _).trans (looseFront.sheds_left (Nat.zero_le _) _)).trans
      (sheds_supplier identifiers content)

/-- A quoted text has no arrow heads outside literals and ends outside of
them. -/
theorem heads_quote (text : Text) :
    Quoting.none.heads (Utf8.encode (Literal.quote text)) = 0 ∧
      Quoting.none.Settles (Utf8.encode (Literal.quote text)) := by
  constructor
  · have inside : forall {bytes : Bytes} {cursor : Cursor}, cursor.StaysQuoted bytes ->
        cursor.quoting.heads bytes = 0 := by
      intro bytes
      induction bytes with
      | nil => exact fun _ => rfl
      | cons byte rest ih =>
          intro cursor stays
          have notHead : ¬ (byte = Byte.greater ∧ cursor.quoting = .none) := by
            intro isHead
            have outside := stays.1
            rw [Cursor.isInLiteral, isHead.2] at outside
            cases outside
          rw [Quoting.heads, if_neg notHead, ← Quoting.next_eq, ih stays.2]
          exact ite_self 0
    rcases Cursor.staysQuoted_escape text 0 with ⟨stays, back⟩
    have whole : (Cursor.inQuotes 0).StaysQuoted
        (Utf8.encode (Literal.escape text) ++ [Byte.doubleQuote]) := by
      apply stays.append
      rw [back]
      exact ⟨rfl, True.intro⟩
    rw [Literal.encode_quote]
    exact (Nat.zero_add _).trans (inside whole)
  · have passes := @Cursor.passes_quote [] List.not_mem_nil text 0
    exact Quoting.settles_of_feed passes.2

/-- The edit of the message sheds nothing, and brings nothing in. -/
theorem shedsIn_message (identifiers : dialect.HasIdentifierWords)
    {front lead argument : Bytes} (named : Call.IsNamed dialect.messageMethod lead)
    (bare : Call.IsBareMessage argument)
    (atRest : Scanner.start.run (some Byte.dot) front = Scanner.atRest 0) (pattern : Text)
    (after : Bytes) : Edit.ShedsIn 0 .start 0
      (front ++ Byte.dot :: lead ++ Byte.openParen :: argument ++ Byte.closeParen :: after)
      ⟨⟨front.length + lead.length + 2, front.length + lead.length + argument.length + 2⟩,
        Utf8.encode (Literal.quote pattern)⟩ := by
  have noLineFeed := List.count_eq_zero.mpr (Literal.lineFeed_not_mem_quote pattern)
  refine ⟨front ++ (Byte.dot :: lead ++ [Byte.openParen]), argument, Byte.closeParen :: after, 1,
    ⟨?_, ?_⟩, ?_, fun same => ?_, ?_, fun same => ?_⟩
  · simp
  · simp only [Extent.mk.injEq, List.length_append, List.length_cons, List.length_nil]
    omega
  · have isDot : (Byte.dot :: lead ++ [Byte.openParen]).head?.or
        (argument ++ Byte.closeParen :: after).head? = some Byte.dot := rfl
    rw [Scanner.run_append, isDot, atRest, Scanner.run_opened identifiers.messageMethod named]
  · have oneLine : Byte.lineFeed ∉ argument := by
      rw [← List.count_eq_zero, ← same]
      exact noLineFeed
    exact (bare.isEnclosed (hasUnbrokenBraces_of_not_mem oneLine)).run_atRest 1
  · rw [noLineFeed]
    exact Nat.zero_le _
  · have oneLine : Byte.lineFeed ∉ argument := by
      rw [← List.count_eq_zero, ← same]
      exact noLineFeed
    rcases heads_quote pattern with ⟨noHeads, settles⟩
    refine ⟨Nat.le_trans (Nat.le_of_eq noHeads) (Nat.zero_le _), fun ends => ?_, fun _ => settles⟩
    have reaches := Quoting.isSome_behind? oneLine (bare.not_mem rfl (by decide)) .none
    rw [ends] at reaches
    cases reaches

/-- A quote behind harmless bytes ends a literal, so it stands in no text that
stays in one. -/
theorem not_staysQuoted_quote {body rest : Bytes}
    (harmless : ∀ byte ∈ body,
      byte ≠ Byte.lineFeed ∧ byte ≠ Byte.backslash ∧ byte ≠ Byte.doubleQuote)
    (back : (Cursor.inQuotes 0).feed (body ++ Byte.doubleQuote :: rest) = Cursor.inQuotes 0) :
    ¬ (Cursor.inQuotes 0).StaysQuoted (body ++ Byte.doubleQuote :: rest) := by
  intro stays
  have inside := (Cursor.isInert_inQuotes harmless 0).2
  have closed : (Cursor.inQuotes 0).next Byte.doubleQuote = ⟨0, .none⟩ := rfl
  have behindQuote := stays.of_append_right
  rw [inside] at behindQuote
  cases rest with
  | nil =>
      rw [Cursor.feed_append, inside, Cursor.feed_cons, closed] at back
      cases back
  | cons second rest =>
      have outside := behindQuote.2.1
      rw [closed] at outside
      cases outside

/-- A message that is replaced by a quoted text, with a closing parenthesis
behind it both times, is the quoted text. -/
theorem Call.IsBareMessage.eq_quote {argument behind newBehind : Bytes} {pattern : Text}
    (bare : Call.IsBareMessage argument)
    (same : Utf8.encode (Literal.quote pattern) ++ Byte.closeParen :: newBehind =
      argument ++ Byte.closeParen :: behind) : newBehind = behind := by
  rcases bare with ⟨before, left, right, last, blankBefore, blankLeft, blankRight, blankLast, rfl⟩
  have noLineFeed := Literal.lineFeed_not_mem_quote pattern
  rcases Cursor.staysQuoted_escape pattern 0 with ⟨stays, back⟩
  rw [Literal.encode_quote] at same noLineFeed
  generalize Utf8.encode (Literal.escape pattern) = escaped at same noLineFeed stays back
  have notInBlanks : forall {byte : UInt8} {blanks rest front : Bytes}, isBlankByte byte = false ->
      IsBlank blanks -> byte :: front = blanks ++ rest -> blanks = [] := by
    intro byte blanks rest front notBlank blank same
    cases blanks with
    | nil => rfl
    | cons first blanks =>
        have isBlank := blank first List.mem_cons_self
        rw [← (List.cons.inj same).1, notBlank] at isBlank
        cases isBlank
  have noBefore : before = [] := notInBlanks rfl blankBefore (by simpa using same)
  subst noBefore
  have sameBody : escaped ++ Byte.doubleQuote :: Byte.closeParen :: newBehind =
      (left ++ [Byte.openBrace, Byte.closeBrace] ++ right) ++
        Byte.doubleQuote :: (last ++ Byte.closeParen :: behind) := by
    simpa using same
  generalize isBody : left ++ [Byte.openBrace, Byte.closeBrace] ++ right = body at sameBody
  have notInBody : forall {byte : UInt8}, isBlankByte byte = false ->
      byte ∉ [Byte.openBrace, Byte.closeBrace] -> byte ∉ body := by
    intro byte notBlank notBrace member
    rw [← isBody, List.mem_append, List.mem_append] at member
    rcases member with (inLeft | isBrace) | inRight
    · rw [blankLeft byte inLeft] at notBlank
      cases notBlank
    · exact notBrace isBrace
    · rw [blankRight byte inRight] at notBlank
      cases notBlank
  rcases split_behind (notInBody rfl (by decide)) sameBody with ⟨middle, rfl, isRest⟩
  cases middle with
  | nil =>
      have sameRest := (List.cons.inj isRest).2
      have noLast : last = [] := notInBlanks rfl blankLast sameRest.symm
      subst noLast
      exact (List.cons.inj sameRest).2.symm
  | cons first middle =>
      have isQuote : Byte.doubleQuote = first := (List.cons.inj isRest).1
      subst isQuote
      have harmless : ∀ byte ∈ body,
          byte ≠ Byte.lineFeed ∧ byte ≠ Byte.backslash ∧ byte ≠ Byte.doubleQuote :=
        fun byte member =>
          ⟨fun isFeed => noLineFeed (by simp [← isFeed, member]),
            fun isBackslash => notInBody rfl (by decide) (isBackslash ▸ member),
            fun isQuote => notInBody rfl (by decide) (isQuote ▸ member)⟩
      exact absurd stays (not_staysQuoted_quote harmless back)

/-! ## Chains -/

variable {before : Option UInt8} {offset : Nat} {text : Bytes} {span : Span}

/-- The message of a chain stands in front of a closing parenthesis.  A
message on one line leaves the scanner inside its call, and the chain leaves
it as it was. -/
theorem exists_message (identifiers : dialect.HasIdentifierWords)
    (isChain : chainAt? dialect before ⟨offset, text⟩ = some span) :
    ∃ front argument tail,
      (forall new : Text,
        (span.messageEdit new).IsAt 0 span.text front argument (Byte.closeParen :: tail)) ∧
      Call.IsBareMessage argument ∧
      (Byte.lineFeed ∉ argument -> Scanner.start.run none span.text = .start ∧
        Scanner.start.run (some Byte.closeParen) (front ++ argument) = Scanner.atRest 1) := by
  rcases chainAt?_spec identifiers isChain with ⟨-, initial, front, lead, argument, tail, after,
    -, spanText, isInitial, named, bare, -, outside, isTail, atStart, atMessage⟩
  refine ⟨initial ++ front ++ (Byte.dot :: lead ++ [Byte.openParen]), argument, tail,
    fun new => ⟨by rw [spanText]; simp, ?_⟩, bare, fun oneLine => ?_⟩
  · rw [Span.messageEdit, atMessage, atStart]
    simp only [Extent.mk.injEq, List.length_append, List.length_cons, List.length_nil]
    omega
  · have enclosed := bare.isEnclosed (hasUnbrokenBraces_of_not_mem oneLine)
    have atRest : Scanner.start.run (some Byte.dot) (initial ++ front) = Scanner.atRest 0 := by
      rw [Scanner.run_append, Scanner.start_eq_atRest,
        ((isInitial.run_atRest identifiers).2 0 _).1]
      exact outside
    have isDot : (Byte.dot :: lead ++ [Byte.openParen]).head?.or
        (argument.head?.or (some Byte.closeParen)) = some Byte.dot := rfl
    constructor
    · rw [spanText]
      exact run_chain identifiers isInitial named enclosed outside isTail none
    · rw [Scanner.run_append, Scanner.run_append, isDot, atRest,
        Scanner.run_opened identifiers.messageMethod named]
      exact enclosed.run_atRest 1

/-- Behind a chain the reader is outside literals. -/
theorem settles_chain (identifiers : dialect.HasIdentifierWords)
    (isChain : chainAt? dialect before ⟨offset, text⟩ = some span) :
    Quoting.none.Settles span.text := by
  rcases exists_message identifiers isChain with ⟨front, argument, tail, isAt, -, runs⟩
  by_cases broken : Byte.lineFeed ∈ argument
  · apply Quoting.settles_of_lineFeed
    rw [(isAt []).1]
    simp [broken]
  · exact Quoting.settles_of_run (runs broken).1

theorem supplierCalls_ne_nil (nonempty : (Plan.ofSpan dialect span).template.isEmpty = false) :
    supplierCalls dialect span.text ≠ [] := by
  intro noCalls
  rw [Plan.ofSpan, noCalls] at nonempty
  cases nonempty

theorem IsSupplierCall.isAt {scanner : Scanner} {call : SupplierCall}
    (isCall : IsSupplierCall dialect scanner offset text call) :
    ∃ front behindDot rest,
      (call.edit dialect).IsAt offset text front (Byte.dot :: behindDot) rest := by
  rcases isCall with ⟨front, lead, inside, after, body, extras, depth, rfl, -, -, -, -, rfl⟩
  refine ⟨front, lead ++ Byte.openParen :: inside ++ [Byte.closeParen], after, ?_, ?_⟩
  · simp
  · simp only [SupplierCall.edit, Extent.mk.injEq, List.length_append, List.length_cons,
      List.length_nil, true_and]
    omega

/-- Edits of which the first one sets the message and the second one sheds an
arrow change a text.  If the message is the same as before, then the texts
differ behind it. -/
theorem ne_of_message_first {message call : Edit} {others : List Edit}
    {new front argument tail rest newRest : Bytes} {pattern : Text} {depth : Nat}
    (replaces : Edit.Replaces 0 (message :: call :: others) text new)
    (isMessage : message.IsAt 0 text front argument (Byte.closeParen :: tail))
    (bare : Call.IsBareMessage argument)
    (isQuoted : message.replacement = Utf8.encode (Literal.quote pattern))
    (isCall : ∃ before behindDot after, call.IsAt 0 text before (Byte.dot :: behindDot) after)
    (first : call.ShedsIn 1 .start 0 text) (each : ∀ other ∈ others, other.ShedsIn 0 .start 0 text)
    (run : Scanner.start.run none text = .start)
    (atRest : Scanner.start.run (some Byte.closeParen) (front ++ argument) = Scanner.atRest depth)
    (sheds : Sheds 0 rest newRest) : new ++ newRest ≠ text ++ rest := by
  intro unchanged
  rcases replaces.exists_of_cons with ⟨gap, old, after, newAfter, isFirst, rfl, behind⟩
  rcases isFirst.unique isMessage with ⟨rfl, rfl, rfl⟩
  rw [isFirst.1] at first each run unchanged
  have started := behind.le_start
  have firstBehind := first.behind (started call List.mem_cons_self)
  have eachBehind := fun other member =>
    (each other member).behind (started other (List.mem_cons_of_mem call member))
  rw [Scanner.run_append, Option.or_none, List.head?_cons, atRest] at run
  rw [List.head?_cons, atRest] at firstBehind eachBehind
  have changed := behind.ne_of_sheds firstBehind eachBehind run sheds
  rcases behind.exists_of_cons with ⟨middle, old', last, newLast, isSecond, rfl, -⟩
  rcases isCall with ⟨before, behindDot, after, isAt⟩
  rw [isFirst.1] at isAt
  rcases isAt.behind (started call List.mem_cons_self) with ⟨other, -, isAtBehind⟩
  rcases isSecond.unique isAtBehind with ⟨rfl, rfl, rfl⟩
  cases middle with
  | nil => exact absurd (List.cons.inj isSecond.1).1 (by decide)
  | cons closing middle =>
      have isClosing : Byte.closeParen = closing := (List.cons.inj isSecond.1).1
      subst isClosing
      rw [isQuoted] at unchanged
      simp only [List.append_assoc, List.cons_append] at unchanged changed
      have sameBehind := bare.eq_quote (List.append_cancel_left unchanged)
      exact changed (congrArg (Byte.closeParen :: ·) sameBehind)

theorem shedsIn_messageEdit (identifiers : dialect.HasIdentifierWords)
    (isChain : chainAt? dialect before ⟨offset, text⟩ = some span) (pattern : Text) :
    (span.messageEdit (Literal.quote pattern)).ShedsIn 0 .start 0 span.text := by
  rcases exists_messageCall identifiers isChain with
    ⟨front, lead, argument, after, spanText, named, bare, atRest, -, atMessage⟩
  have sheds := shedsIn_message identifiers named bare atRest pattern after
  rw [← spanText] at sheds
  rw [Span.messageEdit, atMessage]
  convert sheds using 3 <;> simp only <;> omega

/-- No edit of a chain brings in arrows, or loses them without a line end. -/
theorem shedsIn_edits (identifiers : dialect.HasIdentifierWords)
    (isChain : chainAt? dialect before ⟨offset, text⟩ = some span) {source : Text}
    (piece : IsPiece source span.text) (pattern : Text) :
    ∀ edit ∈ Edit.insert (span.messageEdit (Literal.quote pattern))
        ((supplierCalls dialect span.text).map (SupplierCall.edit dialect)),
      edit.ShedsIn 0 .start 0 span.text := by
  intro edit member
  rcases Edit.mem_insert.mp member with rfl | isCall
  · exact shedsIn_messageEdit identifiers isChain pattern
  · rcases List.mem_map.mp isCall with ⟨call, isMember, rfl⟩
    exact ((isSupplierCall_of_mem identifiers isMember).shedsIn identifiers piece).mono

/-- A chain that is replaced is changed, also if what stands behind it sheds
arrows.  The edit that comes first decides: a supplier call sheds an arrow,
and behind a message that stays the first supplier call does. -/
theorem ne_of_splice_edits (identifiers : dialect.HasIdentifierWords)
    (isChain : chainAt? dialect before ⟨offset, text⟩ = some span) {source : Text}
    (piece : IsPiece source span.text)
    (nonempty : (Plan.ofSpan dialect span).template.isEmpty = false) (pattern : Text)
    {new : Bytes}
    (replaces : Edit.Replaces 0
      ((Plan.ofSpan dialect span).edits span (Literal.quote pattern)) span.text new)
    {rest newRest : Bytes} (shedsRest : Sheds 0 rest newRest) :
    new ++ newRest ≠ span.text ++ rest := by
  intro unchanged
  rw [Plan.edits_ofSpan] at replaces
  have each := shedsIn_edits identifiers isChain piece pattern
  rcases replaces.sheds each with ⟨fewer, loses⟩
  rcases exists_message identifiers isChain with ⟨front, argument, tail, isAt, bare, runs⟩
  have isMessage := isAt (Literal.quote pattern)
  have isReplacement : (span.messageEdit (Literal.quote pattern)).replacement =
      Utf8.encode (Literal.quote pattern) := rfl
  generalize span.messageEdit (Literal.quote pattern) = message
    at replaces each fewer loses isMessage isReplacement
  -- No line end is lost, so the message stands on one line.
  have counts := congrArg (List.count Byte.lineFeed) unchanged
  have fewerRest := shedsRest.1
  simp only [List.count_append] at counts
  have sameMessage := (loses (by omega)).1 message (Edit.mem_insert.mpr (.inl rfl)) _ _ _ isMessage
  have oneLine : Byte.lineFeed ∉ argument := by
    rw [← List.count_eq_zero, ← sameMessage, isReplacement]
    exact List.count_eq_zero.mpr (Literal.lineFeed_not_mem_quote pattern)
  rcases runs oneLine with ⟨run, atRest⟩
  cases isCalls : supplierCalls dialect span.text with
  | nil => exact supplierCalls_ne_nil nonempty isCalls
  | cons call others =>
      rw [isCalls, List.map_cons, Edit.insert] at each replaces
      have isCall := isSupplierCall_of_mem identifiers (isCalls ▸ List.mem_cons_self : call ∈ _)
      have sheddingCall := isCall.shedsIn identifiers piece
      split at replaces
      · rename_i callFirst
        rw [if_pos callFirst] at each
        exact replaces.ne_of_sheds sheddingCall
          (fun other member => each other (List.mem_cons_of_mem _ member)) run shedsRest unchanged
      · rename_i messageFirst
        rw [if_neg messageFirst] at each
        exact ne_of_message_first replaces isMessage bare isReplacement isCall.isAt sheddingCall
          (fun other member =>
            each other (List.mem_cons_of_mem _ (List.mem_cons_of_mem _ member)))
          run atRest shedsRest unchanged

/-- A chain that is replaced sheds arrows, and it is changed, also if what
stands behind it sheds arrows too. -/
theorem sheds_chain (identifiers : dialect.HasIdentifierWords)
    (isChain : chainAt? dialect before ⟨offset, text⟩ = some span) {source : Text}
    (piece : IsPiece source span.text) {new : Bytes}
    (isInlined : span.inlined? dialect = some new) :
    Sheds 0 span.text new ∧
      forall tail newTail, Sheds 0 tail newTail -> new ++ newTail ≠ span.text ++ tail := by
  rcases inlined?_eq_some_iff.mp isInlined with ⟨nonempty, pattern, isPattern, rfl⟩
  have replaces := Edit.replaces_of_inOrder
    (inOrder_edits identifiers isChain (Literal.quote pattern))
  rw [List.drop_zero, ← Edit.splice, ← Plan.edits_ofSpan] at replaces
  refine ⟨?_, fun tail newTail shedsTail =>
    ne_of_splice_edits identifiers isChain piece nonempty pattern replaces shedsTail⟩
  rw [Plan.edits_ofSpan] at replaces ⊢
  rcases replaces.sheds (shedsIn_edits identifiers isChain piece pattern) with ⟨fewer, loses⟩
  exact ⟨fewer, fun same => (loses same).2 0 rfl⟩

/-! ## Whole texts -/

/-- One pass over a text: what replacing its chains makes of it has no more
line ends and no more arrows, and it is another text if a chain is replaced.
The induction goes over the chains of the pass. -/
theorem Locates.changes (identifiers : dialect.HasIdentifierWords) {source : Text}
    {scanner : Scanner} {spans : List Span}
    (located : Locates dialect scanner before offset text spans) (piece : IsPiece source text) :
    ∃ new, Edit.Replaces offset (spans.filterMap (Span.edit? dialect)) text new ∧
      new.count Byte.lineFeed ≤ text.count Byte.lineFeed ∧
      (new.count Byte.lineFeed = text.count Byte.lineFeed -> scanner.region = .code ->
        scanner.cursor.quoting.Loses 0 text new) ∧
      ((∃ span ∈ spans, isReplaced dialect span = true) -> new ≠ text) := by
  induction located with
  | done scanner before offset =>
      refine ⟨[], .done offset [], Nat.le_refl _, fun _ _ => .refl _ [], ?_⟩
      rintro ⟨span, member, -⟩
      cases member
  | @chain scanner before offset rest span spans outside isChain behind ih =>
      rcases ih piece.right with ⟨new, replaces, fewer, loses, changed⟩
      have isOutside : scanner.cursor.quoting = .none := outside.2
      have settled := settles_chain identifiers isChain
      have shedsRest : Sheds 0 rest new := ⟨fewer, fun same => loses same rfl⟩
      cases isInlined : span.inlined? dialect with
      | none =>
          have whole := (Sheds.refl span.text).append settled shedsRest
          refine ⟨span.text ++ new, replaces.cons_of_kept isChain isInlined, whole.1,
            fun same _ => ?_, ?_⟩
          · rw [isOutside]
            exact whole.2 same
          · rintro ⟨other, member, replaced⟩ unchanged
            rcases List.mem_cons.mp member with rfl | inSpans
            · rw [isReplaced, isInlined] at replaced
              cases replaced
            · exact changed ⟨other, inSpans, replaced⟩ (List.append_cancel_left unchanged)
      | some newText =>
          rcases sheds_chain identifiers isChain piece.left isInlined with ⟨shedsHere, differs⟩
          have whole := shedsHere.append settled shedsRest
          refine ⟨newText ++ new, replaces.cons_of_inlined isChain isInlined, whole.1,
            fun same _ => ?_, fun _ => differs rest new shedsRest⟩
          rw [isOutside]
          exact whole.2 same
  | @byte scanner before offset byte rest spans noChain behind ih =>
      have behindByte : IsPiece source ([byte] ++ rest) := piece
      rcases ih behindByte.right with ⟨new, replaces, fewer, loses, changed⟩
      refine ⟨byte :: new, replaces.prepend [byte], ?_, fun same inCode => ?_, ?_⟩
      · rw [List.count_cons, List.count_cons]
        exact Nat.add_le_add_right fewer _
      · rw [List.count_cons, List.count_cons] at same
        have sameRest : new.count Byte.lineFeed = rest.count Byte.lineFeed := by omega
        rcases scanner with ⟨cursor, region⟩
        subst inCode
        cases ends : cursor.quoting.endsAt byte with
        | true => exact .of_endsAt ends
        | false =>
            have stepped := Quoting.step_of_not_endsAt ends rest.head?
            rw [stepped, Quoting.next_eq] at loses
            exact (loses sameRest rfl).cons ends
      · rintro replaced unchanged
        exact changed replaced (List.cons.inj unchanged).2

/-! ## Unchanged and replaced -/

/-- Whether there is no message to set in a chain: its merged template is
empty or has no pattern.  Such a chain is kept as it is. -/
def Span.HasNoMessage (dialect : Dialect) (span : Span) : Prop :=
  (Plan.ofSpan dialect span).template.isEmpty = true ∨
    (Plan.ofSpan dialect span).template.pattern? = none

instance (span : Span) : Decidable (span.HasNoMessage dialect) :=
  inferInstanceAs (Decidable (_ ∨ _))

theorem isReplaced_iff : isReplaced dialect span = true ↔ ¬ span.HasNoMessage dialect := by
  rw [isReplaced, ← Option.isNone_eq_false_iff, Span.HasNoMessage, ← inlined?_eq_none_iff_template,
    Option.isNone_eq_false_iff, Option.isSome_iff_ne_none, ne_eq]

/-- A chain without supplier calls has no message to set. -/
theorem Span.hasNoMessage_of_supplierCalls (noCalls : supplierCalls dialect span.text = []) :
    span.HasNoMessage dialect := by
  by_contra hasMessage
  rw [HasNoMessage, not_or, Bool.not_eq_true] at hasMessage
  exact supplierCalls_ne_nil hasMessage.1 noCalls

theorem IsSupplierCall.isInfix_arrow {scanner : Scanner} {call : SupplierCall}
    (isCall : IsSupplierCall dialect scanner offset text call) {source : Text}
    (piece : IsPiece source text) : ['-', '>'] <:+: source := by
  rcases isCall with ⟨before, lead, inside, after, body, extras, depth, rfl, -, -, -, content, -⟩
  rcases piece.exists_encode (by decide) (by decide) with ⟨inner, rfl, inSource⟩
  rw [Utf8.decode_encode] at content
  rcases CallContent.exists_of_ofText_eq_supplier content with
    ⟨-, first, raw, isSplit, isBody, -⟩
  rcases Supplier.exists_of_body? isBody with ⟨lead, inner', outer, after, rfl, -, -⟩
  have inFirst : ['-', '>'] <:+:
      lead ++ ('(' :: inner' ++ [')']) ++ (outer ++ ['-', '>']) ++ after :=
    ⟨lead ++ ('(' :: inner' ++ [')']) ++ outer, after, by simp⟩
  have inInner := isInfix_of_mem_splitUnnested (by decide) (isSplit ▸ List.mem_cons_self)
  exact inFirst.trans (inInner.trans inSource)

theorem isPiece_of_mem_locate (identifiers : dialect.HasIdentifierWords) {source : Text}
    (member : span ∈ locate dialect (Utf8.encode source)) : IsPiece source span.text := by
  rcases (locates_locate identifiers (Utf8.encode source)).standsIn [] rfl span member
    with ⟨front, after, same, -⟩
  exact ⟨front, after, same⟩

theorem supplierCalls_eq_nil (identifiers : dialect.HasIdentifierWords) {source : Text}
    (noArrow : ¬ ['-', '>'] <:+: source) (member : span ∈ locate dialect (Utf8.encode source)) :
    supplierCalls dialect span.text = [] := by
  rw [List.eq_nil_iff_forall_not_mem]
  intro call isCall
  exact noArrow ((isSupplierCall_of_mem identifiers isCall).isInfix_arrow
    (isPiece_of_mem_locate identifiers member))

theorem ne_of_inlineChains (identifiers : dialect.HasIdentifierWords) {source : Text}
    {new : Bytes} {chains : Nat}
    (isInlined : inlineChains dialect (Utf8.encode source) = .inlined new chains) :
    new ≠ Utf8.encode source := by
  have located := locates_locate identifiers (Utf8.encode source)
  have piece : IsPiece source (Utf8.encode source) := ⟨[], [], by simp⟩
  rcases located.changes identifiers piece with ⟨other, replaces, -, -, differs⟩
  rw [inlineChains] at isInlined
  split at isInlined
  · cases isInlined
  · rename_i notNil
    injection isInlined with isNew
    rw [replaces.splice_eq] at isNew
    rcases List.exists_mem_of_ne_nil _ notNil with ⟨edit, isEdit⟩
    rcases List.mem_filterMap.mp isEdit with ⟨span, member, fromSpan⟩
    rcases Option.map_eq_some_iff.mp fromSpan with ⟨text, replaced, -⟩
    rw [← isNew]
    exact differs ⟨span, member, by rw [isReplaced, replaced]; rfl⟩

/-- A source text is unchanged exactly when no chain in it has a message to
set, so if there is no supplier call in its chains, and if there is no arrow
in it.  Otherwise what it is replaced by, in as many chains as have one, is
another text. -/
theorem inlineChains_changes (identifiers : dialect.HasIdentifierWords) (source : Text) :
    (inlineChains dialect (Utf8.encode source) = .unchanged ↔
      ∀ span ∈ locate dialect (Utf8.encode source), span.HasNoMessage dialect) ∧
    ((∀ span ∈ locate dialect (Utf8.encode source), supplierCalls dialect span.text = []) ->
      inlineChains dialect (Utf8.encode source) = .unchanged) ∧
    (¬ ['-', '>'] <:+: source -> inlineChains dialect (Utf8.encode source) = .unchanged) ∧
    ((∃ span ∈ locate dialect (Utf8.encode source), ¬ span.HasNoMessage dialect) ->
      ∃ text, inlineChains dialect (Utf8.encode source) = .inlined text
          ((locate dialect (Utf8.encode source)).countP fun span => ¬ span.HasNoMessage dialect) ∧
        text ≠ Utf8.encode source) := by
  have noEdits : (locate dialect (Utf8.encode source)).filterMap (Span.edit? dialect) = [] ↔
      ∀ span ∈ locate dialect (Utf8.encode source), span.HasNoMessage dialect := by
    simp only [List.filterMap_eq_nil_iff, Span.edit?, Option.map_eq_none_iff,
      inlined?_eq_none_iff_template, Span.HasNoMessage]
  have unchanged : inlineChains dialect (Utf8.encode source) = .unchanged ↔
      ∀ span ∈ locate dialect (Utf8.encode source), span.HasNoMessage dialect := by
    rw [← noEdits, inlineChains]
    split
    · rename_i isNil
      exact ⟨fun _ => isNil, fun _ => rfl⟩
    · rename_i notNil
      exact ⟨fun same => (by cases same), fun isNil => absurd isNil notNil⟩
  refine ⟨unchanged, fun noCalls => ?_, fun noArrow => ?_, ?_⟩
  · exact unchanged.mpr fun span member => Span.hasNoMessage_of_supplierCalls (noCalls span member)
  · exact unchanged.mpr fun span member =>
      Span.hasNoMessage_of_supplierCalls (supplierCalls_eq_nil identifiers noArrow member)
  · rintro ⟨span, member, hasMessage⟩
    have count : ((locate dialect (Utf8.encode source)).filterMap (Span.edit? dialect)).length =
        (locate dialect (Utf8.encode source)).countP fun span => ¬ span.HasNoMessage dialect := by
      rw [List.length_filterMap_eq_countP]
      apply List.countP_congr
      intro span _
      rw [Span.edit?, Option.isSome_map, ← isReplaced, isReplaced_iff, decide_eq_true_iff]
    cases isInlined : inlineChains dialect (Utf8.encode source) with
    | unchanged => exact absurd (unchanged.mp isInlined span member) hasMessage
    | inlined text chains =>
        have differs := ne_of_inlineChains identifiers isInlined
        rw [inlineChains] at isInlined
        split at isInlined
        · cases isInlined
        · injection isInlined with _ isCount
          exact ⟨text, by rw [← isCount, count], differs⟩

/-- A chain without suppliers, and one of which the message is set to the same
literal. -/
def chainsOfSameMessage : String :=
  "log.atInfo().setMessage(\"\x7b\x7d\").log();\n" ++
    "log.atInfo().setMessage(\"\x7b\x7d\").addArgument(() -> a).log();"

theorem inlineChains_changes_chainsOfSameMessage :
    Dialect.HasIdentifierWords {} ∧
      ∃ text, inlineChains {} (Utf8.encode chainsOfSameMessage.toList) = .inlined text 1 ∧
        text ≠ Utf8.encode chainsOfSameMessage.toList := by
  refine ⟨Dialect.hasIdentifierWords_default, ?_⟩
  have replaced : ∃ span ∈ locate {} (Utf8.encode chainsOfSameMessage.toList),
      ¬ span.HasNoMessage {} := by decide +kernel
  have count : (locate {} (Utf8.encode chainsOfSameMessage.toList)).countP
      (fun span => ¬ span.HasNoMessage {}) = 1 := by decide +kernel
  have changes := inlineChains_changes Dialect.hasIdentifierWords_default chainsOfSameMessage.toList
  rw [count] at changes
  exact changes.2.2.2 replaced

end FluentLog
