import FluentLog.Proofs.Expression.Closed
import FluentLog.Proofs.Expression.Token

namespace FluentLog

/-!
# What collapsing blanks leaves as it was

Code is its *solid* characters, with a *gap* in front of each of them and one behind the last:
the blanks that a cursor running over the code sees outside literals.  Solid characters and gaps
make the code again.

Collapsing blanks keeps the solid characters and leads the cursor to each of them as before.
It makes a space of every gap with blanks and leaves the gap at the end empty.  A literal has no
gaps that are not empty.  So code that collapses to a literal is that literal already, and an
expression is never turned into one.
-/

/-! ## Solid characters and gaps -/

namespace Cursor

/-- The characters that are no blanks outside literals, each with the cursor
in front of it. -/
def solid (cursor : Cursor) : Text -> List (Char × Cursor)
  | [] => []
  | character :: rest =>
      let later := solid (cursor.feedChar character) rest
      if isBlank character ∧ !cursor.isInLiteral then later else (character, cursor) :: later

/-- The blanks outside literals: those in front of each solid character, and
those behind the last one. -/
def gaps (cursor : Cursor) : Text -> List Text
  | [] => [[]]
  | character :: rest =>
      let later := gaps (cursor.feedChar character) rest
      if isBlank character ∧ !cursor.isInLiteral then later.modifyHead (character :: ·)
      else [] :: later

end Cursor

/-- Characters with a gap in front of each and one behind the last.  A text is
its solid characters woven with its gaps. -/
def Text.weave : List Text -> Text -> Text
  | [], _ => []
  | gap :: _, [] => gap
  | gap :: gaps, character :: characters => gap ++ character :: weave gaps characters

namespace Cursor

variable {cursor : Cursor} {character : Char} {text rest : Text}

/-- A blank outside literals belongs to the gap in front of what follows. -/
theorem solid_blank (blank : isBlank character = true) (outside : cursor.isInLiteral = false) :
    cursor.solid (character :: rest) = cursor.solid rest := by
  rw [solid, if_pos ⟨blank, by rw [outside]; rfl⟩, feedChar_of_isBlank outside blank]

theorem gaps_blank (blank : isBlank character = true) (outside : cursor.isInLiteral = false) :
    cursor.gaps (character :: rest) = (cursor.gaps rest).modifyHead (character :: ·) := by
  rw [gaps, if_pos ⟨blank, by rw [outside]; rfl⟩, feedChar_of_isBlank outside blank]

theorem gaps_of_not_blank (notBlank : isBlank character = false) :
    cursor.gaps (character :: rest) = [] :: (cursor.feedChar character).gaps rest := by
  rw [gaps, if_neg]
  rintro ⟨blank, -⟩
  rw [notBlank] at blank
  cases blank

theorem exists_gaps (cursor : Cursor) (text : Text) :
    ∃ gap others, cursor.gaps text = gap :: others := by
  cases text with
  | nil => exact ⟨[], [], rfl⟩
  | cons character rest =>
      rcases exists_gaps (cursor.feedChar character) rest with ⟨gap, others, isGaps⟩
      rw [gaps, isGaps]
      split
      · exact ⟨character :: gap, others, rfl⟩
      · exact ⟨[], gap :: others, rfl⟩

theorem weave_gaps_solid (cursor : Cursor) (text : Text) :
    Text.weave (cursor.gaps text) ((cursor.solid text).map Prod.fst) = text := by
  induction text generalizing cursor with
  | nil => rfl
  | cons character rest ih =>
      have behind := ih (cursor.feedChar character)
      rw [gaps, solid]
      split
      · rcases exists_gaps (cursor.feedChar character) rest with ⟨gap, others, isGaps⟩
        rw [isGaps] at behind ⊢
        refine Eq.trans ?_ (congrArg (character :: ·) behind)
        cases (cursor.feedChar character).solid rest <;> rfl
      · exact congrArg (character :: ·) behind

theorem eq_of_solid_of_gaps {other : Text} (sameSolid : cursor.solid text = cursor.solid other)
    (sameGaps : cursor.gaps text = cursor.gaps other) : text = other := by
  rw [← weave_gaps_solid cursor text, sameSolid, sameGaps, weave_gaps_solid]

theorem gaps_of_holds (inside : cursor.Holds (fun cursor _ => cursor.isInLiteral = true) text) :
    ∀ gap ∈ cursor.gaps text, gap = [] := by
  induction text generalizing cursor with
  | nil => exact List.forall_mem_singleton.mpr rfl
  | cons character rest ih =>
      have notOutside : ¬ (isBlank character = true ∧ (!cursor.isInLiteral) = true) := by
        rw [inside.1]
        exact fun outside => Bool.false_ne_true outside.2
      rw [gaps, if_neg notOutside]
      exact List.forall_mem_cons.mpr ⟨rfl, ih inside.2⟩

theorem exists_gaps_concat (cursor : Cursor) (front : Text) {final : Char}
    (notBlank : isBlank final = false) :
    ∃ gap others, cursor.gaps (front ++ [final]) = gap :: others ++ [[]] := by
  induction front generalizing cursor with
  | nil =>
      refine ⟨[], [], ?_⟩
      rw [List.nil_append, gaps_of_not_blank notBlank]
      rfl
  | cons character front ih =>
      rcases ih (cursor.feedChar character) with ⟨gap, others, isGaps⟩
      rw [List.cons_append, gaps, isGaps]
      split
      · exact ⟨character :: gap, others, rfl⟩
      · exact ⟨[], gap :: others, rfl⟩

/-- A trimmed text has no blanks in its first gap and none in its last. -/
theorem ends_gaps_trim (cursor : Cursor) (text : Text) :
    (cursor.gaps (Text.trim text)).head? = some [] ∧
      (cursor.gaps (Text.trim text)).getLast? = some [] := by
  rcases Text.trim_eq_nil_or_isTight text with isNil | tight
  · rw [isNil]
    exact ⟨rfl, rfl⟩
  · constructor
    · rcases tight.head with ⟨first, rest, isText, notBlank⟩
      rw [isText, gaps_of_not_blank notBlank]
      rfl
    · rcases tight.last with ⟨front, final, isText, notBlank⟩
      rcases exists_gaps_concat cursor front notBlank with ⟨gap, others, isGaps⟩
      rw [isText, isGaps]
      exact List.getLast?_concat

/-! ## Collapsing -/

theorem solid_collapseBlanksFrom {pending : Bool}
    (outside : pending = true -> cursor.isInLiteral = false) :
    cursor.solid (collapseBlanksFrom cursor pending text) = cursor.solid text := by
  induction text generalizing cursor pending with
  | nil => rfl
  | cons character rest ih =>
      rw [collapseBlanksFrom]
      split
      · rename_i blank
        have notInside : cursor.isInLiteral = false := Bool.not_eq_true' _ |>.mp blank.2
        rw [solid_blank blank.1 notInside]
        exact ih fun _ => notInside
      · rename_i isSolid
        have sameHere : cursor.solid
            (character :: collapseBlanksFrom (cursor.feedChar character) false rest) =
              cursor.solid (character :: rest) := by
          rw [solid, solid, if_neg isSolid, if_neg isSolid, ih (by simp)]
        cases pending with
        | false => exact sameHere
        | true =>
            rw [if_pos rfl, List.singleton_append, solid_blank rfl (outside rfl)]
            exact sameHere

/-- Collapsing squeezes all gaps but the last, and empties that one.  A
pending run of blanks belongs to the first of them. -/
theorem gaps_collapseBlanksFrom {pending : Bool}
    (outside : pending = true -> cursor.isInLiteral = false) :
    cursor.gaps (collapseBlanksFrom cursor pending text) =
      (if pending then (cursor.gaps text).dropLast.modifyHead (' ' :: ·)
        else (cursor.gaps text).dropLast).map Text.squeeze ++ [[]] := by
  induction text generalizing cursor pending with
  | nil => cases pending <;> rfl
  | cons character rest ih =>
      rw [collapseBlanksFrom]
      split
      · rename_i blank
        have notInside : cursor.isInLiteral = false := Bool.not_eq_true' _ |>.mp blank.2
        rw [gaps_blank blank.1 notInside, ih fun _ => notInside]
        rcases exists_gaps cursor rest with ⟨gap, others, isGaps⟩
        rw [isGaps]
        cases others <;> cases pending <;> rfl
      · rename_i isSolid
        rcases exists_gaps (cursor.feedChar character) rest with ⟨gap, others, isGaps⟩
        have sameHere : cursor.gaps
            (character :: collapseBlanksFrom (cursor.feedChar character) false rest) =
              [] :: ((gap :: others).dropLast.map Text.squeeze ++ [[]]) := by
          rw [gaps, if_neg isSolid, ih (by simp), isGaps]
          cases others <;> rfl
        rw [gaps, if_neg isSolid, isGaps]
        cases pending with
        | false => exact sameHere
        | true =>
            rw [if_pos rfl, List.singleton_append, gaps_blank rfl (outside rfl), sameHere]
            rfl

end Cursor

/-- A space in a gap stays a space. -/
theorem Text.squeeze_squeeze (blanks : Text) :
    Text.squeeze (Text.squeeze blanks) = Text.squeeze blanks := by
  cases blanks <;> rfl

/-! ## Trimmed texts -/

theorem gaps_collapseBlanks_trim (text : Text) :
    Cursor.start.gaps (collapseBlanks (Text.trim text)) =
      (Cursor.start.gaps (Text.trim text)).map Text.squeeze := by
  have collapsed := @Cursor.gaps_collapseBlanksFrom .start (Text.trim text) false (by simp)
  have whole := List.dropLast_append_getLast? [] (Cursor.start.ends_gaps_trim text).2
  rw [collapseBlanks, collapsed]
  conv => rhs; rw [← whole, List.map_append]
  rfl

theorem solid_collapseBlanks (text : Text) :
    Cursor.start.solid (collapseBlanks text) = Cursor.start.solid text :=
  Cursor.solid_collapseBlanksFrom (by simp)

/-- A text whose gaps hold single spaces is not changed. -/
theorem collapseBlanks_eq_self {text : Text} (trimmed : Text.trim text = text)
    (squeezed : (Cursor.start.gaps text).map Text.squeeze = Cursor.start.gaps text) :
    collapseBlanks text = text := by
  apply Cursor.eq_of_solid_of_gaps (solid_collapseBlanks text)
  have collapsed := gaps_collapseBlanks_trim text
  rw [trimmed] at collapsed
  rw [collapsed, squeezed]

/-- A character that is no blank stays at the end. -/
theorem exists_collapseBlanksFrom_concat (cursor : Cursor) (pending : Bool) (front : Text)
    {final : Char} (notBlank : isBlank final = false) :
    ∃ squeezed, collapseBlanksFrom cursor pending (front ++ [final]) = squeezed ++ [final] := by
  induction front generalizing cursor pending with
  | nil =>
      exact ⟨if pending then [' '] else [], collapseBlanksFrom_cons notBlank _ _ []⟩
  | cons character front ih =>
      rw [List.cons_append, collapseBlanksFrom]
      split
      · exact ih cursor true
      · rcases ih (cursor.feedChar character) false with ⟨squeezed, isCollapsed⟩
        refine ⟨(if pending then [' '] else []) ++ character :: squeezed, ?_⟩
        rw [isCollapsed, List.append_assoc, List.cons_append]

theorem trim_collapseBlanks_trim (text : Text) :
    Text.trim (collapseBlanks (Text.trim text)) = collapseBlanks (Text.trim text) := by
  rcases Text.trim_eq_nil_or_isTight text with isNil | tight
  · rw [isNil]
    rfl
  · apply Text.IsTight.trim_self
    constructor
    · rcases tight.head with ⟨first, rest, isText, notBlank⟩
      refine ⟨first, collapseBlanksFrom (Cursor.start.feedChar first) false rest, ?_, notBlank⟩
      rw [isText]
      exact collapseBlanksFrom_cons notBlank .start false rest
    · rcases tight.last with ⟨front, final, isText, notBlank⟩
      rcases exists_collapseBlanksFrom_concat .start false front notBlank with
        ⟨squeezed, isCollapsed⟩
      exact ⟨squeezed, final, by rw [isText, collapseBlanks, isCollapsed], notBlank⟩

/-! ## Literals -/

theorem gaps_of_decode {text content : Text} (decodes : Literal.decode text = some content) :
    ∀ gap ∈ Cursor.start.gaps (Text.trim text), gap = [] := by
  rcases Option.map_eq_some_iff.mp decodes with ⟨body, isBody, -⟩
  rcases Literal.exists_quote_of_body? isBody with ⟨quote, rest, isText, isQuote, isRest⟩
  have opened : Cursor.start.feedChar (Char.ofNat quote.toNat) = ⟨0, .within quote false⟩ :=
    Cursor.feedChar_openingQuote isQuote 0
  have notBlank : isBlank (Char.ofNat quote.toNat) = false := by
    rcases isQuote with rfl | rfl <;> rfl
  have inside := (Literal.reads_bodyBefore? isQuote (fun _ _ _ within => within) isRest 0).1
  rw [isText, Cursor.gaps_of_not_blank notBlank, opened]
  exact List.forall_mem_cons.mpr ⟨rfl, Cursor.gaps_of_holds inside⟩

theorem collapseBlanks_eq_of_decode {text content : Text}
    (decodes : Literal.decode (collapseBlanks (Text.trim text)) = some content) :
    collapseBlanks (Text.trim text) = Text.trim text := by
  have noBlanks := gaps_of_decode decodes
  rw [trim_collapseBlanks_trim, gaps_collapseBlanks_trim] at noBlanks
  apply collapseBlanks_eq_self (Text.trim_trim text)
  conv => rhs; rw [← List.map_id (Cursor.start.gaps _)]
  apply List.map_congr_left
  intro gap member
  have squeezed : Text.squeeze gap = [] := noBlanks _ (List.mem_map_of_mem member)
  cases gap with
  | nil => rfl
  | cons blank blanks => cases squeezed

namespace Operand

/-- Collapsing the blanks of an expression keeps the trimmed operand's
characters but the blanks outside literals, each with its cursor, and leads to
the same cursor at the end.  It makes a single space of each run of blanks
outside literals, and there is none at the ends.  What comes out is an
expression too, and is not changed any more. -/
theorem ofText_of_expression {operand code : Text}
    (isExpression : ofText operand = .expression code) :
    Cursor.start.solid code = Cursor.start.solid (Text.trim operand) ∧
      Cursor.start.gaps code = (Cursor.start.gaps (Text.trim operand)).map Text.squeeze ∧
      (Cursor.start.gaps code).head? = some [] ∧ (Cursor.start.gaps code).getLast? = some [] ∧
      Cursor.start.feed (Utf8.encode code) =
        Cursor.start.feed (Utf8.encode (Text.trim operand)) ∧
      ofText code = .expression code := by
  unfold ofText at isExpression
  split at isExpression
  · cases isExpression
  · rename_i noLiteral
    cases isExpression
    have trimmed := trim_collapseBlanks_trim operand
    have squeezed := gaps_collapseBlanks_trim operand
    have ends := Cursor.start.ends_gaps_trim (collapseBlanks (Text.trim operand))
    rw [trimmed] at ends
    have sameEnd : Cursor.start.feedText (collapseBlanks (Text.trim operand)) =
        Cursor.start.feedText (Text.trim operand) := feedText_collapseBlanksFrom (by simp)
    refine ⟨solid_collapseBlanks _, squeezed, ends.1, ends.2, ?_, ?_⟩
    · rw [Cursor.feed_encode, Cursor.feed_encode]
      exact sameEnd
    · have stillNone : Literal.decode (collapseBlanks (Text.trim operand)) = none := by
        cases decodes : Literal.decode (collapseBlanks (Text.trim operand)) with
        | none => rfl
        | some content =>
            rw [collapseBlanks_eq_of_decode decodes, Literal.decode_trim, noLiteral] at decodes
            cases decodes
      have again : collapseBlanks (collapseBlanks (Text.trim operand)) =
          collapseBlanks (Text.trim operand) := by
        apply collapseBlanks_eq_self trimmed
        rw [squeezed, List.map_map]
        exact List.map_congr_left fun gap _ => Text.squeeze_squeeze gap
      rw [ofText, stillNone, trimmed, again]

/-- Blanks of several bytes and line ends collapse, and those in a literal and
behind a quote that is never closed do not. -/
theorem ofText_of_expression_openQuote :
    let operand := " f(x,\u3000 \"a  b\"\n - 'q  z )\t ".toList
    let code := "f(x, \"a  b\" - 'q  z )".toList
    ofText operand = .expression code ∧
      Cursor.start.solid code = Cursor.start.solid (Text.trim operand) ∧
      Cursor.start.gaps code = (Cursor.start.gaps (Text.trim operand)).map Text.squeeze ∧
      ofText code = .expression code := by
  intro operand code
  have isExpression : ofText operand = .expression code := by decide +kernel
  rcases ofText_of_expression isExpression with ⟨sameSolid, sameGaps, -, -, -, again⟩
  exact ⟨isExpression, sameSolid, sameGaps, again⟩

end Operand
end FluentLog
