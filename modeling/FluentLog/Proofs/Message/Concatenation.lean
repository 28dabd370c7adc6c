import FluentLog.Proofs.Message.Formatter

namespace FluentLog

/-!
# What a concatenation contributes to a message

The operands of a concatenation become one template.  Literals that stand side by side
join into one text, so the template is read off the maximal runs of literals.  It is
empty if all operands are empty literals.  It has no pattern if a run in front of an
expression holds a backslash with braces behind it.  With the values of the expressions
in the places of its placeholders it is what the concatenation evaluates to.
-/

namespace Operand

def expressions : List Operand -> List Text
  | [] => []
  | .literal _ :: rest => expressions rest
  | .expression code :: rest => code :: expressions rest

theorem mem_expressions_iff {code : Text} {operands : List Operand} :
    code ∈ expressions operands ↔ .expression code ∈ operands := by
  induction operands with
  | nil => simp [expressions]
  | cons operand rest ih =>
      cases operand with
      | literal content => simp [expressions, ih]
      | expression other => simp [expressions, ih]

/-- The text that a concatenation evaluates to, given the values of its
expressions. -/
def evaluate (value : Text -> Text) : List Operand -> Text
  | [] => []
  | .literal content :: rest => content ++ evaluate value rest
  | .expression code :: rest => value code ++ evaluate value rest

/-- The text of a concatenation with one value after the other for its
expressions. -/
def fill : List Operand -> List Text -> Text
  | [], _ => []
  | .literal content :: rest, values => content ++ fill rest values
  | .expression _ :: rest, [] => fill rest []
  | .expression _ :: rest, value :: values => value ++ fill rest values

theorem fill_expressions (value : Text -> Text) (operands : List Operand) :
    fill operands ((expressions operands).map value) = evaluate value operands := by
  induction operands with
  | nil => rfl
  | cons operand rest ih =>
      cases operand with
      | literal content => rw [expressions, fill, ih, evaluate]
      | expression code => rw [expressions, List.map_cons, fill, ih, evaluate]

/-- Whether a maximal run of literals in front of an expression joins into a
text with a backslash and braces behind it.  No pattern prints such a text in
front of a value. -/
def HasUnprintableRun (operands : List Operand) : Prop :=
  ∃ (before : List Operand) (run : List Text) (code : Text) (after : List Operand),
    operands = before ++ run.map .literal ++ .expression code :: after ∧
    (forall content, before.getLast? ≠ some (.literal content)) ∧
    ['\\', '{', '}'] <:+: run.flatten

/-- The same for operands whose first literals continue a text.  This form
follows the recursion of the operands, and it can be computed. -/
def HasUnprintableRunFrom (text : Text) : List Operand -> Prop
  | [] => False
  | .literal content :: rest => HasUnprintableRunFrom (text ++ content) rest
  | .expression _ :: rest => ['\\', '{', '}'] <:+: text ∨ HasUnprintableRunFrom [] rest

instance decidableHasUnprintableRunFrom (text : Text) :
    (operands : List Operand) -> Decidable (HasUnprintableRunFrom text operands)
  | [] => isFalse id
  | .literal content :: rest => decidableHasUnprintableRunFrom (text ++ content) rest
  | .expression _ :: rest =>
      have := decidableHasUnprintableRunFrom [] rest
      inferInstanceAs (Decidable (['\\', '{', '}'] <:+: text ∨ HasUnprintableRunFrom [] rest))

/-- Whether operands begin with a run of literals in front of an expression
that, behind a text, holds a backslash and braces behind it. -/
def BeginsUnprintableRun (text : Text) (operands : List Operand) : Prop :=
  ∃ (run : List Text) (code : Text) (after : List Operand),
    operands = run.map .literal ++ .expression code :: after ∧
      ['\\', '{', '}'] <:+: text ++ run.flatten

theorem beginsUnprintableRun_literal_iff {text content : Text} {rest : List Operand} :
    BeginsUnprintableRun text (.literal content :: rest) ↔
      BeginsUnprintableRun (text ++ content) rest := by
  constructor
  · rintro ⟨run, code, after, same, isInfix⟩
    cases run with
    | nil => cases same
    | cons first run =>
        cases same
        rw [List.flatten_cons, ← List.append_assoc] at isInfix
        exact ⟨run, code, after, rfl, isInfix⟩
  · rintro ⟨run, code, after, rfl, isInfix⟩
    refine ⟨content :: run, code, after, rfl, ?_⟩
    rw [List.flatten_cons, ← List.append_assoc]
    exact isInfix

theorem beginsUnprintableRun_expression_iff {text other : Text} {rest : List Operand} :
    BeginsUnprintableRun text (.expression other :: rest) ↔ ['\\', '{', '}'] <:+: text := by
  constructor
  · rintro ⟨run, code, after, same, isInfix⟩
    cases run with
    | nil =>
        rw [List.flatten_nil, List.append_nil] at isInfix
        exact isInfix
    | cons first run => cases same
  · exact fun isInfix => ⟨[], other, rest, rfl, by rwa [List.flatten_nil, List.append_nil]⟩

/-- The first run is the one that continues the text, and the others stand
behind an expression. -/
theorem hasUnprintableRunFrom_iff {text : Text} {operands : List Operand} :
    HasUnprintableRunFrom text operands ↔
      BeginsUnprintableRun text operands ∨
      ∃ (before : List Operand) (other : Text) (after : List Operand),
        operands = before ++ .expression other :: after ∧ BeginsUnprintableRun [] after := by
  induction operands generalizing text with
  | nil => simp [HasUnprintableRunFrom, BeginsUnprintableRun]
  | cons operand rest ih =>
      cases operand with
      | literal content =>
          rw [HasUnprintableRunFrom, ih, beginsUnprintableRun_literal_iff]
          apply or_congr_right
          constructor
          · rintro ⟨before, other, after, rfl, begins⟩
            exact ⟨.literal content :: before, other, after, rfl, begins⟩
          · rintro ⟨before, other, after, same, begins⟩
            cases before with
            | nil => cases same
            | cons first before =>
                rcases List.cons.inj same with ⟨-, rfl⟩
                exact ⟨before, other, after, rfl, begins⟩
      | expression other =>
          rw [HasUnprintableRunFrom, ih, beginsUnprintableRun_expression_iff]
          apply or_congr_right
          constructor
          · rintro (begins | ⟨before, another, after, rfl, begins⟩)
            · exact ⟨[], other, rest, rfl, begins⟩
            · exact ⟨.expression other :: before, another, after, rfl, begins⟩
          · rintro ⟨before, another, after, same, begins⟩
            cases before with
            | nil =>
                rcases List.cons.inj same with ⟨-, rfl⟩
                exact .inl begins
            | cons first before =>
                rcases List.cons.inj same with ⟨-, rfl⟩
                exact .inr ⟨before, another, after, rfl, begins⟩

theorem hasUnprintableRunFrom_nil_iff {operands : List Operand} :
    HasUnprintableRunFrom [] operands ↔ HasUnprintableRun operands := by
  rw [hasUnprintableRunFrom_iff]
  constructor
  · rintro (⟨run, code, after, rfl, isInfix⟩ |
      ⟨before, other, _, rfl, run, code, after, rfl, isInfix⟩)
    · exact ⟨[], run, code, after, rfl, by simp, isInfix⟩
    · refine ⟨before ++ [.expression other], run, code, after, ?_, ?_, isInfix⟩
      · simp only [List.append_assoc, List.cons_append, List.nil_append]
      · intro content isLast
        rw [List.getLast?_concat] at isLast
        cases isLast
  · rintro ⟨before, run, code, after, rfl, notLiteral, isInfix⟩
    rcases List.eq_nil_or_concat' before with rfl | ⟨front, last, rfl⟩
    · exact .inl ⟨run, code, after, rfl, isInfix⟩
    · cases last with
      | literal content => exact absurd List.getLast?_concat (notLiteral content)
      | expression other =>
          refine .inr ⟨front, other, _, ?_, run, code, after, rfl, isInfix⟩
          simp only [List.append_assoc, List.cons_append, List.nil_append]

end Operand

namespace Template

/-- A text as segments.  The empty text is none. -/
def textSegments (text : Text) : List Segment :=
  if text.isEmpty then [] else [.literal text]

/-- The segments of a concatenation whose first literals continue a text. -/
def segmentsFrom (text : Text) : List Operand -> List Segment
  | [] => textSegments text
  | .literal content :: rest => segmentsFrom (text ++ content) rest
  | .expression _ :: rest => textSegments text ++ .placeholder :: segmentsFrom [] rest

theorem addText_textSegments {front : List Segment}
    (notText : forall text, front.getLast? ≠ some (.literal text)) (text content : Text) :
    addText ⟨front ++ textSegments text⟩ content = ⟨front ++ textSegments (text ++ content)⟩ := by
  rw [addText]
  split
  · rename_i isEmpty
    rw [List.isEmpty_iff.mp isEmpty, List.append_nil]
  · rename_i notEmpty
    have nonempty : ¬ (text ++ content).isEmpty := by
      rw [List.isEmpty_iff, List.append_eq_nil_iff]
      exact fun isNil => notEmpty (List.isEmpty_iff.mpr isNil.2)
    have joined : textSegments (text ++ content) = [.literal (text ++ content)] := if_neg nonempty
    rw [joined]
    cases text with
    | nil =>
        have nothing : textSegments [] = [] := rfl
        simp only [nothing, List.append_nil, List.nil_append]
    | cons character text =>
        have single : textSegments (character :: text) = [.literal (character :: text)] := rfl
        rw [single, List.getLast?_concat, List.dropLast_concat]

/-- Pushing operands one by one joins the literals that stand side by side. -/
theorem segments_foldl_push (operands : List Operand) {front : List Segment}
    (notText : forall text, front.getLast? ≠ some (.literal text)) (text : Text)
    (arguments : List Text) :
    operands.foldl Fragment.push ⟨⟨front ++ textSegments text⟩, arguments⟩ =
      ⟨⟨front ++ segmentsFrom text operands⟩, arguments ++ Operand.expressions operands⟩ := by
  induction operands generalizing front text arguments with
  | nil => rw [List.foldl_nil, segmentsFrom, Operand.expressions, List.append_nil]
  | cons operand rest ih =>
      cases operand with
      | literal content =>
          rw [List.foldl_cons, Fragment.push, Fragment.addText, addText_textSegments notText]
          exact ih notText (text ++ content) arguments
      | expression code =>
          have notText' : forall other,
              (front ++ textSegments text ++ [Segment.placeholder]).getLast? ≠ some (.literal other) := by
            intro other isLast
            rw [List.getLast?_concat] at isLast
            cases isLast
          have later := ih notText' [] (arguments ++ [code])
          have nothing : textSegments [] = [] := rfl
          rw [nothing, List.append_nil] at later
          rw [List.foldl_cons, Fragment.push, Fragment.addArgument, addPlaceholder, later,
            segmentsFrom, Operand.expressions]
          simp only [List.append_assoc, List.singleton_append]

/-- A template of a concatenation is empty only if all its operands are. -/
theorem segmentsFrom_eq_nil_iff {text : Text} {operands : List Operand} :
    segmentsFrom text operands = [] ↔ text = [] ∧ ∀ operand ∈ operands, operand = .literal [] := by
  induction operands generalizing text with
  | nil =>
      rw [segmentsFrom, textSegments]
      cases text <;> simp
  | cons operand rest ih =>
      cases operand with
      | literal content =>
          rw [segmentsFrom, ih, List.append_eq_nil_iff, List.forall_mem_cons,
            Operand.literal.injEq, and_assoc]
      | expression code => simp [segmentsFrom]

/-- With values in the places of its placeholders a template of a
concatenation is the concatenation with these values. -/
theorem fillWith_segmentsFrom (text : Text) (operands : List Operand) (values : List Text) :
    fillWith id (segmentsFrom text operands) values = text ++ Operand.fill operands values := by
  have filledText : forall (text : Text) (rest : List Segment) (values : List Text),
      fillWith id (textSegments text ++ rest) values = text ++ fillWith id rest values := by
    intro text rest values
    cases text with
    | nil => rfl
    | cons character text =>
        have single : textSegments (character :: text) = [.literal (character :: text)] := rfl
        rw [single, List.singleton_append, fillWith, List.map_id]
  induction operands generalizing text values with
  | nil =>
      have filled := filledText text [] values
      rw [List.append_nil] at filled
      exact filled
  | cons operand rest ih =>
      cases operand with
      | literal content => rw [segmentsFrom, Operand.fill, ih, List.append_assoc]
      | expression code =>
          cases values with
          | nil => rw [segmentsFrom, Operand.fill, filledText, fillWith, ih, List.nil_append]
          | cons value values =>
              rw [segmentsFrom, Operand.fill, filledText, fillWith, ih, List.nil_append]

/-! ## Patterns -/

theorem hasEscapedBraces_eq_true_iff {text : Text} :
    hasEscapedBraces text = true ↔ ['\\', '{', '}'] <:+: text := by
  induction text with
  | nil => simp [hasEscapedBraces]
  | cons character rest ih =>
      rw [hasEscapedBraces, Bool.or_eq_true, ih, List.infix_cons_iff, List.cons_prefix_cons,
        Bool.and_eq_true, decide_eq_true_eq, List.isPrefixOf_iff_prefix, eq_comm]
      rfl

theorem patternOf?_segmentsFrom_eq_none_iff {text : Text} {operands : List Operand} :
    patternOf? (segmentsFrom text operands) = none ↔
      Operand.HasUnprintableRunFrom text operands := by
  induction operands generalizing text with
  | nil =>
      have isSome : patternOf? (segmentsFrom text []) = some text := by
        cases text with
        | nil => rfl
        | cons character text =>
            have single : segmentsFrom (character :: text) [] = [.literal (character :: text)] := rfl
            simp [single, patternOf?]
      rw [isSome]
      simp [Operand.HasUnprintableRunFrom]
  | cons operand rest ih =>
      cases operand with
      | literal content => exact ih
      | expression code =>
          rw [segmentsFrom, Operand.HasUnprintableRunFrom, ← ih, ← hasEscapedBraces_eq_true_iff]
          cases text with
          | nil =>
              have nothing : textSegments [] = [] := rfl
              rw [nothing, List.nil_append, patternOf?, Option.map_eq_none_iff]
              simp [hasEscapedBraces]
          | cons character text =>
              have single : textSegments (character :: text) = [.literal (character :: text)] := rfl
              rw [single, List.singleton_append, patternOf?, if_pos (by simp [Segment.isPlaceholder]),
                literalPattern?]
              split
              · rename_i escaped
                simp [escaped]
              · rename_i notEscaped
                cases isPattern : patternOf? (segmentsFrom [] rest) <;>
                  simp [notEscaped, patternOf?, isPattern]

/-- Appending a normal form to the empty template gives it back. -/
theorem empty_append {template : Template} (normal : template.IsNormal) :
    empty.append template = template := by
  have pushed : forall (rest front : List Segment), .literal [] ∉ rest ->
      (front ++ rest).IsChain MayFollow -> rest.foldl push ⟨front⟩ = ⟨front ++ rest⟩ := by
    intro rest
    induction rest with
    | nil =>
        intro front _ _
        rw [List.foldl_nil, List.append_nil]
    | cons segment rest ih =>
        intro front nonempty apart
        have step : push ⟨front⟩ segment = ⟨front ++ [segment]⟩ := by
          cases segment with
          | placeholder => rfl
          | literal text =>
              have notEmpty : text.isEmpty = false := by
                cases text with
                | nil => exact absurd List.mem_cons_self nonempty
                | cons => rfl
              rw [push, addText, notEmpty, if_neg Bool.false_ne_true]
              split
              · rename_i last isLast
                have seam := (List.isChain_append.mp apart).2.2 _ isLast _ rfl
                rcases seam with isPlaceholder | isPlaceholder <;> cases isPlaceholder
              · rfl
        rw [List.foldl_cons, step, ih (front ++ [segment])]
        · rw [List.append_assoc, List.singleton_append]
        · exact fun member => nonempty (List.mem_cons_of_mem segment member)
        · rw [List.append_assoc, List.singleton_append]
          exact apart
  exact pushed template.segments [] normal.nonempty normal.apart

/-- A template of a concatenation is empty only if all operands are empty
literals. -/
theorem isEmpty_segmentsFrom_iff {operands : List Operand} :
    isEmpty ⟨segmentsFrom [] operands⟩ = true ↔ ∀ operand ∈ operands, operand = .literal [] := by
  rw [isEmpty, List.isEmpty_iff, segmentsFrom_eq_nil_iff, eq_self, true_and]

/-- A template of a concatenation has no pattern only if a run of literals has
none. -/
theorem pattern?_segmentsFrom_eq_none_iff {operands : List Operand} :
    pattern? ⟨segmentsFrom [] operands⟩ = none ↔ Operand.HasUnprintableRun operands :=
  patternOf?_segmentsFrom_eq_none_iff.trans Operand.hasUnprintableRunFrom_nil_iff

end Template

/-! ## Fragments -/

theorem Fragment.foldl_push_empty (operands : List Operand) :
    operands.foldl push empty =
      ⟨⟨Template.segmentsFrom [] operands⟩, Operand.expressions operands⟩ :=
  Template.segments_foldl_push operands
    (by simp : forall text, ([] : List Segment).getLast? ≠ some (.literal text)) [] []

theorem Fragment.ofConcatenation_eq (expression : Text) :
    ofConcatenation expression =
      ⟨⟨Template.segmentsFrom [] (Operand.ofConcatenation expression)⟩,
        Operand.expressions (Operand.ofConcatenation expression)⟩ :=
  foldl_push_empty (Operand.ofConcatenation expression)

theorem Template.format_segmentsFrom {operands : List Operand} {pattern : Text}
    (isPattern : pattern? ⟨segmentsFrom [] operands⟩ = some pattern) {values : List Text}
    (count : values.length = (Operand.expressions operands).length) :
    Formatter.format pattern values = Operand.fill operands values := by
  have normal := Fragment.isNormal_empty.foldl_push operands
  rw [Fragment.foldl_push_empty] at normal
  rw [format_eq_fill normal.template isPattern (count.trans normal.placeholderCount.symm), fill,
    fillWith_segmentsFrom, List.nil_append]

end FluentLog
