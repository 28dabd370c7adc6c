import FluentLog.Proofs.Message.Concatenation

namespace FluentLog

/-!
# Patterns print what they can

A pattern that is written for a template prints the template, with values in the places
of its placeholders.  A template for which none is written cannot be printed at all.

What no pattern prints is a backslash with braces behind it, in front of a value.  The
formatter takes braces as the place of a value, or it takes the backslash in front of
them away, so as long as values are left it never prints both.
-/

namespace Template

/-- The templates that appending makes of the empty one.  All templates of the
program are of this kind. -/
inductive IsBuilt : Template -> Prop where
  | empty : IsBuilt .empty
  | addText {template : Template} (built : template.IsBuilt) (text : Text) :
      (template.addText text).IsBuilt
  | addPlaceholder {template : Template} (built : template.IsBuilt) :
      template.addPlaceholder.IsBuilt
  | separate {template : Template} (built : template.IsBuilt) : template.separate.IsBuilt
  | append {template other : Template} (built : template.IsBuilt) (builtOther : other.IsBuilt) :
      (template.append other).IsBuilt

theorem IsBuilt.isNormal {template : Template} (built : template.IsBuilt) :
    template.IsNormal := by
  induction built with
  | empty => exact isNormal_empty
  | addText _ text normal => exact normal.addText text
  | addPlaceholder _ normal => exact normal.addPlaceholder
  | separate _ normal => exact normal.separate
  | append _ _ normal _ => exact normal.append _

end Template

/-! ## What the formatter never prints -/

namespace Formatter

/-- Whether a printout has a backslash and braces with an expression anywhere
behind them. -/
def HasEscapedBraces : Printout -> Prop
  | [] => False
  | printed :: rest =>
      (printed = .inl '\\' ∧ [.inl '{', .inl '}'] <+: rest ∧ expressions rest ≠ []) ∨
        HasEscapedBraces rest

theorem HasEscapedBraces.behind {rest : Printout} (escaped : HasEscapedBraces rest)
    (front : Printout) : HasEscapedBraces (front ++ rest) := by
  induction front with
  | nil => exact escaped
  | cons printed front ih => exact .inr ih

theorem not_hasEscapedBraces_map_inl (text : Text) :
    ¬ HasEscapedBraces (text.map .inl) := by
  induction text with
  | nil => exact id
  | cons character text ih =>
      rintro (⟨-, -, hasExpression⟩ | escaped)
      · exact hasExpression (expressions_map_inl text)
      · exact ih escaped

/-- A text without braces adds none to what is printed behind it, unless they
come about where the two meet. -/
theorem not_hasEscapedBraces_append {text : Text} (notCut : cut? text = none)
    {rest : Printout} (notClosing : rest.head? ≠ some (.inl '}'))
    (notOpening : text.getLast? = some '\\' -> rest.head? ≠ some (.inl '{'))
    (free : ¬ HasEscapedBraces rest) : ¬ HasEscapedBraces (text.map .inl ++ rest) := by
  induction text with
  | nil => exact free
  | cons character text ih =>
      rintro (⟨isBackslash, isPrefix, -⟩ | escaped)
      · cases Sum.inl.inj isBackslash
        rcases isPrefix with ⟨others, isRest⟩
        match text with
        | [] =>
            have startsOpening : .inl '{' :: .inl '}' :: others = rest := isRest
            apply notOpening rfl
            rw [← startsOpening]
            rfl
        | [only] =>
            have startsClosing : .inl '}' :: others = rest := (List.cons.inj isRest).2
            apply notClosing
            rw [← startsClosing]
            rfl
        | opening :: closing :: others =>
            cases Sum.inl.inj (List.cons.inj isRest).1
            cases Sum.inl.inj (List.cons.inj (List.cons.inj isRest).2).1
            cases notCut
      · have notBraces : ¬ (character = '{' ∧ text.head? = some '}') := by
          rintro ⟨rfl, isClosing⟩
          cases text with
          | nil => cases isClosing
          | cons closing text =>
              cases Option.some.inj isClosing
              cases notCut
        rw [cut?_cons notBraces, Option.map_eq_none_iff] at notCut
        refine ih notCut ?_ escaped
        intro isLast
        apply notOpening
        rw [List.getLast?_cons, isLast]
        rfl

theorem cut?_dropLast {text : Text} (notCut : cut? text = none) : cut? text.dropLast = none := by
  rw [cut?_eq_none_iff] at notCut ⊢
  exact fun hasMark => notCut (hasMark.trans (List.dropLast_prefix text).isInfix)

/-- The end of a text in front of braces that stand for themselves. -/
theorem getLast?_dropLast_of_escaping {front : Text} (escaped : escaping front = .braces) :
    front.dropLast.getLast? ≠ some '\\' := by
  intro isLast
  rcases List.eq_nil_or_concat' front with rfl | ⟨others, last, rfl⟩
  · cases isLast
  · rw [List.dropLast_concat] at isLast
    rcases List.getLast?_eq_some_iff.mp isLast with ⟨others, rfl⟩
    by_cases isBackslash : last = '\\'
    · rw [isBackslash, escaping_two_backslashes List.getLast?_concat] at escaped
      cases escaped
    · have plain : (others ++ ['\\'] ++ [last]).getLast? ≠ some '\\' := by
        rw [List.getLast?_concat]
        exact fun same => isBackslash (Option.some.inj same)
      rw [escaping_of_getLast? plain] at escaped
      cases escaped

/-- Whatever the pattern, no backslash and braces are printed in front of a
value. -/
theorem not_hasEscapedBraces_formatWith (pattern : Text) (arguments : List Text) :
    ¬ HasEscapedBraces (formatWith .inl pattern (arguments.map symbol)) := by
  generalize isValues : arguments.map symbol = values
  generalize isPlain : (Sum.inl : Char -> Char ⊕ Text) = plain
  fun_induction formatWith plain pattern values generalizing arguments with
  | case1 pattern =>
      subst isPlain
      exact not_hasEscapedBraces_map_inl pattern
  | case2 pattern value others notCut =>
      subst isPlain
      exact not_hasEscapedBraces_map_inl pattern
  | case3 pattern value others front behind isCut escaped ih =>
      subst isPlain
      rcases List.map_eq_cons_iff.mp isValues with ⟨argument, arguments, rfl, rfl, rfl⟩
      rw [List.append_assoc]
      refine not_hasEscapedBraces_append (cut?_front isCut) (by simp [symbol])
        (by simp [symbol]) ?_
      rintro (⟨isBackslash, -⟩ | later)
      · cases isBackslash
      · exact ih arguments rfl later
  | case4 pattern value others front behind isCut escaped ih =>
      subst isPlain
      rcases List.map_eq_cons_iff.mp isValues with ⟨argument, arguments, rfl, rfl, rfl⟩
      rw [List.append_assoc]
      refine not_hasEscapedBraces_append (cut?_dropLast (cut?_front isCut)) (by simp [symbol])
        (by simp [symbol]) ?_
      rintro (⟨isBackslash, -⟩ | later)
      · cases isBackslash
      · exact ih arguments rfl later
  | case5 pattern value others front behind isCut escaped ih =>
      subst isPlain
      rw [List.map_append, List.append_assoc]
      refine not_hasEscapedBraces_append (cut?_dropLast (cut?_front isCut)) (by simp)
        (fun isLast => absurd isLast (getLast?_dropLast_of_escaping escaped)) ?_
      rintro (⟨isBackslash, -⟩ | later)
      · cases isBackslash
      · exact ih arguments isValues later

end Formatter

/-! ## What a template without a pattern stands for -/

namespace Template

theorem hasEscapedBraces_printed {text : Text} (escaped : hasEscapedBraces text = true)
    {rest : Formatter.Printout} (hasExpression : Formatter.expressions rest ≠ []) :
    Formatter.HasEscapedBraces (text.map .inl ++ rest) := by
  rcases hasEscapedBraces_eq_true_iff.mp escaped with ⟨front, behind, rfl⟩
  rw [List.append_assoc, List.map_append, List.append_assoc]
  apply Formatter.HasEscapedBraces.behind
  refine .inl ⟨rfl, ⟨behind.map .inl ++ rest, rfl⟩, ?_⟩
  have others : Formatter.expressions (['{', '}'].map .inl ++ (behind.map .inl ++ rest)) =
      Formatter.expressions rest := by
    rw [Formatter.expressions_append, Formatter.expressions_append,
      Formatter.expressions_map_inl, Formatter.expressions_map_inl]
    rfl
  rw [← others] at hasExpression
  exact hasExpression

/-- A text in front of a placeholder has no pattern only for its own braces,
if what is behind it has one. -/
theorem hasEscapedBraces_of_patternOf?_eq_none {text : Text} {rest : List Segment}
    (noPattern : patternOf? (.literal text :: rest) = none)
    (more : rest.any Segment.isPlaceholder = true) (hasRest : patternOf? rest ≠ none) :
    hasEscapedBraces text = true := by
  rcases Option.ne_none_iff_exists'.mp hasRest with ⟨following, isFollowing⟩
  by_contra notEscaped
  rw [patternOf?, if_pos more, literalPattern?, if_neg notEscaped, isFollowing] at noPattern
  cases noPattern

/-- If a template has no pattern, a backslash and braces stand in front of one
of its placeholders. -/
theorem hasEscapedBraces_fillWith {segments : List Segment} (noPattern : patternOf? segments = none)
    {arguments : List Text}
    (enough : segments.countP Segment.isPlaceholder ≤ arguments.length) :
    Formatter.HasEscapedBraces (fillWith .inl segments (arguments.map Formatter.symbol)) := by
  induction segments generalizing arguments with
  | nil => cases noPattern
  | cons segment rest ih =>
      cases segment with
      | placeholder =>
          rw [List.countP_cons_of_pos rfl] at enough
          cases arguments with
          | nil => exact absurd enough (by simp)
          | cons argument arguments =>
              have later := ih (Option.map_eq_none_iff.mp noPattern) (Nat.le_of_succ_le_succ enough)
              exact later.behind (Formatter.symbol argument)
      | literal text =>
          rw [List.countP_cons_of_neg (by simp [Segment.isPlaceholder])] at enough
          rw [fillWith]
          by_cases noRest : patternOf? rest = none
          · exact (ih noRest enough).behind _
          · by_cases more : rest.any Segment.isPlaceholder = true
            · apply hasEscapedBraces_printed
                (hasEscapedBraces_of_patternOf?_eq_none noPattern more noRest)
              rw [Formatter.expressions_fillWith enough]
              rcases List.any_eq_true.mp more with ⟨segment, member, isPlaceholder⟩
              have positive : 0 < rest.countP Segment.isPlaceholder :=
                List.countP_pos_iff.mpr ⟨segment, member, isPlaceholder⟩
              apply List.ne_nil_of_length_pos
              rw [List.length_take]
              omega
            · rw [patternOf?, if_neg more] at noPattern
              exact absurd (Option.map_eq_none_iff.mp noPattern) noRest

/-! ## The patterns of templates -/

/-- The pattern of a template prints the template, and a template without one
is printed by no pattern at all. -/
theorem pattern_prints_template {template : Template} (built : template.IsBuilt) :
    (forall pattern, template.pattern? = some pattern ->
      forall values : List Text, values.length = template.placeholderCount ->
        Formatter.format pattern values = template.fill values) ∧
    (template.pattern? = none ->
      ¬ ∃ pattern, forall values : List Text, values.length = template.placeholderCount ->
        Formatter.format pattern values = template.fill values) := by
  constructor
  · intro pattern isPattern values count
    exact format_eq_fill built.isNormal isPattern count
  · rintro noPattern ⟨pattern, prints⟩
    -- Values of expressions, since the formatter does not look into them.
    let arguments : List Text := List.replicate template.placeholderCount []
    have count : arguments.length = template.placeholderCount := List.length_replicate
    have same : Formatter.formatWith .inl pattern (arguments.map Formatter.symbol) =
        fillWith .inl template.segments (arguments.map Formatter.symbol) := by
      apply Formatter.eq_of_forall_evaluate
      intro value
      rw [← Formatter.format_map, ← Formatter.fill_map]
      apply prints
      rw [List.length_map, count]
    apply Formatter.not_hasEscapedBraces_formatWith pattern arguments
    rw [same]
    exact hasEscapedBraces_fillWith noPattern (Nat.le_of_eq count.symm)

/-- Literal braces in front of a placeholder are escaped, and with a backslash
in front of them they cannot be printed. -/
theorem pattern_prints_braces :
    (empty.addText ['{', '}']).addPlaceholder.pattern? = some ['\\', '{', '}', '{', '}'] ∧
    Formatter.format ['\\', '{', '}', '{', '}'] [['x']] =
      (empty.addText ['{', '}']).addPlaceholder.fill [['x']] ∧
    (empty.addText ['\\', '{', '}']).addPlaceholder.pattern? = none ∧
    ¬ ∃ pattern, forall values : List Text, values.length = 1 ->
      Formatter.format pattern values =
        (empty.addText ['\\', '{', '}']).addPlaceholder.fill values := by
  have braces := pattern_prints_template ((IsBuilt.empty.addText ['{', '}']).addPlaceholder)
  have escaped :=
    pattern_prints_template ((IsBuilt.empty.addText ['\\', '{', '}']).addPlaceholder)
  exact ⟨rfl, braces.1 _ rfl [['x']] rfl, rfl, escaped.2 rfl⟩

end Template
end FluentLog
