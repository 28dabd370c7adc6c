import FluentLog.Proofs.Message.Pattern

namespace FluentLog
namespace Template

/-!
# Templates are the normal forms of streams

What appending puts into a template is a stream of characters and placeholders.  How the
characters were cut into texts on the way is forgotten: `segmentsOf` makes one text of each
run of characters, and a template has exactly the segments of its stream.  So an equation
between templates is an equation between streams, where `append` is concatenation.
-/

/-! ## The segments of a stream -/

/-- The segments of a stream: each run of characters is one text. -/
def segmentsOf : List Item -> List Segment
  | [] => []
  | .placeholder :: rest => .placeholder :: segmentsOf rest
  | .char character :: rest =>
      match segmentsOf rest with
      | .literal text :: others => .literal (character :: text) :: others
      | others => .literal [character] :: others

theorem segmentsOf_text {text : Text} (nonempty : text ≠ []) {rest : List Item}
    (noText : ∀ segment ∈ (segmentsOf rest).head?, segment.isPlaceholder = true) :
    segmentsOf (text.map .char ++ rest) = .literal text :: segmentsOf rest := by
  induction text with
  | nil => exact absurd rfl nonempty
  | cons character text ih =>
      rw [List.map_cons, List.cons_append, segmentsOf]
      cases text with
      | nil =>
          rw [List.map_nil, List.nil_append]
          split
          · rename_i isRest
            rw [isRest] at noText
            cases noText _ rfl
          · rfl
      | cons following text => rw [ih (List.cons_ne_nil _ _)]

theorem IsNormal.segmentsOf_stream {template : Template} (normal : template.IsNormal) :
    segmentsOf template.stream = template.segments := by
  rcases template with ⟨segments⟩
  rcases normal with ⟨nonempty, apart⟩
  rw [stream]
  dsimp only at nonempty apart ⊢
  induction segments with
  | nil => rfl
  | cons segment segments ih =>
      rw [List.mem_cons, not_or] at nonempty
      rw [List.isChain_cons] at apart
      have behind := ih nonempty.2 apart.2
      rw [List.flatMap_cons]
      cases segment with
      | placeholder => rw [itemsOf, List.singleton_append, segmentsOf, behind]
      | literal text =>
          have notEmpty : text ≠ [] := fun isEmpty => nonempty.1 (isEmpty ▸ rfl)
          rw [itemsOf, segmentsOf_text notEmpty, behind]
          rw [behind]
          intro segment isNext
          exact (apart.1 segment isNext).resolve_left Bool.false_ne_true

theorem IsNormal.eq_of_stream {first second : Template} (normalFirst : first.IsNormal)
    (normalSecond : second.IsNormal) (same : first.stream = second.stream) : first = second := by
  have sameSegments : first.segments = second.segments := by
    rw [← normalFirst.segmentsOf_stream, same, normalSecond.segmentsOf_stream]
  rcases first with ⟨segments⟩
  rcases second with ⟨others⟩
  exact congrArg Template.mk sameSegments

theorem separated_separated (items : List Item) :
    separated (separated items) = separated items := by
  have settled : separated items = [] ∨ (separated items).getLast?.any Item.isBlank = true := by
    rw [separated]
    split
    · rename_i settled
      exact settled
    · right
      rw [List.getLast?_concat]
      rfl
  rw [separated, if_pos settled]

/-! ## What is pushed -/

/-- A sequence of operations on the empty template.  A template that is
appended is made by a sequence of its own, so this is a tree. -/
inductive Construction where
  | empty
  | addText (before : Construction) (text : Text)
  | addPlaceholder (before : Construction)
  | separate (before : Construction)
  | append (before other : Construction)

namespace Construction

def template : Construction -> Template
  | empty => .empty
  | addText before text => before.template.addText text
  | addPlaceholder before => before.template.addPlaceholder
  | separate before => before.template.separate
  | append before other => before.template.append other.template

/-- The characters and placeholders that the operations push, one after the
other. -/
def pushed : Construction -> List Item
  | empty => []
  | addText before text => before.pushed ++ text.map .char
  | addPlaceholder before => before.pushed ++ [.placeholder]
  | separate before => separated before.pushed
  | append before other => before.pushed ++ other.pushed

theorem isBuilt_template (construction : Construction) : construction.template.IsBuilt := by
  induction construction with
  | empty => exact .empty
  | addText before text built => exact built.addText text
  | addPlaceholder before built => exact built.addPlaceholder
  | separate before built => exact built.separate
  | append before other built builtOther => exact built.append builtOther

theorem isNormal_template (construction : Construction) : construction.template.IsNormal :=
  construction.isBuilt_template.isNormal

theorem stream_template (construction : Construction) :
    construction.template.stream = construction.pushed := by
  induction construction with
  | empty => rfl
  | addText before text ih => rw [template, stream_addText, ih, pushed]
  | addPlaceholder before ih => rw [template, stream_addPlaceholder, ih, pushed]
  | separate before ih => rw [template, (isNormal_template before).stream_separate, ih, pushed]
  | append before other ih ihOther => rw [template, stream_append, ih, ihOther, pushed]

/-- Templates have the same segments exactly if the same stream was pushed to
them. -/
theorem segments_eq_iff (first second : Construction) :
    first.template.segments = second.template.segments ↔ first.pushed = second.pushed := by
  rw [← stream_template, ← stream_template]
  constructor
  · intro same
    rw [stream, stream, same]
  · intro same
    rw [← (isNormal_template first).segmentsOf_stream, same,
      (isNormal_template second).segmentsOf_stream]

/-- A template is the normal form of what was pushed.  It has no empty text
and no two texts that are neighbours, and its segments depend on nothing but
the stream.  What is shown, the number of placeholders and `append` are read
off the streams, where `append` is concatenation; so `append` is associative
and the empty template changes nothing.  Separating twice is separating once. -/
theorem template_isNormalForm (first second third : Construction) :
    first.template.IsNormal ∧
    (first.template.segments = second.template.segments ↔ first.pushed = second.pushed) ∧
    first.template.display = first.pushed.flatMap Item.display ∧
    first.template.placeholderCount = first.pushed.count .placeholder ∧
    (first.template.append second.template).stream = first.pushed ++ second.pushed ∧
    (first.template.append second.template).append third.template =
      first.template.append (second.template.append third.template) ∧
    Template.empty.append first.template = first.template ∧
    first.template.append .empty = first.template ∧
    first.template.separate.separate = first.template.separate := by
  have normal := isNormal_template first
  refine ⟨normal, segments_eq_iff first second, ?_, ?_, ?_, ?_, ?_, rfl, ?_⟩
  · rw [display_eq_flatMap_stream, stream_template]
  · rw [placeholderCount_eq_count_stream, stream_template]
  · rw [stream_append, stream_template, stream_template]
  · apply ((normal.append _).append _).eq_of_stream (normal.append _)
    simp only [stream_append, List.append_assoc]
  · apply (isNormal_empty.append _).eq_of_stream normal
    rw [stream_append, stream_empty, List.nil_append]
  · apply normal.separate.separate.eq_of_stream normal.separate
    rw [normal.separate.stream_separate, normal.stream_separate, separated_separated]

/-- A text that was cut in two, with the cut at the seam of `append`, is one
text. -/
example :
    ((empty.addText ['a']).append ((empty.addText ['b']).addPlaceholder)).template.segments =
      [.literal ['a', 'b'], .placeholder] := rfl

end Construction
end Template
end FluentLog
