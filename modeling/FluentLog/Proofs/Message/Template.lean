import FluentLog.Message.Fragment
import Mathlib.Data.List.Chain

namespace FluentLog

/-!
# Templates are normal forms

However a template is built by appending, no text in it is empty and no two texts are
neighbours.  Appending adds to the stream of a template's characters and placeholders, and what
is shown and the number of placeholders are read off the stream.  A fragment keeps one argument
for each placeholder.
-/

namespace Template

def MayFollow (left right : Segment) : Prop :=
  left.isPlaceholder = true ∨ right.isPlaceholder = true

/-- Whether no text of a template is empty and no two texts are neighbours. -/
structure IsNormal (template : Template) : Prop where
  nonempty : Segment.literal [] ∉ template.segments
  apart : template.segments.IsChain MayFollow

/-! ## Appending -/

theorem isNormal_empty : IsNormal empty := ⟨List.not_mem_nil, .nil⟩

theorem IsNormal.addPlaceholder {template : Template} (normal : template.IsNormal) :
    template.addPlaceholder.IsNormal := by
  constructor
  · intro member
    rcases List.mem_append.mp member with inTemplate | isLast
    · exact normal.nonempty inTemplate
    · cases List.mem_singleton.mp isLast
  · apply List.isChain_append.mpr
    refine ⟨normal.apart, .singleton _, ?_⟩
    rintro left - right ⟨rfl⟩
    exact .inr rfl

theorem IsNormal.addText {template : Template} (normal : template.IsNormal) (text : Text) :
    (template.addText text).IsNormal := by
  rw [Template.addText]
  split
  · exact normal
  · rename_i notEmpty
    split
    · rename_i last isLast
      have split : template.segments = template.segments.dropLast ++ [.literal last] :=
        (List.dropLast_append_getLast? _ isLast).symm
      have apart := normal.apart
      rw [split] at apart
      rcases List.isChain_append.mp apart with ⟨front, -, seam⟩
      constructor
      · intro member
        rcases List.mem_append.mp member with inFront | isJoined
        · exact normal.nonempty (List.dropLast_subset _ inFront)
        · have joined : [] = last ++ text := Segment.literal.inj (List.mem_singleton.mp isJoined)
          exact notEmpty (List.isEmpty_iff.mpr (List.append_eq_nil_iff.mp joined.symm).2)
      · apply List.isChain_append.mpr
        refine ⟨front, .singleton _, ?_⟩
        rintro left isLeft right ⟨rfl⟩
        rcases seam left isLeft (.literal last) rfl with isPlaceholder | isPlaceholder
        · exact .inl isPlaceholder
        · cases isPlaceholder
    · rename_i notText
      constructor
      · intro member
        rcases List.mem_append.mp member with inTemplate | isLast
        · exact normal.nonempty inTemplate
        · have isText : [] = text := Segment.literal.inj (List.mem_singleton.mp isLast)
          exact notEmpty (List.isEmpty_iff.mpr isText.symm)
      · apply List.isChain_append.mpr
        refine ⟨normal.apart, .singleton _, ?_⟩
        rintro left isLeft right ⟨rfl⟩
        cases left with
        | literal last => exact absurd isLeft (notText last)
        | placeholder => exact .inl rfl

theorem IsNormal.push {template : Template} (normal : template.IsNormal) (segment : Segment) :
    (template.push segment).IsNormal := by
  cases segment with
  | literal text => exact normal.addText text
  | placeholder => exact normal.addPlaceholder

theorem IsNormal.append {template : Template} (normal : template.IsNormal) (other : Template) :
    (template.append other).IsNormal := by
  rw [Template.append]
  generalize other.segments = segments
  induction segments generalizing template with
  | nil => exact normal
  | cons segment segments ih => exact ih (normal.push segment)

theorem IsNormal.separate {template : Template} (normal : template.IsNormal) :
    template.separate.IsNormal := by
  rw [Template.separate]
  split
  · exact normal
  · exact normal.addText [' ']

/-! ## Items -/

/-- What a template is made of when its texts are taken apart. -/
inductive Item where
  | char (character : Char)
  | placeholder
  deriving DecidableEq, Repr

namespace Item

def isBlank : Item -> Bool
  | .char character => FluentLog.isBlank character
  | .placeholder => false

def display : Item -> Text
  | .char character => [character]
  | .placeholder => placeholderMark

end Item

def itemsOf : Segment -> List Item
  | .literal text => text.map .char
  | .placeholder => [.placeholder]

def stream (template : Template) : List Item :=
  template.segments.flatMap itemsOf

/-- The items with a space behind them, unless there are none or the last is a
blank. -/
def separated (items : List Item) : List Item :=
  if items = [] ∨ items.getLast?.any Item.isBlank = true then items
  else items ++ [.char ' ']

/-! ## The stream of what is appended -/

@[simp] theorem stream_empty : empty.stream = [] := rfl

@[simp] theorem stream_addPlaceholder (template : Template) :
    template.addPlaceholder.stream = template.stream ++ [.placeholder] := by
  simp [stream, addPlaceholder, itemsOf]

@[simp] theorem stream_addText (template : Template) (text : Text) :
    (template.addText text).stream = template.stream ++ text.map .char := by
  rw [addText]
  split
  · rename_i isEmpty
    rw [List.isEmpty_iff.mp isEmpty, List.map_nil, List.append_nil]
  · split
    · rename_i last isLast
      have split : template.segments = template.segments.dropLast ++ [.literal last] :=
        (List.dropLast_append_getLast? _ isLast).symm
      rw [stream, stream, split, List.flatMap_append, List.flatMap_append, List.dropLast_concat]
      simp [itemsOf]
    · simp [stream, itemsOf]

@[simp] theorem stream_append (template other : Template) :
    (template.append other).stream = template.stream ++ other.stream := by
  rw [append, stream.eq_def other]
  generalize other.segments = segments
  induction segments generalizing template with
  | nil => exact (List.append_nil _).symm
  | cons segment segments ih =>
      rw [List.foldl_cons, ih, List.flatMap_cons, ← List.append_assoc]
      cases segment with
      | literal text => rw [push, stream_addText, itemsOf]
      | placeholder => rw [push, stream_addPlaceholder, itemsOf]

theorem IsNormal.stream_separate {template : Template} (normal : template.IsNormal) :
    template.separate.stream = separated template.stream := by
  have sameTest : (template.isEmpty = true ∨ template.endsBlank = true) ↔
      template.stream = [] ∨ template.stream.getLast?.any Item.isBlank = true := by
    rcases List.eq_nil_or_concat template.segments with isNil | ⟨front, last, isSegments⟩
    · simp [isEmpty, stream, isNil]
    · rw [List.concat_eq_append] at isSegments
      have isStream : template.stream = front.flatMap itemsOf ++ itemsOf last := by
        simp [stream, isSegments]
      have notEmpty : ¬ template.isEmpty = true := by simp [isEmpty, isSegments]
      have nonempty : itemsOf last ≠ [] := by
        cases last with
        | placeholder => exact List.cons_ne_nil _ _
        | literal text =>
            intro isNil
            rw [List.map_eq_nil_iff.mp isNil] at isSegments
            exact normal.nonempty (isSegments ▸ List.mem_append_right front List.mem_cons_self)
      have hasItems : template.stream ≠ [] :=
        isStream ▸ List.append_ne_nil_of_right_ne_nil _ nonempty
      rw [or_iff_right notEmpty, or_iff_right hasItems, isStream,
        List.getLast?_append_of_ne_nil _ nonempty, endsBlank, isSegments, List.getLast?_concat]
      cases last with
      | placeholder => exact Iff.rfl
      | literal text =>
          rw [itemsOf, List.getLast?_map, Option.any_map]
          exact Iff.rfl
  rw [Template.separate, separated]
  simp only [sameTest]
  split
  · rfl
  · exact stream_addText template [' ']

/-! ## Read off the stream -/

theorem display_eq_flatMap_stream (template : Template) :
    template.display = template.stream.flatMap Item.display := by
  have shown (segment : Segment) :
      segment.display = (itemsOf segment).flatMap Item.display := by
    cases segment with
    | placeholder => rfl
    | literal text =>
        rw [itemsOf, List.flatMap_map]
        exact (List.flatMap_singleton' text).symm
  rw [display, stream, List.flatMap_assoc]
  exact List.flatMap_congr fun segment _ => shown segment

theorem placeholderCount_eq_count_stream (template : Template) :
    template.placeholderCount = template.stream.count .placeholder := by
  rw [placeholderCount, stream]
  induction template.segments with
  | nil => rfl
  | cons segment segments ih =>
      rw [List.countP_cons, List.flatMap_cons, List.count_append, ih, Nat.add_comm]
      cases segment with
      | placeholder => rfl
      | literal text =>
          have noPlaceholder : (itemsOf (.literal text)).count .placeholder = 0 := by
            rw [List.count_eq_zero, itemsOf]
            simp
          rw [noPlaceholder]
          rfl

/-! ## Placeholders -/

@[simp] theorem placeholderCount_addPlaceholder (template : Template) :
    template.addPlaceholder.placeholderCount = template.placeholderCount + 1 := by
  simp [placeholderCount_eq_count_stream]

@[simp] theorem placeholderCount_addText (template : Template) (text : Text) :
    (template.addText text).placeholderCount = template.placeholderCount := by
  simp [placeholderCount_eq_count_stream, List.count_eq_zero]

theorem placeholderCount_append (template other : Template) :
    (template.append other).placeholderCount =
      template.placeholderCount + other.placeholderCount := by
  simp [placeholderCount_eq_count_stream]

@[simp] theorem placeholderCount_separate (template : Template) :
    template.separate.placeholderCount = template.placeholderCount := by
  rw [separate]
  split
  · rfl
  · exact placeholderCount_addText template [' ']

/-! ## What is shown -/

/-- A text with a space behind it, unless it is empty or ends in a blank. -/
def spaced (text : Text) : Text :=
  if text = [] ∨ text.getLast?.any isBlank = true then text else text ++ [' ']

@[simp] theorem display_addPlaceholder (template : Template) :
    template.addPlaceholder.display = template.display ++ placeholderMark := by
  simp [display_eq_flatMap_stream, Item.display]

@[simp] theorem display_addText (template : Template) (text : Text) :
    (template.addText text).display = template.display ++ text := by
  simp [display_eq_flatMap_stream, List.flatMap_map, Item.display]

theorem display_append (template other : Template) :
    (template.append other).display = template.display ++ other.display := by
  simp [display_eq_flatMap_stream]

/-- What is shown of a stream ends in a blank exactly if the stream does. -/
theorem flatMap_separated (items : List Item) :
    (separated items).flatMap Item.display = spaced (items.flatMap Item.display) := by
  have sameTest : (items = [] ∨ items.getLast?.any Item.isBlank = true) ↔
      items.flatMap Item.display = [] ∨
        (items.flatMap Item.display).getLast?.any FluentLog.isBlank = true := by
    rcases List.eq_nil_or_concat items with rfl | ⟨front, last, rfl⟩
    · simp
    · cases last with
      | char character => simp [Item.display, Item.isBlank]
      | placeholder =>
          have notBlank : FluentLog.isBlank '}' = false := by decide
          simp [Item.display, Item.isBlank, placeholderMark, notBlank]
  rw [separated, spaced]
  simp only [sameTest]
  split
  · rfl
  · simp [Item.display]

theorem IsNormal.display_separate {template : Template} (normal : template.IsNormal) :
    template.separate.display = spaced template.display := by
  rw [display_eq_flatMap_stream, normal.stream_separate, flatMap_separated,
    ← display_eq_flatMap_stream]

end Template

/-! ## Fragments -/

/-- Whether a fragment's template is a normal form with one placeholder for
each argument. -/
structure Fragment.IsNormal (fragment : Fragment) : Prop where
  template : fragment.template.IsNormal
  placeholderCount : fragment.template.placeholderCount = fragment.arguments.length

namespace Fragment

theorem isNormal_empty : IsNormal empty := ⟨Template.isNormal_empty, rfl⟩

theorem IsNormal.addText {fragment : Fragment} (normal : fragment.IsNormal) (text : Text) :
    (fragment.addText text).IsNormal :=
  ⟨normal.template.addText text,
    (Template.placeholderCount_addText _ text).trans normal.placeholderCount⟩

theorem IsNormal.addArgument {fragment : Fragment} (normal : fragment.IsNormal)
    (argument : Text) : (fragment.addArgument argument).IsNormal := by
  refine ⟨normal.template.addPlaceholder, ?_⟩
  rw [Fragment.addArgument, Template.placeholderCount_addPlaceholder, normal.placeholderCount,
    List.length_append, List.length_singleton]

theorem IsNormal.push {fragment : Fragment} (normal : fragment.IsNormal) (operand : Operand) :
    (fragment.push operand).IsNormal := by
  cases operand with
  | literal content => exact normal.addText content
  | expression code => exact normal.addArgument code

theorem IsNormal.foldl_push {fragment : Fragment} (normal : fragment.IsNormal)
    (operands : List Operand) : (operands.foldl Fragment.push fragment).IsNormal := by
  induction operands generalizing fragment with
  | nil => exact normal
  | cons operand operands ih => exact ih (normal.push operand)

theorem isNormal_ofConcatenation (expression : Text) : (ofConcatenation expression).IsNormal :=
  isNormal_empty.foldl_push _

theorem IsNormal.addArguments {fragment : Fragment} (normal : fragment.IsNormal)
    (extras : List Text) : (fragment.addArguments extras).IsNormal := by
  have added : forall (others : List Text) (fragment : Fragment), fragment.IsNormal ->
      (others.foldl (fun fragment other => (fragment.addText [' ']).addArgument other)
        fragment).IsNormal := by
    intro others
    induction others with
    | nil => exact fun _ normal => normal
    | cons other others ih =>
        exact fun fragment normal => ih _ ((normal.addText [' ']).addArgument other)
  cases extras with
  | nil => exact normal
  | cons extra others =>
      apply added
      apply IsNormal.addArgument
      exact ⟨normal.template.separate,
        (Template.placeholderCount_separate _).trans normal.placeholderCount⟩

end Fragment
end FluentLog
