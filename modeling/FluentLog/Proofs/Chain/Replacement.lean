import FluentLog.Chain.Plan

namespace FluentLog

/-!
# What a list of edits does to a text

`Edit.Replaces` says that one text is another with a list of extents replaced.  Its
shape is the whole statement: the extents lie in the text, they are disjoint and in
order, and every byte outside them is copied once and in its place.  Splicing edits
that are in order is such a replacement, and every replacement is a splice.
-/

namespace Edit

/-- Whether the edits make the second text of the first, which begins at an
offset.  The edits come in order and do not overlap, which the lengths of the
stretches say. -/
inductive Replaces : Nat -> List Edit -> Bytes -> Bytes -> Prop
  /-- Without further edits all is copied. -/
  | done (offset : Nat) (text : Bytes) : Replaces offset [] text text
  /-- What stands in front of an edit is copied, and its extent is replaced. -/
  | edit {offset : Nat} {edits : List Edit} {rest newRest : Bytes} (gap old new : Bytes) :
      Replaces (offset + gap.length + old.length) edits rest newRest ->
      Replaces offset
        (⟨⟨offset + gap.length, offset + gap.length + old.length⟩, new⟩ :: edits)
        (gap ++ old ++ rest) (gap ++ new ++ newRest)

def shift (distance : Nat) (edit : Edit) : Edit :=
  ⟨⟨edit.extent.start + distance, edit.extent.stop + distance⟩, edit.replacement⟩

namespace Replaces

variable {offset : Nat} {edits : List Edit} {text new : Bytes}

theorem prepend (front : Bytes) (replaces : Replaces (offset + front.length) edits text new) :
    Replaces offset edits (front ++ text) (front ++ new) := by
  cases replaces with
  | done => exact .done offset (front ++ text)
  | @edit _ edits rest newRest gap old new replaces =>
      have sameStart : offset + front.length + gap.length = offset + (front ++ gap).length := by
        rw [List.length_append]
        omega
      rw [sameStart] at replaces
      have whole := Replaces.edit (front ++ gap) old new replaces
      simpa [List.append_assoc, Nat.add_assoc] using whole

/-- Edits of two texts that stand side by side. -/
theorem append {otherEdits : List Edit} {other newOther : Bytes}
    (left : Replaces offset edits text new)
    (right : Replaces (offset + text.length) otherEdits other newOther) :
    Replaces offset (edits ++ otherEdits) (text ++ other) (new ++ newOther) := by
  induction left with
  | done offset text => exact right.prepend text
  | @edit offset edits rest newRest gap old new _ ih =>
      have sameOffset : offset + (gap ++ old ++ rest).length =
          offset + gap.length + old.length + rest.length := by
        simp only [List.length_append]
        omega
      rw [sameOffset] at right
      have whole := Replaces.edit gap old new (ih right)
      simpa [List.append_assoc] using whole

/-- The same edits of a text that stands further to the right. -/
theorem shift (distance : Nat) (replaces : Replaces offset edits text new) :
    Replaces (offset + distance) (edits.map (Edit.shift distance)) text new := by
  induction replaces with
  | done offset text => exact .done _ text
  | @edit offset edits rest newRest gap old new _ ih =>
      have sameOffset : offset + gap.length + old.length + distance =
          offset + distance + gap.length + old.length := by
        omega
      rw [sameOffset] at ih
      have whole := Replaces.edit gap old new ih
      have sameStart : offset + distance + gap.length = offset + gap.length + distance := by
        omega
      have sameStop : offset + gap.length + distance + old.length =
          offset + gap.length + old.length + distance := by
        omega
      rw [sameStart, sameStop] at whole
      exact whole

theorem spliceFrom_eq (replaces : Replaces offset edits text new) (before : Bytes)
    (atOffset : before.length = offset) : spliceFrom (before ++ text) offset edits = new := by
  induction replaces generalizing before with
  | done offset text => exact List.drop_left' atOffset
  | @edit offset edits rest newRest gap old new _ ih =>
      have copied : ((before ++ (gap ++ old ++ rest)).drop offset).take
          (offset + gap.length - offset) = gap := by
        rw [List.drop_left' atOffset, List.append_assoc]
        exact List.take_left' (by omega)
      have whole : before ++ (gap ++ old ++ rest) = (before ++ gap ++ old) ++ rest := by
        simp
      have later := ih (before ++ gap ++ old) (by simp only [List.length_append]; omega)
      rw [spliceFrom, copied, whole, later]

theorem splice_eq (replaces : Replaces 0 edits text new) : splice text edits = new :=
  replaces.spliceFrom_eq [] rfl

end Replaces

/-! ## Edits in order -/

theorem le_length_of_inOrder {length offset : Nat} {edits : List Edit}
    (ordered : inOrder length offset edits = true) : offset ≤ length := by
  induction edits generalizing offset with
  | nil => exact of_decide_eq_true ordered
  | cons edit others ih =>
      simp only [inOrder, Bool.and_eq_true, decide_eq_true_eq] at ordered
      have behind := ih ordered.2
      omega

theorem inOrder_of_le {length offset start : Nat} {edits : List Edit} (earlier : start ≤ offset)
    (ordered : inOrder length offset edits = true) : inOrder length start edits = true := by
  cases edits with
  | nil => exact decide_eq_true (Nat.le_trans earlier (le_length_of_inOrder ordered))
  | cons edit others =>
      simp only [inOrder, Bool.and_eq_true, decide_eq_true_eq] at ordered ⊢
      exact ⟨⟨Nat.le_trans earlier ordered.1.1, ordered.1.2⟩, ordered.2⟩

theorem replaces_of_inOrder {text : Bytes} {edits : List Edit} {offset : Nat}
    (ordered : inOrder text.length offset edits = true) :
    Replaces offset edits (text.drop offset) (spliceFrom text offset edits) := by
  induction edits generalizing offset with
  | nil => exact .done offset (text.drop offset)
  | cons edit others ih =>
      rcases edit with ⟨⟨start, stop⟩, new⟩
      simp only [inOrder, Bool.and_eq_true, decide_eq_true_eq] at ordered
      rcases ordered with ⟨⟨afterOffset, proper⟩, orderedOthers⟩
      have inBounds := le_length_of_inOrder orderedOthers
      have gapLength : ((text.drop offset).take (start - offset)).length = start - offset := by
        rw [List.length_take, List.length_drop]
        omega
      have oldLength : ((text.drop start).take (stop - start)).length = stop - start := by
        rw [List.length_take, List.length_drop]
        omega
      have atStart : offset + ((text.drop offset).take (start - offset)).length = start := by
        omega
      have atStop : start + ((text.drop start).take (stop - start)).length = stop := by
        omega
      have split : text.drop offset = (text.drop offset).take (start - offset) ++
          (text.drop start).take (stop - start) ++ text.drop stop := by
        have behindGap : text.drop start = (text.drop offset).drop (start - offset) := by
          rw [List.drop_drop]
          congr 1
          omega
        have behindOld : text.drop stop = (text.drop start).drop (stop - start) := by
          rw [List.drop_drop]
          congr 1
          omega
        rw [List.append_assoc, behindOld, List.take_append_drop, behindGap,
          List.take_append_drop]
      have whole := Replaces.edit ((text.drop offset).take (start - offset))
        ((text.drop start).take (stop - start)) new (by rw [atStart, atStop]; exact ih orderedOthers)
      rw [atStart, atStop, ← split] at whole
      exact whole

/-- An edit can be put among edits in order, if it is not empty and touches
none of them. -/
theorem inOrder_insert {length offset : Nat} {edits : List Edit} {edit : Edit}
    (ordered : inOrder length offset edits = true) (behind : offset ≤ edit.extent.start)
    (proper : edit.extent.start < edit.extent.stop) (inBounds : edit.extent.stop ≤ length)
    (apart : ∀ other ∈ edits,
      other.extent.stop ≤ edit.extent.start ∨ edit.extent.stop ≤ other.extent.start) :
    inOrder length offset (insert edit edits) = true := by
  induction edits generalizing offset with
  | nil =>
      simp only [insert, inOrder, Bool.and_eq_true, decide_eq_true_eq]
      exact ⟨⟨behind, Nat.le_of_lt proper⟩, inBounds⟩
  | cons other others ih =>
      simp only [inOrder, Bool.and_eq_true, decide_eq_true_eq] at ordered
      rcases ordered with ⟨⟨otherBehind, otherProper⟩, orderedOthers⟩
      have apartOther := apart other List.mem_cons_self
      rw [insert]
      split
      · rename_i inFront
        have otherStops : other.extent.stop ≤ edit.extent.start := by omega
        have inserted := ih orderedOthers otherStops fun another member =>
          apart another (List.mem_cons_of_mem other member)
        simp only [inOrder, Bool.and_eq_true, decide_eq_true_eq]
        exact ⟨⟨otherBehind, otherProper⟩, inserted⟩
      · rename_i notInFront
        have otherStarts : edit.extent.stop ≤ other.extent.start := by omega
        simp only [inOrder, Bool.and_eq_true, decide_eq_true_eq]
        exact ⟨⟨behind, by omega⟩, ⟨otherStarts, otherProper⟩, orderedOthers⟩

/-- An edit is put between those that begin no later and those that begin
later. -/
theorem insert_append {edit : Edit} {left right : List Edit}
    (before : ∀ other ∈ left, other.extent.start ≤ edit.extent.start)
    (behind : ∀ other ∈ right, edit.extent.start < other.extent.start) :
    insert edit (left ++ right) = left ++ edit :: right := by
  induction left with
  | nil =>
      cases right with
      | nil => rfl
      | cons other right =>
          have later := behind other List.mem_cons_self
          rw [List.nil_append, insert, if_neg (by omega), List.nil_append]
  | cons other left ih =>
      rw [List.cons_append, insert, if_pos (before other List.mem_cons_self),
        ih fun further member => before further (List.mem_cons_of_mem other member)]
      rfl

theorem mem_insert {edit other : Edit} {edits : List Edit} :
    other ∈ insert edit edits ↔ other = edit ∨ other ∈ edits := by
  induction edits with
  | nil => simp [insert]
  | cons first others ih =>
      rw [insert]
      split
      · rw [List.mem_cons, ih, List.mem_cons]
        exact or_left_comm
      · rw [List.mem_cons]

theorem exists_splice_append {front tail : Bytes} {edits : List Edit}
    (behind : ∀ edit ∈ edits, front.length ≤ edit.extent.start) :
    ∃ newTail, splice (front ++ tail) edits = front ++ newTail := by
  cases edits with
  | nil => exact ⟨tail, rfl⟩
  | cons edit others =>
      have reached := behind edit List.mem_cons_self
      have taken : ((front ++ tail).drop 0).take (edit.extent.start - 0) =
          front ++ tail.take (edit.extent.start - front.length) := by
        rw [List.drop_zero, Nat.sub_zero, List.take_append, List.take_of_length_le reached]
      refine ⟨tail.take (edit.extent.start - front.length) ++ edit.replacement ++
        spliceFrom (front ++ tail) edit.extent.stop others, ?_⟩
      rw [splice, spliceFrom, taken]
      simp only [List.append_assoc]

end Edit
end FluentLog
