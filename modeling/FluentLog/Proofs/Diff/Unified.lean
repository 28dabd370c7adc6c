import FluentLog.Proofs.Diff.Script

namespace FluentLog

/-!
# What a diff shows

A summary counts the lines of the whole script, while a diff shows its hunks.  What hunks
leave out are equal lines only: those at the ends of the script that are too far from a
change, those between two hunks, and a last hunk that has nothing else.  So both tell the
same changes.  Each step that makes hunks is stated by `Shows`, so the main statement is
their chain.
-/

variable {Line : Type}

/-- Whether some entries are what is shown of others: all changes and some of
the equal lines, in the same order. -/
structure Shows (shown entries : List (Entry Line)) : Prop where
  sublist : shown.Sublist entries
  changes : (shown.filter fun entry => !entry.isOf .equal) =
    entries.filter fun entry => !entry.isOf .equal

namespace Shows

variable {first second third fourth : List (Entry Line)}

theorem refl (entries : List (Entry Line)) : Shows entries entries := ⟨.refl _, rfl⟩

theorem trans (left : Shows first second) (right : Shows second third) : Shows first third :=
  ⟨left.sublist.trans right.sublist, left.changes.trans right.changes⟩

theorem append (left : Shows first second) (right : Shows third fourth) :
    Shows (first ++ third) (second ++ fourth) := by
  refine ⟨left.sublist.append right.sublist, ?_⟩
  rw [List.filter_append, List.filter_append, left.changes, right.changes]

theorem equal {shown lines : List Line} (sublist : shown.Sublist lines) :
    Shows (Entry.all .equal shown) (Entry.all .equal lines) := by
  have noChange (lines : List Line) :
      ((Entry.all .equal lines).filter fun entry => !entry.isOf .equal) = [] := by
    simp [Entry.all, Entry.isOf]
  exact ⟨sublist.map _, (noChange shown).trans (noChange lines).symm⟩

end Shows

/-! ## Hunks -/

namespace Hunk

def entries (hunk : Hunk Line) : List (Entry Line) :=
  hunk.flatMap Stretch.entries

@[simp] theorem entries_nil : entries ([] : Hunk Line) = [] := rfl

@[simp] theorem entries_cons (stretch : Stretch Line) (hunk : Hunk Line) :
    entries (stretch :: hunk) = stretch.entries ++ entries hunk := rfl

theorem shows_trimFirst (stretches : List (Stretch Line)) :
    Shows (entries (trimFirst stretches)) (entries stretches) := by
  unfold trimFirst
  split
  · exact (Shows.equal (List.drop_sublist _ _)).append (.refl _)
  · exact .refl _

theorem shows_trimLast (stretches : List (Stretch Line)) :
    Shows (entries (trimLast stretches)) (entries stretches) := by
  fun_induction trimLast stretches with
  | case1 => exact .refl _
  | case2 lines => exact (Shows.equal (List.take_sublist _ _)).append (.refl _)
  | case3 stretch rest notLast ih => exact (Shows.refl _).append ih

/-- The context of one hunk and that of the next are some of the lines between
two changes. -/
theorem sublist_contexts {lines : List Line} (long : 2 * contextLength < lines.length) :
    (lines.take contextLength ++ lines.drop (lines.length - contextLength)).Sublist lines := by
  have further : contextLength ≤ lines.length - contextLength := by omega
  have behind : (lines.drop (lines.length - contextLength)).Sublist (lines.drop contextLength) :=
    List.drop_sublist_drop_left lines further
  have whole := (List.Sublist.refl (lines.take contextLength)).append behind
  rwa [List.take_append_drop] at whole

theorem shows_split (stretches : List (Stretch Line)) :
    Shows (entries (split stretches).1 ++ (split stretches).2.flatMap entries)
      (entries stretches) := by
  fun_induction split stretches with
  | case1 => exact .refl _
  | case2 lines rest hunk others isSplit long ih =>
      rw [isSplit] at ih
      have contexts := (Shows.equal (sublist_contexts long)).append ih
      simpa [Stretch.entries, Entry.all] using contexts
  | case3 lines rest hunk others isSplit short ih =>
      rw [isSplit] at ih
      rw [entries_cons, entries_cons, List.append_assoc]
      exact (Shows.refl _).append ih
  | case4 stretch rest notEqual hunk others isSplit ih =>
      rw [isSplit] at ih
      rw [entries_cons, entries_cons, List.append_assoc]
      exact (Shows.refl _).append ih

theorem shows_nil_of_isIdle {hunk : Hunk Line} (idle : isIdle hunk = true) :
    Shows [] hunk.entries := by
  unfold isIdle at idle
  split at idle
  · exact .refl _
  · rename_i lines
    exact (Shows.equal (List.nil_sublist lines)).append (.refl [])
  · cases idle

theorem shows_dropIdleLast (hunks : List (Hunk Line)) :
    Shows ((dropIdleLast hunks).flatMap entries) (hunks.flatMap entries) := by
  fun_induction dropIdleLast hunks with
  | case1 => exact .refl _
  | case2 hunk idle => exact (shows_nil_of_isIdle idle).append (.refl [])
  | case3 hunk busy => exact .refl _
  | case4 hunk hunks notLast ih => exact (Shows.refl _).append ih

theorem shows_ofStretches (stretches : List (Stretch Line)) :
    Shows ((ofStretches stretches).flatMap entries) (entries stretches) := by
  have kept := shows_dropIdleLast ((split (trimLast (trimFirst stretches))).1 ::
    (split (trimLast (trimFirst stretches))).2)
  exact kept.trans ((shows_split _).trans ((shows_trimLast _).trans (shows_trimFirst stretches)))

end Hunk

theorem shows_hunks [DecidableEq Line] (old new : List Line) :
    Shows ((hunks old new).flatMap Hunk.entries) (lineScript old new) :=
  Hunk.shows_ofStretches (stretches old new)

theorem mem_both_of_isOf_equal {entries : List (Entry Line)} {entry : Entry Line}
    (member : entry ∈ entries) (unchanged : entry.isOf .equal = true) :
    entry.line ∈ Entry.old entries ∧ entry.line ∈ Entry.new entries := by
  have notOther {kind : BlockKind} (change : kind ≠ .equal) : (!entry.isOf kind) = true := by
    rw [Bool.not_eq_true', Entry.isOf, of_decide_eq_true unchanged]
    exact decide_eq_false change.symm
  exact ⟨List.mem_map_of_mem (List.mem_filter.mpr ⟨member, notOther (by decide)⟩),
    List.mem_map_of_mem (List.mem_filter.mpr ⟨member, notOther (by decide)⟩)⟩

/-! ## Printing -/

namespace Diff

/-- A line as it is shown: behind a minus if it is deleted, a plus if it is
inserted, and a space if it is equal. -/
def renderEntry (style : Colouring) (entry : Entry Text) : Text :=
  match entry.kind with
  | .equal => signed ' ' entry.line ++ missingEnd entry.line
  | .delete => style.tint Colouring.red (signed '-' entry.line) ++ missingEnd entry.line
  | .insert => style.tint Colouring.green (signed '+' entry.line) ++ missingEnd entry.line

/-- What stands between two hunks: an empty line, or nothing if the diff is
coloured. -/
def separator : Colouring -> Text
  | .plain => ['\n']
  | .coloured => []

theorem renderStretch_eq (style : Colouring) (stretch : Stretch Text) :
    renderStretch style stretch = stretch.entries.flatMap (renderEntry style) := by
  cases stretch with
  | equal lines =>
      rw [renderStretch, Stretch.entries, Entry.all, List.flatMap_map]
      rfl
  | change deleted inserted =>
      rw [renderStretch, Stretch.entries, List.flatMap_append, Entry.all, Entry.all,
        List.flatMap_map, List.flatMap_map]
      rfl

theorem renderHunk_eq (style : Colouring) (hunk : Hunk Text) :
    renderHunk style hunk = hunk.entries.flatMap (renderEntry style) := by
  rw [renderHunk, Hunk.entries, List.flatMap_assoc, funext (renderStretch_eq style)]

theorem unified_eq (style : Colouring) (path : String) (before after : Text) :
    unified style path before after = header style path ++
      ((((hunks (splitLines before) (splitLines after)).map Hunk.entries).map fun group =>
        group.flatMap (renderEntry style)).intersperse (separator style)).flatten := by
  have same : (if style = .plain then ['\n'] else []) = separator style := by
    cases style <;> rfl
  rw [unified, same, List.map_map, funext (renderHunk_eq style)]
  rfl

end Diff

end FluentLog
