import FluentLog.Diff.Summary

namespace FluentLog

/-!
# What a diff keeps

The comparison of two lists is cut in two at a point that a search comes to, and its
blocks are moved about to look better.  For what a script says about the two lists all of
this does not matter: wherever the cut is, the parts are compared in full, and a block is
only moved past what it can be moved past.  So the script of a comparison still leads from
the one list to the other, and it is empty of changes only if they are the same.
-/

variable {Line : Type}

namespace Script

@[simp] theorem old_nil : old ([] : Script Line) = [] := rfl

@[simp] theorem new_nil : new ([] : Script Line) = [] := rfl

@[simp] theorem old_cons (block : Block Line) (script : Script Line) :
    old (block :: script) = block.old ++ old script := rfl

@[simp] theorem new_cons (block : Block Line) (script : Script Line) :
    new (block :: script) = block.new ++ new script := rfl

@[simp] theorem old_append (left right : Script Line) :
    old (left ++ right) = old left ++ old right :=
  List.flatMap_append

@[simp] theorem new_append (left right : Script Line) :
    new (left ++ right) = new left ++ new right :=
  List.flatMap_append

end Script

def Leads (script : Script Line) (old new : List Line) : Prop :=
  script.old = old ∧ script.new = new

namespace Leads

variable {left right : Script Line} {old new otherOld otherNew : List Line}

theorem append (first : Leads left old new) (second : Leads right otherOld otherNew) :
    Leads (left ++ right) (old ++ otherOld) (new ++ otherNew) :=
  ⟨by rw [Script.old_append, first.1, second.1], by rw [Script.new_append, first.2, second.2]⟩

theorem block (block : Block Line) : Leads block.script block.old block.new := by
  rcases block with ⟨kind, lines⟩
  cases lines with
  | nil => cases kind <;> exact ⟨rfl, rfl⟩
  | cons line lines => cases kind <;> exact ⟨List.append_nil _, List.append_nil _⟩

end Leads

/-! ## Comparing -/

section

variable [DecidableEq Line]

theorem commonPrefix_append_drop (old new : List Line) :
    commonPrefix old new ++ old.drop (commonPrefix old new).length = old ∧
      commonPrefix old new ++ new.drop (commonPrefix old new).length = new := by
  induction old generalizing new with
  | nil => exact ⟨rfl, rfl⟩
  | cons first old ih =>
      cases new with
      | nil => exact ⟨rfl, rfl⟩
      | cons second new =>
          rw [commonPrefix]
          split
          · rename_i same
            subst same
            exact ⟨congrArg _ (ih new).1, congrArg _ (ih new).2⟩
          · exact ⟨rfl, rfl⟩

theorem take_append_commonSuffix (old new : List Line) :
    old.take (old.length - (commonSuffix old new).length) ++ commonSuffix old new = old ∧
      new.take (new.length - (commonSuffix old new).length) ++ commonSuffix old new = new := by
  rcases commonPrefix_append_drop old.reverse new.reverse with ⟨sameOld, sameNew⟩
  have turned : forall {lines begin : List Line},
      begin ++ lines.reverse.drop begin.length = lines.reverse ->
        lines.take (lines.length - begin.reverse.length) ++ begin.reverse = lines := by
    intro lines begin same
    have back := congrArg List.reverse same
    rw [List.reverse_append, List.reverse_reverse, List.drop_reverse, List.reverse_reverse] at back
    rw [List.length_reverse]
    exact back
  exact ⟨turned sameOld, turned sameNew⟩

/-- A comparison leads from the one list to the other, wherever it is cut.
The search for the cuts decides how short the script is, and not whether it is
right. -/
theorem leads_compareLines (old new : List Line) : Leads (compareLines old new) old new := by
  fun_induction compareLines old new with
  | case1 old new head oldRest newRest tail oldCore newCore core front behind =>
      have isCore : Leads core oldCore newCore := by
        unfold core
        split
        · rename_i noNew
          rw [List.isEmpty_iff.mp noNew]
          exact .block ⟨.delete, oldCore⟩
        · split
          · rename_i noOld
            rw [List.isEmpty_iff.mp noOld]
            exact .block ⟨.insert, newCore⟩
          · split
            · rename_i left right found
              have whole := (front left right found).append (behind left right found)
              rw [List.take_append_drop, List.take_append_drop] at whole
              exact whole
            · exact ⟨List.append_nil _, List.append_nil _⟩
      have whole := ((Leads.block ⟨.equal, head⟩).append isCore).append (.block ⟨.equal, tail⟩)
      rcases commonPrefix_append_drop old new with ⟨sameOld, sameNew⟩
      rcases take_append_commonSuffix oldRest newRest with ⟨restOld, restNew⟩
      have isOld : head ++ oldCore ++ tail = old := by
        rw [List.append_assoc]
        exact (congrArg (head ++ ·) restOld).trans sameOld
      have isNew : head ++ newCore ++ tail = new := by
        rw [List.append_assoc]
        exact (congrArg (head ++ ·) restNew).trans sameNew
      exact ⟨whole.1.trans isOld, whole.2.trans isNew⟩

end

/-! ## Moving blocks -/

/-- Whether two scripts lead from the same list to the same list.  What they
say of single lines may differ. -/
def Agrees (first second : Script Line) : Prop :=
  first.old = second.old ∧ first.new = second.new

namespace Agrees

variable {first second third : Script Line}

theorem refl (script : Script Line) : Agrees script script := ⟨rfl, rfl⟩

theorem trans (left : Agrees first second) (right : Agrees second third) : Agrees first third :=
  ⟨left.1.trans right.1, left.2.trans right.2⟩

theorem behind (front : Script Line) (agrees : Agrees first second) :
    Agrees (front ++ first) (front ++ second) := by
  simp only [Agrees, Script.old_append, Script.new_append, agrees.1, agrees.2, and_self]

theorem before (agrees : Agrees first second) (rest : Script Line) :
    Agrees (first ++ rest) (second ++ rest) := by
  simp only [Agrees, Script.old_append, Script.new_append, agrees.1, agrees.2, and_self]

theorem merge (kind : BlockKind) (first second : List Line) (rest : Script Line) :
    Agrees (⟨kind, first ++ second⟩ :: rest) (⟨kind, first⟩ :: ⟨kind, second⟩ :: rest) := by
  cases kind <;> simp [Agrees, Block.old, Block.new]

/-- A deletion and an insertion may change places. -/
theorem swap {first second : Block Line} (differ : first.kind ≠ second.kind)
    (changes : first.kind ≠ .equal ∧ second.kind ≠ .equal) (rest : Script Line) :
    Agrees (second :: first :: rest) (first :: second :: rest) := by
  rcases first with ⟨firstKind, firstLines⟩
  rcases second with ⟨secondKind, secondLines⟩
  cases firstKind <;> cases secondKind <;> simp_all [Agrees, Block.old, Block.new]

theorem prependEqual (lines : List Line) (script : Script Line) :
    Agrees (Script.prependEqual lines script) (⟨.equal, lines⟩ :: script) := by
  unfold Script.prependEqual
  split
  · exact merge .equal lines _ _
  · exact .refl _

theorem appendEqualReversed (lines : List Line) (script : Script Line) :
    Agrees (Script.appendEqualReversed lines script).reverse
      (script.reverse ++ [⟨.equal, lines⟩]) := by
  unfold Script.appendEqualReversed
  split
  · simp only [List.reverse_cons, List.append_assoc, List.singleton_append]
    exact (merge .equal _ lines []).behind _
  · rw [List.reverse_cons]
    exact .refl _

/-- A block without lines says nothing. -/
theorem dropEmpty (kind : BlockKind) (rest : Script Line) : Agrees rest (⟨kind, []⟩ :: rest) := by
  cases kind <;> exact ⟨rfl, rfl⟩

variable [DecidableEq Line] {block : Block Line}

/-- A deletion or insertion moves up past equal lines. -/
theorem up (changes : block.kind ≠ .equal) (lines : List Line) (rest : Script Line) :
    Agrees (⟨.equal, lines.take (lines.length - Focus.movableUp block lines)⟩ ::
        ⟨block.kind, lines.drop (lines.length - Focus.movableUp block lines) ++
          block.lines.take (block.lines.length - Focus.movableUp block lines)⟩ ::
        ⟨.equal, lines.drop (lines.length - Focus.movableUp block lines)⟩ :: rest)
      (⟨.equal, lines⟩ :: block :: rest) := by
  rcases block with ⟨kind, inserted⟩
  cases kind with
  | equal => exact absurd rfl changes
  | delete => simp [Agrees, Block.old, Block.new, Focus.movableUp]
  | insert =>
      rcases take_append_commonSuffix lines inserted with ⟨sameLines, sameInserted⟩
      have count : Focus.movableUp ⟨.insert, inserted⟩ lines =
          (commonSuffix lines inserted).length := if_pos rfl
      have moved : lines.drop (lines.length - (commonSuffix lines inserted).length) =
          commonSuffix lines inserted :=
        List.append_cancel_left ((List.take_append_drop _ lines).trans sameLines.symm)
      rw [count, moved]
      constructor
      · simp only [Script.old_cons, Block.old, List.nil_append]
        rw [← List.append_assoc, sameLines]
      · simp only [Script.new_cons, Block.new, List.append_assoc]
        rw [← List.append_assoc, sameLines, ← List.append_assoc _ _ rest.new, sameInserted]

/-- A deletion or insertion moves down past equal lines. -/
theorem down (changes : block.kind ≠ .equal) (lines : List Line) (rest : Script Line) :
    Agrees (⟨.equal, lines.take (Focus.movableDown block lines)⟩ ::
        ⟨block.kind, block.lines.drop (Focus.movableDown block lines) ++
          lines.take (Focus.movableDown block lines)⟩ ::
        ⟨.equal, lines.drop (Focus.movableDown block lines)⟩ :: rest)
      (block :: ⟨.equal, lines⟩ :: rest) := by
  rcases block with ⟨kind, inserted⟩
  cases kind with
  | equal => exact absurd rfl changes
  | delete => simp [Agrees, Block.old, Block.new, Focus.movableDown]
  | insert =>
      rcases commonPrefix_append_drop lines inserted with ⟨sameLines, sameInserted⟩
      have count : Focus.movableDown ⟨.insert, inserted⟩ lines =
          (commonPrefix lines inserted).length := if_pos rfl
      have moved : lines.take (commonPrefix lines inserted).length =
          commonPrefix lines inserted :=
        List.append_cancel_right ((List.take_append_drop _ lines).trans sameLines.symm)
      rw [count, moved]
      constructor
      · simp only [Script.old_cons, Block.old, List.nil_append]
        rw [← List.append_assoc, sameLines]
      · simp only [Script.new_cons, Block.new, List.append_assoc]
        rw [← List.append_assoc, sameInserted, ← List.append_assoc _ _ rest.new, sameLines]

end Agrees

namespace Focus

variable [DecidableEq Line]

def script (focus : Focus Line) : Script Line :=
  focus.before.reverse ++ focus.block :: focus.after

theorem agrees_up {block : Block Line} {after before : Script Line}
    (changes : block.kind ≠ .equal) :
    (up block after before).block.kind = block.kind ∧
      Agrees (up block after before).script (before.reverse ++ block :: after) := by
  fun_induction up block after before with
  | case1 block after => exact ⟨rfl, .refl _⟩
  | case2 block after previous before same ih =>
      rcases ih changes with ⟨sameKind, agrees⟩
      refine ⟨sameKind, agrees.trans ?_⟩
      rw [List.reverse_cons, List.append_assoc]
      apply Agrees.behind
      rcases previous with ⟨kind, lines⟩
      subst same
      exact .merge block.kind lines block.lines after
  | case3 block after previous before differ change ih =>
      rcases ih changes with ⟨sameKind, agrees⟩
      refine ⟨sameKind, agrees.trans ?_⟩
      rw [List.reverse_cons, List.append_assoc]
      exact (Agrees.swap differ ⟨change, changes⟩ after).behind _
  | case4 block after previous before differ equal count all ih =>
      rcases previous with ⟨kind, lines⟩
      have isEqual : kind = .equal := Classical.not_not.mp equal
      subst isEqual
      rcases ih changes with ⟨sameKind, agrees⟩
      refine ⟨sameKind, agrees.trans ?_⟩
      have whole : lines.length - count = 0 := Nat.sub_eq_zero_of_le all
      have moves := Agrees.up changes lines after
      rw [show Focus.movableUp block lines = count from rfl, whole, List.take_zero,
        List.drop_zero] at moves
      have kept : Agrees (if lines.isEmpty = true then after else Script.prependEqual lines after)
          (⟨.equal, lines⟩ :: after) := by
        split
        · rename_i noLines
          rw [List.isEmpty_iff.mp noLines]
          exact .dropEmpty .equal after
        · exact .prependEqual lines after
      rw [List.reverse_cons, List.append_assoc]
      apply Agrees.behind
      exact ((kept.behind [_]).trans (.dropEmpty .equal _)).trans moves
  | case5 block after previous before differ equal count notAll none =>
      exact ⟨rfl, .refl _⟩
  | case6 block after previous before differ equal count notAll some kept moved ih =>
      rcases previous with ⟨kind, lines⟩
      have isEqual : kind = .equal := Classical.not_not.mp equal
      subst isEqual
      rcases ih changes with ⟨sameKind, agrees⟩
      refine ⟨sameKind, agrees.trans ?_⟩
      rw [List.reverse_cons, List.reverse_cons, List.append_assoc, List.append_assoc]
      apply Agrees.behind
      exact ((Agrees.prependEqual moved after).behind [_, _]).trans (.up changes lines after)

theorem agrees_down {before : Script Line} {block : Block Line} {after : Script Line}
    (changes : block.kind ≠ .equal) :
    (down before block after).block.kind = block.kind ∧
      Agrees (down before block after).script (before.reverse ++ block :: after) := by
  fun_induction down before block after with
  | case1 before block => exact ⟨rfl, .refl _⟩
  | case2 before block following after same ih =>
      rcases ih changes with ⟨sameKind, agrees⟩
      refine ⟨sameKind, agrees.trans ?_⟩
      apply Agrees.behind
      rcases following with ⟨kind, lines⟩
      subst same
      exact .merge block.kind block.lines lines after
  | case3 before block following after differ change ih =>
      rcases ih changes with ⟨sameKind, agrees⟩
      refine ⟨sameKind, agrees.trans ?_⟩
      rw [List.reverse_cons, List.append_assoc]
      exact (Agrees.swap (Ne.symm differ) ⟨changes, change⟩ after).behind _
  | case4 before block following after differ equal count all ih =>
      rcases following with ⟨kind, lines⟩
      have isEqual : kind = .equal := Classical.not_not.mp equal
      subst isEqual
      rcases ih changes with ⟨sameKind, agrees⟩
      refine ⟨sameKind, agrees.trans ?_⟩
      have moves := Agrees.down changes lines after
      rw [show Focus.movableDown block lines = count from rfl, List.take_of_length_le all,
        List.drop_of_length_le all] at moves
      have kept : Agrees (if lines.isEmpty = true then before
          else Script.appendEqualReversed lines before).reverse
          (before.reverse ++ [⟨.equal, lines⟩]) := by
        split
        · rename_i noLines
          rw [List.isEmpty_iff.mp noLines]
          have empty := (Agrees.dropEmpty .equal []).behind before.reverse
          rwa [List.append_nil] at empty
        · exact .appendEqualReversed lines before
      apply (kept.before _).trans
      rw [List.append_assoc]
      exact (((Agrees.dropEmpty .equal after).behind [_, _]).trans moves).behind _
  | case5 before block following after differ equal count notAll none =>
      exact ⟨rfl, .refl _⟩
  | case6 before block following after differ equal count notAll some moved ih =>
      rcases following with ⟨kind, lines⟩
      have isEqual : kind = .equal := Classical.not_not.mp equal
      subst isEqual
      rcases ih changes with ⟨sameKind, agrees⟩
      refine ⟨sameKind, agrees.trans ?_⟩
      apply ((Agrees.appendEqualReversed moved before).before _).trans
      rw [List.append_assoc]
      exact (Agrees.down changes lines after).behind _

end Focus

section

variable [DecidableEq Line]

theorem agrees_compactFrom {kind : BlockKind} (changes : kind ≠ .equal) (before : Script Line)
    (steps : Nat) (script : Script Line) :
    Agrees (Script.compactFrom kind before steps script) (before.reverse ++ script) := by
  fun_induction Script.compactFrom kind before steps script with
  | case1 before after => exact .refl _
  | case2 before steps =>
      rw [List.append_nil]
      exact .refl _
  | case3 before steps block after isKind raised lowered ih =>
      have moves : block.kind ≠ .equal := isKind ▸ changes
      rcases Focus.agrees_up moves with ⟨sameKind, agrees⟩
      have movesDown : raised.block.kind ≠ .equal := sameKind ▸ moves
      rw [List.reverse_cons, List.append_assoc] at ih
      exact (ih.trans (Focus.agrees_down movesDown).2).trans agrees
  | case4 before steps block after otherKind ih =>
      rw [List.reverse_cons, List.append_assoc] at ih
      exact ih

theorem compactFrom_of_forall_ne {kind : BlockKind} {script : Script Line}
    (others : ∀ block ∈ script, block.kind ≠ kind) (before : Script Line) (steps : Nat) :
    Script.compactFrom kind before steps script = before.reverse ++ script := by
  induction script generalizing before steps with
  | nil => cases steps <;> simp [Script.compactFrom]
  | cons block script ih =>
      rw [List.forall_mem_cons] at others
      cases steps with
      | zero => rw [Script.compactFrom]
      | succ steps =>
          rw [Script.compactFrom, if_neg others.1, ih others.2, List.reverse_cons,
            List.append_assoc, List.singleton_append]

theorem compact_of_forall_equal {script : Script Line}
    (unchanged : ∀ block ∈ script, block.kind = .equal) : script.compact = script := by
  have others {kind : BlockKind} (change : kind ≠ .equal) : ∀ block ∈ script, block.kind ≠ kind :=
    fun block member same => change (same.symm.trans (unchanged block member))
  rw [Script.compact, Script.compactKind, Script.compactKind,
    compactFrom_of_forall_ne (others (by decide)), List.reverse_nil, List.nil_append,
    compactFrom_of_forall_ne (others (by decide)), List.reverse_nil, List.nil_append]

theorem agrees_compact (script : Script Line) : Agrees script.compact script := by
  have deletions : Agrees (Script.compactKind .delete script) script :=
    agrees_compactFrom (fun same => by cases same) [] _ script
  have insertions : Agrees script.compact (Script.compactKind .delete script) :=
    agrees_compactFrom (fun same => by cases same) [] _ _
  exact insertions.trans deletions

end

/-! ## The script line by line -/

structure Entry (Line : Type) where
  kind : BlockKind
  line : Line
  deriving DecidableEq, Repr

namespace Entry

def isOf (kind : BlockKind) (entry : Entry Line) : Bool :=
  entry.kind = kind

def all (kind : BlockKind) (lines : List Line) : List (Entry Line) :=
  lines.map (mk kind)

def old (entries : List (Entry Line)) : List Line :=
  (entries.filter fun entry => !entry.isOf .insert).map line

def new (entries : List (Entry Line)) : List Line :=
  (entries.filter fun entry => !entry.isOf .delete).map line

@[simp] theorem old_nil : old ([] : List (Entry Line)) = [] := rfl

@[simp] theorem new_nil : new ([] : List (Entry Line)) = [] := rfl

@[simp] theorem old_append (left right : List (Entry Line)) :
    old (left ++ right) = old left ++ old right := by
  rw [old, List.filter_append, List.map_append, ← old, ← old]

@[simp] theorem new_append (left right : List (Entry Line)) :
    new (left ++ right) = new left ++ new right := by
  rw [new, List.filter_append, List.map_append, ← new, ← new]

@[simp] theorem old_all (kind : BlockKind) (lines : List Line) :
    old (all kind lines) = Block.old ⟨kind, lines⟩ := by
  cases kind <;> simp [old, all, isOf, Block.old, List.filter_map, Function.comp_def]

@[simp] theorem new_all (kind : BlockKind) (lines : List Line) :
    new (all kind lines) = Block.new ⟨kind, lines⟩ := by
  cases kind <;> simp [new, all, isOf, Block.new, List.filter_map, Function.comp_def]

@[simp] theorem countP_all (kind other : BlockKind) (lines : List Line) :
    (all kind lines).countP (isOf other) = if kind = other then lines.length else 0 := by
  rw [all, List.countP_map]
  split
  · rename_i same
    exact List.countP_eq_length.mpr fun _ _ => decide_eq_true same
  · rename_i differ
    exact List.countP_eq_zero.mpr fun _ _ isOther => differ (of_decide_eq_true isOther)

/-- The old lines are those that are deleted or kept, and the new ones those
that are inserted or kept. -/
theorem length_lines (entries : List (Entry Line)) :
    (old entries).length = entries.countP (isOf .delete) + entries.countP (isOf .equal) ∧
      (new entries).length = entries.countP (isOf .insert) + entries.countP (isOf .equal) := by
  induction entries with
  | nil => exact ⟨rfl, rfl⟩
  | cons entry entries ih =>
      rcases entry with ⟨kind, line⟩
      rw [← List.singleton_append, old_append, new_append, List.length_append, List.length_append,
        ih.1, ih.2]
      simp only [List.countP_append]
      have one : [mk kind line] = all kind [line] := rfl
      rw [one, old_all, new_all]
      cases kind <;> simp [Block.old, Block.new] <;> omega

/-- Entries without a change lead from a list to itself. -/
theorem old_eq_new {entries : List (Entry Line)}
    (unchanged : ∀ entry ∈ entries, entry.isOf .equal = true) : old entries = new entries := by
  have keeps {entry : Entry Line} (member : entry ∈ entries) {kind : BlockKind}
      (change : kind ≠ .equal) : (!entry.isOf kind) = true := by
    rw [Bool.not_eq_true', isOf, of_decide_eq_true (unchanged entry member)]
    exact decide_eq_false change.symm
  rw [old, new, List.filter_eq_self.mpr fun entry member => keeps member (by decide),
    List.filter_eq_self.mpr fun entry member => keeps member (by decide)]

end Entry

/-- The lines of a stretch, the deleted ones before the inserted ones. -/
def Stretch.entries : Stretch Line -> List (Entry Line)
  | .equal lines => Entry.all .equal lines
  | .change deleted inserted => Entry.all .delete deleted ++ Entry.all .insert inserted

theorem Stretch.lines_prepend (block : Block Line) (stretches : List (Stretch Line)) :
    Entry.old ((prepend block stretches).flatMap entries) =
        block.old ++ Entry.old (stretches.flatMap entries) ∧
      Entry.new ((prepend block stretches).flatMap entries) =
        block.new ++ Entry.new (stretches.flatMap entries) := by
  rcases block with ⟨kind, lines⟩
  cases stretches with
  | nil => cases kind <;> simp [prepend, entries, Block.old, Block.new]
  | cons stretch stretches =>
      cases stretch <;> cases kind <;> simp [prepend, entries, Block.old, Block.new]

theorem Stretch.lines_ofScript (script : Script Line) :
    Entry.old ((ofScript script).flatMap entries) = script.old ∧
      Entry.new ((ofScript script).flatMap entries) = script.new := by
  induction script with
  | nil => exact ⟨rfl, rfl⟩
  | cons block script ih =>
      rcases lines_prepend block (ofScript script) with ⟨sameOld, sameNew⟩
      rw [ih.1] at sameOld
      rw [ih.2] at sameNew
      exact ⟨sameOld, sameNew⟩

theorem Stretch.countP_entries (stretches : List (Stretch Line)) :
    (stretches.flatMap entries).countP (Entry.isOf .delete) =
        (stretches.flatMap deleted).length ∧
      (stretches.flatMap entries).countP (Entry.isOf .insert) =
        (stretches.flatMap inserted).length := by
  induction stretches with
  | nil => exact ⟨rfl, rfl⟩
  | cons stretch stretches ih =>
      simp only [List.flatMap_cons, List.countP_append, List.length_append, ih.1, ih.2]
      cases stretch <;> simp [entries, deleted, inserted]

section

variable [DecidableEq Line]

def lineScript (old new : List Line) : List (Entry Line) :=
  (stretches old new).flatMap Stretch.entries

theorem leads_lineScript (old new : List Line) :
    Entry.old (lineScript old new) = old ∧ Entry.new (lineScript old new) = new := by
  rcases Stretch.lines_ofScript (compareLines old new).compact with ⟨linesOld, linesNew⟩
  rcases agrees_compact (compareLines old new) with ⟨sameOld, sameNew⟩
  rcases leads_compareLines old new with ⟨isOld, isNew⟩
  exact ⟨linesOld.trans (sameOld.trans isOld), linesNew.trans (sameNew.trans isNew)⟩

theorem exists_change {old new : List Line} (differ : old ≠ new) :
    0 < ((stretches old new).flatMap Stretch.inserted).length +
      ((stretches old new).flatMap Stretch.deleted).length := by
  apply Nat.pos_of_ne_zero
  intro noLength
  rcases Stretch.countP_entries (stretches old new) with ⟨deletions, insertions⟩
  have noChange : (lineScript old new).countP (Entry.isOf .delete) = 0 ∧
      (lineScript old new).countP (Entry.isOf .insert) = 0 := by
    rw [lineScript]
    omega
  have unchanged : ∀ entry ∈ lineScript old new, entry.isOf .equal = true := by
    intro entry member
    have notDeleted := List.countP_eq_zero.mp noChange.1 entry member
    have notInserted := List.countP_eq_zero.mp noChange.2 entry member
    rcases entry with ⟨kind, line⟩
    cases kind with
    | equal => rfl
    | delete => exact absurd rfl notDeleted
    | insert => exact absurd rfl notInserted
  have same := Entry.old_eq_new unchanged
  rw [(leads_lineScript old new).1, (leads_lineScript old new).2] at same
  exact differ same

theorem lineScript_self (lines : List Line) : lineScript lines lines = Entry.all .equal lines := by
  have isHead : commonPrefix lines lines = lines := by
    induction lines with
    | nil => rfl
    | cons line lines ih => rw [commonPrefix, if_pos rfl, ih]
  have compared : compareLines lines lines = Block.script ⟨.equal, lines⟩ := by
    rw [compareLines, isHead]
    simp [commonSuffix, commonPrefix, Block.script]
  have compacted : (compareLines lines lines).compact = compareLines lines lines := by
    apply compact_of_forall_equal
    rw [compared, Block.script]
    intro block member
    split at member
    · cases member
    · rw [List.mem_singleton.mp member]
  rw [lineScript, stretches, compacted, compared, Block.script]
  cases lines with
  | nil => rfl
  | cons line lines => simp [Stretch.ofScript, Stretch.prepend, Stretch.entries]

end

theorem flatten_splitLines (text : Text) : (splitLines text).flatten = text := by
  fun_induction splitLines text with
  | case1 => rfl
  | case2 rest ih =>
      rw [List.flatten_cons, ih]
      rfl
  | case3 character rest notPair isEnd ih =>
      rw [List.flatten_cons, ih]
      rfl
  | case4 character rest notPair goesOn noLines ih =>
      rw [noLines] at ih
      rw [← ih]
      rfl
  | case5 character rest notPair goesOn line lines isLines ih =>
      rw [isLines] at ih
      rw [← ih]
      rfl

theorem Summary.filesChanged_ofTexts {before after : Text} (differ : before ≠ after)
    (chains : Nat) : (ofTexts before after chains).filesChanged = 1 := by
  have lines : splitLines before ≠ splitLines after := by
    intro same
    apply differ
    rw [← flatten_splitLines before, same, flatten_splitLines]
  exact if_pos (exists_change lines)

theorem Summary.counts_ofTexts (before after : Text) (chains : Nat) :
    (ofTexts before after chains).deletions =
        (lineScript (splitLines before) (splitLines after)).countP (Entry.isOf .delete) ∧
      (ofTexts before after chains).insertions =
        (lineScript (splitLines before) (splitLines after)).countP (Entry.isOf .insert) := by
  rcases Stretch.countP_entries (stretches (splitLines before) (splitLines after)) with
    ⟨deletions, insertions⟩
  exact ⟨deletions.symm, insertions.symm⟩

theorem Summary.filesChanged_eq_zero_iff (before after : Text) (chains : Nat) :
    (ofTexts before after chains).filesChanged = 0 ↔ before = after := by
  constructor
  · intro notCounted
    apply Classical.byContradiction
    intro differ
    rw [filesChanged_ofTexts differ] at notCounted
    cases notCounted
  · rintro rfl
    rcases counts_ofTexts before before chains with ⟨deletions, insertions⟩
    rw [lineScript_self, Entry.countP_all, if_neg (by decide)] at deletions insertions
    have noChange : ¬ 0 < (ofTexts before before chains).insertions +
        (ofTexts before before chains).deletions := by
      rw [deletions, insertions]
      exact Nat.lt_irrefl 0
    exact if_neg noChange

end FluentLog
