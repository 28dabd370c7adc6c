import FluentLog.Files
import Mathlib.Data.List.TakeWhile

namespace FluentLog
namespace Path

/-!
# The parts of joined paths

A name of an entry is one part of a path: it has no slash in it, and it does not stand for
nothing or for the way back.  Joining such a name to the path of a directory puts it behind the
parts of that path, whether or not that path ends with a slash.

A file has the extension behind the last dot of its name.  A name that begins with its only dot
has none, like a name without a dot, and then the extension is empty.
-/

/-- Whether a text can be the name of an entry of a directory.  It is one part
of a path, and not one that stands for another directory. -/
def IsName (name : String) : Prop :=
  name ≠ "" ∧ name ≠ "." ∧ name ≠ ".." ∧ '/' ∉ name.toList

instance (name : String) : Decidable (IsName name) :=
  inferInstanceAs (Decidable (_ ∧ _))

variable {directory name : String}

/-! ## Splitting at slashes -/

theorem split_ne_nil (text : Text) : split text ≠ [] := by
  cases text with
  | nil => exact List.cons_ne_nil _ _
  | cons character text =>
      rw [split]
      split
      · exact List.cons_ne_nil _ _
      · split <;> exact List.cons_ne_nil _ _

theorem split_append_slash (left right : Text) :
    split (left ++ '/' :: right) = split left ++ split right := by
  induction left with
  | nil => rfl
  | cons character left ih =>
      rw [List.cons_append, split, split, ih]
      split
      · rfl
      · cases parts : split left with
        | nil => exact absurd parts (split_ne_nil left)
        | cons part others => rfl

theorem split_eq_singleton {text : Text} (noSlash : '/' ∉ text) : split text = [text] := by
  induction text with
  | nil => rfl
  | cons character text ih =>
      rw [List.mem_cons, not_or] at noSlash
      rw [split, if_neg (Ne.symm noSlash.1), ih noSlash.2]

theorem IsName.split (isName : IsName name) : Path.split name.toList = [name.toList] :=
  split_eq_singleton isName.2.2.2

/-- The text of a joined path: a slash stands in front of the name. -/
theorem exists_toList_join (nonempty : directory ≠ "") (name : String) :
    ∃ front, (join directory name).toList = front ++ '/' :: name.toList ∧
      (directory.toList = front ∨ directory.toList = front ++ ['/']) := by
  have notEmpty : directory.isEmpty = false := by
    rw [Bool.eq_false_iff, ne_eq, String.isEmpty_iff]
    exact nonempty
  rw [join, notEmpty]
  split
  · rename_i ends
    rcases ends with impossible | ends
    · cases impossible
    · rcases List.getLast?_eq_some_iff.mp ends with ⟨front, isFront⟩
      refine ⟨front, ?_, .inr isFront⟩
      rw [String.toList_append, isFront, List.append_assoc]
      rfl
  · refine ⟨directory.toList, ?_, .inl rfl⟩
    simp

theorem split_join (nonempty : directory ≠ "") (isName : IsName name) :
    Path.split (join directory name).toList = Path.split directory.toList ++ [name.toList] ∨
      ∃ front, Path.split (join directory name).toList = front ++ [name.toList] ∧
        Path.split directory.toList = front ++ [[]] := by
  rcases exists_toList_join nonempty name with ⟨front, isJoined, same | same⟩
  · exact .inl (by rw [isJoined, split_append_slash, isName.split, same])
  · refine .inr ⟨Path.split front, ?_, ?_⟩
    · rw [isJoined, split_append_slash, isName.split]
    · rw [same, split_append_slash]
      rfl

/-! ## Joining -/

theorem parts_join (nonempty : directory ≠ "") (isName : IsName name) :
    parts (join directory name) = parts directory ++ [name] := by
  have notEmpty : name.toList.isEmpty = false := by
    rw [List.isEmpty_eq_false_iff, ne_eq, String.toList_eq_nil_iff]
    exact isName.1
  have notDot : name.toList ≠ ['.'] := fun same => isName.2.1 (String.toList_inj.mp same)
  have kept : ([name.toList].filter fun part => !part.isEmpty && part != ['.']).map
      String.ofList = [name] := by
    rw [List.filter_cons_of_pos (by simp [notEmpty, notDot]), List.filter_nil, List.map_singleton,
      String.ofList_toList]
  rw [parts, parts]
  rcases split_join nonempty isName with same | ⟨front, same, sameDirectory⟩
  · rw [same, List.filter_append, List.map_append, kept]
  · rw [same, sameDirectory, List.filter_append, List.filter_append, List.map_append, kept]
    simp

/-- A joined path begins where the path of the directory begins. -/
theorem start_join (nonempty : directory ≠ "") (name : String) :
    start (join directory name) = start directory := by
  have sameHead : (join directory name).toList.head? = directory.toList.head? := by
    rcases exists_toList_join nonempty name with ⟨front, isJoined, same | same⟩
    · rw [isJoined, same]
      cases front with
      | nil => exact absurd (String.toList_eq_nil_iff.mp same) nonempty
      | cons => rfl
    · rw [isJoined, same]
      cases front <;> rfl
  rw [start, start, sameHead]

theorem join_ne_empty (nonempty : directory ≠ "") (name : String) : join directory name ≠ "" := by
  rcases exists_toList_join nonempty name with ⟨front, isJoined, -⟩
  intro isEmpty
  rw [isEmpty] at isJoined
  exact List.append_ne_nil_of_right_ne_nil front (List.cons_ne_nil _ _) isJoined.symm

/-- A path to which a name is joined can point at a file. -/
theorem needsDirectory_join (nonempty : directory ≠ "") (isName : IsName name) :
    needsDirectory (join directory name) = false := by
  have isLast : (Path.split (join directory name).toList).getLast? = some name.toList := by
    rcases split_join nonempty isName with same | ⟨front, same, -⟩ <;>
      rw [same, List.getLast?_concat]
  have notDots {dots : String} (other : name ≠ dots) : name.toList ≠ dots.toList :=
    fun same => other (String.toList_inj.mp same)
  rw [needsDirectory, isLast]
  have notEmpty := notDots isName.1
  have notDot := notDots isName.2.1
  have notBack := notDots isName.2.2.1
  simp_all

theorem needsDirectory_joinAll (nonempty : directory ≠ "") {names : List String}
    (named : ∀ name ∈ names, IsName name) (goesFurther : names ≠ []) :
    needsDirectory (joinAll directory names) = false := by
  induction names generalizing directory with
  | nil => exact absurd rfl goesFurther
  | cons name names ih =>
      rw [List.forall_mem_cons] at named
      rw [joinAll, List.foldl_cons]
      cases names with
      | nil => exact needsDirectory_join nonempty named.1
      | cons => exact ih (join_ne_empty nonempty name) named.2 (List.cons_ne_nil _ _)

theorem parts_joinAll (nonempty : directory ≠ "") {names : List String}
    (named : ∀ name ∈ names, IsName name) :
    parts (joinAll directory names) = parts directory ++ names := by
  induction names generalizing directory with
  | nil => rw [joinAll, List.foldl_nil, List.append_nil]
  | cons name names ih =>
      rw [List.forall_mem_cons] at named
      have further := ih (join_ne_empty nonempty name) named.2
      rw [parts_join nonempty named.1, List.append_assoc, List.singleton_append] at further
      exact further

/-! ## Extensions -/

/-- Whether a file name has an extension.  The empty one is also that of a
name in which no dot stands behind another character. -/
def IsExtension (extension name : String) : Prop :=
  (∃ stem, stem ≠ [] ∧ '.' ∉ extension.toList ∧
    name.toList = stem ++ '.' :: extension.toList) ∨
  (extension = "" ∧ forall stem rest, name.toList = stem ++ '.' :: rest -> stem = [])

theorem extensionOfName_of_lastDot {stem rest : Text} (noDot : '.' ∉ rest)
    (isName : name.toList = stem ++ '.' :: rest) :
    extensionOfName name = if stem = [] then none else some (String.ofList rest) := by
  have isReversed : name.toList.reverse = rest.reverse ++ '.' :: stem.reverse := by
    rw [isName, List.reverse_append, List.reverse_cons, List.append_assoc, List.singleton_append]
  have passes : ∀ character ∈ rest.reverse, (character != '.') = true := by
    intro character member
    rw [bne_iff_ne]
    rintro rfl
    exact noDot (List.mem_reverse.mp member)
  have behind : name.toList.reverse.dropWhile (· != '.') = '.' :: stem.reverse := by
    rw [isReversed, List.dropWhile_append_of_pos passes]
    rfl
  have front : name.toList.reverse.takeWhile (· != '.') = rest.reverse := by
    rw [isReversed, List.takeWhile_append_of_pos passes]
    exact List.append_nil _
  rw [extensionOfName, behind, front, List.reverse_reverse]
  cases stem with
  | nil => rfl
  | cons character stem =>
      rw [if_neg (List.cons_ne_nil _ _), List.reverse_cons]
      cases stem.reverse <;> rfl

theorem extensionOfName_of_noDot (noDot : '.' ∉ name.toList) : extensionOfName name = none := by
  have behind : name.toList.reverse.dropWhile (· != '.') = [] := by
    rw [List.dropWhile_eq_nil_iff]
    intro character member
    rw [bne_iff_ne]
    rintro rfl
    exact noDot (List.mem_reverse.mp member)
  rw [extensionOfName, behind]

theorem exists_lastDot {text : Text} (hasDot : '.' ∈ text) :
    ∃ stem rest, '.' ∉ rest ∧ text = stem ++ '.' :: rest := by
  rcases List.eq_append_cons_of_mem (List.mem_reverse.mpr hasDot) with
    ⟨rest, stem, isReversed, noDot⟩
  refine ⟨stem.reverse, rest.reverse, fun member => noDot (List.mem_reverse.mp member), ?_⟩
  rw [← List.reverse_reverse text, isReversed, List.reverse_append, List.reverse_cons,
    List.append_assoc, List.singleton_append]

theorem isExtension_iff {extension : String} :
    IsExtension extension name ↔ extension = (extensionOfName name).getD "" := by
  constructor
  · rintro (⟨stem, nonempty, noDot, isName⟩ | ⟨rfl, noStem⟩)
    · rw [extensionOfName_of_lastDot noDot isName, if_neg nonempty, String.ofList_toList]
      rfl
    · by_cases hasDot : '.' ∈ name.toList
      · rcases exists_lastDot hasDot with ⟨stem, rest, noDot, isName⟩
        rw [extensionOfName_of_lastDot noDot isName, if_pos (noStem stem rest isName)]
        rfl
      · rw [extensionOfName_of_noDot hasDot]
        rfl
  · rintro rfl
    by_cases hasDot : '.' ∈ name.toList
    · rcases exists_lastDot hasDot with ⟨stem, rest, noDot, isName⟩
      rw [extensionOfName_of_lastDot noDot isName]
      split
      · rename_i noStem
        refine .inr ⟨rfl, fun front behind isOther => ?_⟩
        subst noStem
        rw [isName, List.nil_append] at isOther
        cases front with
        | nil => rfl
        | cons first front =>
            rw [(List.cons.inj isOther).2] at noDot
            exact absurd (List.mem_append_right front List.mem_cons_self) noDot
      · rename_i hasStem
        refine .inl ⟨stem, hasStem, ?_, ?_⟩
        · rw [Option.getD_some, String.toList_ofList]
          exact noDot
        · rw [Option.getD_some, String.toList_ofList]
          exact isName
    · rw [extensionOfName_of_noDot hasDot]
      refine .inr ⟨rfl, fun stem rest isName => ?_⟩
      rw [isName] at hasDot
      exact absurd (List.mem_append_right stem List.mem_cons_self) hasDot

end Path
end FluentLog
