import FluentLog.Files
import FluentLog.Proofs.Files.Tree
import FluentLog.Proofs.Text.Utf8

namespace FluentLog

/-!
# Which files a selection chooses

The files below a path are listed in the order of their names, and a selection keeps those whose
extension and relative path it wants.
-/

/-!
## The files that are chosen

Every path that a selection chooses leads to a file that can be read, and two of them lead to
different files.  A run may therefore look at the files one by one: what it writes to one of them
is not what it reads from another.
-/

namespace Tree

/-- The names that lead to where the paths point, for those that point
anywhere. -/
def filesAt (tree : Tree) (paths : List String) : List (List String) :=
  paths.filterMap fun path => (tree.resolve path).toOption

/-- Whether the paths lead to files, each to one of its own.  Writing to one
of them leaves the others as they are. -/
structure Addresses (tree : Tree) (paths : List String) : Prop where
  readable : ∀ path ∈ paths, ∃ content, tree.read path = .ok content
  distinct : (tree.filesAt paths).Nodup

variable {tree : Tree} {path root : String} {paths : List String}

theorem filesAt_cons {names : List String} (leads : tree.resolve path = .ok names) :
    tree.filesAt (path :: paths) = names :: tree.filesAt paths :=
  List.filterMap_cons_some (by rw [leads]; rfl)

/-- The first of the paths leads to a file, and none of the others leads
there. -/
theorem Addresses.exists_of_cons (addresses : tree.Addresses (path :: paths)) :
    ∃ names content, tree.resolve path = .ok names ∧ tree.read path = .ok content ∧
      names ∉ tree.filesAt paths ∧ tree.Addresses paths := by
  rcases addresses with ⟨readable, distinct⟩
  rw [List.forall_mem_cons] at readable
  rcases readable.1 with ⟨content, isRead⟩
  rcases read_eq_ok_iff.mp isRead with ⟨-, names, leads, -⟩
  rw [filesAt_cons leads, List.nodup_cons] at distinct
  exact ⟨names, content, leads, isRead, distinct.1, readable.2, distinct.2⟩

theorem Addresses.perm {order : List String} (addresses : tree.Addresses paths)
    (same : order.Perm paths) : tree.Addresses order where
  readable := fun path member => addresses.readable path (same.mem_iff.mp member)
  distinct := (same.filterMap _).nodup_iff.mpr addresses.distinct

theorem IsProper.exists_joinAll (isProper : tree.IsProper) {entries : List (String × Tree)}
    (isFound : tree.lookup root = .ok (.directory entries)) :
    ∃ base, forall names content, (Tree.directory entries).find names = .ok (.file content) ->
      tree.resolve (Path.joinAll root names) = .ok (base ++ names) ∧
        tree.read (Path.joinAll root names) = .ok content := by
  rcases exists_names_of_lookup isFound with ⟨nonempty, base, leads, found⟩
  refine ⟨base, fun names content isFile => ?_⟩
  have named := ((isProper.find found).1.find isFile).2
  have goesFurther : names ≠ [] := by
    rintro rfl
    cases isFile
  have leadsThere : tree.resolve (Path.joinAll root names) = .ok (base ++ names) := by
    rw [resolve_joinAll tree nonempty named, leads]
    rfl
  refine ⟨leadsThere, read_eq_ok_iff.mpr
    ⟨Path.needsDirectory_joinAll nonempty named goesFurther, base ++ names, leadsThere, ?_⟩⟩
  rw [find_append, found]
  exact isFile

theorem IsProper.addresses (isProper : tree.IsProper) {entries : List (String × Tree)}
    (isFound : tree.lookup root = .ok (.directory entries)) {chosen : List (List String)}
    (sublist : chosen.Sublist ((Tree.directory entries).files.map Prod.fst)) :
    tree.Addresses (chosen.map (Path.joinAll root)) := by
  have properBelow : (Tree.directory entries).IsProper := by
    rcases exists_names_of_lookup isFound with ⟨-, base, -, found⟩
    exact (isProper.find found).1
  rcases isProper.exists_joinAll isFound with ⟨base, below⟩
  have there : ∀ names ∈ chosen, ∃ content,
      tree.resolve (Path.joinAll root names) = .ok (base ++ names) ∧
        tree.read (Path.joinAll root names) = .ok content := by
    intro names member
    rcases List.mem_map.mp (sublist.subset member) with ⟨⟨_, content⟩, isFile, rfl⟩
    exact ⟨content, below _ content ((mem_files_iff properBelow).mp isFile)⟩
  constructor
  · intro path member
    rcases List.mem_map.mp member with ⟨names, isChosen, rfl⟩
    rcases there names isChosen with ⟨content, -, isRead⟩
    exact ⟨content, isRead⟩
  · have places : tree.filesAt (chosen.map (Path.joinAll root)) =
        chosen.map fun names => base ++ names := by
      rw [filesAt, List.filterMap_map, ← List.filterMap_eq_map]
      apply List.filterMap_congr
      intro names member
      rcases there names member with ⟨content, leads, -⟩
      rw [Function.comp_apply, leads]
      rfl
    rw [places]
    exact (sublist.nodup (nodup_files properBelow)).map (List.append_right_injective base)

end Tree

namespace Selection

/-- A selection chooses files of their own, if the root is found and the globs
are valid. -/
theorem exists_collect (selection : Selection) {tree found : Tree} {root : String}
    (isProper : tree.IsProper) (isFound : tree.lookup root = .ok found)
    {includes excludes : List Glob.Pattern}
    (validIncludes : Glob.patterns selection.includes = .ok includes)
    (validExcludes : Glob.patterns selection.excludes = .ok excludes) :
    ∃ paths, selection.collect tree root = .ok paths ∧ tree.Addresses paths := by
  rw [collect, isFound]
  cases found with
  | file content =>
      have isRead : tree.read root = .ok content := by rw [Tree.read, isFound]
      rcases Tree.read_eq_ok_iff.mp isRead with ⟨-, names, leads, -⟩
      refine ⟨[root], rfl, ?_, ?_⟩
      · intro path member
        rw [List.mem_singleton.mp member]
        exact ⟨content, isRead⟩
      · rw [Tree.filesAt_cons leads]
        exact List.nodup_singleton names
  | directory entries =>
      simp only [validIncludes, validExcludes]
      exact ⟨_, rfl, isProper.addresses isFound (List.filter_sublist)⟩

end Selection

/-!
## The order of files

A tree lists its files directory by directory, and only the entries of one directory are
sorted.  That is enough for one order of all files, in which their names are compared one
after the other, each by its bytes: files and directories are sorted together, and all that
lies below a directory comes between the entries on either side of it.
-/

namespace Path

/-- Whether a name comes before another in byte order. -/
def NamePrecedes (first second : String) : Prop :=
  List.Lex (· < ·) (Utf8.ofString first) (Utf8.ofString second)

/-- Whether names come before others: by the first name in which they differ.
The directory around two files comes before both. -/
def NamesPrecede (first second : List String) : Prop :=
  List.Lex NamePrecedes first second

/-- Whether a path comes before another, component by component. -/
def Precedes (first second : String) : Prop :=
  NamesPrecede (parts first) (parts second)

instance (first second : String) : Decidable (NamePrecedes first second) :=
  inferInstanceAs (Decidable (List.Lex _ _ _))

instance (first second : List String) : Decidable (NamesPrecede first second) :=
  inferInstanceAs (Decidable (List.Lex _ _ _))

instance (first second : String) : Decidable (Precedes first second) :=
  inferInstanceAs (Decidable (NamesPrecede _ _))

theorem not_namePrecedes_self (name : String) : ¬ NamePrecedes name name :=
  List.lt_irrefl _

theorem NamesPrecede.ne {first second : List String} (precedes : NamesPrecede first second) :
    first ≠ second := by
  rintro rfl
  induction first with
  | nil => cases precedes
  | cons name names ih =>
      cases precedes with
      | rel before => exact not_namePrecedes_self name before
      | cons behind => exact ih behind

theorem NamesPrecede.append_left {first second : List String}
    (precedes : NamesPrecede first second) (front : List String) :
    NamesPrecede (front ++ first) (front ++ second) := by
  induction front with
  | nil => exact precedes
  | cons name front ih => exact .cons ih

end Path

namespace Tree

theorem nameLE_trans (first second third : String) (before : nameLE first second = true)
    (behind : nameLE second third = true) : nameLE first third = true := by
  simp only [nameLE, decide_eq_true_eq] at before behind ⊢
  exact List.le_trans before behind

theorem nameLE_total (first second : String) :
    (nameLE first second || nameLE second first) = true := by
  simp only [nameLE, Bool.or_eq_true, decide_eq_true_eq]
  exact List.le_total _ _

/-- Of different names in byte order, the first precedes the second. -/
theorem namePrecedes_of_nameLE {first second : String} (before : nameLE first second = true)
    (differ : first ≠ second) : Path.NamePrecedes first second := by
  simp only [nameLE, decide_eq_true_eq] at before
  exact Std.lt_of_le_of_ne before (Utf8.ofString_ne differ)

/-- The entries of a directory are sorted by their names, none of which occurs
twice. -/
theorem pairwise_sorted {α : Type} {entries : List (String × α)}
    (distinct : (entries.map Prod.fst).Nodup) :
    (entries.mergeSort fun first second => nameLE first.1 second.1).Pairwise
      fun first second => Path.NamePrecedes first.1 second.1 := by
  have sorted := List.pairwise_mergeSort
    (fun first second third : String × α => nameLE_trans first.1 second.1 third.1)
    (fun first second => nameLE_total first.1 second.1) entries
  have apart : (entries.mergeSort fun first second => nameLE first.1 second.1).Pairwise
      fun first second => first.1 ≠ second.1 := by
    rw [← List.pairwise_map]
    exact (((List.mergeSort_perm entries _).map Prod.fst).nodup_iff).mpr distinct
  exact (sorted.and apart).imp fun both => namePrecedes_of_nameLE both.1 both.2

theorem pairwise_files {tree : Tree} (isProper : tree.IsProper) :
    (tree.files.map Prod.fst).Pairwise Path.NamesPrecede := by
  induction isProper with
  | file content => exact List.pairwise_singleton _ _
  | directory entries distinct named proper ih =>
      rw [files, filesOfEntries_eq_map, List.map_flatMap, List.pairwise_flatMap]
      constructor
      · -- below one entry
        rintro ⟨name, below⟩ member
        rw [List.mem_mergeSort, List.mem_map] at member
        rcases member with ⟨entry, isEntry, same⟩
        cases same
        rw [List.map_map, List.pairwise_map]
        exact (List.pairwise_map.mp (ih entry isEntry)).imp fun precedes => .cons precedes
      · -- below two of them
        have distinctNames : ((entries.map fun entry => (entry.1, entry.2.files)).map
            Prod.fst).Nodup := by
          rw [List.map_map]
          exact distinct
        refine (pairwise_sorted distinctNames).imp fun {first second} precedes => ?_
        rintro _ inFirst _ inSecond
        simp only [List.map_map, List.mem_map, Function.comp_apply] at inFirst inSecond
        rcases inFirst with ⟨file, -, rfl⟩
        rcases inSecond with ⟨other, -, rfl⟩
        exact .rel precedes

end Tree

/-!
## What a selection asks for

A selection asks for a file by its extension and by what globs say of its path below the
root.  The main statement is that it gets exactly the files it asks for, each once and in the
order of their paths, and that one more glob to exclude takes some of them away and leaves
the others where they are.
-/

/-! ### Globs -/

namespace Glob

def IsValid (glob : String) : Prop :=
  ∃ found, pattern glob = .ok found

def Matches (glob path : String) : Prop :=
  ∃ found, pattern glob = .ok found ∧ found.matchesAll (Utf8.ofString path) = true

variable {glob path : String} {globs : List String} {found : List Pattern}

theorem patterns_cons_eq_ok_iff :
    patterns (glob :: globs) = .ok found ↔
      ∃ first others, pattern glob = .ok first ∧ patterns globs = .ok others ∧
        found = first :: others := by
  rw [patterns]
  cases pattern glob with
  | error problem => simp
  | ok first =>
      cases patterns globs with
      | error problem => simp
      | ok others => simp [eq_comm]

theorem exists_patterns (valid : ∀ glob ∈ globs, IsValid glob) :
    ∃ found, patterns globs = .ok found := by
  induction globs with
  | nil => exact ⟨[], rfl⟩
  | cons glob globs ih =>
      rw [List.forall_mem_cons] at valid
      rcases valid with ⟨⟨first, isFirst⟩, validOthers⟩
      rcases ih validOthers with ⟨others, areOthers⟩
      exact ⟨first :: others, patterns_cons_eq_ok_iff.mpr ⟨first, others, isFirst, areOthers, rfl⟩⟩

theorem patterns_append {others : List String} {foundOthers : List Pattern}
    (areFound : patterns globs = .ok found) (areOthers : patterns others = .ok foundOthers) :
    patterns (globs ++ others) = .ok (found ++ foundOthers) := by
  induction globs generalizing found with
  | nil =>
      cases areFound
      exact areOthers
  | cons glob globs ih =>
      rcases patterns_cons_eq_ok_iff.mp areFound with ⟨first, behind, isFirst, areBehind, rfl⟩
      exact patterns_cons_eq_ok_iff.mpr ⟨first, _, isFirst, ih areBehind, rfl⟩

theorem isEmpty_patterns (areFound : patterns globs = .ok found) :
    found.isEmpty = true ↔ globs = [] := by
  cases globs with
  | nil =>
      cases areFound
      simp
  | cons glob globs =>
      rcases patterns_cons_eq_ok_iff.mp areFound with ⟨first, others, -, -, rfl⟩
      simp

theorem any_matchesAll_iff (areFound : patterns globs = .ok found) (path : String) :
    (found.any fun pattern => pattern.matchesAll (Utf8.ofString path)) = true ↔
      ∃ glob ∈ globs, Matches glob path := by
  induction globs generalizing found with
  | nil =>
      cases areFound
      simp
  | cons glob globs ih =>
      rcases patterns_cons_eq_ok_iff.mp areFound with ⟨first, others, isFirst, areOthers, rfl⟩
      have here : Matches glob path ↔ first.matchesAll (Utf8.ofString path) = true := by
        simp [Matches, isFirst]
      rw [List.any_cons, Bool.or_eq_true, ih areOthers, ← here, List.exists_mem_cons_iff]

end Glob

/-! ### Choosing -/

namespace Selection

/-- Whether a selection asks for the file of a name in the directory that the
names in front lead to.  Where it names no extensions, or no globs to include,
it asks for all. -/
structure AsksFor (selection : Selection) (directories : List String) (name : String) : Prop where
  extension : selection.extensions = [] ∨ ∃ extension ∈ selection.extensions, ∃ own,
    Path.IsExtension own name ∧ Path.equalsIgnoringCase own extension = true
  included : selection.includes = [] ∨
    ∃ glob ∈ selection.includes, Glob.Matches glob (Path.relative (directories ++ [name]))
  notExcluded : ¬ ∃ glob ∈ selection.excludes,
    Glob.Matches glob (Path.relative (directories ++ [name]))

variable {selection : Selection} {includes excludes : List Glob.Pattern}

theorem hasExtension_iff (selection : Selection) (name : String) :
    selection.hasExtension name = true ↔
      selection.extensions = [] ∨ ∃ extension ∈ selection.extensions, ∃ own,
        Path.IsExtension own name ∧ Path.equalsIgnoringCase own extension = true := by
  rw [hasExtension, Bool.or_eq_true, List.isEmpty_iff, List.any_eq_true]
  simp only [Path.isExtension_iff, exists_eq_left]

theorem passes_iff (areIncludes : Glob.patterns selection.includes = .ok includes)
    (areExcludes : Glob.patterns selection.excludes = .ok excludes) (path : String) :
    passes includes excludes path = true ↔
      (selection.includes = [] ∨ ∃ glob ∈ selection.includes, Glob.Matches glob path) ∧
        ¬ ∃ glob ∈ selection.excludes, Glob.Matches glob path := by
  rw [passes, Bool.and_eq_true, Bool.or_eq_true, Bool.not_eq_true', ← Bool.not_eq_true,
    Glob.isEmpty_patterns areIncludes, Glob.any_matchesAll_iff areIncludes,
    Glob.any_matchesAll_iff areExcludes]

theorem chooses_iff (areIncludes : Glob.patterns selection.includes = .ok includes)
    (areExcludes : Glob.patterns selection.excludes = .ok excludes) (directories : List String)
    (name : String) :
    selection.chooses includes excludes (directories ++ [name]) = true ↔
      selection.AsksFor directories name := by
  rw [chooses, Bool.and_eq_true, List.getLast?_concat, Option.getD_some, hasExtension_iff,
    passes_iff areIncludes areExcludes]
  exact ⟨fun ⟨extension, included, notExcluded⟩ => ⟨extension, included, notExcluded⟩,
    fun asks => ⟨asks.extension, asks.included, asks.notExcluded⟩⟩

theorem chooses_of_append {others : List Glob.Pattern} {more : List String} {names : List String}
    (chosen : chooses { selection with excludes := more } includes (excludes ++ others) names =
      true) : selection.chooses includes excludes names = true := by
  rw [chooses, Bool.and_eq_true, passes, Bool.and_eq_true, List.any_append, Bool.not_or,
    Bool.and_eq_true] at chosen
  rw [chooses, Bool.and_eq_true, passes, Bool.and_eq_true]
  exact ⟨chosen.1, chosen.2.1, chosen.2.2.1⟩

def chosenPaths (selection : Selection) (includes excludes : List Glob.Pattern)
    (directory : Tree) (root : String) : List String :=
  ((directory.files.map Prod.fst).filter (selection.chooses includes excludes)).map
    (Path.joinAll root)

variable {tree : Tree} {root : String} {entries : List (String × Tree)}

theorem collect_directory (isRoot : tree.lookup root = .ok (.directory entries))
    (areIncludes : Glob.patterns selection.includes = .ok includes)
    (areExcludes : Glob.patterns selection.excludes = .ok excludes) :
    selection.collect tree root =
      .ok (selection.chosenPaths includes excludes (.directory entries) root) := by
  simp only [collect, isRoot, areIncludes, areExcludes, chosenPaths]

theorem mem_chosenPaths_iff (isProper : (Tree.directory entries).IsProper)
    (areIncludes : Glob.patterns selection.includes = .ok includes)
    (areExcludes : Glob.patterns selection.excludes = .ok excludes) (path : String) :
    path ∈ selection.chosenPaths includes excludes (.directory entries) root ↔
      ∃ directories name content,
        (Tree.directory entries).find (directories ++ [name]) = .ok (.file content) ∧
          selection.AsksFor directories name ∧
          path = Path.joinAll root (directories ++ [name]) := by
  simp only [chosenPaths, List.mem_map, List.mem_filter]
  constructor
  · rintro ⟨_, ⟨⟨⟨names, content⟩, isFile, rfl⟩, chosen⟩, rfl⟩
    have isFound := (Tree.mem_files_iff isProper).mp isFile
    rcases List.eq_nil_or_concat names with rfl | ⟨directories, name, isNames⟩
    · cases isFound
    · rw [List.concat_eq_append] at isNames
      subst isNames
      exact ⟨directories, name, content, isFound,
        (chooses_iff areIncludes areExcludes directories name).mp chosen, rfl⟩
  · rintro ⟨directories, name, content, isFound, asks, rfl⟩
    exact ⟨_, ⟨⟨(directories ++ [name], content), (Tree.mem_files_iff isProper).mpr isFound, rfl⟩,
      (chooses_iff areIncludes areExcludes directories name).mpr asks⟩, rfl⟩

theorem pairwise_chosenPaths (isProper : (Tree.directory entries).IsProper) (nonempty : root ≠ "") :
    (selection.chosenPaths includes excludes (.directory entries) root).Pairwise
      Path.Precedes := by
  rw [chosenPaths, List.pairwise_map]
  refine ((Tree.pairwise_files isProper).filter _).imp_of_mem ?_
  intro first second isFirst isSecond precedes
  have named : ∀ names ∈ ((Tree.directory entries).files.map Prod.fst).filter
      (selection.chooses includes excludes), ∀ name ∈ names, Path.IsName name := by
    intro names member
    rcases List.mem_map.mp (List.mem_filter.mp member).1 with ⟨⟨_, content⟩, isFile, rfl⟩
    exact (isProper.find ((Tree.mem_files_iff isProper).mp isFile)).2
  rw [Path.Precedes, Path.parts_joinAll nonempty (named first isFirst),
    Path.parts_joinAll nonempty (named second isSecond)]
  exact precedes.append_left _

/-- Component by component is not the order of the paths as texts, where the
hyphen comes before the slash. -/
example : Path.Precedes "src/a/z.JAVA" "src/a-b.java" ∧ "src/a-b.java" < "src/a/z.JAVA" := by
  decide +kernel

def unsortedTree : Tree :=
  .directory [("src", .directory [("b.java", .file []), ("a-b.java", .file []),
    ("a", .directory [("z.JAVA", .file []), (".java", .file [])])])]

theorem isProper_unsortedTree : unsortedTree.IsProper := by
  have isProperBelow : (Tree.directory [("z.JAVA", .file []), (".java", .file [])]).IsProper := by
    refine .directory _ (by decide) (by decide) ?_
    rw [List.forall_mem_cons, List.forall_mem_singleton]
    exact ⟨.file _, .file _⟩
  refine .directory _ (by decide) (by decide) ?_
  rw [List.forall_mem_singleton]
  refine .directory _ (by decide) (by decide) ?_
  rw [List.forall_mem_cons, List.forall_mem_cons, List.forall_mem_singleton]
  exact ⟨.file _, .file _, isProperBelow⟩

end Selection

end FluentLog
