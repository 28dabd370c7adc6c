import FluentLog.Files
import FluentLog.Proofs.Files.Path
import Mathlib.Data.List.Nodup

namespace FluentLog

/-!
# Trees and the files in them

In a proper tree the entries of a directory have distinct names.  Its files are a finite map:
each is listed once, with the names that lead to it.

`mapFiles` changes the bytes of files and nothing else.  Every way that can be gone in a tree can
be gone in the changed tree, and ends at what has been changed there.  Writing to a file that is
there is such a change.
-/

namespace Tree

/-- Whether the entries of all directories have distinct names that can be
names of entries.  The trees of a file system are of this kind. -/
inductive IsProper : Tree -> Prop where
  | file (content : Bytes) : IsProper (.file content)
  | directory (entries : List (String × Tree)) (distinct : (entries.map Prod.fst).Nodup)
      (named : ∀ entry ∈ entries, Path.IsName entry.1)
      (proper : ∀ entry ∈ entries, entry.2.IsProper) : IsProper (.directory entries)

mutual

/-- The tree with the bytes of each file changed, by the names that lead to
it. -/
def mapFiles (change : List String -> Bytes -> Bytes) : Tree -> Tree
  | .file content => .file (change [] content)
  | .directory entries => .directory (mapEntries change entries)

/-- The entries with the bytes of all files below them changed. -/
def mapEntries (change : List String -> Bytes -> Bytes) :
    List (String × Tree) -> List (String × Tree)
  | [] => []
  | (name, tree) :: entries =>
      (name, tree.mapFiles fun names => change (name :: names)) :: mapEntries change entries

end

variable {tree : Tree} {entries : List (String × Tree)} {change : List String -> Bytes -> Bytes}

/-! ## Following names -/

theorem lookup_eq_some_iff_mem (distinct : (entries.map Prod.fst).Nodup) {name : String} :
    entries.lookup name = some tree ↔ (name, tree) ∈ entries := by
  rw [List.lookup_eq_some_iff]
  constructor
  · rintro ⟨before, after, rfl, -⟩
    exact List.mem_append_right before List.mem_cons_self
  · intro member
    rcases List.append_of_mem member with ⟨before, after, rfl⟩
    refine ⟨before, after, rfl, fun entry isBefore => ?_⟩
    rw [List.map_append, List.nodup_append] at distinct
    rw [bne_iff_ne]
    exact (distinct.2.2 entry.1 (List.mem_map_of_mem isBefore) name
      (by rw [List.map_cons]; exact List.mem_cons_self)).symm

theorem find_cons (name : String) (names : List String) :
    (directory entries).find (name :: names) =
      match entries.lookup name with
      | none => .error .notFound
      | some tree => tree.find names := rfl

/-- Names lead from a directory to what the others lead to from the entry of
the first. -/
theorem find_cons_eq_ok_iff (distinct : (entries.map Prod.fst).Nodup) {name : String}
    {names : List String} {found : Tree} :
    (directory entries).find (name :: names) = .ok found ↔
      ∃ below, (name, below) ∈ entries ∧ below.find names = .ok found := by
  simp only [find_cons, ← lookup_eq_some_iff_mem distinct]
  cases entries.lookup name <;> simp

theorem find_append (tree : Tree) (left right : List String) :
    tree.find (left ++ right) = (tree.find left).bind fun below => below.find right := by
  induction left generalizing tree with
  | nil => rw [List.nil_append, find]; rfl
  | cons name left ih =>
      cases tree with
      | file content => rfl
      | directory entries =>
          rw [List.cons_append, find_cons, find_cons]
          cases entries.lookup name with
          | none => rfl
          | some tree => exact ih tree

/-- A file is an entry of a directory, unless it is the whole tree. -/
theorem passThrough_dropLast {names : List String} {found : Tree}
    (isFound : tree.find names = .ok found) (nonempty : names ≠ []) :
    tree.passThrough names.dropLast = .ok names.dropLast := by
  rw [← List.dropLast_append_getLast nonempty, find_append] at isFound
  cases way : tree.find names.dropLast with
  | error fault =>
      rw [way] at isFound
      cases isFound
  | ok below =>
      rw [way] at isFound
      cases below with
      | file content => cases isFound
      | directory entries => rw [passThrough, way]

/-! ## Changing files -/

theorem lookup_mapEntries (change : List String -> Bytes -> Bytes)
    (entries : List (String × Tree)) (name : String) :
    (mapEntries change entries).lookup name =
      (entries.lookup name).map (mapFiles fun names => change (name :: names)) := by
  induction entries with
  | nil => rfl
  | cons entry entries ih =>
      rcases entry with ⟨other, tree⟩
      rw [mapEntries, List.lookup_cons, List.lookup_cons, ih]
      cases same : name == other with
      | false => rfl
      | true =>
          rw [beq_iff_eq.mp same]
          rfl

theorem find_mapFiles (tree : Tree) (change : List String -> Bytes -> Bytes)
    (names : List String) :
    (tree.mapFiles change).find names =
      (tree.find names).map (mapFiles fun below => change (names ++ below)) := by
  induction names generalizing tree change with
  | nil => rw [find, find]; rfl
  | cons name names ih =>
      cases tree with
      | file content =>
          rw [mapFiles]
          rfl
      | directory entries =>
          rw [mapFiles, find_cons, find_cons, lookup_mapEntries]
          cases entries.lookup name with
          | none => rfl
          | some tree => exact ih tree _

theorem find_mapFiles_file {names : List String} {content : Bytes}
    (found : tree.find names = .ok (.file content)) :
    (tree.mapFiles change).find names = .ok (.file (change names content)) := by
  rw [find_mapFiles, found, Except.map, mapFiles, List.append_nil]

theorem passThrough_mapFiles (tree : Tree) (change : List String -> Bytes -> Bytes)
    (names : List String) : (tree.mapFiles change).passThrough names = tree.passThrough names := by
  rw [passThrough, passThrough, find_mapFiles]
  cases tree.find names with
  | error fault => rfl
  | ok found =>
      cases found with
      | file content => simp only [Except.map, mapFiles]
      | directory entries => simp only [Except.map, mapFiles]

theorem resolve_mapFiles (tree : Tree) (change : List String -> Bytes -> Bytes) (path : String) :
    (tree.mapFiles change).resolve path = tree.resolve path := by
  rw [resolve, resolve]
  simp only [passThrough_mapFiles]

theorem mapEntries_congr {other : List String -> Bytes -> Bytes}
    (same : ∀ entry ∈ entries, (entry.2.mapFiles fun names => change (entry.1 :: names)) =
      entry.2.mapFiles fun names => other (entry.1 :: names)) :
    mapEntries change entries = mapEntries other entries := by
  induction entries with
  | nil => rfl
  | cons entry entries ih =>
      rw [List.forall_mem_cons] at same
      rw [mapEntries, mapEntries, ih same.2, same.1]

theorem mapFiles_congr (isProper : tree.IsProper) {other : List String -> Bytes -> Bytes}
    (same : forall names content, tree.find names = .ok (.file content) ->
      change names content = other names content) : tree.mapFiles change = tree.mapFiles other := by
  induction isProper generalizing change other with
  | file content => rw [mapFiles, mapFiles, same [] content (by rw [find])]
  | directory entries distinct named proper ih =>
      rw [mapFiles, mapFiles]
      refine congrArg directory (mapEntries_congr fun entry member => ih entry member ?_)
      intro names content found
      exact same (entry.1 :: names) content
        ((find_cons_eq_ok_iff distinct).mpr ⟨entry.2, member, found⟩)

theorem mapFiles_id (isProper : tree.IsProper) :
    (tree.mapFiles fun _ content => content) = tree := by
  induction isProper with
  | file content => rw [mapFiles]
  | directory entries distinct named proper ih =>
      have sameEntries : (mapEntries (fun _ content => content) entries) = entries := by
        clear distinct named proper
        induction entries with
        | nil => rfl
        | cons entry entries ihEntries =>
            rw [List.forall_mem_cons] at ih
            rw [mapEntries, ihEntries ih.2, ih.1]
      rw [mapFiles, sameEntries]

/-! ## Putting files -/

theorem setEntry_mapEntries {name : String} {other : List String -> Bytes -> Bytes}
    (distinct : (entries.map Prod.fst).Nodup) (isEntry : entries.lookup name = some tree)
    (elsewhere : ∀ entry ∈ entries, entry.1 ≠ name -> ∀ names,
      other (entry.1 :: names) = change (entry.1 :: names)) :
    setEntry name (tree.mapFiles fun names => other (name :: names)) (mapEntries change entries) =
      mapEntries other entries := by
  induction entries with
  | nil => cases isEntry
  | cons entry entries ih =>
      rcases entry with ⟨first, firstTree⟩
      rw [List.map_cons, List.nodup_cons] at distinct
      rw [List.forall_mem_cons] at elsewhere
      rw [List.lookup_cons] at isEntry
      rw [mapEntries, mapEntries, setEntry]
      by_cases isFirst : first = name
      · subst isFirst
        rw [beq_self_eq_true] at isEntry
        cases isEntry
        rw [if_pos rfl]
        congr 1
        apply mapEntries_congr
        intro entry member
        have differ : entry.1 ≠ first := fun same =>
          distinct.1 (List.mem_map.mpr ⟨entry, member, same⟩)
        exact congrArg entry.2.mapFiles (funext (elsewhere.2 entry member differ)).symm
      · rw [beq_false_of_ne (Ne.symm isFirst)] at isEntry
        rw [if_neg isFirst, ih distinct.2 isEntry elsewhere.2]
        congr 2
        exact congrArg firstTree.mapFiles (funext (elsewhere.1 isFirst)).symm

theorem put_mapFiles (isProper : tree.IsProper) {names : List String} {old new : Bytes}
    (found : tree.find names = .ok (.file old)) {other : List String -> Bytes -> Bytes}
    (isNew : other names old = new)
    (elsewhere : forall others, others ≠ names -> other others = change others) :
    (tree.mapFiles change).put names (.file new) = tree.mapFiles other := by
  induction names generalizing tree change other with
  | nil =>
      rw [find] at found
      cases found
      rw [mapFiles, mapFiles, put, isNew]
  | cons name names ih =>
      cases isProper with
      | file content => cases found
      | directory entries distinct named proper =>
          rcases (find_cons_eq_ok_iff distinct).mp found with ⟨below, member, foundBelow⟩
          have isEntry := (lookup_eq_some_iff_mem distinct).mpr member
          have there := @ih below (fun names => change (name :: names)) (proper _ member) foundBelow
            (fun names => other (name :: names)) isNew fun others differ =>
              elsewhere (name :: others) fun same => differ (List.cons.inj same).2
          rw [mapFiles, mapFiles, put, Tree.entries, lookup_mapEntries, isEntry,
            Option.map_some, Option.getD_some, there, setEntry_mapEntries distinct isEntry]
          exact fun entry _ notThere others =>
            elsewhere (entry.1 :: others) fun same => notThere (List.cons.inj same).1

/-! ## Reading and writing -/

theorem read_eq_ok_iff {path : String} {content : Bytes} :
    tree.read path = .ok content ↔ Path.needsDirectory path = false ∧
      ∃ names, tree.resolve path = .ok names ∧ tree.find names = .ok (.file content) := by
  rw [read, lookup]
  cases resolved : tree.resolve path with
  | error fault => simp [Except.bind]
  | ok names =>
      cases found : tree.find names with
      | error fault => simp [Except.bind, found]
      | ok below =>
          cases below with
          | directory entries => simp [Except.bind, found]
          | file other => cases needs : Path.needsDirectory path <;> simp [Except.bind, found]

theorem find_of_read {path : String} {content : Bytes} {names : List String}
    (isRead : tree.read path = .ok content) (leads : tree.resolve path = .ok names) :
    tree.find names = .ok (.file content) := by
  rcases read_eq_ok_iff.mp isRead with ⟨-, others, resolved, found⟩
  rw [leads] at resolved
  cases resolved
  exact found

theorem exists_names_of_lookup {path : String} {found : Tree}
    (isFound : tree.lookup path = .ok found) :
    path ≠ "" ∧ ∃ names, tree.resolve path = .ok names ∧ tree.find names = .ok found := by
  constructor
  · rintro rfl
    cases isFound
  · rw [lookup] at isFound
    cases resolved : tree.resolve path with
    | error fault =>
        rw [resolved] at isFound
        cases isFound
    | ok names =>
        refine ⟨names, rfl, ?_⟩
        rw [resolved, Except.bind] at isFound
        split at isFound
        · rename_i content isFile
          split at isFound
          · cases isFound
          · rw [isFile, isFound]
        · exact isFound

theorem read_mapFiles {path : String} {content : Bytes} {names : List String}
    (isRead : tree.read path = .ok content) (leads : tree.resolve path = .ok names) :
    (tree.mapFiles change).read path = .ok (change names content) :=
  read_eq_ok_iff.mpr ⟨(read_eq_ok_iff.mp isRead).1, names,
    (resolve_mapFiles tree change path).trans leads, find_mapFiles_file (find_of_read isRead leads)⟩

theorem write_mapFiles (isProper : tree.IsProper) (isDirectory : tree.isDirectory = true)
    {path : String} {names : List String} {old new : Bytes} (isRead : tree.read path = .ok old)
    (leads : tree.resolve path = .ok names) {other : List String -> Bytes -> Bytes}
    (isNew : other names old = new)
    (elsewhere : forall others, others ≠ names -> other others = change others) :
    (tree.mapFiles change).write path new = .ok (tree.mapFiles other) := by
  have found := find_of_read isRead leads
  have noDirectory := (read_eq_ok_iff.mp isRead).1
  have nonempty : names ≠ [] := by
    rintro rfl
    rw [find] at found
    cases found
    cases isDirectory
  have way : (tree.mapFiles change).passThrough names.dropLast = .ok names.dropLast := by
    rw [passThrough_mapFiles, passThrough_dropLast found nonempty]
  simp only [write, resolve_mapFiles, leads, way, find_mapFiles_file found, noDirectory,
    put_mapFiles isProper found isNew elsewhere, Bool.false_eq_true, if_false]

/-! ## Listing files -/

theorem filesOfEntries_eq_map (entries : List (String × Tree)) :
    filesOfEntries entries = entries.map fun entry => (entry.1, entry.2.files) := by
  induction entries with
  | nil => rfl
  | cons entry entries ih => rw [filesOfEntries, ih, List.map_cons]

theorem files_perm (entries : List (String × Tree)) :
    (directory entries).files.Perm (entries.flatMap fun entry =>
      entry.2.files.map fun file => (entry.1 :: file.1, file.2)) := by
  rw [files, filesOfEntries_eq_map]
  refine ((List.mergeSort_perm _ _).flatMap_right _).trans ?_
  rw [List.flatMap_map]

theorem mem_files_iff (isProper : tree.IsProper) {names : List String} {content : Bytes} :
    (names, content) ∈ tree.files ↔ tree.find names = .ok (.file content) := by
  induction names generalizing tree with
  | nil =>
      cases tree with
      | file other => simp [files, find, eq_comm]
      | directory entries =>
          rw [(files_perm entries).mem_iff]
          simp [find]
  | cons name names ih =>
      cases isProper with
      | file other => simp [files, find]
      | directory entries distinct named proper =>
          have below : (name :: names, content) ∈ (directory entries).files ↔
              ∃ tree, (name, tree) ∈ entries ∧ (names, content) ∈ tree.files := by
            rw [(files_perm entries).mem_iff]
            simp
          rw [below, find_cons_eq_ok_iff distinct]
          exact exists_congr fun tree => and_congr_right fun member => ih (proper _ member)

theorem nodup_files (isProper : tree.IsProper) : (tree.files.map Prod.fst).Nodup := by
  induction isProper with
  | file content => exact List.nodup_singleton _
  | directory entries distinct named proper ih =>
      rw [((files_perm entries).map Prod.fst).nodup_iff, List.map_flatMap, List.nodup_flatMap]
      constructor
      · intro entry member
        rw [List.map_map]
        have apart := (ih entry member).map (List.cons_injective (a := entry.1))
        rwa [List.map_map] at apart
      · refine (List.pairwise_map.mp distinct).imp fun differ => ?_
        intro names inFirst inSecond
        simp only [List.map_map, List.mem_map, Function.comp_apply] at inFirst inSecond
        rcases inFirst with ⟨file, -, rfl⟩
        rcases inSecond with ⟨other, -, same⟩
        exact differ (List.cons.inj same).1.symm

/-! ## The paths of listed files -/

/-- The path of an entry leads one name further than that of its directory. -/
theorem resolve_join (tree : Tree) {path name : String} (nonempty : path ≠ "")
    (isName : Path.IsName name) :
    tree.resolve (Path.join path name) = (tree.resolve path).map fun names => names ++ [name] := by
  have notEmpty {path : String} (nonempty : path ≠ "") : ¬ path.isEmpty = true := by
    rwa [String.isEmpty_iff]
  have oneFurther (names : List String) : Path.step names name = names ++ [name] :=
    if_neg isName.2.2.1
  rw [resolve, resolve, if_neg (notEmpty nonempty),
    if_neg (notEmpty (Path.join_ne_empty nonempty name)), Path.start_join nonempty,
    Path.parts_join nonempty isName, List.foldlM_append]
  simp only [List.foldlM_cons, List.foldlM_nil, if_neg isName.2.2.1, oneFurther]
  exact (map_eq_pure_bind _ _).symm

theorem resolve_joinAll (tree : Tree) {path : String} (nonempty : path ≠ "")
    {names : List String} (named : ∀ name ∈ names, Path.IsName name) :
    tree.resolve (Path.joinAll path names) =
      (tree.resolve path).map fun front => front ++ names := by
  induction names generalizing path with
  | nil =>
      rw [Path.joinAll, List.foldl_nil]
      cases tree.resolve path <;> simp [Except.map]
  | cons name names ih =>
      rw [List.forall_mem_cons] at named
      have further := ih (Path.join_ne_empty nonempty name) named.2
      rw [Path.joinAll] at further
      rw [Path.joinAll, List.foldl_cons, further, resolve_join tree nonempty named.1]
      cases tree.resolve path <;> simp [Except.map]

/-- What names lead to in a proper tree is proper, and they are names of
entries. -/
theorem IsProper.find (isProper : tree.IsProper) {names : List String} {found : Tree}
    (isFound : tree.find names = .ok found) :
    found.IsProper ∧ ∀ name ∈ names, Path.IsName name := by
  induction names generalizing tree with
  | nil =>
      rw [Tree.find] at isFound
      cases isFound
      exact ⟨isProper, List.forall_mem_nil _⟩
  | cons name names ih =>
      cases isProper with
      | file content => cases isFound
      | directory entries distinct named proper =>
          rcases (find_cons_eq_ok_iff distinct).mp isFound with ⟨below, member, foundBelow⟩
          rcases ih (proper _ member) foundBelow with ⟨properBelow, namedBelow⟩
          exact ⟨properBelow, List.forall_mem_cons.mpr ⟨named _ member, namedBelow⟩⟩

end Tree
end FluentLog
