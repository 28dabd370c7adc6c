import FluentLog.Run
import FluentLog.Proofs.Chain.Difference
import FluentLog.Proofs.Chain.Slices
import FluentLog.Proofs.Diff.Script
import FluentLog.Proofs.Files.Selection

namespace FluentLog

/-!
# What a run does, and what a dry run says of it

A run finds every chosen file as it was before the run: two paths never lead to one file, and a
file is written only after it was read.  So the changes of a run can be told from the tree that
it starts with, and a dry run tells them.  The tree behind a run is the tree with the inlined
bytes in the chosen files, whatever the order of the files.

Three numbers of a run count its changes.  They agree because a text in which a chain is replaced
is another text, and because the lines of two different texts are never all equal.

All this is about runs that come to an end.  If the edits of a chain are out of order, then the
text between two of them cannot be cut out, and the run stops.  Words of a dialect that are
identifiers exclude this.
-/

variable {dialect : Dialect} {tree : Tree} {path root : String} {paths : List String}

/-! ## One file -/

/-- The bytes of a file behind a run.  If no chain is replaced in the text
that they stand for, they stay as they are, even if they form no characters. -/
def inlinedBytes (dialect : Dialect) (bytes : Bytes) : Bytes :=
  (inlineChains dialect (Utf8.encode (Utf8.decode bytes))).text bytes

/-- The change of the file that a path points at, if a chain is replaced in
it. -/
def changeAt? (dialect : Dialect) (tree : Tree) (path : String) : Option ChangedFile :=
  (tree.read path).toOption.bind (ChangedFile.ofBytes? dialect path)

/-- A change alters the text of its file, and has the inlined bytes
afterwards. -/
structure ChangedFile.IsOf (dialect : Dialect) (path : String) (bytes : Bytes)
    (change : ChangedFile) : Prop where
  path_eq : change.path = path
  altered : change.isAltered = true
  after_eq : Utf8.encode change.after = inlinedBytes dialect bytes

theorem ChangedFile.isOf_of_ofBytes? (identifiers : dialect.HasIdentifierWords) {bytes : Bytes}
    {change : ChangedFile} (isChange : ofBytes? dialect path bytes = some change) :
    change.IsOf dialect path bytes := by
  rw [ofBytes?] at isChange
  cases isInlined : inlineChains dialect (Utf8.encode (Utf8.decode bytes)) with
  | unchanged =>
      rw [isInlined] at isChange
      cases isChange
  | inlined text chains =>
      rcases exists_encode_of_inlineChains isInlined with ⟨after, rfl⟩
      have differs := ne_of_inlineChains identifiers isInlined
      rw [isInlined] at isChange
      cases isChange
      refine ⟨rfl, ?_, ?_⟩
      · rw [isAltered, bne_iff_ne, Utf8.decode_encode]
        exact fun same => differs (congrArg Utf8.encode same.symm)
      · rw [inlinedBytes, isInlined, Utf8.decode_encode]
        rfl

theorem inlinedBytes_eq_self {bytes : Bytes}
    (noChange : ChangedFile.ofBytes? dialect path bytes = none) :
    inlinedBytes dialect bytes = bytes := by
  rw [ChangedFile.ofBytes?] at noChange
  rw [inlinedBytes]
  cases isInlined : inlineChains dialect (Utf8.encode (Utf8.decode bytes)) with
  | unchanged => rfl
  | inlined text chains =>
      rw [isInlined] at noChange
      cases noChange

theorem inlinedBytes_ne_iff (identifiers : dialect.HasIdentifierWords) (path : String)
    (bytes : Bytes) : inlinedBytes dialect bytes ≠ bytes ↔
      (ChangedFile.ofBytes? dialect path bytes).isSome = true := by
  cases isChange : ChangedFile.ofBytes? dialect path bytes with
  | none => simp [inlinedBytes_eq_self isChange]
  | some change =>
      have isOf := ChangedFile.isOf_of_ofBytes? identifiers isChange
      have before : change.before = Utf8.decode bytes := by
        rw [ChangedFile.ofBytes?] at isChange
        split at isChange
        · cases isChange
        · cases isChange
          rfl
      refine iff_of_true (fun same => ?_) rfl
      have altered := bne_iff_ne.mp isOf.altered
      rw [before, ← same, ← isOf.after_eq, Utf8.decode_encode] at altered
      exact altered rfl

theorem changeAt?_of_read {bytes : Bytes} (isRead : tree.read path = .ok bytes) :
    changeAt? dialect tree path = ChangedFile.ofBytes? dialect path bytes := by
  rw [changeAt?, isRead]
  rfl

/-! ## All files -/

def RunResult.addChanges (result : RunResult) (changes : List ChangedFile) : RunResult :=
  { result with changes := result.changes ++ changes }

theorem RunResult.isDry_addChanges (result : RunResult) (changes : List ChangedFile) :
    (result.addChanges changes).isDry = result.isDry := rfl

theorem RunResult.addChanges_addChanges (result : RunResult) (first second : List ChangedFile) :
    (result.addChanges first).addChanges second = result.addChanges (first ++ second) := by
  rw [addChanges, addChanges, addChanges, List.append_assoc]

theorem filterMap_cons_eq_append (path : String) (paths : List String) :
    (path :: paths).filterMap (changeAt? dialect tree) =
      (changeAt? dialect tree path).toList ++ paths.filterMap (changeAt? dialect tree) := by
  rw [List.filterMap_cons]
  cases changeAt? dialect tree path <;> rfl

theorem runFile_dry {bytes : Bytes} (isRead : tree.read path = .ok bytes) {result : RunResult}
    (isDry : result.isDry = true) :
    runFile dialect (tree, result) path =
      (tree, result.addChanges (changeAt? dialect tree path).toList) := by
  rw [runFile, changeAt?_of_read isRead]
  simp only [isRead]
  cases ChangedFile.ofBytes? dialect path bytes with
  | none => rw [Option.toList_none, RunResult.addChanges, List.append_nil]
  | some change =>
      simp only [isDry, if_true]
      rfl

theorem foldl_runFile_dry (readable : ∀ path ∈ paths, ∃ bytes, tree.read path = .ok bytes)
    {result : RunResult} (isDry : result.isDry = true) :
    paths.foldl (runFile dialect) (tree, result) =
      (tree, result.addChanges (paths.filterMap (changeAt? dialect tree))) := by
  induction paths generalizing result with
  | nil => rw [List.foldl_nil, List.filterMap_nil, RunResult.addChanges, List.append_nil]
  | cons path paths ih =>
      rw [List.forall_mem_cons] at readable
      rcases readable.1 with ⟨bytes, isRead⟩
      rw [List.foldl_cons, runFile_dry isRead isDry,
        ih readable.2 ((result.isDry_addChanges _).trans isDry), RunResult.addChanges_addChanges,
        filterMap_cons_eq_append]

theorem runFile_mapFiles (identifiers : dialect.HasIdentifierWords) (isProper : tree.IsProper)
    (isDirectory : tree.isDirectory = true) {names : List String} {bytes : Bytes}
    (leads : tree.resolve path = .ok names) (isRead : tree.read path = .ok bytes)
    {result : RunResult} (writes : result.isDry = false)
    {change : List String -> Bytes -> Bytes} (asFound : change names bytes = bytes) :
    runFile dialect (tree.mapFiles change, result) path =
      (tree.mapFiles fun others bytes =>
          if others = names then inlinedBytes dialect bytes else change others bytes,
        result.addChanges (changeAt? dialect tree path).toList) := by
  have isReadHere : (tree.mapFiles change).read path = .ok (change names bytes) :=
    Tree.read_mapFiles isRead leads
  rw [asFound] at isReadHere
  rw [runFile, changeAt?_of_read isRead]
  simp only [isReadHere]
  cases isChange : ChangedFile.ofBytes? dialect path bytes with
  | none =>
      have sameTree : tree.mapFiles change = tree.mapFiles fun others bytes =>
          if others = names then inlinedBytes dialect bytes else change others bytes := by
        refine Tree.mapFiles_congr isProper fun others content found => ?_
        by_cases isHere : others = names
        · subst isHere
          rw [Tree.find_of_read isRead leads] at found
          cases found
          rw [if_pos rfl, asFound, inlinedBytes_eq_self isChange]
        · rw [if_neg isHere]
      rw [← sameTree, Option.toList_none, RunResult.addChanges, List.append_nil]
  | some other =>
      have isOf := ChangedFile.isOf_of_ofBytes? identifiers isChange
      have written : (tree.mapFiles change).write path (inlinedBytes dialect bytes) =
          .ok (tree.mapFiles fun others bytes =>
            if others = names then inlinedBytes dialect bytes else change others bytes) :=
        Tree.write_mapFiles isProper isDirectory isRead leads (if_pos rfl)
          fun others elsewhere => funext fun content => if_neg elsewhere
      have applied : other.apply (tree.mapFiles change) =
          .ok (tree.mapFiles fun others bytes =>
            if others = names then inlinedBytes dialect bytes else change others bytes) := by
        rw [ChangedFile.apply, if_pos isOf.altered, isOf.path_eq, isOf.after_eq, written]
      simp only [writes, applied]
      rfl

/-- A run changes the files that the paths lead to, and reports the changes
that can be told from the tree before. -/
theorem foldl_runFile (identifiers : dialect.HasIdentifierWords) (isProper : tree.IsProper)
    (isDirectory : tree.isDirectory = true) (addresses : tree.Addresses paths)
    {result : RunResult} (writes : result.isDry = false)
    {change : List String -> Bytes -> Bytes}
    (asFound : ∀ names ∈ tree.filesAt paths, forall bytes, change names bytes = bytes) :
    paths.foldl (runFile dialect) (tree.mapFiles change, result) =
      (tree.mapFiles fun names bytes =>
          if names ∈ tree.filesAt paths then inlinedBytes dialect bytes else change names bytes,
        result.addChanges (paths.filterMap (changeAt? dialect tree))) := by
  induction paths generalizing result change with
  | nil =>
      rw [List.foldl_nil, List.filterMap_nil, RunResult.addChanges, List.append_nil]
      simp only [Tree.filesAt, List.filterMap_nil, List.not_mem_nil, if_false]
  | cons path paths ih =>
      rcases addresses.exists_of_cons with ⟨names, bytes, leads, isRead, noneLater, later⟩
      rw [Tree.filesAt_cons leads] at asFound ⊢
      rw [List.forall_mem_cons] at asFound
      have stillAsFound : ∀ others ∈ tree.filesAt paths, forall bytes,
          (if others = names then inlinedBytes dialect bytes else change others bytes) = bytes := by
        intro others member bytes
        have differ : others ≠ names := fun same => noneLater (same ▸ member)
        rw [if_neg differ]
        exact asFound.2 others member bytes
      rw [List.foldl_cons, runFile_mapFiles identifiers isProper isDirectory leads isRead writes
        (asFound.1 bytes), ih later ((result.isDry_addChanges _).trans writes) stillAsFound,
        RunResult.addChanges_addChanges, filterMap_cons_eq_append]
      congr 2
      funext others bytes
      by_cases isHere : others = names
      · simp [isHere, noneLater]
      · simp [isHere]

/-- The tree with the inlined bytes in the files that the paths lead to.  All
other files, and all directories, stay as they are. -/
def inlinedTree (dialect : Dialect) (tree : Tree) (paths : List String) : Tree :=
  tree.mapFiles fun names bytes =>
    if names ∈ tree.filesAt paths then inlinedBytes dialect bytes else bytes

theorem foldl_runFile_tree (identifiers : dialect.HasIdentifierWords) (isProper : tree.IsProper)
    (isDirectory : tree.isDirectory = true) (addresses : tree.Addresses paths)
    {result : RunResult} (writes : result.isDry = false) :
    paths.foldl (runFile dialect) (tree, result) =
      (inlinedTree dialect tree paths,
        result.addChanges (paths.filterMap (changeAt? dialect tree))) := by
  have folded := @foldl_runFile dialect tree paths identifiers isProper isDirectory addresses
    result writes (fun _ bytes => bytes) fun _ _ _ => rfl
  rwa [Tree.mapFiles_id isProper] at folded

/-- The order in which a run goes over the files does not matter for the tree. -/
theorem inlinedTree_perm {order : List String} (same : order.Perm paths) :
    inlinedTree dialect tree order = inlinedTree dialect tree paths := by
  have sameFiles (names : List String) : names ∈ tree.filesAt order ↔ names ∈ tree.filesAt paths :=
    (same.filterMap _).mem_iff
  simp only [inlinedTree, sameFiles]

theorem read_inlinedTree {bytes : Bytes} (member : path ∈ paths)
    (isRead : tree.read path = .ok bytes) :
    (inlinedTree dialect tree paths).read path = .ok (inlinedBytes dialect bytes) := by
  rcases Tree.read_eq_ok_iff.mp isRead with ⟨-, names, leads, -⟩
  have isAt : names ∈ tree.filesAt paths :=
    List.mem_filterMap.mpr ⟨path, member, by rw [leads]; rfl⟩
  rw [inlinedTree, Tree.read_mapFiles isRead leads, if_pos isAt]

/-! ## Counting changes -/

/-- The numbers that count the changes of a run agree.  Every change alters
its file, so it does not matter which of them are counted. -/
structure RunResult.IsTallied (result : RunResult) : Prop where
  altered : result.filesAltered = result.changes.length
  summarized : result.summary.filesChanged = result.changes.length
  chains : result.chainsInlined = result.summary.chainsInlined

theorem filesChanged_foldl_merge {changes : List ChangedFile} {start : Summary}
    (altered : ∀ change ∈ changes, change.isAltered = true) :
    (changes.foldl (fun total change => total.merge change.summary) start).filesChanged =
      start.filesChanged + changes.length := by
  induction changes generalizing start with
  | nil => rfl
  | cons change changes ih =>
      rw [List.forall_mem_cons] at altered
      have one : change.summary.filesChanged = 1 :=
        Summary.filesChanged_ofTexts (bne_iff_ne.mp altered.1) change.chains
      rw [List.foldl_cons, ih altered.2, List.length_cons, Nat.add_comm changes.length,
        ← Nat.add_assoc, ← one]
      rfl

theorem chainsInlined_foldl_merge (changes : List ChangedFile) (start : Summary) :
    (changes.foldl (fun total change => total.merge change.summary) start).chainsInlined =
      changes.foldl (fun total change => total + change.chains) start.chainsInlined := by
  induction changes generalizing start with
  | nil => rfl
  | cons change changes ih => rw [List.foldl_cons, List.foldl_cons, ih]; rfl

theorem RunResult.isTallied {result : RunResult}
    (altered : ∀ change ∈ result.changes, change.isAltered = true) : result.IsTallied where
  altered := List.countP_eq_length.mpr altered
  summarized := by rw [summary, filesChanged_foldl_merge altered, Nat.zero_add]
  chains := (chainsInlined_foldl_merge result.changes {}).symm

/-! ## Runs -/

/-- A run over files that the settings choose comes to an end. -/
theorem runInOrder_of_hasIdentifierWords {settings : Settings}
    (identifiers : settings.dialect.HasIdentifierWords) (tree : Tree) (root : String) :
    runInOrder settings tree root = true := by
  rw [runInOrder]
  split
  · rfl
  · rw [List.all_eq_true]
    intro path _
    split
    · rfl
    · exact editsInOrder_of_hasIdentifierWords identifiers _

/-- A dry run foretells the run.  Both choose the same files, all of which can
be read, and come to an end without failures and with the same changes, namely
those of the chosen files in which a chain is replaced, in order.  The dry run
leaves the tree as it is; the run puts the inlined bytes into the chosen files
and leaves everything else as it is, in whatever order it goes over them.  The
bytes that are put into a file differ from those in it exactly if there is a
change of it.  The numbers that count the changes agree. -/
theorem run_isForetold {settings : Settings}
    (identifiers : settings.dialect.HasIdentifierWords) {tree : Tree} (isProper : tree.IsProper)
    (isDirectory : tree.isDirectory = true) {includes excludes : List Glob.Pattern}
    (validIncludes : Glob.patterns settings.includePatterns = .ok includes)
    (validExcludes : Glob.patterns settings.excludePatterns = .ok excludes) (root : String) :
    (forall fault, tree.lookup root = .error fault -> forall isDry,
      run settings isDry tree root = .error (.pathNotFound root)) ∧
    (forall found, tree.lookup root = .ok found ->
      ∃ paths, settings.selection.collect tree root = .ok paths ∧ tree.Addresses paths ∧
        runInOrder settings tree root = true ∧
        (∃ dry result : RunResult,
          run settings true tree root = .ok (tree, dry) ∧
          run settings false tree root = .ok (inlinedTree settings.dialect tree paths, result) ∧
          result = { dry with isDry := false } ∧ result.summary = dry.summary ∧
          dry.changes = paths.filterMap (changeAt? settings.dialect tree) ∧
          dry.failures = [] ∧ dry.filesScanned = paths.length ∧
          dry.IsTallied ∧ result.IsTallied) ∧
        (∀ path ∈ paths, forall bytes, tree.read path = .ok bytes ->
          (inlinedTree settings.dialect tree paths).read path =
            .ok (inlinedBytes settings.dialect bytes) ∧
          (inlinedBytes settings.dialect bytes ≠ bytes ↔
            (changeAt? settings.dialect tree path).isSome = true)) ∧
        forall (order : List String) (start : RunResult), order.Perm paths -> start.isDry = false ->
          (order.foldl (runFile settings.dialect) (tree, start)).1 =
            inlinedTree settings.dialect tree paths) := by
  constructor
  · intro fault notFound isDry
    rw [run, Selection.collect, notFound]
  · intro found isFound
    rcases settings.selection.exists_collect isProper isFound validIncludes validExcludes with
      ⟨paths, isCollected, addresses⟩
    let changes := paths.filterMap (changeAt? settings.dialect tree)
    have altered : ∀ change ∈ changes, change.isAltered = true := by
      intro change member
      rcases List.mem_filterMap.mp member with ⟨path, -, isChange⟩
      rcases Option.bind_eq_some_iff.mp isChange with ⟨bytes, -, isOfBytes⟩
      exact (ChangedFile.isOf_of_ofBytes? identifiers isOfBytes).altered
    have tallied (result : RunResult) (same : result.changes = changes) : result.IsTallied :=
      RunResult.isTallied (same ▸ altered)
    refine ⟨paths, isCollected, addresses, runInOrder_of_hasIdentifierWords identifiers tree root,
      ⟨{ changes, filesScanned := paths.length, isDry := true },
        { changes, filesScanned := paths.length, isDry := false }, ?_, ?_, rfl, rfl, rfl, rfl, rfl,
        tallied _ rfl, tallied _ rfl⟩, ?_, ?_⟩
    · rw [run, isCollected]
      exact congrArg Except.ok (foldl_runFile_dry addresses.readable rfl)
    · rw [run, isCollected]
      exact congrArg Except.ok
        (foldl_runFile_tree identifiers isProper isDirectory addresses rfl)
    · intro path member bytes isRead
      rw [changeAt?_of_read isRead]
      exact ⟨read_inlinedTree member isRead, inlinedBytes_ne_iff identifiers path bytes⟩
    · intro order start same writes
      rw [foldl_runFile_tree identifiers isProper isDirectory (addresses.perm same) writes]
      exact inlinedTree_perm same

def sourceTree : Tree :=
  .directory
    [("src", .directory [("A.java", .file (Utf8.ofString
        "log.atInfo().setMessage(\"\x7b\x7d\").addArgument(() -> \"a=\" + a).log();"))]),
      ("notes.txt", .file (Utf8.ofString "log"))]

theorem isProper_sourceTree : sourceTree.IsProper := by
  refine .directory _ (by decide) (by decide) ?_
  rw [List.forall_mem_cons, List.forall_mem_singleton]
  refine ⟨.directory _ (by decide) (by decide) ?_, .file _⟩
  rw [List.forall_mem_singleton]
  exact .file _

theorem run_isForetold_of_sourceTree :
    Dialect.HasIdentifierWords {} ∧ sourceTree.IsProper ∧
      ∃ dry result after, run {} true sourceTree "src" = .ok (sourceTree, dry) ∧
        run {} false sourceTree "src" = .ok (after, result) ∧
        result = { dry with isDry := false } ∧ dry.summary.filesChanged = 1 := by
  refine ⟨Dialect.hasIdentifierWords_default, isProper_sourceTree, ?_⟩
  rcases (@run_isForetold {} Dialect.hasIdentifierWords_default _ isProper_sourceTree rfl _ _ rfl
    rfl "src").2 _ rfl with
    ⟨paths, isCollected, -, -,
      ⟨dry, result, isDry, isReal, same, -, changes, -, -, tallied, -⟩, -⟩
  have collected : (Settings.selection {}).collect sourceTree "src" = .ok ["src/A.java"] := by
    decide +kernel
  have one : (["src/A.java"].filterMap (changeAt? {} sourceTree)).length = 1 := by decide +kernel
  rw [collected] at isCollected
  cases isCollected
  exact ⟨dry, result, _, isDry, isReal, same, by rw [tallied.summarized, changes, one]⟩

/-- A run that does not come to an end: a supplier call of the quoted method
overlaps the message of its chain. -/
theorem not_runInOrder_quotedMethod :
    runInOrder { dialect := quotedMethod }
      (.directory [("A.java", .file (Utf8.ofString messageInQuotedMethod))]) "." = false := by
  decide +kernel

end FluentLog
