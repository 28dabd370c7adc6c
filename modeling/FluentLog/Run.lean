import FluentLog.Chain.Event
import FluentLog.Diff.Summary
import FluentLog.Settings

namespace FluentLog

/-!
# Runs

A run chooses files below a path and inlines the chains in each of them, in order.
Files in which no chain is replaced are left alone, and a dry run leaves all files
alone; it gives the same result otherwise.

The bytes of a file that form no characters are read as replacement characters, so they
are replaced for good when the file is written back.
-/

/-- A file in which chains were replaced.  The texts are kept as characters,
so that diffs can be made of them. -/
structure ChangedFile where
  path : String
  before : Text
  after : Text
  chains : Nat
  deriving DecidableEq, Repr

namespace ChangedFile

/-- Whether the text afterwards differs from the one before.  Only such files
are written and counted. -/
def isAltered (change : ChangedFile) : Bool :=
  change.before != change.after

def diff (style : Colouring) (change : ChangedFile) : Text :=
  Diff.unified style change.path change.before change.after

def summary (change : ChangedFile) : Summary :=
  Summary.ofTexts change.before change.after change.chains

/-- The change of the file at a path with the given bytes, if a chain is
replaced.  Bytes that form no characters do not count as a change. -/
def ofBytes? (dialect : Dialect) (path : String) (bytes : Bytes) : Option ChangedFile :=
  let before := Utf8.decode bytes
  match inlineChains dialect (Utf8.encode before) with
  | .unchanged => none
  | .inlined text chains => some ⟨path, before, Utf8.decode text, chains⟩

/-- The tree with the text afterwards in the file.  If both texts are the
same, nothing is written. -/
def apply (tree : Tree) (change : ChangedFile) : Except Failure Tree :=
  if change.isAltered then
    match tree.write change.path (Utf8.encode change.after) with
    | .ok tree => .ok tree
    | .error fault => .error (.file change.path fault.message)
  else .ok tree

end ChangedFile

structure RunResult where
  changes : List ChangedFile := []
  failures : List Failure := []
  filesScanned : Nat := 0
  isDry : Bool := false
  deriving DecidableEq, Repr

namespace RunResult

/-- The number of files that the run modified, or would modify if it were not
dry. -/
def filesAltered (result : RunResult) : Nat :=
  result.changes.countP ChangedFile.isAltered

def chainsInlined (result : RunResult) : Nat :=
  result.changes.foldl (fun total change => total + change.chains) 0

def summary (result : RunResult) : Summary :=
  result.changes.foldl (fun total change => total.merge change.summary) {}

/-- All changes as unified diffs, with empty lines between them.  They stand
in the order of the files. -/
def diff (style : Colouring) (result : RunResult) : Text :=
  Text.join ['\n'] ((result.changes.filter ChangedFile.isAltered).map (ChangedFile.diff style))

def report (result : RunResult) : String :=
  "Scanned " ++ toString result.filesScanned ++ " files. " ++
    (if result.isDry then "Would change " else "Changed ") ++
    toString result.filesAltered ++ " files."

def addChange (result : RunResult) (change : ChangedFile) : RunResult :=
  { result with changes := result.changes ++ [change] }

def addFailure (result : RunResult) (failure : Failure) : RunResult :=
  { result with failures := result.failures ++ [failure] }

end RunResult

/-- Inlines the chains of the file at a path.  A file that cannot be read or
written is a failure of its own, and the run goes on. -/
def runFile (dialect : Dialect) (state : Tree × RunResult) (path : String) :
    Tree × RunResult :=
  let (tree, result) := state
  match tree.read path with
  | .error fault => (tree, result.addFailure (.file path fault.message))
  | .ok bytes =>
      match ChangedFile.ofBytes? dialect path bytes with
      | none => (tree, result)
      | some change =>
          if result.isDry then (tree, result.addChange change)
          else
            match change.apply tree with
            | .ok tree => (tree, result.addChange change)
            | .error failure => (tree, result.addFailure failure)

/-- Runs over the files that the settings choose below a path.  The answer
holds the tree as the run leaves it; a dry run leaves it as it was. -/
def run (settings : Settings) (isDry : Bool) (tree : Tree) (root : String) :
    Except Failure (Tree × RunResult) :=
  match settings.selection.collect tree root with
  | .error failure => .error failure
  | .ok paths =>
      let start : RunResult := { filesScanned := paths.length, isDry }
      .ok (paths.foldl (runFile settings.dialect) (tree, start))

/-- Whether the edits of all chains in the files that the settings choose are
in order.  Edits that overlap make no text, so nothing is said about such
runs. -/
def runInOrder (settings : Settings) (tree : Tree) (root : String) : Bool :=
  match settings.selection.collect tree root with
  | .error _ => true
  | .ok paths =>
      paths.all fun path =>
        match tree.read path with
        | .error _ => true
        | .ok bytes => editsInOrder settings.dialect (Utf8.encode (Utf8.decode bytes))

end FluentLog
