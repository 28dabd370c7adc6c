import FluentLog.Glob
import FluentLog.Text

namespace FluentLog

/-!
# Files

Files are named by paths in a tree of directories.  A selection chooses some of them, and what
can go wrong on the way is a failure.
-/

/-!
## Paths

A path is a string with slashes between the names of directories.  Empty names and
single dots stand for nothing, and two dots go back to the directory before.
-/

namespace Path

/-- The parts of a text between slashes. -/
def split : Text -> List Text
  | [] => [[]]
  | character :: rest =>
      if character = '/' then [] :: split rest
      else
        match split rest with
        | [] => [[character]]
        | part :: parts => (character :: part) :: parts

/-- The parts of a path that stand for something.  Two slashes in a row and
single dots leave no part. -/
def parts (path : String) : List String :=
  ((split path.toList).filter fun part => !part.isEmpty && part != ['.']).map String.ofList

/-- The names from which the way to where a path points begins.  A path that
begins with a slash begins with the name `/`. -/
def start (path : String) : List String :=
  if path.toList.head? = some '/' then ["/"] else []

/-- The names that lead one part further.  Two dots lead back, unless there is
no way back: at the root they are dropped, and at the beginning of a path they
stay. -/
def step (names : List String) (part : String) : List String :=
  if part = ".." then
    match names.getLast? with
    | none => [part]
    | some last =>
        if last = ".." then names ++ [part]
        else if last = "/" then names
        else names.dropLast
  else names ++ [part]

/-- The names that lead to where a path points.  Two paths with the same names
point at the same place, if the directories on their way exist. -/
def names (path : String) : List String :=
  (parts path).foldl step (start path)

/-- Whether a path can only point at a directory, since it ends with a slash
or a dot.  No file is read or written through such a path. -/
def needsDirectory (path : String) : Bool :=
  match (split path.toList).getLast? with
  | some part => part.isEmpty || part = ['.'] || part = ['.', '.']
  | none => false

/-- The path of an entry of a directory.  A slash is put between them unless
the directory ends with one or is empty. -/
def join (directory name : String) : String :=
  if directory.isEmpty ∨ directory.toList.getLast? = some '/' then directory ++ name
  else directory ++ "/" ++ name

/-- The path of an entry far below a directory. -/
def joinAll (directory : String) (names : List String) : String :=
  names.foldl join directory

def relative (names : List String) : String :=
  "/".intercalate names

/-- The extension of a file name: what follows its last dot, unless that dot
is the first character. -/
def extensionOfName (name : String) : Option String :=
  let reversed := name.toList.reverse
  match reversed.dropWhile (· != '.') with
  | [] => none
  | [_] => none
  | _ => some (String.ofList (reversed.takeWhile (· != '.')).reverse)

/-- The extension of the file that a path names.  Two dots at the end name no
file. -/
def extension (path : String) : Option String :=
  match (parts path).getLast? with
  | none => none
  | some name => if name = ".." then none else extensionOfName name

def asciiLower (text : String) : List Char :=
  text.toList.map Char.toLower

/-- Whether two texts are equal but for the case of ASCII letters. -/
def equalsIgnoringCase (first second : String) : Bool :=
  asciiLower first = asciiLower second

end Path

/-!
## Directory trees

A tree is a file with its bytes or a directory with named entries, in no particular
order.  Paths are followed from the working directory, which is the tree itself.

The files of a tree are listed depth first, the entries of each directory in the byte
order of their names.
-/

/-- A file, or a directory with its entries.  Of two entries with one name
only the first is found by a path. -/
inductive Tree where
  | file (content : Bytes)
  | directory (entries : List (String × Tree))

/-- Why a file cannot be read or written. -/
inductive Fault where
  | notFound
  | notDirectory
  | isDirectory
  | invalidText
  deriving DecidableEq, Repr

def Fault.message : Fault -> String
  | .notFound => "No such file or directory (os error 2)"
  | .notDirectory => "Not a directory (os error 20)"
  | .isDirectory => "Is a directory (os error 21)"
  | .invalidText => "stream did not contain valid UTF-8"

namespace Tree

def empty : Tree := .directory []

/-- The entries of a directory.  A file has none. -/
def entries : Tree -> List (String × Tree)
  | .file _ => []
  | .directory entries => entries

def isDirectory : Tree -> Bool
  | .file _ => false
  | .directory _ => true

/-- What the names lead to.  A file has nothing below it. -/
def find (tree : Tree) : List String -> Except Fault Tree
  | [] => .ok tree
  | name :: names =>
      match tree with
      | .file _ => .error .notDirectory
      | .directory entries =>
          match entries.lookup name with
          | none => .error .notFound
          | some tree => find tree names

def passThrough (tree : Tree) (names : List String) : Except Fault (List String) :=
  match tree.find names with
  | .ok (.directory _) => .ok names
  | .ok (.file _) => .error .notDirectory
  | .error fault => .error fault

/-- The names that lead to where a path points.  The way there may only turn
back in directories that exist.  The empty path points nowhere. -/
def resolve (tree : Tree) (path : String) : Except Fault (List String) :=
  if path.isEmpty then .error .notFound
  else
    (Path.parts path).foldlM (fun names part =>
      if part = ".." then (tree.passThrough names).map fun _ => Path.step names part
      else .ok (Path.step names part)) (Path.start path)

def lookup (tree : Tree) (path : String) : Except Fault Tree :=
  match (tree.resolve path).bind tree.find with
  | .ok (.file content) =>
      if Path.needsDirectory path then .error .notDirectory else .ok (.file content)
  | found => found

def read (tree : Tree) (path : String) : Except Fault Bytes :=
  match tree.lookup path with
  | .ok (.file content) => .ok content
  | .ok (.directory _) => .error .isDirectory
  | .error fault => .error fault

/-- The entries with one replaced, or put at the end. -/
def setEntry (name : String) (tree : Tree) : List (String × Tree) -> List (String × Tree)
  | [] => [(name, tree)]
  | (other, old) :: entries =>
      if other = name then (name, tree) :: entries
      else (other, old) :: setEntry name tree entries

/-- The tree with another one put where the names lead.  Directories on the
way are created, and a file on the way becomes a directory. -/
def put (tree : Tree) (names : List String) (new : Tree) : Tree :=
  match names with
  | [] => new
  | name :: names =>
      let below := (tree.entries.lookup name).getD .empty
      .directory (setEntry name (below.put names new) tree.entries)

/-- The tree with a directory where the names lead, and nothing else changed. -/
def putDirectory (tree : Tree) (names : List String) : Tree :=
  match tree.find names with
  | .ok (.directory _) => tree
  | _ => tree.put names .empty

/-- The tree with a file written.  Its directory has to be there, and no
directory may stand where the file goes.  What the file held before is lost. -/
def write (tree : Tree) (path : String) (content : Bytes) : Except Fault Tree :=
  match tree.resolve path with
  | .error fault => .error fault
  | .ok names =>
      match tree.passThrough names.dropLast, tree.find names with
      | .error fault, _ => .error fault
      | .ok _, .ok (.directory _) => .error .isDirectory
      | .ok _, .ok (.file _) =>
          if Path.needsDirectory path then .error .notDirectory
          else .ok (tree.put names (.file content))
      | .ok _, .error _ =>
          if Path.needsDirectory path then .error .isDirectory
          else .ok (tree.put names (.file content))

/-! ### Listing files -/

/-- Whether a name comes before another in byte order, or is the same. -/
def nameLE (first second : String) : Bool :=
  Utf8.ofString first ≤ Utf8.ofString second

mutual

/-- The files of a tree with the names that lead to them.  A directory's
entries come in the byte order of their names, each with all files below it. -/
def files : Tree -> List (List String × Bytes)
  | .file content => [([], content)]
  | .directory entries =>
      ((filesOfEntries entries).mergeSort fun first second => nameLE first.1 second.1).flatMap
        fun (name, files) => files.map fun (names, content) => (name :: names, content)

/-- The entries of a directory, each with the files below it. -/
def filesOfEntries : List (String × Tree) -> List (String × List (List String × Bytes))
  | [] => []
  | (name, tree) :: entries => (name, files tree) :: filesOfEntries entries

end

/-- All files of a tree with their paths, in the byte order of the paths.
This order differs from that of `files`, since a slash comes behind some
characters of names. -/
def snapshot (tree : Tree) : List (String × Bytes) :=
  (tree.files.map fun (names, content) => (Path.relative names, content)).mergeSort
    fun first second => nameLE first.1 second.1

end Tree

/-!
## Failures

What can go wrong outside the inlining itself, which never fails: choosing files,
reading and writing them, and loading settings.
-/

/-- Why an operation was not done.  A failure of one file does not end a run,
but one of the selection or of the settings does. -/
inductive Failure where
  /-- Input or output failed. -/
  | io (problem : String)
  /-- A glob cannot be used. -/
  | glob (problem : Glob.Problem)
  /-- A file cannot be processed. -/
  | file (path problem : String)
  /-- There is nothing where a path points. -/
  | pathNotFound (path : String)
  /-- Settings make no sense. -/
  | invalidSettings (problem : String)
  deriving DecidableEq, Repr

namespace Failure

def message : Failure -> String
  | .io problem => "IO error: " ++ problem
  | .glob problem => "Glob pattern error: " ++ problem.message
  | .file path problem => "Failed to process " ++ path ++ ": " ++ problem
  | .pathNotFound path => "Path not found: " ++ path
  | .invalidSettings problem => "Invalid configuration: " ++ problem

/-- What lies behind the failure, in words, if it only wraps another one.  It
is printed as the cause of the failure. -/
def source? : Failure -> Option String
  | .io problem => some problem
  | .glob problem => some problem.message
  | .file _ problem => some problem
  | .pathNotFound _ => none
  | .invalidSettings _ => none

end Failure

/-!
## Choosing files

A selection names extensions and globs.  Below a directory it chooses the files with one
of the extensions whose relative path matches one of the including globs and none of the
excluding ones; where no extension or no including glob is named, all files pass that
test.  A path that points at a file chooses that file, whatever the selection says.
-/

/-- Which files to choose.  Extensions are written without their dot, and
globs are matched against paths relative to the directory that is searched. -/
structure Selection where
  extensions : List String := []
  includes : List String := []
  excludes : List String := []
  deriving DecidableEq, Repr

namespace Selection

/-- Whether a file with the given name has one of the extensions, letters of
either case being equal.  A file without an extension has the empty one. -/
def hasExtension (selection : Selection) (name : String) : Bool :=
  selection.extensions.isEmpty ||
    selection.extensions.any
      (Path.equalsIgnoringCase ((Path.extensionOfName name).getD ""))

def passes (includes excludes : List Glob.Pattern) (path : String) : Bool :=
  let path := Utf8.ofString path
  (includes.isEmpty || includes.any fun glob => glob.matchesAll path) &&
    !excludes.any fun glob => glob.matchesAll path

/-- Whether the file that the names lead to is chosen.  Its name decides about
the extension, and its relative path about the globs. -/
def chooses (selection : Selection) (includes excludes : List Glob.Pattern)
    (names : List String) : Bool :=
  selection.hasExtension (names.getLast?.getD "") &&
    passes includes excludes (Path.relative names)

/-- The paths of the chosen files, in the order in which the tree lists its
files.  A path that points at a file chooses this file, and globs are read
only for a directory. -/
def collect (selection : Selection) (tree : Tree) (root : String) :
    Except Failure (List String) :=
  match tree.lookup root with
  | .error _ => .error (.pathNotFound root)
  | .ok (.file _) => .ok [root]
  | .ok (.directory entries) =>
      match Glob.patterns selection.includes with
      | .error problem => .error (.glob problem)
      | .ok includes =>
          match Glob.patterns selection.excludes with
          | .error problem => .error (.glob problem)
          | .ok excludes =>
              let files := (Tree.directory entries).files.map Prod.fst
              .ok ((files.filter (selection.chooses includes excludes)).map
                (Path.joinAll root))

end Selection

end FluentLog
