import FluentLog.Command.Execution

/-!
# The program

The program reads what a command needs from the working directory, carries the command
out on that, and writes back the files that differ afterwards.
-/

namespace FluentLog
namespace Program

def pathsOf : Command.Action -> List String
  | .inlining options => options.settings.toList ++ [options.path]
  | .showFile path => [path]
  | .initSettings path => [path]
  | .help => []
  | .version => []

/-- The file at a path, or the directory with all files below it. -/
partial def readTree (path : String) : IO Tree := do
  let place := (<- IO.currentDir) / path
  if <- place.isDir then
    let entries <- (<- place.readDir).toList.mapM fun entry => do
      return (entry.fileName, <- readTree (Path.join path entry.fileName))
    return .directory entries
  else
    return .file (<- IO.FS.readBinFile place).toList

/-- The tree with what is at a path, or with the directory in which a file may
be written there. -/
def readPath (tree : Tree) (path : String) : IO Tree := do
  let names := Path.names path
  let above := names.dropLast
  let workingDirectory <- IO.currentDir
  if <- (workingDirectory / path).pathExists then
    return tree.put names (<- readTree path)
  else if <- (workingDirectory / Path.relative above).isDir then
    return tree.putDirectory above
  else
    return tree

def writeFile (names : List String) (content : Bytes) : IO Unit :=
  IO.FS.writeBinFile (Path.relative names) ⟨content.toArray⟩

/-- Writes the files of a tree that another one does not hold, or holds with
other bytes. -/
def writeChanges (before after : Tree) : IO Unit :=
  after.files.forM fun (names, content) => do
    match before.find names with
    | .ok (.file old) => if old != content then writeFile names content
    | _ => writeFile names content

/-- Carries out what the words of the command line ask for. -/
def carryOut (words : List String) : IO UInt32 := do
  let paths := ((Command.Action.ofArguments? words).map pathsOf).getD []
  let before <- paths.foldlM readPath Tree.empty
  let outcome := Command.execute words before
  writeChanges before outcome.tree
  (<- IO.getStdout).putStr (String.ofList outcome.output)
  (<- IO.getStderr).putStr (String.ofList (outcome.complaint.getD []))
  return outcome.code.toUInt32

end Program
end FluentLog

def main (words : List String) : IO UInt32 :=
  FluentLog.Program.carryOut words
