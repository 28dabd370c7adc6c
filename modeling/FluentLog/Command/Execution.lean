import FluentLog.Run
import FluentLog.Settings
import FluentLog.Text

namespace FluentLog
namespace Command

/-!
# The command line

The words of a command line are read as an action, and the action is carried out on a tree of
files.
-/

/-!
## Arguments of the command line

The first word that is no option names what to do, and the options and values behind it
belong to that.  A long option takes its value from behind an equals sign or from the
next word, a short one also from the rest of its own word; short options without values
may share a word.  Behind two dashes alone every word is a value.  No value from a word
of its own begins with a dash, a single dash excepted.

A request for help is granted as soon as it is read, but words before it have to be
right.
-/

structure InliningOptions where
  path : String
  isDry : Bool := false
  showsDiff : Bool := false
  extensions : List String := []
  includes : Option String := none
  excludes : Option String := none
  /-- The settings file. -/
  settings : Option String := none
  deriving DecidableEq, Repr

inductive Action where
  /-- Inline the chains of the files below a path. -/
  | inlining (options : InliningOptions)
  /-- Print the text of a file with its chains inlined. -/
  | showFile (path : String)
  /-- Write the default settings to a file. -/
  | initSettings (path : String)
  | help
  | version
  deriving DecidableEq, Repr

inductive Switch where
  | verbose
  | help
  | version
  | dryRun
  | diff
  | extensions
  | includes
  | excludes
  | settings
  deriving DecidableEq, Repr

def Switch.takesValue : Switch -> Bool
  | .extensions => true
  | .includes => true
  | .excludes => true
  | .settings => true
  | _ => false

/-- Which options and how many values there may be.  Words with other options
make no sense. -/
structure Grammar where
  long : List (String × Switch)
  short : List (Char × Switch)
  maxValues : Nat
  deriving DecidableEq, Repr

/-- The options that come before the first word that is none.  No values stand
among them. -/
def Grammar.leading : Grammar where
  long := [("verbose", .verbose), ("help", .help), ("version", .version)]
  short := [('v', .verbose), ('h', .help), ('V', .version)]
  maxValues := 0

/-- The options and values of inlining. -/
def Grammar.inlining : Grammar where
  long :=
    [("verbose", .verbose), ("help", .help), ("dry-run", .dryRun), ("diff", .diff),
      ("extension", .extensions), ("include", .includes), ("exclude", .excludes),
      ("config", .settings)]
  short :=
    [('v', .verbose), ('h', .help), ('e', .extensions), ('i', .includes), ('c', .settings)]
  maxValues := 1

/-- The options and values of all else.  The value is the path of a file. -/
def Grammar.other : Grammar where
  long := [("verbose", .verbose), ("help", .help)]
  short := [('v', .verbose), ('h', .help)]
  maxValues := 1

/-- The options and values read so far.  What they mean depends on the action,
which is known from the first word. -/
structure Collected where
  values : List String := []
  isDry : Bool := false
  showsDiff : Bool := false
  extensions : List String := []
  includes : Option String := none
  excludes : Option String := none
  settings : Option String := none
  deriving DecidableEq, Repr

/-- What an option leads to.  A request for help or for the version ends the
reading. -/
inductive Effect where
  /-- Nothing else is done. -/
  | stop (action : Action)
  | collect (collected : Collected)
  /-- The value of the option is the next word. -/
  | await (switch : Switch) (collected : Collected)
  deriving DecidableEq, Repr

namespace Collected

/-- Adds a value that belongs to no option.  Paths are not empty, and there is
a limit on their number. -/
def addValue (collected : Collected) (grammar : Grammar) (value : String) :
    Option Collected :=
  if value.isEmpty || grammar.maxValues ≤ collected.values.length then none
  else some { collected with values := collected.values ++ [value] }

/-- Gives an option its value.  Only extensions may be named several times. -/
def give (collected : Collected) (switch : Switch) (value : String) : Option Collected :=
  match switch with
  | .extensions => some { collected with extensions := collected.extensions ++ [value] }
  | .includes =>
      if collected.includes.isSome then none else some { collected with includes := some value }
  | .excludes =>
      if collected.excludes.isSome then none else some { collected with excludes := some value }
  | .settings =>
      if collected.settings.isSome || value.isEmpty then none
      else some { collected with settings := some value }
  | _ => none

/-- Sets an option without a value.  Options of one kind may not be repeated,
`verbose` excepted. -/
def set (collected : Collected) (switch : Switch) : Option Effect :=
  match switch with
  | .help => some (.stop .help)
  | .version => some (.stop .version)
  | .verbose => some (.collect collected)
  | .dryRun => if collected.isDry then none else some (.collect { collected with isDry := true })
  | .diff =>
      if collected.showsDiff then none else some (.collect { collected with showsDiff := true })
  | _ => none

def readLong (collected : Collected) (grammar : Grammar) (word : Text) : Option Effect :=
  let (name, rest) := word.span (· != '=')
  match grammar.long.lookup (String.ofList name), rest with
  | none, _ => none
  | some switch, '=' :: value =>
      if switch.takesValue then (collected.give switch (String.ofList value)).map .collect
      else none
  | some switch, _ =>
      if switch.takesValue then some (.await switch collected) else collected.set switch

/-- Reads the short options of a word behind its dash.  An option that takes a
value takes the rest of the word, with or without an equals sign before it. -/
def readShort (grammar : Grammar) (collected : Collected) : Text -> Option Effect
  | [] => some (.collect collected)
  | letter :: rest =>
      match grammar.short.lookup letter with
      | none => none
      | some switch =>
          if switch.takesValue then
            match rest with
            | [] => some (.await switch collected)
            | '=' :: value => (collected.give switch (String.ofList value)).map .collect
            | value => (collected.give switch (String.ofList value)).map .collect
          else
            match collected.set switch with
            | some (.collect collected) => readShort grammar collected rest
            | effect => effect

def readWord (collected : Collected) (grammar : Grammar) (word : String) : Option Effect :=
  match word.toList with
  | '-' :: '-' :: name => collected.readLong grammar name
  | '-' :: letter :: letters => readShort grammar collected (letter :: letters)
  | _ => (collected.addValue grammar word).map .collect

def readValues (collected : Collected) (grammar : Grammar) (words : List String) :
    Option Collected :=
  words.foldlM (fun collected word => collected.addValue grammar word) collected

/-- Reads words of options and values, where an option may wait for its value.
None may wait at the end. -/
def read (grammar : Grammar) (waiting : Option Switch) (collected : Collected) :
    List String -> Option Effect
  | [] => if waiting.isSome then none else some (.collect collected)
  | word :: words =>
      match waiting with
      | some switch =>
          if word.toList.head? = some '-' && word != "-" then none
          else
            match collected.give switch word with
            | some collected => read grammar none collected words
            | none => none
      | none =>
          if word = "--" then (collected.readValues grammar words).map .collect
          else
            match collected.readWord grammar word with
            | some (.collect collected) => read grammar none collected words
            | some (.await switch collected) => read grammar (some switch) collected words
            | effect => effect

end Collected

/-- The file that default settings are written to if no other is named. -/
def defaultSettingsPath : String := "unsupplier.yaml"

def actionNames : List String := ["rewrite", "show", "init-config", "help"]

def Action.ofCollected? (name : String) (collected : Collected) : Option Action :=
  match name, collected.values with
  | "rewrite", [path] =>
      some (.inlining
        { path, isDry := collected.isDry, showsDiff := collected.showsDiff
          extensions := collected.extensions, includes := collected.includes
          excludes := collected.excludes, settings := collected.settings })
  | "show", [path] => some (.showFile path)
  | "init-config", [] => some (.initSettings defaultSettingsPath)
  | "init-config", [path] => some (.initSettings path)
  | _, _ => none

def Action.ofName? (name : String) (words : List String) : Option Action :=
  if name = "help" then
    match words with
    | [] => some .help
    | [topic] => if actionNames.contains topic then some .help else none
    | _ => none
  else if actionNames.contains name then
    let grammar := if name = "rewrite" then Grammar.inlining else Grammar.other
    match Collected.read grammar none {} words with
    | some (.collect collected) => Action.ofCollected? name collected
    | some (.stop action) => some action
    | _ => none
  else none

/-- The action that the words of a command line ask for, if they make sense.
Options before the name of the action are read first. -/
def Action.ofArguments? : List String -> Option Action
  | [] => none
  | word :: words =>
      match word.toList with
      | '-' :: _ =>
          match Collected.readWord {} Grammar.leading word with
          | some (.collect _) => Action.ofArguments? words
          | some (.stop action) => some action
          | _ => none
      | _ => Action.ofName? word words

/-!
## Carrying out commands

An action is carried out on a tree of files.  What it leaves behind is an exit code, the
text it prints, a complaint if it fails, and the tree.  Code 1 means that it failed and
code 2 that the words of the command line make no sense.
-/

/-- What is left of a command.  The complaint goes to the error stream and
everything else to the standard output. -/
structure Outcome where
  code : Nat := 0
  output : Text := []
  complaint : Option Text := none
  tree : Tree

/-! ### Complaints -/

def indentLines (indent : Nat) (cause : Text) : Text :=
  cause.flatMap fun character =>
    if character = '\n' then '\n' :: List.replicate indent ' ' else [character]

def numbered (number : Nat) : List Text -> Text
  | [] => []
  | cause :: causes =>
      let label := decimal number
      List.replicate (5 - label.length) ' ' ++ label ++ ':' :: ' ' :: indentLines 7 cause ++
        '\n' :: numbered (number + 1) causes

/-- What failed, with its causes from the outermost to the innermost.  Causes
are numbered if there are several. -/
def complain (context : String) (causes : List String) : Text :=
  let beginning := ("Error: " ++ context ++ "\n").toList
  match causes.map String.toList with
  | [] => beginning
  | [cause] =>
      beginning ++ "\nCaused by:\n    ".toList ++ indentLines 4 cause ++ ['\n']
  | causes => beginning ++ "\nCaused by:\n".toList ++ numbered 0 causes

def causes (failure : Failure) : List String :=
  failure.message :: failure.source?.toList

def Outcome.failed (tree : Tree) (context : String) (causes : List String) : Outcome :=
  { code := 1, complaint := some (complain context causes), tree }

/-! ### Actions -/

/-- The settings with the options of the command line.  Extensions replace
those of the settings, while globs are added to theirs. -/
def InliningOptions.adjust (options : InliningOptions) (settings : Settings) : Settings :=
  let settings :=
    if options.extensions.isEmpty then settings
    else settings.selectingExtensions options.extensions
  let settings := options.includes.elim settings settings.including
  options.excludes.elim settings settings.excluding

def InliningOptions.load (options : InliningOptions) (tree : Tree) : Except Failure Settings :=
  match options.settings with
  | none => .ok (options.adjust {})
  | some path => (Settings.load tree path).map options.adjust

def InliningOptions.output (options : InliningOptions) (result : RunResult) : Text :=
  let mark := if options.isDry then "[DRY] " else ""
  let line (change : ChangedFile) : Text :=
    (mark ++ "Transformed: " ++ change.path ++ "\n").toList
  let changes := (result.changes.filter ChangedFile.isAltered).flatMap line
  let diff : Text :=
    if options.showsDiff && 0 < result.filesAltered then
      '\n' :: result.diff .plain ++ ("\n" ++ result.summary.display ++ "\n").toList
    else []
  changes ++ diff ++ ("\n" ++ result.report ++ "\n").toList

/-- Inlines the chains of files.  Failures of single files do not make the
command fail. -/
def InliningOptions.execute (options : InliningOptions) (tree : Tree) : Outcome :=
  match options.load tree with
  | .error failure =>
      .failed tree ("Failed to load config " ++ options.settings.getD "") (causes failure)
  | .ok settings =>
      match run settings options.isDry tree options.path with
      | .error failure => .failed tree "Rewrite failed" (causes failure)
      | .ok (tree, result) => { output := options.output result, tree }

/-- Prints the text of a file with its chains inlined.  The file is not
written, and the dialect is the default one. -/
def showFile (tree : Tree) (path : String) : Outcome :=
  match tree.read path with
  | .error fault => .failed tree ("Failed to read " ++ path) [fault.message]
  | .ok bytes =>
      let source := Utf8.encode (Utf8.decode bytes)
      { output := Utf8.decode ((inlineChains {} source).text source), tree }

/-- Writes the default settings to a file.  Its extension decides about the
format. -/
def initSettings (tree : Tree) (path : String) : Outcome :=
  match Settings.save tree path (SettingsFormat.ofPath path) {} with
  | .error failure => .failed tree ("Failed to write " ++ path) (causes failure)
  | .ok tree => { output := ("Wrote default configuration to " ++ path ++ "\n").toList, tree }

def usage : String :=
  "Usage: unsupplier [-v] <COMMAND>

Commands:
  rewrite [--dry-run] [--diff] [-e EXTENSION] [-i GLOB] [--exclude GLOB] [-c FILE] <PATH>
               Rewrite supplier chains in a file or directory tree
  show <FILE>  Print the rewritten text of a single file
  init-config [PATH]
               Write the default configuration
  help         Print this message
"

def Action.execute (tree : Tree) : Action -> Outcome
  | .inlining options => options.execute tree
  | .showFile path => Command.showFile tree path
  | .initSettings path => Command.initSettings tree path
  | .help => { output := usage.toList, tree }
  | .version => { output := "unsupplier 0.1.0\n".toList, tree }

/-- Carries out what the words of a command line ask for.  Words that make no
sense leave nothing but their exit code. -/
def execute (words : List String) (tree : Tree) : Outcome :=
  match Action.ofArguments? words with
  | some action => action.execute tree
  | none => { code := 2, tree }

end Command
end FluentLog
