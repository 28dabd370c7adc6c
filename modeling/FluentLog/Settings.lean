import FluentLog.Chain.Span
import FluentLog.Document
import FluentLog.Files
import FluentLog.Yaml.Printer
import FluentLog.Yaml.Reader

namespace FluentLog

/-!
# Settings

The settings of a run say which files to choose and which chains to inline in them.  They are a
record with defaults, and they are stored as a document in one of two file formats.
-/

/-- Which files to choose, and which chains to inline in them.  Where nothing
is said, these are Java files outside of the directories of build results and
of version control. -/
structure Settings where
  dialect : Dialect := {}
  extensions : List String := ["java"]
  includePatterns : List String := []
  excludePatterns : List String := ["**/target/**", "**/build/**", "**/.git/**"]
  deriving DecidableEq, Repr

namespace Settings

def selectingExtensions (settings : Settings) (extensions : List String) : Settings :=
  { settings with extensions := extensions }

def including (settings : Settings) (glob : String) : Settings :=
  { settings with includePatterns := settings.includePatterns ++ [glob] }

def excluding (settings : Settings) (glob : String) : Settings :=
  { settings with excludePatterns := settings.excludePatterns ++ [glob] }

def addReceiver (settings : Settings) (name : String) : Settings :=
  { settings with dialect := settings.dialect.addReceiver name }

/-- The files that the settings choose. -/
def selection (settings : Settings) : Selection :=
  ⟨settings.extensions, settings.includePatterns, settings.excludePatterns⟩

end Settings

/-!
## Settings as documents

Settings are written as a record with the fields below, in their order.  Including globs
are left out where there are none.  Read back from any file format, fields that are
missing have their defaults.
-/

/-- Numbers in settings have 64 bits, so they are less than this bound.  A
file with a greater one is not readable. -/
def numberBound : Nat := Nat.pow 2 64

/-- Reads a natural number below the bound. -/
def View.bounded? {Value : Type} (view : View Value) (value : Value) : Option Nat :=
  match view.natural? value with
  | some number => if number < numberBound then some number else none
  | none => none

namespace Dialect

def fieldNames : List String :=
  ["receivers", "levels", "level_prefix", "message_method", "argument_method",
    "terminal_method", "max_chain_len"]

def toDocument (dialect : Dialect) : Document :=
  .record
    [("receivers", .texts dialect.receivers), ("levels", .texts dialect.levels),
      ("level_prefix", .text dialect.levelPrefix),
      ("message_method", .text dialect.messageMethod),
      ("argument_method", .text dialect.argumentMethod),
      ("terminal_method", .text dialect.terminalMethod),
      ("max_chain_len", .natural dialect.maxChainLength)]

def ofView? {Value : Type} (view : View Value) (value : Value) : Option Dialect := do
  let default : Dialect := {}
  let fields <- view.known? fieldNames value
  let receivers <- fieldOr? fields "receivers" view.texts? default.receivers
  let levels <- fieldOr? fields "levels" view.texts? default.levels
  let levelPrefix <- fieldOr? fields "level_prefix" view.text? default.levelPrefix
  let messageMethod <- fieldOr? fields "message_method" view.text? default.messageMethod
  let argumentMethod <- fieldOr? fields "argument_method" view.text? default.argumentMethod
  let terminalMethod <- fieldOr? fields "terminal_method" view.text? default.terminalMethod
  let maxChainLength <- fieldOr? fields "max_chain_len" view.bounded? default.maxChainLength
  some
    { receivers, levels, levelPrefix, messageMethod, argumentMethod, terminalMethod
      maxChainLength }

end Dialect

namespace Settings

def fieldNames : List String :=
  ["dialect", "extensions", "include_patterns", "exclude_patterns"]

def toDocument (settings : Settings) : Document :=
  let includes : List (String × Document) :=
    if settings.includePatterns.isEmpty then []
    else [("include_patterns", .texts settings.includePatterns)]
  .record
    ([("dialect", settings.dialect.toDocument), ("extensions", .texts settings.extensions)] ++
      includes ++ [("exclude_patterns", .texts settings.excludePatterns)])

def ofView? {Value : Type} (view : View Value) (value : Value) : Option Settings := do
  let default : Settings := {}
  let fields <- view.known? fieldNames value
  let dialect <- fieldOr? fields "dialect" (Dialect.ofView? view) default.dialect
  let extensions <- fieldOr? fields "extensions" view.texts? default.extensions
  let includePatterns <-
    fieldOr? fields "include_patterns" view.texts? default.includePatterns
  let excludePatterns <-
    fieldOr? fields "exclude_patterns" view.texts? default.excludePatterns
  some { dialect, extensions, includePatterns, excludePatterns }

end Settings

/-!
## Settings files

Settings are kept in files, as JSON where the file's extension is `json` in any case, and
else as YAML.
-/

inductive SettingsFormat where
  | json
  | yaml
  deriving DecidableEq, Repr

namespace SettingsFormat

def name : SettingsFormat -> String
  | .json => "JSON"
  | .yaml => "YAML"

/-- The format that the extension of a path stands for.  Everything but `json`
stands for YAML. -/
def ofPath (path : String) : SettingsFormat :=
  if (Path.extension path).any (Path.equalsIgnoringCase "json") then .json else .yaml

def read? : SettingsFormat -> Text -> Option Settings
  | .json, text => (Json.read text).bind (Settings.ofView? Json.view)
  | .yaml, text => (Yaml.read text).bind fun node => Settings.ofView? (Yaml.view node.slots) node

def print : SettingsFormat -> Settings -> Text
  | .json, settings => Json.print settings.toDocument
  | .yaml, settings => Yaml.print settings.toDocument

end SettingsFormat

namespace Settings

/-- Loads settings from the file that a path points at.  The file has to be
readable, to hold text, and to hold settings in the format that its extension
stands for. -/
def load (tree : Tree) (path : String) : Except Failure Settings :=
  let unreadable (fault : Fault) : Failure :=
    .io ("Failed to read config file " ++ path ++ ": " ++ fault.message)
  match tree.read path with
  | .error fault => .error (unreadable fault)
  | .ok content =>
      if !Utf8.isValid content then .error (unreadable .invalidText)
      else
        let format := SettingsFormat.ofPath path
        match format.read? (Utf8.decode content) with
        | some settings => .ok settings
        | none => .error (.invalidSettings ("Failed to parse " ++ format.name ++ " config"))

/-- The tree with settings saved in the file that a path points at.  The
format is the caller's choice and need not be that of the extension. -/
def save (tree : Tree) (path : String) (format : SettingsFormat) (settings : Settings) :
    Except Failure Tree :=
  match tree.write path (Utf8.encode (format.print settings)) with
  | .ok tree => .ok tree
  | .error fault => .error (.file path fault.message)

end Settings

end FluentLog
