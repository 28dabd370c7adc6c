import FluentLog.Command.Execution
import FluentLog.Proofs.Document
import FluentLog.Proofs.Files.Writing
import FluentLog.Proofs.Text.Utf8
import FluentLog.Proofs.Yaml.Printer
import FluentLog.Settings

namespace FluentLog

/-!
# Settings are read back

Settings that were saved are loaded as they were, from both file formats and from whatever place
of a tree they can be written to.
-/

section

/-!
## Settings are read back from what stands for them

The document of settings names each field that is read, so no default replaces a field.  The
one field that is left out, the list of including globs without a glob in it, is its own
default.
-/

variable {Value : Type} {view : View Value}

theorem fieldOr?_cons_self {Content : Type} (name : String) (value : Value)
    (fields : List (String × Value)) (read : Value -> Option Content) (default : Content) :
    fieldOr? ((name, value) :: fields) name read default = read value := by
  rw [fieldOr?, List.lookup_cons, beq_self_eq_true]

theorem fieldOr?_cons_of_ne {Content : Type} {name other : String} (different : name ≠ other)
    (value : Value) (fields : List (String × Value)) (read : Value -> Option Content)
    (default : Content) :
    fieldOr? ((other, value) :: fields) name read default = fieldOr? fields name read default := by
  rw [fieldOr?, List.lookup_cons, beq_false_of_ne different, fieldOr?]

namespace Dialect

theorem ofView?_of_shows {dialect : Dialect} {value : Value}
    (bounded : dialect.maxChainLength < numberBound)
    (shown : view.Shows dialect.toDocument value) : ofView? view value = some dialect := by
  rcases View.known?_of_shows fieldNames shown
    (by simp [fieldNames]) (by simp) with ⟨values, isKnown, showsFields⟩
  simp only [View.ShowsFields, View.Shows] at showsFields
  rcases showsFields with ⟨receivers, _, rfl, isReceivers, levels, _, rfl, isLevels,
    levelPrefix, _, rfl, isLevelPrefix, messageMethod, _, rfl, isMessageMethod,
    argumentMethod, _, rfl, isArgumentMethod, terminalMethod, _, rfl, isTerminalMethod,
    maxChainLength, _, rfl, isMaxChainLength, rfl⟩
  have isBounded : view.bounded? maxChainLength = some dialect.maxChainLength := by
    rw [View.bounded?, isMaxChainLength]
    exact if_pos bounded
  simp only [ofView?, isKnown, fieldOr?_cons_self, fieldOr?_cons_of_ne, ne_eq, String.reduceEq,
    not_false_eq_true, isReceivers, isLevels, isLevelPrefix, isMessageMethod, isArgumentMethod,
    isTerminalMethod, isBounded, Option.bind_eq_bind, Option.bind_some]

end Dialect

namespace Settings

theorem ofView?_of_shows {settings : Settings} {value : Value}
    (bounded : settings.dialect.maxChainLength < numberBound)
    (shown : view.Shows settings.toDocument value) : ofView? view value = some settings := by
  rcases settings with ⟨dialect, extensions, includePatterns, excludePatterns⟩
  cases includePatterns with
  | nil =>
      rcases View.known?_of_shows fieldNames shown
        (by simp [fieldNames]) (by simp) with ⟨values, isKnown, showsFields⟩
      simp only [List.isEmpty_nil, if_true, List.cons_append, List.nil_append, List.append_nil,
        View.ShowsFields] at showsFields
      rcases showsFields with ⟨dialectValue, _, rfl, isDialect, extensionsValue, _, rfl,
        isExtensions, excludesValue, _, rfl, isExcludes, rfl⟩
      rw [View.Shows] at isExtensions isExcludes
      simp only [ofView?, isKnown, fieldOr?_cons_self, fieldOr?_cons_of_ne, ne_eq,
        String.reduceEq, not_false_eq_true, Dialect.ofView?_of_shows bounded isDialect,
        isExtensions, isExcludes, Option.bind_eq_bind, Option.bind_some]
      rfl
  | cons first others =>
      rcases View.known?_of_shows fieldNames shown
        (by simp [fieldNames]) (by simp) with ⟨values, isKnown, showsFields⟩
      simp only [List.isEmpty_cons, Bool.false_eq_true, if_false, List.cons_append,
        List.nil_append, View.ShowsFields] at showsFields
      rcases showsFields with ⟨dialectValue, _, rfl, isDialect, extensionsValue, _, rfl,
        isExtensions, includesValue, _, rfl, isIncludes, excludesValue, _, rfl, isExcludes, rfl⟩
      rw [View.Shows] at isExtensions isIncludes isExcludes
      simp only [ofView?, isKnown, fieldOr?_cons_self, fieldOr?_cons_of_ne, ne_eq,
        String.reduceEq, not_false_eq_true, Dialect.ofView?_of_shows bounded isDialect,
        isExtensions, isIncludes, isExcludes, Option.bind_eq_bind, Option.bind_some]

end Settings

end

section

/-!
## Saved settings are loaded back

Settings are printed as a document, and the text of the document is read as a value that
stands for it, in either format.  What a file is loaded as depends on its path alone, and so does
the format in which settings are saved there.

All that is asked of the settings is that the number in them has 64 bits.
-/

variable {settings : Settings} {tree : Tree} {path : String}

namespace SettingsFormat

/-- The document of settings is a record with names that are read back as
keys. -/
theorem exists_toDocument (settings : Settings) :
    ∃ name document fields, settings.toDocument = .record ((name, document) :: fields) ∧
      Yaml.AreKeyed ((name, document) :: fields) := by
  rcases settings with ⟨dialect, extensions, includePatterns, excludePatterns⟩
  have isDialect : Yaml.IsKeyed dialect.toDocument := by
    simp only [Dialect.toDocument, Yaml.IsKeyed, Yaml.AreKeyed, and_true, true_and]
    decide
  have names : Yaml.IsKey "dialect" ∧ Yaml.IsKey "extensions" ∧ Yaml.IsKey "include_patterns" ∧
      Yaml.IsKey "exclude_patterns" := by decide
  refine ⟨_, _, _, rfl, ?_⟩
  cases includePatterns with
  | nil => exact ⟨names.1, isDialect, names.2.1, trivial, names.2.2.2, trivial, trivial⟩
  | cons first others =>
      exact ⟨names.1, isDialect, names.2.1, trivial, names.2.2.1, trivial, names.2.2.2, trivial,
        trivial⟩

theorem read?_print (bounded : settings.dialect.maxChainLength < numberBound)
    (format : SettingsFormat) : format.read? (format.print settings) = some settings := by
  cases format with
  | json =>
      rcases Json.exists_read_print settings.toDocument with ⟨value, read, shown⟩
      rw [read?, print, read]
      exact Settings.ofView?_of_shows bounded shown
  | yaml =>
      rcases exists_toDocument settings with ⟨name, document, fields, isDocument, areKeyed⟩
      rcases Yaml.exists_read_print areKeyed with ⟨node, read, shown⟩
      rw [← isDocument] at read shown
      rw [read?, print, read]
      exact Settings.ofView?_of_shows bounded (shown node.slots)

end SettingsFormat

namespace Settings

theorem exists_save_and_load {old : Bytes} {other : Tree}
    (canWrite : tree.write path old = .ok other)
    (bounded : settings.dialect.maxChainLength < numberBound) :
    ∃ saved, save tree path (SettingsFormat.ofPath path) settings = .ok saved ∧
      load saved path = .ok settings := by
  rcases Tree.exists_write_and_read canWrite
    (Utf8.encode ((SettingsFormat.ofPath path).print settings)) with ⟨saved, isWritten, isRead⟩
  refine ⟨saved, by rw [save, isWritten], ?_⟩
  have isValid :
      Utf8.isValid (Utf8.encode ((SettingsFormat.ofPath path).print settings)) = true := by
    rw [Utf8.isValid, Utf8.decode_encode, decide_eq_true_eq]
  rw [load, isRead]
  simp only [isValid, Bool.not_true, Bool.false_eq_true, if_false, Utf8.decode_encode,
    SettingsFormat.read?_print bounded]

/-- Where a file can be written, settings saved as JSON if the extension is
`json` in any case, and else as YAML, are loaded back; and a command that
writes the default settings there succeeds, and the default settings are
loaded back. -/
theorem load_of_save {old : Bytes} {other : Tree} (canWrite : tree.write path old = .ok other) :
    (forall (format : SettingsFormat) (settings : Settings),
      (format = .json ↔ (Path.extension path).any (Path.equalsIgnoringCase "json") = true) ->
      settings.dialect.maxChainLength < numberBound ->
      ∃ saved, save tree path format settings = .ok saved ∧ load saved path = .ok settings) ∧
    (forall words : List String,
      Command.Action.ofArguments? words = some (.initSettings path) ->
      (Command.execute words tree).code = 0 ∧
        load (Command.execute words tree).tree path = .ok {}) := by
  constructor
  · intro format settings isFormat bounded
    have ofPath : format = SettingsFormat.ofPath path := by
      rw [SettingsFormat.ofPath]
      split
      · rename_i isJson
        exact isFormat.mpr isJson
      · rename_i notJson
        cases format with
        | json => exact absurd (isFormat.mp rfl) notJson
        | yaml => rfl
    rw [ofPath]
    exact exists_save_and_load canWrite bounded
  · intro words asks
    have bounded : ({} : Settings).dialect.maxChainLength < numberBound := by decide
    rcases exists_save_and_load canWrite bounded with ⟨saved, isSaved, isLoaded⟩
    rw [Command.execute, asks]
    simp only [Command.Action.execute, Command.initSettings, isSaved, isLoaded, and_self]

/-- In an empty directory. -/
theorem load_of_save_in_empty :
    (∃ saved, save .empty "conf.JSON" .json { extensions := ["a: #b", "- \n "] } = .ok saved ∧
      load saved "conf.JSON" = .ok { extensions := ["a: #b", "- \n "] }) ∧
    (Command.execute ["init-config", "conf.JSON"] .empty).code = 0 ∧
      load (Command.execute ["init-config", "conf.JSON"] .empty).tree "conf.JSON" = .ok {} := by
  have canWrite : Tree.empty.write "conf.JSON" [] =
      .ok (.directory [("conf.JSON", .file [])]) := by rfl
  have both := load_of_save canWrite
  exact ⟨both.1 .json _ (by decide) (by decide), both.2 ["init-config", "conf.JSON"] (by decide)⟩

end Settings

end

end FluentLog
