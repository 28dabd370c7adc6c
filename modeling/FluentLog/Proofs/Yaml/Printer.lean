import FluentLog.Proofs.Yaml.Reader

namespace FluentLog
namespace Yaml

/-!
# The text of a document is read back

All that is printed is printable, so the reader takes the text as it stands.  The top of a
document is a record, so the text begins with a key at the margin, and nothing is left behind
the record.
-/

open Head

/-! ## Printed characters -/

theorem printable_spaces (count : Nat) : (List.replicate count ' ').all isPrintable = true := by
  rw [List.all_eq_true]
  intro character member
  rw [List.eq_of_mem_replicate member]
  decide

theorem printable_hexDigits (width number : Nat) :
    (hexDigits 'A' width number).all isPrintable = true := by
  have digits : ∀ digit < 16, isPrintable (hexDigit 'A' digit) = true := by decide
  induction width generalizing number with
  | zero => rfl
  | succ width ih =>
      rw [hexDigits, List.all_append, ih, List.all_cons, List.all_nil,
        digits _ (Nat.mod_lt number (by decide))]
      rfl

theorem printable_escape (character : Char) : (escape character).all isPrintable = true := by
  unfold escape
  split
  · rename_i stays
    simp only [Bool.and_eq_true] at stays
    simp [stays.1.1.1]
  · split
    any_goals decide
    simp only
    split_ifs
    all_goals
      rw [List.all_cons, List.all_cons, printable_hexDigits]
      decide

theorem printable_singleQuotedFrom (indent : Nat) (afterBreak : Bool) {text : Text}
    (printable : text.all isPrintable = true) :
    (singleQuotedFrom indent afterBreak text).all isPrintable = true := by
  have spaces := printable_spaces indent
  induction text generalizing afterBreak with
  | nil =>
      rw [singleQuotedFrom]
      split_ifs
      · exact spaces
      · rfl
  | cons character text ih =>
      rw [List.all_cons, Bool.and_eq_true] at printable
      have isQuote : isPrintable '\'' = true := by decide
      rw [singleQuotedFrom]
      split_ifs
      all_goals simp only [List.all_append, List.all_cons, List.all_nil, ih _ printable.2,
        printable.1, spaces, isQuote, Bool.and_self]

theorem printable_literalLines (indent : Nat) (afterBreak : Bool) {text : Text}
    (printable : text.all isPrintable = true) :
    (literalLines indent afterBreak text).all isPrintable = true := by
  have spaces := printable_spaces indent
  induction text generalizing afterBreak with
  | nil =>
      rw [literalLines]
      split_ifs
      · rfl
      · decide
  | cons character text ih =>
      rw [List.all_cons, Bool.and_eq_true] at printable
      rw [literalLines]
      split_ifs
      all_goals simp only [List.all_append, List.all_cons, List.all_nil, ih _ printable.2,
        printable.1, spaces, Bool.and_self]

theorem printable_scalar (indent : Nat) (content : Text) :
    (scalar indent content).all isPrintable = true := by
  have lineEnd : isPrintable '\n' = true := by decide
  rw [scalar]
  cases style : Style.of content with
  | plain =>
      have allows := (plain_of_style style).2
      have printable : content.all isPrintable = true :=
        List.all_eq_true.mpr fun character member =>
          ((isPlain_of_allowsPlain allows).1.1 character member).1
      simp only [List.all_append, List.all_cons, List.all_nil, printable, lineEnd, Bool.and_self]
  | singleQuoted =>
      have printable := List.all_eq_true.mpr (isUnfolded_of_style style).printable
      have isQuote : isPrintable '\'' = true := by decide
      simp only [singleQuoted, List.all_append, List.all_cons, List.all_nil,
        printable_singleQuotedFrom indent false printable, isQuote, lineEnd, Bool.and_self]
  | doubleQuoted =>
      have printable : (content.flatMap escape).all isPrintable = true := by
        rw [List.all_eq_true]
        intro character member
        rcases List.mem_flatMap.mp member with ⟨source, -, inForm⟩
        exact List.all_eq_true.mp (printable_escape source) character inForm
      have isQuote : isPrintable '"' = true := by decide
      simp only [doubleQuoted, List.all_append, List.all_cons, List.all_nil, printable, isQuote,
        lineEnd, Bool.and_self]
  | literal =>
      have printable := List.all_eq_true.mpr (literal_of_style style).2
      have isBar : isPrintable '|' = true := by decide
      have isHint : (if (hintOf content).isSome then ['2'] else []).all isPrintable = true := by
        split_ifs <;> decide
      have isMark : (chompingMark content).all isPrintable = true := by
        have marks : ∀ mark ∈ [['-'], ['+'], []], mark.all isPrintable = true := by decide
        exact marks _ (chompingMark_mem content)
      simp only [literal_eq, List.all_append, List.all_cons, isBar, isHint, isMark, lineEnd,
        printable_literalLines indent true printable, Bool.and_self]

theorem printable_word {word : Text}
    (isWord : ∀ character ∈ word, isWordCharacter character = true) :
    word.all isPrintable = true :=
  List.all_eq_true.mpr fun character member => (other_of_isWordCharacter (isWord character member)).1

mutual

theorem printable_printValue (document : Document) (indent : Nat) (isKeyed : IsKeyed document) :
    (printValue indent document).all isPrintable = true := by
  have space : isPrintable ' ' = true := by decide
  have lineEnd : isPrintable '\n' = true := by decide
  have dash : isPrintable '-' = true := by decide
  match document with
  | .text content =>
      simp only [printValue, List.all_cons, space, printable_scalar, Bool.and_self]
  | .natural number =>
      simp only [printValue, List.all_append, List.all_cons, List.all_nil, space, lineEnd,
        printable_word (isWord_decimal number), Bool.and_self]
  | .texts [] =>
      rw [printValue]
      decide
  | .texts (item :: items) =>
      rw [printValue_texts, Following.printItems, List.all_cons, lineEnd, Bool.true_and,
        List.all_eq_true]
      intro character member
      rcases List.mem_flatMap.mp member with ⟨other, -, inItem⟩
      refine List.all_eq_true.mp ?_ character inItem
      simp only [List.all_append, List.all_cons, printable_spaces, dash, space, printable_scalar,
        Bool.and_self]
  | .record [] =>
      rw [printValue]
      decide
  | .record (field :: fields) =>
      rw [printValue_record, List.all_cons, lineEnd, Bool.true_and]
      exact printable_printFields (field :: fields) (indent + 2) isKeyed

theorem printable_printFields (fields : List (String × Document)) (indent : Nat)
    (areKeyed : AreKeyed fields) : (printFields indent fields).all isPrintable = true := by
  match fields with
  | [] => rfl
  | (name, document) :: fields =>
      have colon : isPrintable ':' = true := by decide
      rw [AreKeyed] at areKeyed
      simp only [printFields, List.all_append, List.all_cons, printable_spaces, colon,
        printable_word areKeyed.1.isWord, printable_printValue document indent areKeyed.2.1,
        printable_printFields fields indent areKeyed.2.2, Bool.and_self]

end

/-! ## The whole text -/

theorem isAllowed_of_isPrintable {character : Char} (printable : isPrintable character = true) :
    isAllowed character = true := by
  simp only [isPrintable, Bool.or_eq_true, Bool.and_eq_true, beq_iff_eq, decide_eq_true_eq,
    bne_iff_ne] at printable
  simp only [isAllowed, Bool.or_eq_true, Bool.and_eq_true, beq_iff_eq, decide_eq_true_eq]
  omega

/-- Printable line ends stay as they are. -/
theorem unifyBreaks_of_printable {text : Text} (printable : text.all isPrintable = true) :
    unifyBreaks text = text := by
  induction text with
  | nil => rfl
  | cons character text ih =>
      rw [List.all_cons, Bool.and_eq_true] at printable
      have notReturn : character ≠ '\r' := by
        rintro rfl
        cases printable.1
      have notNextLine : character ≠ '\x85' := by
        rintro rfl
        cases printable.1
      rw [unifyBreaks, ih printable.2]
      · exact fun _ same => absurd same notReturn
      · exact notReturn
      · exact notNextLine

theorem print_record (field : String × Document) (fields : List (String × Document)) :
    print (.record (field :: fields)) = printFields 0 (field :: fields) := by
  rw [print]
  simp

/-- A text that begins with a key at the margin has neither directives nor a
mark in front of its document, so what is read are the entries of a mapping. -/
theorem read_of_key {text rest : Text} {name : String} (isKey : IsKey name)
    (printable : text.all isPrintable = true) (isText : text = name.toList ++ ':' :: rest)
    (begins : BeginsToken text) (ends : endsWord rest = true)
    {entries : List (Node × Node)} {next : Head}
    (readEntries : blockEntries (4 * text.length + 15) 0 { rest := text } = some (entries, next))
    (atEnd : (next.skip false).rest = []) :
    read text = some (.mapping entries) := by
  rcases isKey.exists_cons with ⟨character, others, isName, isWord⟩
  rcases other_of_isWordCharacter isWord with ⟨-, -, -, notIndicator, other⟩
  simp only [List.mem_cons, List.not_mem_nil, or_false, not_or] at other
  have isFirst : text = character :: (others ++ ':' :: rest) := by
    rw [isText, isName, List.cons_append]
  have stays : ({ rest := text } : Head).skip false = { rest := text } :=
    skip_of_beginsToken false rfl begins
  have allowed : text.all isAllowed = true :=
    List.all_eq_true.mpr fun character member =>
      isAllowed_of_isPrintable (List.all_eq_true.mp printable character member)
  have noDirective : text.head? ≠ some '%' := by
    rw [isFirst, List.head?_cons, ne_eq, Option.some_inj]
    rintro rfl
    cases notIndicator
  have noMark : startsDocument text = false ∧ endsDocument text = false := by
    rw [isFirst]
    exact ⟨by simp [startsDocument, other], by simp [endsDocument, other]⟩
  have readTop := @blockNode_of_key 0 { rest := text } (4 * text.length + 14) name isKey rest
    (by rw [stays, isText]) ends (by rw [stays]) (Nat.zero_le _) false
  rw [stays, readEntries] at readTop
  have endsThere : endsHere (4 * text.length + 16) next = true := by
    rw [endsHere, atEnd]
    rfl
  rw [read, if_neg (by simp [allowed])]
  simp only [unifyBreaks_of_printable printable, stays, noMark, noDirective, decide_false,
    Bool.and_false, Bool.false_eq_true, if_false, readTop, Option.map_some, endsThere, if_true]

/-- The text of a record is read as a node that stands for it, whatever nodes
are filled in. -/
theorem exists_read_print {name : String} {document : Document}
    {fields : List (String × Document)} (areKeyed : AreKeyed ((name, document) :: fields)) :
    ∃ node, read (print (.record ((name, document) :: fields))) = some node ∧
      ∀ filled, (view filled).Shows (.record ((name, document) :: fields)) node := by
  have isPrinted := print_record (name, document) fields
  have printed : print (.record ((name, document) :: fields)) =
      (Following.nothing.ofFields 0 ((name, document) :: fields)).rest := by
    rw [isPrinted, ← List.append_nil (printFields 0 _)]
    exact (Following.text_ofFields 0 ((name, document) :: fields) .nothing).symm
  have printable : (print (.record ((name, document) :: fields))).all isPrintable = true := by
    rw [isPrinted]
    exact printable_printFields ((name, document) :: fields) 0 areKeyed
  have isProper :=
    Following.isProper_ofFields areKeyed (Following.isProper_nothing 1) Nat.zero_lt_one
  have reaches : Reaches { rest := print (.record ((name, document) :: fields)) }
      (Following.nothing.ofFields 0 ((name, document) :: fields)) :=
    .of_token printed (fun _ => rfl) rfl isProper
  rcases readsFields ((name, document) :: fields) 0
    (4 * (print (.record ((name, document) :: fields))).length + 15) areKeyed reaches
    (by rw [isPrinted]; omega) (Following.isProper_nothing 0)
    (by intro _ isFirst; cases isFirst) with ⟨values, next, readEntries, shown, reachesEnd⟩
  refine ⟨.mapping (values.map entryOf), ?_, fun filled => ?_⟩
  · exact read_of_key areKeyed.1 printable printed (printed ▸ isProper.beginsToken)
      (endsWord_printValue _ _ _) readEntries reachesEnd.1
  · rw [View.Shows]
    exact ⟨values, fun _ => fields?_mapping values _, shown filled⟩

end Yaml
end FluentLog
