import FluentLog.Document
import FluentLog.Proofs.Text.Digits
import Mathlib.Data.List.TakeDrop

namespace FluentLog

/-!
# Documents are read back

A value shows a document in a view if the questions that the view answers give the document back.
What JSON prints is read as a value that does.
-/

/-!
## Values that stand for documents

What is asked of a value is what its view can take it for.  So a reader has understood the text
of a document if its value can be taken for the document, part by part: for the same text, the
same number, the same texts, or for a record with the same names and values that again stand
for the parts of the document.
-/

namespace View

variable {Value : Type}

mutual

def Shows (view : View Value) : Document -> Value -> Prop
  | .text content, value => view.text? value = some content
  | .natural number, value => view.natural? value = some number
  | .texts items, value => view.texts? value = some items
  | .record fields, value =>
      ∃ values, (forall names, view.fields? names value = some values) ∧
        view.ShowsFields fields values

/-- Whether the values of a record have the names of some fields and can be
taken for them. -/
def ShowsFields (view : View Value) : List (String × Document) -> List (String × Value) -> Prop
  | [], values => values = []
  | (name, document) :: fields, values =>
      ∃ value others, values = (name, value) :: others ∧ view.Shows document value ∧
        view.ShowsFields fields others

end

variable {view : View Value}

theorem shows_texts_of_items {items : List String} {value : Value} {values : List Value}
    (isItems : view.items? value = some values) (shown : values.map view.text? = items.map some) :
    view.Shows (.texts items) value := by
  rw [Shows, texts?, isItems]
  clear isItems
  induction values generalizing items with
  | nil =>
      cases items with
      | nil => rfl
      | cons item items => cases shown
  | cons first values ih =>
      cases items with
      | nil => cases shown
      | cons item items =>
          rcases List.cons.inj shown with ⟨isItem, others⟩
          have behind := ih others
          simp only at behind ⊢
          rw [List.mapM_cons, isItem, behind]
          rfl

theorem ShowsFields.names {fields : List (String × Document)} {values : List (String × Value)}
    (shown : view.ShowsFields fields values) : values.map Prod.fst = fields.map Prod.fst := by
  induction fields generalizing values with
  | nil =>
      rw [ShowsFields] at shown
      rw [shown]
      rfl
  | cons field fields ih =>
      rcases field with ⟨name, document⟩
      rw [ShowsFields] at shown
      rcases shown with ⟨value, others, rfl, -, behind⟩
      rw [List.map_cons, List.map_cons, ih behind]

theorem known?_of_shows {fields : List (String × Document)} (names : List String) {value : Value}
    (shown : view.Shows (.record fields) value)
    (known : ∀ field ∈ fields, names.contains field.1 = true)
    (distinct : (fields.map Prod.fst).Nodup) :
    ∃ values, view.known? names value = some values ∧ view.ShowsFields fields values := by
  rw [Shows] at shown
  rcases shown with ⟨values, isRecord, showsFields⟩
  have sameNames := showsFields.names
  have allKnown : (values.filter fun field => names.contains field.1) = values := by
    apply List.filter_eq_self.mpr
    intro field member
    have isName : field.1 ∈ fields.map Prod.fst :=
      sameNames ▸ List.mem_map_of_mem member
    rcases List.mem_map.mp isName with ⟨other, isField, same⟩
    rw [← same]
    exact known other isField
  refine ⟨values, ?_, showsFields⟩
  rw [known?, isRecord names]
  simp only [allKnown]
  rw [if_pos (sameNames ▸ distinct)]

end View

namespace Json

/-!
## Printed JSON is read back

Each printer is read back by the reader of its kind, whatever stands behind what it printed.
Only a number has to be told from what follows it.  The printed text is at least as long as the
number of calls that read it, so its length bounds the fuel.
-/

/-! ### Blanks -/

theorem skipSpace_of_not_space {character : Char} (notSpace : isSpace character = false)
    (text : Text) : skipSpace (character :: text) = character :: text := by
  rw [skipSpace, List.dropWhile_cons_of_neg (by simp [notSpace])]

theorem skipSpace_space (text : Text) : skipSpace (' ' :: text) = skipSpace text := rfl

theorem skipSpace_newLine (depth : Nat) (text : Text) :
    skipSpace (newLine depth ++ text) = skipSpace text := by
  apply List.dropWhile_append_of_pos
  intro character member
  rcases List.mem_cons.mp member with rfl | inSpaces
  · rfl
  · rw [List.eq_of_mem_replicate inSpaces]
    rfl

/-! ### Texts -/

/-- A unit that is no half of a pair is a character. -/
theorem compose_unit {code : Nat} (small : code < 0xD800) (pieces : List Piece) :
    compose (.unit code :: pieces) = (compose pieces).map (Char.ofNat code :: ·) := by
  have notHigh : ¬ (0xD800 ≤ code ∧ code < 0xDC00) := by omega
  have notLow : ¬ (0xDC00 ≤ code ∧ code < 0xE000) := by omega
  have noHalf : ¬ (0xD800 ≤ code ∧ code < 0xE000) := by omega
  cases pieces with
  | nil => simp [compose, noHalf]
  | cons piece pieces =>
      cases piece with
      | character character => simp [compose, noHalf]
      | unit other => rw [compose, if_neg notHigh, if_neg notLow]

theorem readPieces_plain {character : Char} (notQuote : character ≠ '"')
    (notBackslash : character ≠ '\\') (notControl : ¬ character.toNat < 0x20) (text : Text) :
    readPieces (character :: text) =
      (readPieces text).map fun read => (.character character :: read.1, read.2) := by
  rw [readPieces]
  · rw [if_neg notControl]
    cases readPieces text <;> rfl
  · exact notQuote
  · exact fun _ _ _ _ _ same => absurd same notBackslash
  · exact fun _ _ same => absurd same notBackslash

theorem readPieces_unit {first second third fourth : Char} {code : Nat}
    (isCode : ofDigits? 16 [first, second, third, fourth] = some code) (text : Text) :
    readPieces ('\\' :: 'u' :: first :: second :: third :: fourth :: text) =
      (readPieces text).map fun read => (.unit code :: read.1, read.2) := by
  rw [readPieces, isCode]
  cases readPieces text <;> rfl

/-- However a character is printed, one piece of it is read, which stands for
the character. -/
theorem exists_piece (character : Char) :
    ∃ piece, (forall pieces, compose (piece :: pieces) = (compose pieces).map (character :: ·)) ∧
      forall text, readPieces (escape character ++ text) =
        (readPieces text).map fun read => (piece :: read.1, read.2) := by
  have short : forall {letter : Char}, unescape? letter = some character -> letter ≠ 'u' ->
      escape character = ['\\', letter] ->
      ∃ piece, (forall pieces, compose (piece :: pieces) = (compose pieces).map (character :: ·)) ∧
        forall text, readPieces (escape character ++ text) =
          (readPieces text).map fun read => (piece :: read.1, read.2) := by
    intro letter unescaped notUnit isForm
    refine ⟨.character character, fun pieces => by rw [compose], fun text => ?_⟩
    rw [isForm, List.cons_append, List.singleton_append, readPieces]
    · rw [unescaped]
      cases readPieces text <;> rfl
    · exact fun _ _ _ _ _ same => absurd same notUnit
  by_cases control : character.toNat < 0x20
  · have isForm : (∃ letter, unescape? letter = some character ∧ letter ≠ 'u' ∧
          escape character = ['\\', letter]) ∨
        escape character = '\\' :: 'u' :: hexDigits 'a' 4 character.toNat := by
      unfold escape
      split
      any_goals exact .inl ⟨_, rfl, by decide, rfl⟩
      exact .inr (if_pos control)
    rcases isForm with ⟨letter, unescaped, notUnit, isForm⟩ | isForm
    · exact short unescaped notUnit isForm
    · have isCode := IsFirstLetter.ofDigits?_hexDigits (.inl rfl)
        (by omega : character.toNat < 16 ^ 4)
      refine ⟨.unit character.toNat, fun pieces => ?_, fun text => ?_⟩
      · rw [compose_unit (by omega), Char.ofNat_toNat]
      · have length := length_hexDigits 'a' 4 character.toNat
        rw [isForm]
        match digits : hexDigits 'a' 4 character.toNat, length with
        | [first, second, third, fourth], _ =>
            rw [digits] at isCode
            exact readPieces_unit isCode text
  · have isForm : (∃ letter, unescape? letter = some character ∧ letter ≠ 'u' ∧
          escape character = ['\\', letter]) ∨
        character ≠ '"' ∧ character ≠ '\\' ∧ escape character = [character] := by
      unfold escape
      split
      any_goals exact .inl ⟨_, rfl, by decide, rfl⟩
      rename_i notQuote notBackslash _ _ _ _ _
      exact .inr ⟨notQuote, notBackslash, if_neg control⟩
    rcases isForm with ⟨letter, unescaped, notUnit, isForm⟩ | ⟨notQuote, notBackslash, isForm⟩
    · exact short unescaped notUnit isForm
    · refine ⟨.character character, fun pieces => by rw [compose], fun text => ?_⟩
      rw [isForm]
      exact readPieces_plain notQuote notBackslash control text

theorem exists_readPieces (text rest : Text) :
    ∃ pieces, compose pieces = some text ∧
      readPieces (text.flatMap escape ++ '"' :: rest) = some (pieces, rest) := by
  induction text with
  | nil => exact ⟨[], rfl, rfl⟩
  | cons character text ih =>
      rcases ih with ⟨pieces, isText, read⟩
      rcases exists_piece character with ⟨piece, isCharacter, readFirst⟩
      refine ⟨piece :: pieces, ?_, ?_⟩
      · rw [isCharacter, isText]
        rfl
      · rw [List.flatMap_cons, List.append_assoc, readFirst, read]
        rfl

theorem readValue_quote {fuel : Nat} (positive : 0 < fuel) (content : String) (rest : Text) :
    readValue fuel (quote content ++ rest) = some (.text (some content.toList), rest) := by
  rcases Nat.exists_eq_succ_of_ne_zero (Nat.pos_iff_ne_zero.mp positive) with ⟨fuel, rfl⟩
  rcases exists_readPieces content.toList rest with ⟨pieces, isText, read⟩
  rw [quote, List.cons_append, List.cons_append, List.append_assoc, List.singleton_append,
    readValue, skipSpace_of_not_space (by decide)]
  simp only [read, isText, Option.map_some]

/-! ### Numbers -/

def EndsNumber (rest : Text) : Prop :=
  ∀ character ∈ rest.head?, character.isDigit = false ∧ character ∉ ['.', 'e', 'E']

theorem endsNumber_cons {character : Char} (notDigit : character.isDigit = false)
    (other : character ∉ ['.', 'e', 'E']) (rest : Text) : EndsNumber (character :: rest) := by
  intro first isHead
  rw [List.head?_cons, Option.mem_some_iff] at isHead
  exact isHead ▸ ⟨notDigit, other⟩

theorem takeDigits?_decimal {rest : Text} (ends : EndsNumber rest) (number : Nat) :
    takeDigits? (decimal number ++ rest) = some (decimal number, rest) := by
  have noDigits : rest.takeWhile Char.isDigit = [] ∧ rest.dropWhile Char.isDigit = rest := by
    cases rest with
    | nil => exact ⟨rfl, rfl⟩
    | cons character rest =>
        have notDigit := (ends character rfl).1
        rw [List.takeWhile_cons_of_neg (by simp [notDigit]),
          List.dropWhile_cons_of_neg (by simp [notDigit])]
        exact ⟨rfl, rfl⟩
  have digits : ∀ digit ∈ decimal number, digit.isDigit = true :=
    fun digit => isDigit_of_mem_decimal
  rw [takeDigits?, List.span_eq_takeWhile_dropWhile, List.takeWhile_append_of_pos digits,
    List.dropWhile_append_of_pos digits, noDigits.1, noDigits.2, List.append_nil]
  cases isDecimal : decimal number with
  | nil => exact absurd isDecimal (decimal_ne_nil number)
  | cons digit digits => rfl

theorem readNumber_decimal {rest : Text} (ends : EndsNumber rest) (number : Nat) :
    readNumber (decimal number ++ rest) = some (decimal number, rest) := by
  have whole : readWhole (decimal number ++ rest) = some (decimal number, rest) := by
    by_cases isZero : number = 0
    · subst isZero
      rfl
    · rw [readWhole, takeDigits?_decimal ends]
      intro other same
      have isHead := congrArg List.head? same
      rw [List.head?_append] at isHead
      have notZero := head?_decimal_of_pos (Nat.pos_of_ne_zero isZero)
      cases isDecimal : decimal number with
      | nil => exact absurd isDecimal (decimal_ne_nil number)
      | cons digit digits =>
          rw [isDecimal] at isHead notZero
          exact notZero isHead
  have fraction : readFraction rest = some ([], rest) := by
    unfold readFraction
    split
    · exact absurd (List.mem_cons_self) (ends '.' rfl).2
    · rfl
  have exponent : readExponent rest = some ([], rest) := by
    unfold readExponent
    split
    · rename_i mark behind
      have notMark := (ends mark rfl).2
      rw [if_neg]
      rintro (rfl | rfl) <;> exact notMark (by decide)
    · rfl
  have unsigned : forall other : Text, decimal number ++ rest ≠ '-' :: other := by
    intro other same
    cases isDecimal : decimal number with
    | nil => exact absurd isDecimal (decimal_ne_nil number)
    | cons digit digits =>
        rw [isDecimal] at same
        have isDigit := isDigit_of_mem_decimal (isDecimal ▸ List.mem_cons_self)
        rw [(List.cons.inj same).1] at isDigit
        cases isDigit
  unfold readNumber
  split
  rename_i sign text isSign
  split at isSign
  · rename_i other same
    exact absurd same (unsigned other)
  · cases isSign
    simp only [whole, fraction, exponent, Option.bind_eq_bind, Option.bind_some, List.nil_append,
      List.append_nil]

theorem readValue_decimal {fuel : Nat} (positive : 0 < fuel) {rest : Text}
    (ends : EndsNumber rest) (number : Nat) :
    readValue fuel (decimal number ++ rest) = some (.number (decimal number), rest) := by
  rcases Nat.exists_eq_succ_of_ne_zero (Nat.pos_iff_ne_zero.mp positive) with ⟨fuel, rfl⟩
  have read := readNumber_decimal ends number
  cases isDecimal : decimal number with
  | nil => exact absurd isDecimal (decimal_ne_nil number)
  | cons digit digits =>
      have isDigit := isDigit_of_mem_decimal (isDecimal ▸ List.mem_cons_self)
      have notSpace : isSpace digit = false := by
        rw [Bool.eq_false_iff]
        intro space
        simp only [isSpace, Bool.or_eq_true, decide_eq_true_eq] at space
        rcases space with ((rfl | rfl) | rfl) | rfl <;> cases isDigit
      rw [isDecimal, List.cons_append] at read
      rw [List.cons_append, readValue, skipSpace_of_not_space notSpace]
      split
      all_goals first
        | (rename_i same
           cases (List.cons.inj same).1
           cases isDigit)
        | rw [read]; rfl

/-! ### Lists and records -/

theorem endsNumber_newLine (depth : Nat) (rest : Text) : EndsNumber (newLine depth ++ rest) :=
  endsNumber_cons (by decide) (by decide) _

theorem endsNumber_comma (rest : Text) : EndsNumber (',' :: rest) :=
  endsNumber_cons (by decide) (by decide) rest

def furtherParts (depth : Nat) (parts : List Text) : Text :=
  parts.flatMap fun part => ',' :: newLine depth ++ part

theorem furtherParts_cons (depth : Nat) (part : Text) (parts : List Text) :
    furtherParts depth (part :: parts) =
      ',' :: (newLine depth ++ (part ++ furtherParts depth parts)) := by
  rw [furtherParts, List.flatMap_cons]
  simp [furtherParts]

theorem enclose_cons (opening closing : Char) (depth : Nat) (first : Text)
    (others : List Text) (rest : Text) :
    enclose opening closing depth (first :: others) ++ rest =
      opening :: (newLine (depth + 1) ++ (first ++ (furtherParts (depth + 1) others ++
        (newLine depth ++ closing :: rest)))) := by
  simp [enclose, furtherParts]

/-- What stands between brackets is shorter than the whole. -/
theorem length_enclose_cons (opening closing : Char) (depth : Nat) (first : Text)
    (others : List Text) :
    first.length + (furtherParts (depth + 1) others).length + 4 ≤
      (enclose opening closing depth (first :: others)).length := by
  have shape := enclose_cons opening closing depth first others []
  rw [List.append_nil] at shape
  rw [shape]
  simp only [newLine, List.length_cons, List.length_append, List.length_nil,
    List.length_replicate]
  omega

theorem enclose_ne_nil (opening closing : Char) (depth : Nat) (parts : List Text) :
    enclose opening closing depth parts ≠ [] := by
  cases parts <;> simp [enclose]

theorem printAt_ne_nil (depth : Nat) (document : Document) : printAt depth document ≠ [] := by
  cases document with
  | text content =>
      rw [printAt]
      exact List.cons_ne_nil _ _
  | natural number =>
      rw [printAt]
      exact decimal_ne_nil number
  | texts items =>
      rw [printAt]
      exact enclose_ne_nil _ _ _ _
  | record fields =>
      rw [printAt]
      exact enclose_ne_nil _ _ _ _

theorem length_le_furtherParts (depth : Nat) (parts : List Text) :
    parts.length ≤ (furtherParts depth parts).length := by
  induction parts with
  | nil => exact Nat.le_refl 0
  | cons part parts ih =>
      rw [furtherParts_cons]
      simp only [List.length_cons, List.length_append]
      omega

/-! Blanks in front of what is read do not matter. -/

theorem readValue_newLine (fuel depth : Nat) (text : Text) :
    readValue fuel (newLine depth ++ text) = readValue fuel text := by
  cases fuel with
  | zero => rfl
  | succ fuel => rw [readValue, readValue, skipSpace_newLine]

theorem readValue_space (fuel : Nat) (text : Text) :
    readValue fuel (' ' :: text) = readValue fuel text := by
  cases fuel with
  | zero => rfl
  | succ fuel => rw [readValue, readValue, skipSpace_space]

theorem readItems_newLine (fuel depth : Nat) (text : Text) :
    readItems fuel (newLine depth ++ text) = readItems fuel text := by
  cases fuel with
  | zero => rfl
  | succ fuel => rw [readItems, readItems, readValue_newLine]

theorem readMembers_newLine (fuel depth : Nat) (text : Text) :
    readMembers fuel (newLine depth ++ text) = readMembers fuel text := by
  cases fuel with
  | zero => rfl
  | succ fuel => rw [readMembers, readMembers, skipSpace_newLine]

theorem exists_readItems {fuel : Nat} (depth : Nat) (item : String) (items : List String)
    (enough : items.length + 1 < fuel) (rest : Text) :
    ∃ values, readItems fuel (quote item ++ (furtherParts (depth + 1) (items.map quote) ++
        (newLine depth ++ ']' :: rest))) = some (values, rest) ∧
      values.map Value.text? = (item :: items).map some := by
  induction items generalizing fuel item with
  | nil =>
      rcases Nat.exists_eq_succ_of_ne_zero (by omega : fuel ≠ 0) with ⟨fuel, rfl⟩
      have positive : 0 < fuel := by
        rw [List.length_nil] at enough
        omega
      refine ⟨[.text (some item.toList)], ?_, ?_⟩
      · rw [readItems, readValue_quote positive]
        simp only [List.map_nil, furtherParts, List.flatMap_nil, List.nil_append,
          skipSpace_newLine, skipSpace_of_not_space (by decide : isSpace ']' = false)]
      · simp [Value.text?]
  | cons next items ih =>
      rcases Nat.exists_eq_succ_of_ne_zero (by omega : fuel ≠ 0) with ⟨fuel, rfl⟩
      rw [List.length_cons] at enough
      rcases ih next (by omega : items.length + 1 < fuel) with ⟨values, read, shown⟩
      refine ⟨.text (some item.toList) :: values, ?_, ?_⟩
      · rw [readItems, readValue_quote (by omega), List.map_cons, furtherParts_cons,
          List.cons_append]
        simp only [skipSpace_of_not_space (by decide : isSpace ',' = false), List.append_assoc,
          readItems_newLine, read, Option.map_some]
      · rw [List.map_cons, shown, Value.text?, String.ofList_toList]
        rfl

def membersOf (fields : List (String × Value)) : List (Option Text × Value) :=
  fields.map fun field => (some field.1.toList, field.2)

theorem fields?_object (fields : List (String × Value)) (names : List String) :
    view.fields? names (.object (membersOf fields)) = some fields := by
  simp only [view, Value.fields?, membersOf]
  induction fields with
  | nil => rfl
  | cons field fields ih =>
      rw [List.map_cons, List.mapM_cons, ih]
      simp

theorem readMembers_name (fuel : Nat) (name : String) (text : Text) :
    readMembers (fuel + 1) (quote name ++ ':' :: text) =
      match readValue fuel text with
      | none => none
      | some (value, rest) =>
          match skipSpace rest with
          | '\x7d' :: rest => some ([(some name.toList, value)], rest)
          | ',' :: rest =>
              (readMembers fuel rest).map fun (members, rest) =>
                ((some name.toList, value) :: members, rest)
          | _ => none := by
  rcases exists_readPieces name.toList (':' :: text) with ⟨pieces, isName, read⟩
  rw [quote, List.cons_append, List.cons_append, List.append_assoc, List.singleton_append]
  have unfolded := readMembers.eq_def (fuel + 1)
    ('"' :: (name.toList.flatMap escape ++ '"' :: ':' :: text))
  simp only [skipSpace_of_not_space (by decide : isSpace '"' = false), read, isName,
    skipSpace_of_not_space (by decide : isSpace ':' = false)] at unfolded
  exact unfolded

theorem readMembers_last {fuel depth : Nat} {name : String} {text rest : Text} {value : Value}
    (read : readValue fuel (text ++ (newLine depth ++ '\x7d' :: rest)) =
      some (value, newLine depth ++ '\x7d' :: rest)) :
    readMembers (fuel + 1)
        (quote name ++ ':' :: ' ' :: (text ++ (newLine depth ++ '\x7d' :: rest))) =
      some (membersOf [(name, value)], rest) := by
  rw [readMembers_name, readValue_space, read]
  simp only [skipSpace_newLine, skipSpace_of_not_space (by decide : isSpace '\x7d' = false)]
  rfl

theorem readMembers_further {fuel depth : Nat} {name : String} {text others rest : Text}
    {value : Value} {values : List (String × Value)}
    (read : readValue fuel (text ++ ',' :: (newLine depth ++ others)) =
      some (value, ',' :: (newLine depth ++ others)))
    (readOthers : readMembers fuel others = some (membersOf values, rest)) :
    readMembers (fuel + 1)
        (quote name ++ ':' :: ' ' :: (text ++ ',' :: (newLine depth ++ others))) =
      some (membersOf ((name, value) :: values), rest) := by
  rw [readMembers_name, readValue_space, read]
  simp only [skipSpace_of_not_space (by decide : isSpace ',' = false), readMembers_newLine,
    readOthers, Option.map_some]
  rfl

theorem readValue_array {fuel depth : Nat} {item : String} {parts : List Text} {rest : Text}
    {values : List Value}
    (read : readItems fuel (quote item ++ (furtherParts (depth + 1) parts ++
      (newLine depth ++ ']' :: rest))) = some (values, rest)) :
    readValue (fuel + 1) (enclose '[' ']' depth (quote item :: parts) ++ rest) =
      some (.array values, rest) := by
  rw [enclose_cons, readValue, skipSpace_of_not_space (by decide)]
  rw [quote, List.cons_append, List.cons_append] at read ⊢
  simp only [skipSpace_newLine, skipSpace_of_not_space (by decide : isSpace '"' = false)]
  exact congrArg (Option.map fun found => (Value.array found.1, found.2)) read

theorem readValue_object {fuel depth : Nat} {name : String} {text : Text} {parts : List Text}
    {rest : Text} {members : List (Option Text × Value)}
    (read : readMembers fuel (quote name ++ text ++ (furtherParts (depth + 1) parts ++
      (newLine depth ++ '\x7d' :: rest))) = some (members, rest)) :
    readValue (fuel + 1) (enclose '\x7b' '\x7d' depth ((quote name ++ text) :: parts) ++ rest) =
      some (.object members, rest) := by
  rw [enclose_cons, readValue, skipSpace_of_not_space (by decide)]
  rw [quote, List.cons_append, List.cons_append, List.cons_append] at read ⊢
  simp only [skipSpace_newLine, skipSpace_of_not_space (by decide : isSpace '"' = false)]
  exact congrArg (Option.map fun found => (Value.object found.1, found.2)) read

mutual

theorem exists_readValue (document : Document) (depth fuel : Nat) {rest : Text}
    (enough : (printAt depth document).length ≤ fuel) (ends : EndsNumber rest) :
    ∃ value, readValue fuel (printAt depth document ++ rest) = some (value, rest) ∧
      view.Shows document value := by
  have positive := List.length_pos_iff.mpr (printAt_ne_nil depth document)
  rcases Nat.exists_eq_succ_of_ne_zero (by omega : fuel ≠ 0) with ⟨fuel, rfl⟩
  match _isForm : document with
  | .text content =>
      refine ⟨_, by rw [printAt, readValue_quote (Nat.succ_pos fuel)], ?_⟩
      simp only [View.Shows, view, Value.text?, String.ofList_toList]
  | .natural number =>
      refine ⟨_, by rw [printAt, readValue_decimal (Nat.succ_pos fuel) ends], ?_⟩
      have digits : (decimal number).all Char.isDigit = true :=
        List.all_eq_true.mpr fun digit => isDigit_of_mem_decimal
      simp only [View.Shows, view, Value.natural?, digits, if_true, ofDecimal_decimal]
  | .texts [] => exact ⟨.array [], rfl, rfl⟩
  | .texts (item :: items) =>
      have long := length_enclose_cons '[' ']' depth (quote item) (items.map quote)
      have longer := length_le_furtherParts (depth + 1) (items.map quote)
      rw [List.length_map] at longer
      rw [printAt, List.map_cons] at enough ⊢
      rcases exists_readItems depth item items (by omega : items.length + 1 < fuel) rest with
        ⟨values, read, shown⟩
      exact ⟨.array values, readValue_array read, View.shows_texts_of_items rfl shown⟩
  | .record [] =>
      refine ⟨.object [], rfl, ?_⟩
      rw [View.Shows]
      exact ⟨[], fun _ => rfl, rfl⟩
  | .record ((name, first) :: fields) =>
      have long := length_enclose_cons '\x7b' '\x7d' depth
        (quote name ++ ':' :: ' ' :: printAt (depth + 1) first) (printFields (depth + 1) fields)
      rw [printAt, printFields] at enough ⊢
      rcases exists_readMembers name first fields depth fuel
        (by rw [List.length_append]; omega) rest with ⟨values, read, shown⟩
      refine ⟨.object (membersOf values), readValue_object read, ?_⟩
      rw [View.Shows]
      exact ⟨values, fields?_object values, shown⟩
termination_by sizeOf document

theorem exists_readMembers (name : String) (document : Document)
    (fields : List (String × Document)) (depth fuel : Nat)
    (enough : (quote name ++ ':' :: ' ' :: printAt (depth + 1) document ++
      furtherParts (depth + 1) (printFields (depth + 1) fields)).length ≤ fuel) (rest : Text) :
    ∃ values, readMembers fuel (quote name ++ ':' :: ' ' :: printAt (depth + 1) document ++
        (furtherParts (depth + 1) (printFields (depth + 1) fields) ++
          (newLine depth ++ '\x7d' :: rest))) = some (membersOf values, rest) ∧
      view.ShowsFields ((name, document) :: fields) values := by
  simp only [List.length_cons, List.length_append] at enough
  rcases Nat.exists_eq_succ_of_ne_zero (by omega : fuel ≠ 0) with ⟨fuel, rfl⟩
  rw [List.append_assoc, List.cons_append, List.cons_append]
  match _others : fields with
  | [] =>
      rcases exists_readValue document (depth + 1) fuel (by omega) (endsNumber_newLine depth _) with
        ⟨value, read, shown⟩
      rw [printFields, furtherParts, List.flatMap_nil, List.nil_append]
      refine ⟨[(name, value)], readMembers_last read, ?_⟩
      rw [View.ShowsFields]
      exact ⟨value, [], rfl, shown, rfl⟩
  | (next, second) :: fields =>
      rw [printFields, furtherParts_cons] at enough ⊢
      simp only [List.length_cons, List.length_append] at enough
      rcases exists_readValue document (depth + 1) fuel (by omega) (endsNumber_comma _) with
        ⟨value, read, shown⟩
      rcases exists_readMembers next second fields depth fuel (by
        simp only [List.length_cons, List.length_append]
        omega) rest with ⟨values, readOthers, shownOthers⟩
      rw [List.cons_append, List.append_assoc, List.append_assoc (quote next ++ _)]
      refine ⟨(name, value) :: values, readMembers_further read readOthers, ?_⟩
      rw [View.ShowsFields]
      exact ⟨value, values, rfl, shown, shownOthers⟩
termination_by sizeOf ((name, document) :: fields)

end

theorem exists_read_print (document : Document) :
    ∃ value, read (print document) = some value ∧ view.Shows document value := by
  have nothing : EndsNumber [] := fun _ isHead => absurd isHead (by simp)
  rcases exists_readValue document 0 (2 * (print document).length + 2)
    (by rw [print]; omega) nothing with ⟨value, isRead, shown⟩
  refine ⟨value, ?_, shown⟩
  rw [List.append_nil, ← print] at isRead
  rw [read, isRead]
  rfl

end Json

end FluentLog
