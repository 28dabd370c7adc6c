import FluentLog.Proofs.Document
import FluentLog.Proofs.Yaml.Leaf
import FluentLog.Yaml.Reader

namespace FluentLog
namespace Yaml

/-!
# Printed YAML is read back

The printed fields of a record are read as the entries of a block mapping at their column, and
the printed items of a list as those of a block sequence.  What follows one field is the next
field, or what follows the record.  The reader knows them apart by the column, so the column is
in the statement, and the induction follows the document.

Keys are not quoted when they are printed, so they have to be words.
-/

open Head

variable {column least fuel : Nat} {following : Following} {head : Head}

/-! ## Keys -/

/-- Whether a name is read back as a key.  The names of all fields of settings
are such names. -/
structure IsKey (name : String) : Prop where
  nonempty : name.toList ≠ []
  isWord : ∀ character ∈ name.toList, isWordCharacter character = true
  short : name.toList.length ≤ maxKeyLength

instance (name : String) : Decidable (IsKey name) :=
  decidable_of_iff (name.toList ≠ [] ∧ name.toList.all isWordCharacter = true ∧
      name.toList.length ≤ maxKeyLength)
    ⟨fun parts => ⟨parts.1, List.all_eq_true.mp parts.2.1, parts.2.2⟩,
      fun isKey => ⟨isKey.nonempty, List.all_eq_true.mpr isKey.isWord, isKey.short⟩⟩

theorem IsKey.exists_cons {name : String} (isKey : IsKey name) :
    ∃ character others, name.toList = character :: others ∧ isWordCharacter character = true := by
  rcases List.exists_cons_of_ne_nil isKey.nonempty with ⟨character, others, isName⟩
  exact ⟨character, others, isName, isKey.isWord character (by simp [isName])⟩

mutual

/-- Whether the names of all fields in a document are read back as keys. -/
def IsKeyed : Document -> Prop
  | .text _ => True
  | .natural _ => True
  | .texts _ => True
  | .record fields => AreKeyed fields

/-- Whether the names of some fields, and of all fields in them, are read back
as keys. -/
def AreKeyed : List (String × Document) -> Prop
  | [] => True
  | (name, document) :: fields => IsKey name ∧ IsKeyed document ∧ AreKeyed fields

end

theorem readKeyNode_name {name : String} (isKey : IsKey name) {text : Text}
    (isText : head.rest = name.toList ++ ':' :: text) (ends : endsWord text = true) :
    readKeyNode (fuel + 1) least none false head = some (.scalar true name.toList,
      { head.behind name.toList (':' :: text) with mayBegin := false }) := by
  rcases isKey.exists_cons with ⟨character, others, isName, isWord⟩
  have isRest : head.rest = character :: (others ++ ':' :: text) := by
    rw [isText, isName, List.cons_append]
  rcases other_of_isWordCharacter isWord with ⟨-, noBreak, notBlank, notIndicator, other⟩
  have beginsPlain : BeginsPlain character (others ++ ':' :: text) := by
    refine ⟨noBreak, notBlank, notIndicator, fun isMark => absurd isMark ?_⟩
    simp only [List.mem_cons, List.not_mem_nil, or_false, not_or] at other ⊢
    exact ⟨other.2.1, other.2.2.1, other.1⟩
  have readText : readPlain false least .nothing head.column (name.toList ++ ':' :: text) =
      some (name.toList, false, ':' :: text) := readPlain_key isKey.isWord ends
  have readName : readLeaf fuel least head = some (.scalar true name.toList,
      { head.behind name.toList (':' :: text) with mayBegin := false }) := by
    rw [readLeaf_of_notIndicator fuel isRest notIndicator, readPlainNode, isRest,
      if_pos beginsPlain.startsPlain, ← isRest, isText, readText]
    simp only [Option.map_some]
    rw [moveTo_append isText]
  unfold readKeyNode
  rw [isRest]
  split
  any_goals
    rename_i same
    cases same
    cases notIndicator
  rw [readName]
  rfl

theorem exists_readKey {name : String} (isKey : IsKey name) {text : Text}
    (isText : head.rest = name.toList ++ ':' :: text) (ends : endsWord text = true) :
    ∃ next, readKey (fuel + 1) least head = some (.scalar true name.toList, next) ∧
      next.rest = text ∧ head.column < next.column ∧ next.mayBegin = false := by
  have readName := @readKeyNode_name least fuel head name isKey text isText ends
  have noBreaks : ∀ character ∈ name.toList, isBreak character = false :=
    fun character member => (other_of_isWordCharacter (isKey.isWord character member)).2.1
  have sameLine : name.toList.countP isBreak = 0 :=
    List.countP_eq_zero.mpr fun character member => by simp [noBreaks character member]
  have atColumn := columnBehind_of_noBreak noBreaks head.column
  generalize isNext : ({ head.behind name.toList (':' :: text) with mayBegin := false } : Head) =
    next at readName
  have nextRest : next.rest = ':' :: text := by rw [← isNext]; rfl
  have nextLine : next.line = head.line := by
    rw [← isNext]
    exact congrArg (head.line + ·) sameLine
  have nextColumn : next.column = head.column + name.toList.length := by
    rw [← isNext]
    exact atColumn
  have stays : next.skip false = next := by
    refine skip_of_beginsToken false nextRest fun first isFirst => ?_
    exact Option.mem_some_iff.mp isFirst ▸ by decide
  have atColon : (next.atIndicator ':' && isKeyColon head next) = true := by
    have short := isKey.short
    simp [atIndicator, nextRest, ends, isKeyColon, nextLine, nextColumn, short]
  refine ⟨(next.forward 1).inside, ?_, ?_⟩
  · rw [readKey, readName]
    simp only [stays, atColon, if_true]
  · rw [forward_one nextRest (by decide)]
    refine ⟨rfl, ?_, rfl⟩
    change head.column < next.column + 1
    omega

/-! ## Numbers -/

theorem isWord_decimal (number : Nat) : ∀ digit ∈ decimal number, isWordCharacter digit = true := by
  intro digit member
  simp [isWordCharacter, Char.isAlphanum, isDigit_of_mem_decimal member]

theorem natural?_decimal (number : Nat) : natural? (decimal number) = some number := by
  by_cases isZero : number = 0
  · subst isZero
    rfl
  · have notZero := head?_decimal_of_pos (Nat.pos_of_ne_zero isZero)
    have read := ofDigits?_decimal number
    cases digits : decimal number with
    | nil => exact absurd digits (decimal_ne_nil number)
    | cons digit others =>
        have isDigit := isDigit_of_mem_decimal (digits ▸ List.mem_cons_self)
        rw [digits, List.head?_cons, ne_eq, Option.some_inj] at notZero
        rw [digits] at read
        have unsigned : digit ≠ '+' ∧ digit ≠ '-' := by
          constructor <;> (rintro rfl; cases isDigit)
        have noLeadingZero : hasLeadingZero (digit :: others) = false := by
          simp [hasLeadingZero, dropSign, unsigned, notZero]
        simp [natural?, magnitude?, unsigned, notZero, noLeadingZero, whole?, read]

/-! ## What follows fields and items -/

namespace Following

def ofFields (column : Nat) (fields : List (String × Document)) (following : Following) :
    Following :=
  match fields with
  | [] => following
  | (name, document) :: fields =>
      ⟨column, name.toList ++ ':' :: (printValue column document ++
        (printFields column fields ++ following.text))⟩

def printItems (column : Nat) (items : List String) : Text :=
  items.flatMap fun item =>
    List.replicate column ' ' ++ '-' :: ' ' :: scalar (column + 2) item.toList

def ofItems (column : Nat) (items : List String) (following : Following) : Following :=
  match items with
  | [] => following
  | item :: items =>
      ⟨column, '-' :: ' ' :: (scalar (column + 2) item.toList ++
        (printItems column items ++ following.text))⟩

theorem text_ofFields (column : Nat) (fields : List (String × Document)) (following : Following) :
    (following.ofFields column fields).text = printFields column fields ++ following.text := by
  cases fields with
  | nil => rfl
  | cons field fields =>
      rcases field with ⟨name, document⟩
      simp [ofFields, text, printFields]

theorem text_ofItems (column : Nat) (items : List String) (following : Following) :
    (following.ofItems column items).text = printItems column items ++ following.text := by
  cases items with
  | nil => rfl
  | cons item items => simp [ofItems, text, printItems]

theorem isProper_ofFields {fields : List (String × Document)} (areKeyed : AreKeyed fields)
    (isProper : following.IsProper least) (further : column < least) :
    (following.ofFields column fields).IsProper least := by
  match fields with
  | [] => exact isProper
  | (name, document) :: fields =>
      rcases areKeyed.1.exists_cons with ⟨character, others, isName, isWord⟩
      refine ⟨.inr ⟨by simp [ofFields, isName], further⟩, fun first isFirst => .inl ?_⟩
      rw [ofFields, isName, List.cons_append, List.head?_cons, Option.mem_some_iff] at isFirst
      exact isFirst ▸ isWord

theorem isProper_ofItems (items : List String) (isProper : following.IsProper least)
    (further : column < least) : (following.ofItems column items).IsProper least := by
  cases items with
  | nil => exact isProper
  | cons item items =>
      refine ⟨.inr ⟨by simp [ofItems], further⟩, fun first isFirst => .inr ?_⟩
      exact (Option.mem_some_iff.mp isFirst).symm

def BeginsKey (following : Following) : Prop :=
  ∀ character ∈ following.rest.head?, isWordCharacter character = true

end Following

theorem Following.BeginsKey.ofFields {fields : List (String × Document)}
    (areKeyed : AreKeyed fields) (beginsKey : following.BeginsKey) :
    (following.ofFields column fields).BeginsKey := by
  match fields with
  | [] => exact beginsKey
  | (name, document) :: fields =>
      rcases areKeyed.1.exists_cons with ⟨character, others, isName, isWord⟩
      intro first isFirst
      rw [Following.ofFields, isName, List.cons_append, List.head?_cons, Option.mem_some_iff]
        at isFirst
      exact isFirst ▸ isWord

/-- A collection ends in front of what stands further out. -/
theorem ends_of_reaches (reaches : head.Reaches following) (isProper : following.IsProper column) :
    ((head.skip false).atBoundary || (head.skip false).column != column) = true := by
  rcases isProper.further with isNothing | ⟨nonempty, further⟩
  · have atEnd : (head.skip false).rest = [] := by
      rw [reaches.1, isNothing]
      rfl
    simp [atBoundary, atEnd]
  · have elsewhere : (head.skip false).column ≠ column := by
      rw [(reaches.2 nonempty).1]
      omega
    simp [elsewhere]

/-! ## Items -/

theorem exists_blockItems (items : List String)
    (reaches : head.Reaches (following.ofItems column items))
    (enough : (Following.printItems column items).length < fuel)
    (isProper : following.IsProper (column + 1)) (beginsKey : following.BeginsKey) :
    ∃ nodes next, blockItems fuel column head = some (nodes, next) ∧
      (∀ filled, nodes.map (view filled).text? = items.map some) ∧ next.Reaches following := by
  induction items generalizing head fuel with
  | nil =>
      rcases Nat.exists_eq_succ_of_ne_zero (Nat.ne_of_gt (Nat.zero_lt_of_lt enough)) with
        ⟨fuel, rfl⟩
      have noDash : (head.skip false).atIndicator '-' = false := by
        rw [atIndicator, reaches.1, Following.ofItems]
        cases isRest : following.rest with
        | nil => rfl
        | cons character rest =>
            have isWord := beginsKey character (by rw [isRest]; rfl)
            have notDash : character ≠ '-' := by
              rintro rfl
              cases isWord
            simp [notDash]
      refine ⟨[], head.skip false, ?_, fun _ => rfl, reaches.skip isProper⟩
      rw [blockItems, noDash, if_pos (by simp)]
  | cons item items ih =>
      rw [Following.printItems, List.flatMap_cons, ← Following.printItems] at enough
      simp only [List.length_append, List.length_cons] at enough
      rcases Nat.exists_eq_add_of_le' (by omega : 2 ≤ fuel) with ⟨fuel, rfl⟩
      rcases reaches with ⟨atRest, atColumn⟩
      have isColumn : (head.skip false).column = column := (atColumn (by simp [Following.ofItems])).1
      rw [Following.ofItems] at atRest
      have atItem : ((head.skip false).atBoundary || (head.skip false).column != column ||
          !(head.skip false).atIndicator '-') = false := by
        simp [atBoundary, atRest, marksDocument, startsDocument, endsDocument, isColumn,
          atIndicator, endsWord, isBlank]
      generalize isStart : ((head.skip false).forward 1).fresh = start
      rw [forward_one atRest (by decide)] at isStart
      have startRest : start.rest = ' ' :: (scalar (column + 2) item.toList ++
          (following.ofItems column items).text) := by
        rw [← isStart, Following.text_ofItems]
        rfl
      have startColumn : column < start.column := by
        rw [← isStart]
        change column < (head.skip false).column + 1
        omega
      have isProperOthers := Following.isProper_ofItems items isProper (Nat.lt_succ_self column)
      rcases exists_blockNode_text fuel startRest startColumn isProperOthers false with
        ⟨isPlain, next, read, reachesOthers⟩
      rcases ih reachesOthers (by omega : _ < fuel + 1) with
        ⟨nodes, last, readOthers, shown, reachesEnd⟩
      refine ⟨.scalar isPlain item.toList :: nodes, last, ?_, fun filled => ?_, reachesEnd⟩
      · rw [blockItems, atItem]
        rw [forward_one atRest (by decide), isStart]
        simp only [Bool.false_eq_true, if_false, read, readOthers, Option.map_some]
      · rw [List.map_cons, shown filled]
        simp [view, Node.text?, Node.follow, Node.bare]

/-! ## Documents -/

def entryOf (field : String × Node) : Node × Node :=
  (.scalar true field.1.toList, field.2)

theorem atBoundary_of_word {character : Char} {rest : Text} (isRest : head.rest = character :: rest)
    (isWord : isWordCharacter character = true) : head.atBoundary = false := by
  rcases other_of_isWordCharacter isWord with ⟨-, -, -, notIndicator, other⟩
  simp only [List.mem_cons, List.not_mem_nil, or_false, not_or] at other
  have notDirective : character ≠ '%' := by
    rintro rfl
    cases notIndicator
  have notMark : marksDocument (character :: rest) = false := by
    simp [marksDocument, startsDocument, endsDocument, other]
  simp [atBoundary, isRest, notMark, notDirective]

theorem blockNode_of_key (fuel : Nat) {name : String} (isKey : IsKey name) {text : Text}
    (isText : (head.skip false).rest = name.toList ++ ':' :: text) (ends : endsWord text = true)
    (mayBegin : (head.skip false).mayBegin = true) (further : least ≤ (head.skip false).column)
    (mayAlign : Bool) :
    blockNode (fuel + 2) least mayAlign none false head =
      (blockEntries (fuel + 1) (head.skip false).column (head.skip false)).map
        fun read => (.mapping read.1, read.2) := by
  rcases isKey.exists_cons with ⟨character, others, isName, isWord⟩
  have isFirst : (head.skip false).rest = character :: (others ++ ':' :: text) := by
    rw [isText, isName, List.cons_append]
  have notBoundary := atBoundary_of_word isFirst isWord
  have atKey : (readKey (fuel + 1) least (head.skip false)).isSome = true := by
    rcases exists_readKey isKey isText ends with ⟨next, isRead, -⟩
    rw [isRead]
    rfl
  rw [blockNode, notBoundary, mayBegin, atKey, if_neg (by simp; omega),
    if_neg (by omega), if_pos (by simp)]
  rfl

theorem fields?_mapping (fields : List (String × Node)) {filled : List (Nat × Node)}
    (names : List String) :
    (view filled).fields? names (.mapping (fields.map entryOf)) = some fields := by
  simp only [view, Node.fields?, Node.follow, Node.bare]
  induction fields with
  | nil => rfl
  | cons field fields ih =>
      rw [List.map_cons, List.mapM_cons, ih]
      simp [entryOf, Node.text?, Node.follow, Node.bare]

theorem printValue_texts (column : Nat) (item : String) (items : List String) :
    printValue column (.texts (item :: items)) =
      '\n' :: Following.printItems column (item :: items) := by
  rw [printValue]
  · rfl
  · simp

theorem printValue_record (column : Nat) (field : String × Document)
    (fields : List (String × Document)) :
    printValue column (.record (field :: fields)) =
      '\n' :: printFields (column + 2) (field :: fields) := by
  rw [printValue]
  simp

theorem endsWord_printValue (column : Nat) (document : Document) (text : Text) :
    endsWord (printValue column document ++ text) = true := by
  cases document with
  | text content => rw [printValue]; rfl
  | natural number => rw [printValue]; rfl
  | texts items =>
      cases items with
      | nil => rfl
      | cons item items => rw [printValue_texts]; rfl
  | record fields =>
      cases fields with
      | nil => rfl
      | cons field fields => rw [printValue_record]; rfl

/-- A node that begins with a dash at the column of the mapping around it is a
sequence. -/
theorem blockNode_of_dash (fuel : Nat) {text : Text}
    (isText : (head.skip false).rest = '-' :: ' ' :: text)
    (isColumn : (head.skip false).column = column) :
    blockNode (fuel + 1) (column + 1) true none false head =
      (blockItems fuel column (head.skip false)).map fun read => (.sequence read.1, read.2) := by
  have notBoundary : (head.skip false).atBoundary = false := by
    simp [atBoundary, isText, marksDocument, startsDocument, endsDocument]
  have atDash : (head.skip false).atIndicator '-' = true := by
    simp [atIndicator, isText, endsWord, isBlank]
  rw [blockNode, notBoundary, atDash, if_neg (by simp [isColumn]), if_pos (by rw [isColumn]),
    if_pos (by simp), isColumn]
  rfl

/-- Entries that begin with a key are the key, what is read as its value
behind the colon, and the entries behind that. -/
theorem blockEntries_of_key (fuel : Nat) {name : String} (isKey : IsKey name) {text : Text}
    (isText : (head.skip false).rest = name.toList ++ ':' :: text) (ends : endsWord text = true)
    (isColumn : (head.skip false).column = column) :
    ∃ valueHead : Head, valueHead.rest = text ∧ column < valueHead.column ∧
      valueHead.mayBegin = false ∧ ∀ {node next others last},
        blockNode (fuel + 1) (column + 1) true none false valueHead = some (node, next) →
        blockEntries (fuel + 2) column next = some (others, last) →
        blockEntries (fuel + 3) column head =
          some ((.scalar true name.toList, node) :: others, last) := by
  rcases isKey.exists_cons with ⟨character, others, isName, isWord⟩
  have isFirst : (head.skip false).rest = character :: (others ++ ':' :: text) := by
    rw [isText, isName, List.cons_append]
  have notBoundary := atBoundary_of_word isFirst isWord
  have noMark : (head.skip false).atIndicator '?' = false := by
    have other := (other_of_isWordCharacter isWord).2.2.2.2
    simp only [List.mem_cons, List.not_mem_nil, or_false, not_or] at other
    simp [atIndicator, isFirst, other]
  rcases exists_readKey isKey isText ends with ⟨valueHead, readName, valueRest, further, inside⟩
  refine ⟨valueHead, valueRest, isColumn ▸ further, inside, fun readValue readOthers => ?_⟩
  rw [blockEntries, notBoundary, if_neg (by simp [isColumn]), blockEntry, noMark,
    if_neg (by simp), readName]
  simp only [readValue, Option.map_some, readOthers]

/-! ## Printed documents -/

/-- Whether a node that stands for a document is read behind the colon of a
key at a column, up to what follows.  The nodes in slots do not matter, since
none is printed. -/
def ReadsValue (fuel column : Nat) (document : Document) (following : Following) (head : Head) :
    Prop :=
  ∃ node next, blockNode fuel (column + 1) true none false head = some (node, next) ∧
    (∀ filled, (view filled).Shows document node) ∧ next.Reaches following

/-- Whether entries that stand for fields are read at a column, up to what
follows.  The names of the entries are those of the fields, in order. -/
def ReadsFields (fuel column : Nat) (fields : List (String × Document)) (following : Following)
    (head : Head) : Prop :=
  ∃ values next, blockEntries fuel column head = some (values.map entryOf, next) ∧
    (∀ filled, (view filled).ShowsFields fields values) ∧ next.Reaches following

theorem readsValue_text (fuel : Nat) (content : String)
    (isText : head.rest = printValue column (.text content) ++ following.text)
    (further : column < head.column) (isProper : following.IsProper (column + 1)) :
    ReadsValue (fuel + 1) column (.text content) following head := by
  rw [printValue] at isText
  rcases exists_blockNode_text fuel isText further isProper true with ⟨isPlain, next, read, reaches⟩
  refine ⟨_, next, read, fun filled => ?_, reaches⟩
  simp [View.Shows, view, Node.text?, Node.follow, Node.bare]

theorem readsValue_natural (fuel number : Nat)
    (isText : head.rest = printValue column (.natural number) ++ following.text)
    (further : column < head.column) (isProper : following.IsProper (column + 1)) :
    ReadsValue (fuel + 1) column (.natural number) following head := by
  rw [printValue] at isText
  simp only [List.cons_append, List.append_assoc] at isText
  rcases exists_blockNode_word fuel (isWord_decimal number) (decimal_ne_nil number) isText
    further isProper true with ⟨next, read, reaches⟩
  refine ⟨_, next, read, fun filled => ?_, reaches⟩
  simp [View.Shows, view, Node.natural?, Node.follow, Node.bare, natural?_decimal]

/-- The empty list and the empty record are printed in brackets behind the
key. -/
theorem readsValue_empty (fuel : Nat) {document : Document}
    (isEmpty : document = .texts [] ∨ document = .record [])
    (isText : head.rest = printValue column document ++ following.text)
    (further : column < head.column) (inside : head.mayBegin = false)
    (isProper : following.IsProper (column + 1)) :
    ReadsValue (fuel + 5) column document following head := by
  rcases isEmpty with rfl | rfl <;> rw [printValue] at isText
  · rcases exists_blockNode_empty (fuel + 2) (.inl rfl) isText further inside isProper true with
      ⟨next, read, reaches⟩
    exact ⟨_, next, read, fun filled => View.shows_texts_of_items rfl rfl, reaches⟩
  · rcases exists_blockNode_empty (fuel + 2) (.inr rfl) isText further inside isProper true with
      ⟨next, read, reaches⟩
    refine ⟨_, next, read, fun filled => ?_, reaches⟩
    rw [View.Shows]
    exact ⟨[], fun _ => rfl, rfl⟩

theorem readsValue_texts {item : String} {items : List String}
    (isText : head.rest = printValue column (.texts (item :: items)) ++ following.text)
    (enough : (printValue column (.texts (item :: items))).length ≤ fuel)
    (isProper : following.IsProper (column + 1)) (beginsKey : following.BeginsKey) :
    ReadsValue (fuel + 1) column (.texts (item :: items)) following head := by
  rw [printValue_texts] at isText enough
  rw [List.length_cons] at enough
  rw [List.cons_append, ← Following.text_ofItems] at isText
  have isProperItems :=
    Following.isProper_ofItems (item :: items) isProper (Nat.lt_succ_self column)
  have reaches := Reaches.of_line isText isProperItems
  rcases exists_blockItems (item :: items) (reaches.skip isProperItems) (by omega : _ < fuel)
    isProper beginsKey with ⟨nodes, next, read, shown, reachesEnd⟩
  have isColumn : (head.skip false).column = column :=
    (reaches.2 (by simp [Following.ofItems])).1
  refine ⟨.sequence nodes, next, ?_, fun filled => ?_, reachesEnd⟩
  · rw [blockNode_of_dash fuel reaches.1 isColumn, read]
    rfl
  · exact View.shows_texts_of_items rfl (shown filled)

/-- The fields of a record stand in the lines behind its key, two columns
further in. -/
theorem readsValue_record {name : String} {first : Document} {fields : List (String × Document)}
    (areKeyed : AreKeyed ((name, first) :: fields))
    (isText : head.rest = printValue column (.record ((name, first) :: fields)) ++ following.text)
    (isProper : following.IsProper (column + 1))
    (reads : ∀ {start : Head},
      start.Reaches (following.ofFields (column + 2) ((name, first) :: fields)) →
      ReadsFields (fuel + 1) (column + 2) ((name, first) :: fields) following start) :
    ReadsValue (fuel + 2) column (.record ((name, first) :: fields)) following head := by
  rw [printValue_record, List.cons_append, ← Following.text_ofFields] at isText
  have isProperFields := Following.isProper_ofFields areKeyed
    (isProper.mono (by omega : column + 1 ≤ column + 3)) (by omega : column + 2 < column + 3)
  have reaches := Reaches.of_line isText isProperFields
  rcases reads (reaches.skip isProperFields) with ⟨values, next, read, shown, reachesEnd⟩
  rcases reaches with ⟨atRest, atColumn⟩
  rcases atColumn (by simp [Following.ofFields]) with ⟨isColumn, mayBegin⟩
  have isColumn : (head.skip false).column = column + 2 := isColumn
  refine ⟨.mapping (values.map entryOf), next, ?_, fun filled => ?_, reachesEnd⟩
  · rw [blockNode_of_key fuel areKeyed.1 atRest (endsWord_printValue _ _ _) mayBegin (by omega),
      isColumn, read]
    rfl
  · rw [View.Shows]
    exact ⟨values, fun _ => fields?_mapping values _, shown filled⟩

theorem readsFields_nil (reaches : head.Reaches following) (isProper : following.IsProper column) :
    ReadsFields (fuel + 1) column [] following head := by
  refine ⟨[], head.skip false, ?_, fun filled => rfl, reaches.skip isProper⟩
  rw [blockEntries, if_pos (ends_of_reaches reaches isProper)]
  rfl

theorem readsFields_cons {name : String} {document : Document} {fields : List (String × Document)}
    (isKey : IsKey name)
    (reaches : head.Reaches (following.ofFields column ((name, document) :: fields)))
    (readsFirst : ∀ {start : Head},
      start.rest = printValue column document ++ (following.ofFields column fields).text →
      column < start.column → start.mayBegin = false →
      ReadsValue (fuel + 1) column document (following.ofFields column fields) start)
    (readsOthers : ∀ {start : Head}, start.Reaches (following.ofFields column fields) →
      ReadsFields (fuel + 2) column fields following start) :
    ReadsFields (fuel + 3) column ((name, document) :: fields) following head := by
  rcases reaches with ⟨atRest, atColumn⟩
  rcases atColumn (by simp [Following.ofFields]) with ⟨isColumn, -⟩
  rcases blockEntries_of_key fuel isKey atRest (endsWord_printValue _ _ _) isColumn with
    ⟨valueHead, valueRest, further, inside, reads⟩
  rw [← Following.text_ofFields] at valueRest
  rcases readsFirst valueRest further inside with ⟨node, next, readValue, shownValue, reachesOthers⟩
  rcases readsOthers reachesOthers with ⟨values, last, readOthers, shownOthers, reachesEnd⟩
  refine ⟨(name, node) :: values, last, reads readValue readOthers, fun filled => ?_, reachesEnd⟩
  rw [View.ShowsFields]
  exact ⟨node, values, rfl, shownValue filled, shownOthers filled⟩

mutual

/-- A printed document behind a colon is read as a node that stands for it.
The two inductions for values and fields go down the document, with the fuel
left open. -/
theorem readsValue (document : Document) (column fuel : Nat) {head : Head}
    {following : Following} (isKeyed : IsKeyed document)
    (isText : head.rest = printValue column document ++ following.text)
    (further : column < head.column) (inside : head.mayBegin = false)
    (enough : (printValue column document).length < fuel)
    (isProper : following.IsProper (column + 1)) (beginsKey : following.BeginsKey) :
    ReadsValue fuel column document following head := by
  match document with
  | .text content =>
      rcases Nat.exists_eq_add_of_le' (Nat.zero_lt_of_lt enough : 1 ≤ fuel) with ⟨fuel, rfl⟩
      exact readsValue_text fuel content isText further isProper
  | .natural number =>
      rcases Nat.exists_eq_add_of_le' (Nat.zero_lt_of_lt enough : 1 ≤ fuel) with ⟨fuel, rfl⟩
      exact readsValue_natural fuel number isText further isProper
  | .texts [] =>
      rw [printValue] at enough
      rcases Nat.exists_eq_add_of_le' (enough : 5 ≤ fuel) with ⟨fuel, rfl⟩
      exact readsValue_empty fuel (.inl rfl) isText further inside isProper
  | .texts (item :: items) =>
      rcases Nat.exists_eq_add_of_le' (Nat.zero_lt_of_lt enough : 1 ≤ fuel) with ⟨fuel, rfl⟩
      exact readsValue_texts isText (Nat.le_of_lt_succ enough) isProper beginsKey
  | .record [] =>
      rw [printValue] at enough
      rcases Nat.exists_eq_add_of_le' (enough : 5 ≤ fuel) with ⟨fuel, rfl⟩
      exact readsValue_empty fuel (.inr rfl) isText further inside isProper
  | .record ((name, first) :: fields) =>
      rw [printValue_record, List.length_cons] at enough
      rcases Nat.exists_eq_add_of_le' (by omega : 2 ≤ fuel) with ⟨fuel, rfl⟩
      exact readsValue_record isKeyed isText isProper fun reaches =>
        readsFields ((name, first) :: fields) (column + 2) (fuel + 1) isKeyed reaches (by omega)
          (isProper.mono (by omega)) beginsKey

/-- The printed fields of a record are read as the entries of a mapping.
Behind the value of a field the head comes to the next key, or to what follows
the record. -/
theorem readsFields (fields : List (String × Document)) (column fuel : Nat) {head : Head}
    {following : Following} (areKeyed : AreKeyed fields)
    (reaches : head.Reaches (following.ofFields column fields))
    (enough : (printFields column fields).length < fuel)
    (isProper : following.IsProper column) (beginsKey : following.BeginsKey) :
    ReadsFields fuel column fields following head := by
  match fields with
  | [] =>
      rcases Nat.exists_eq_add_of_le' (Nat.zero_lt_of_lt enough : 1 ≤ fuel) with ⟨fuel, rfl⟩
      exact readsFields_nil reaches isProper
  | (name, document) :: fields =>
      rw [AreKeyed] at areKeyed
      rcases areKeyed with ⟨isKey, isKeyed, areKeyed⟩
      have positive := List.length_pos_iff.mpr isKey.nonempty
      rw [printFields] at enough
      simp only [List.length_append, List.length_cons] at enough
      rcases Nat.exists_eq_add_of_le' (by omega : 3 ≤ fuel) with ⟨fuel, rfl⟩
      have isProperValue := Following.isProper_ofFields areKeyed
        (isProper.mono (Nat.le_succ column)) (Nat.lt_succ_self column)
      exact readsFields_cons isKey reaches
        (fun isText further inside => readsValue document column (fuel + 1) isKeyed isText
          further inside (by omega) isProperValue (.ofFields areKeyed beginsKey))
        (fun reachesOthers => readsFields fields column (fuel + 2) areKeyed reachesOthers
          (by omega) isProper beginsKey)

end

end Yaml
end FluentLog
