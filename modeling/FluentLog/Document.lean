import FluentLog.Text

namespace FluentLog

/-!
# Documents, and their form in JSON

Settings are kept as documents.  A document is read through a view, which all file formats have
in common, and JSON is the first of these formats.
-/

/-!
## Documents

A document is what a settings file holds: texts, natural numbers, lists of texts, and
records of named fields.  It says nothing about a file format.  A record is an
association list, so its fields keep the order in which they are written.
-/

/-- The content of a settings file.  There is no document for truth values,
for nothing or for lists of anything but texts, since settings hold none. -/
inductive Document where
  | text (content : String)
  | natural (value : Nat)
  | texts (items : List String)
  | record (fields : List (String × Document))

/-!
## Views of values

Settings are read in the same way from every file format.  All they ask of a value is
whether it can be taken for a text, for a natural number, for a list or for a record, and
a format answers these questions with a view of its values.

A record is asked for by the names of its fields in their order, because a format may
also write a record as a list.  Fields with other names are ignored, and a field of the
record may occur only once.
-/

/-- What a value of some file format can be taken for.  A value may pass for
several of these, such as an empty scalar for a text and for an empty list. -/
structure View (Value : Type) where
  text? : Value -> Option String
  natural? : Value -> Option Nat
  items? : Value -> Option (List Value)
  /-- The fields of a record, those with other names included. -/
  fields? : List String -> Value -> Option (List (String × Value))

namespace View

variable {Value : Type}

def texts? (view : View Value) (value : Value) : Option (List String) :=
  match view.items? value with
  | none => none
  | some items => items.mapM view.text?

/-- The fields of a record that have one of the given names, if none of these
occurs twice.  Other fields are dropped, whatever they hold. -/
def known? (view : View Value) (names : List String) (value : Value) :
    Option (List (String × Value)) :=
  match view.fields? names value with
  | none => none
  | some fields =>
      let known := fields.filter fun field => names.contains field.1
      if (known.map Prod.fst).Nodup then some known else none

end View

/-- Reads the field of a given name.  A field that is missing has its default,
but one that is there must be readable. -/
def fieldOr? {Value Content : Type} (fields : List (String × Value)) (name : String)
    (read : Value -> Option Content) (default : Content) : Option Content :=
  match fields.lookup name with
  | none => some default
  | some value => read value

namespace Json

/-!
## JSON values

A number keeps its literal and an object keeps all its members in order, so that reading
loses nothing that matters later.  A text in which an escaped half of a surrogate pair
stands alone has no content; it is tolerated in values that nobody looks at.
-/

inductive Value where
  | null
  | boolean (value : Bool)
  | number (literal : Text)
  | text (content : Option Text)
  | array (items : List Value)
  | object (members : List (Option Text × Value))

namespace Value

def text? : Value -> Option String
  | .text (some content) => some (String.ofList content)
  | _ => none

/-- The natural number that a value is.  Its literal has neither a sign nor a
fraction nor an exponent. -/
def natural? : Value -> Option Nat
  | .number literal => if literal.all Char.isDigit then some (ofDecimal literal) else none
  | _ => none

def items? : Value -> Option (List Value)
  | .array items => some items
  | _ => none

/-- The members of an object, whose names all have to be texts, or the items
of an array as the first fields of a record. -/
def fields? (names : List String) : Value -> Option (List (String × Value))
  | .object members => members.mapM fun
      | (some name, value) => some (String.ofList name, value)
      | (none, _) => none
  | .array items => if items.length ≤ names.length then some (names.zip items) else none
  | _ => none

end Value

/-- What JSON values can be taken for. -/
def view : View Value :=
  ⟨Value.text?, Value.natural?, Value.items?, Value.fields?⟩

/-!
## Reading JSON

The reader accepts strict JSON: one value with nothing but blanks around it.  Every
function takes the text that is left and gives back what it read with the rest, or
nothing where the text is not JSON.
-/

/-- The blanks between the tokens of JSON. -/
def isSpace (character : Char) : Bool :=
  character = ' ' || character = '\n' || character = '\t' || character = '\r'

def skipSpace (text : Text) : Text :=
  text.dropWhile isSpace

/-! ### Texts -/

/-- A piece of a quoted text: a character, or a UTF-16 code unit written as
`\u`.  Units are joined to characters afterwards, since it takes two for some. -/
inductive Piece where
  | character (character : Char)
  | unit (code : Nat)
  deriving DecidableEq, Repr

/-- The character that stands for itself behind a backslash, or for a control. -/
def unescape? : Char -> Option Char
  | '"' => some '"'
  | '\\' => some '\\'
  | '/' => some '/'
  | 'b' => some '\x08'
  | 'f' => some '\x0c'
  | 'n' => some '\n'
  | 'r' => some '\r'
  | 't' => some '\t'
  | _ => none

/-- Reads the rest of a quoted text, the closing quote included.  Controls
have to be escaped. -/
def readPieces : Text -> Option (List Piece × Text)
  | [] => none
  | '"' :: rest => some ([], rest)
  | '\\' :: 'u' :: a :: b :: c :: d :: rest =>
      match ofDigits? 16 [a, b, c, d], readPieces rest with
      | some code, some (pieces, rest) => some (.unit code :: pieces, rest)
      | _, _ => none
  | '\\' :: escaped :: rest =>
      match unescape? escaped, readPieces rest with
      | some character, some (pieces, rest) => some (.character character :: pieces, rest)
      | _, _ => none
  | character :: rest =>
      if character.toNat < 0x20 then none
      else
        match readPieces rest with
        | some (pieces, rest) => some (.character character :: pieces, rest)
        | none => none

/-- The text that pieces stand for.  Two units may be the halves of one
character; a half that stands alone makes no text. -/
def compose : List Piece -> Option Text
  | [] => some []
  | .character character :: pieces => (compose pieces).map (character :: ·)
  | .unit high :: .unit low :: pieces =>
      if 0xD800 ≤ high ∧ high < 0xDC00 then
        if 0xDC00 ≤ low ∧ low < 0xE000 then
          (compose pieces).map
            (Char.ofNat (0x10000 + (high - 0xD800) * 0x400 + (low - 0xDC00)) :: ·)
        else none
      else if 0xDC00 ≤ high ∧ high < 0xE000 then none
      else (compose (.unit low :: pieces)).map (Char.ofNat high :: ·)
  | .unit code :: pieces =>
      if 0xD800 ≤ code ∧ code < 0xE000 then none
      else (compose pieces).map (Char.ofNat code :: ·)

/-! ### Numbers -/

/-- Reads the whole part of a number.  A zero stands alone. -/
def readWhole : Text -> Option (Text × Text)
  | '0' :: rest => some (['0'], rest)
  | text => takeDigits? text

def readFraction : Text -> Option (Text × Text)
  | '.' :: rest => (takeDigits? rest).map fun (digits, rest) => ('.' :: digits, rest)
  | text => some ([], text)

def readExponent (text : Text) : Option (Text × Text) :=
  match text with
  | mark :: rest =>
      if mark = 'e' ∨ mark = 'E' then
        match rest with
        | '+' :: rest => (takeDigits? rest).map fun (digits, rest) => (mark :: '+' :: digits, rest)
        | '-' :: rest => (takeDigits? rest).map fun (digits, rest) => (mark :: '-' :: digits, rest)
        | _ => (takeDigits? rest).map fun (digits, rest) => (mark :: digits, rest)
      else some ([], text)
  | [] => some ([], [])

def readNumber (text : Text) : Option (Text × Text) := do
  let (sign, text) : Text × Text := match text with
    | '-' :: rest => (['-'], rest)
    | _ => ([], text)
  let (whole, text) <- readWhole text
  let (fraction, text) <- readFraction text
  let (exponent, text) <- readExponent text
  some (sign ++ whole ++ fraction ++ exponent, text)

/-! ### Values -/

mutual

def readValue : Nat -> Text -> Option (Value × Text)
  | 0, _ => none
  | fuel + 1, text =>
      match skipSpace text with
      | '"' :: rest =>
          (readPieces rest).map fun (pieces, rest) => (.text (compose pieces), rest)
      | '[' :: rest =>
          match skipSpace rest with
          | ']' :: rest => some (.array [], rest)
          | rest => (readItems fuel rest).map fun (items, rest) => (.array items, rest)
      | '\x7b' :: rest =>
          match skipSpace rest with
          | '\x7d' :: rest => some (.object [], rest)
          | rest => (readMembers fuel rest).map fun (members, rest) => (.object members, rest)
      | 'n' :: 'u' :: 'l' :: 'l' :: rest => some (.null, rest)
      | 't' :: 'r' :: 'u' :: 'e' :: rest => some (.boolean true, rest)
      | 'f' :: 'a' :: 'l' :: 's' :: 'e' :: rest => some (.boolean false, rest)
      | text => (readNumber text).map fun (literal, rest) => (.number literal, rest)

/-- Reads the items of an array and its closing bracket.  There is at least
one item, and no comma behind the last one. -/
def readItems : Nat -> Text -> Option (List Value × Text)
  | 0, _ => none
  | fuel + 1, text =>
      match readValue fuel text with
      | none => none
      | some (item, rest) =>
          match skipSpace rest with
          | ']' :: rest => some ([item], rest)
          | ',' :: rest => (readItems fuel rest).map fun (items, rest) => (item :: items, rest)
          | _ => none

/-- Reads the members of an object and its closing brace.  There is at least
one member, and no comma behind the last one. -/
def readMembers : Nat -> Text -> Option (List (Option Text × Value) × Text)
  | 0, _ => none
  | fuel + 1, text =>
      match skipSpace text with
      | '"' :: rest =>
          match readPieces rest with
          | none => none
          | some (pieces, rest) =>
              match skipSpace rest with
              | ':' :: rest =>
                  match readValue fuel rest with
                  | none => none
                  | some (value, rest) =>
                      match skipSpace rest with
                      | '\x7d' :: rest => some ([(compose pieces, value)], rest)
                      | ',' :: rest =>
                          (readMembers fuel rest).map fun (members, rest) =>
                            ((compose pieces, value) :: members, rest)
                      | _ => none
              | _ => none
      | _ => none

end

/-- The value that a JSON text stands for.  Every second call reads a
character, so the fuel is never used up. -/
def read (text : Text) : Option Value :=
  match readValue (2 * text.length + 2) text with
  | none => none
  | some (value, rest) => if (skipSpace rest).isEmpty then some value else none

/-!
## Printing JSON

Documents are printed over several lines, each level two spaces further in.  Empty lists
and records stay on one line, and there is no line end behind the document.
-/

/-- A character as it stands between quotes.  Controls without a letter of
their own are written with four hexadecimal digits. -/
def escape (character : Char) : Text :=
  match character with
  | '"' => ['\\', '"']
  | '\\' => ['\\', '\\']
  | '\x08' => ['\\', 'b']
  | '\x0c' => ['\\', 'f']
  | '\n' => ['\\', 'n']
  | '\r' => ['\\', 'r']
  | '\t' => ['\\', 't']
  | _ =>
      let code := character.toNat
      if code < 0x20 then '\\' :: 'u' :: hexDigits 'a' 4 code
      else [character]

def quote (text : String) : Text :=
  '"' :: text.toList.flatMap escape ++ ['"']

/-- The beginning of a line that stands `depth` levels in. -/
def newLine (depth : Nat) : Text :=
  '\n' :: List.replicate (2 * depth) ' '

/-- Parts between brackets, each on a line of its own and one level further
in.  Without parts the brackets stand next to each other. -/
def enclose (opening closing : Char) (depth : Nat) (parts : List Text) : Text :=
  match parts with
  | [] => [opening, closing]
  | first :: others =>
      opening :: newLine (depth + 1) ++ first ++
        others.flatMap (fun part => ',' :: newLine (depth + 1) ++ part) ++
        newLine depth ++ [closing]

mutual

/-- A document that stands `depth` levels in. -/
def printAt (depth : Nat) : Document -> Text
  | .text content => quote content
  | .natural value => decimal value
  | .texts items => enclose '[' ']' depth (items.map quote)
  | .record fields => enclose '\x7b' '\x7d' depth (printFields (depth + 1) fields)

def printFields (depth : Nat) : List (String × Document) -> List Text
  | [] => []
  | (name, value) :: fields =>
      (quote name ++ ':' :: ' ' :: printAt depth value) :: printFields depth fields

end

def print (document : Document) : Text :=
  printAt 0 document

end Json

end FluentLog
