import FluentLog.Document
import FluentLog.Yaml.Scalar

namespace FluentLog
namespace Yaml

/-!
# The nodes of YAML and the head that reads them

The readers of the language share one state, the reading head, and they give nodes, in which
anchors and aliases are not resolved.
-/

/-!
## YAML nodes

A node that carries an anchor fills a slot, and an alias names the slot it stands for.
An alias may stand inside the node that it stands for, so aliases are followed only when
a value is looked at, and only one step, since no alias carries an anchor.

Tags are not kept: what a scalar is depends on what is asked of it.
-/

/-- A node of a YAML document.  Collections keep their nodes in order, and a
mapping may hold a key twice. -/
inductive Node where
  /-- A scalar.  Only a plain one can be a number or stand for an empty list. -/
  | scalar (isPlain : Bool) (content : Text)
  | sequence (items : List Node)
  | mapping (entries : List (Node × Node))
  | anchored (slot : Nat) (node : Node)
  | alias (slot : Nat)

namespace Node

/-- The node that is written as nothing at all. -/
def empty : Node := .scalar true []

def bare : Node -> Node
  | .anchored _ node => node
  | node => node

mutual

/-- The nodes in slots, those that begin later in the document first.  Looked
up in this order, a slot holds the node that filled it last. -/
def slots : Node -> List (Nat × Node)
  | .scalar _ _ => []
  | .sequence items => slotsOfItems items
  | .mapping entries => slotsOfEntries entries
  | .anchored slot node => slots node ++ [(slot, node)]
  | .alias _ => []

def slotsOfItems : List Node -> List (Nat × Node)
  | [] => []
  | item :: items => slotsOfItems items ++ slots item

def slotsOfEntries : List (Node × Node) -> List (Nat × Node)
  | [] => []
  | (key, value) :: entries => slotsOfEntries entries ++ slots value ++ slots key

end

/-- The node that a node stands for, where `filled` are the nodes in slots.
One step is enough, since no alias carries an anchor. -/
def follow (filled : List (Nat × Node)) (node : Node) : Node :=
  match node.bare with
  | .alias slot => (filled.lookup slot).getD .empty
  | node => node

def text? (filled : List (Nat × Node)) (node : Node) : Option String :=
  match node.follow filled with
  | .scalar _ content => some (String.ofList content)
  | _ => none

/-- The natural number that a node is.  It is not quoted, since quoted scalars
are texts. -/
def natural? (filled : List (Nat × Node)) (node : Node) : Option Nat :=
  match node.follow filled with
  | .scalar true content => Yaml.natural? content
  | _ => none

/-- The items of a sequence, or of nothing at all. -/
def items? (filled : List (Nat × Node)) (node : Node) : Option (List Node) :=
  match node.follow filled with
  | .sequence items => some items
  | .scalar true [] => some []
  | _ => none

/-- The entries of a mapping, whose keys all have to be scalars, or of nothing
at all.  A quoted key is as good as a plain one. -/
def fields? (filled : List (Nat × Node)) (node : Node) : Option (List (String × Node)) :=
  match node.follow filled with
  | .mapping entries =>
      entries.mapM fun (key, value) => (key.text? filled).map fun name => (name, value)
  | .scalar true [] => some []
  | _ => none

end Node

/-- What the nodes of a document can be taken for, where `filled` are its
nodes in slots.  A sequence is no record. -/
def view (filled : List (Nat × Node)) : View Node :=
  ⟨Node.text? filled, Node.natural? filled, Node.items? filled, fun _ => Node.fields? filled⟩

/-!
## The reading head

Where a block collection begins and ends depends on columns, and whether a key may begin
at some place depends on what stands before it in the line.  The reading head keeps both
with the text that is left, and also the anchors that have been read.
-/

/-- A place in a YAML text.  Lines and columns count from zero, and a column
counts characters and not bytes. -/
structure Head where
  rest : Text
  line : Nat := 0
  column : Nat := 0
  /-- Whether the key of a block mapping, or an item of a block sequence, may begin
  here. -/
  mayBegin : Bool := true
  /-- The anchors read so far with the slots of their nodes. -/
  anchors : List (Text × Nat) := []
  /-- The handles of tags that directives have declared. -/
  handles : List Text := []

namespace Head

def advance (head : Head) (character : Char) (rest : Text) : Head :=
  if isBreak character then { head with rest := rest, line := head.line + 1, column := 0 }
  else { head with rest := rest, column := head.column + 1 }

def forward : Nat -> Head -> Head
  | 0, head => head
  | count + 1, head =>
      match head.rest with
      | [] => head
      | character :: rest => forward count (head.advance character rest)

def moveTo (head : Head) (rest : Text) : Head :=
  head.forward (head.rest.length - rest.length)

/-- The head where nothing may begin but a value. -/
def inside (head : Head) : Head :=
  { head with mayBegin := false }

/-- The head where anything may begin. -/
def fresh (head : Head) : Head :=
  { head with mayBegin := true }

/-- Skips blanks, comments and line ends before the next token.  Tabs only
count as blanks where nothing may begin.  A byte order mark counts as a blank
at the beginning of a line. -/
def skipFrom (inFlow inComment mayBegin atMargin : Bool) : Text -> Text
  | [] => []
  | character :: rest =>
      if isBreak character then skipFrom inFlow false (mayBegin || !inFlow) true rest
      else if inComment then skipFrom inFlow true mayBegin false rest
      else if character = '#' then skipFrom inFlow true mayBegin false rest
      else if character = ' ' then skipFrom inFlow false mayBegin false rest
      else if character = '\t' && (inFlow || !mayBegin) then
        skipFrom inFlow false mayBegin false rest
      else if character = '\uFEFF' && atMargin then skipFrom inFlow false mayBegin false rest
      else character :: rest

/-- Moves the head to the next token.  In a block, a new line may begin
anything; inside a flow collection it changes nothing. -/
def skip (inFlow : Bool) (head : Head) : Head :=
  let next := head.moveTo (skipFrom inFlow false head.mayBegin (head.column = 0) head.rest)
  if head.line < next.line && !inFlow then next.fresh else next

/-- Whether the head stands at a mark of a document or at a directive, or at
the end.  No node begins there. -/
def atBoundary (head : Head) : Bool :=
  head.rest.isEmpty ||
    (head.column = 0 && (marksDocument head.rest || head.rest.head? = some '%'))

/-- Whether an indicator of a block collection stands at the head. -/
def atIndicator (head : Head) (indicator : Char) : Bool :=
  match head.rest with
  | character :: rest => character = indicator && endsWord rest
  | [] => false

/-- The slot of an anchor with a name, and the head with the anchor.  A name
that is used again takes a new slot, and aliases before it keep the old one. -/
def addAnchor (head : Head) (name : Text) : Nat × Head :=
  let slot := head.anchors.length
  let others := head.anchors.filter fun anchor => anchor.1 != name
  (slot, { head with anchors := (name, slot) :: others })

end Head

/-! ### Names, anchors and tags -/

/-- The characters of anchors and of the handles of tags. -/
def isNameCharacter (character : Char) : Bool :=
  character.isAlphanum || character = '_' || character = '-'

/-- Reads the name of an anchor or an alias.  A blank, a line end or one of a
few signs has to follow it. -/
def readName (text : Text) : Option (Text × Text) :=
  let (name, rest) := text.span isNameCharacter
  let ends := endsWord rest ||
    rest.head?.any fun next => ['?', ':', ',', ']', '\x7d', '%', '@', '\x60'].contains next
  if name.isEmpty || !ends then none else some (name, rest)

/-- The characters of a tag, those excepted that separate the parts of a flow
collection. -/
def isTagCharacter (character : Char) : Bool :=
  isNameCharacter character ||
    [';', '/', '?', ':', '@', '&', '=', '+', '$', '.', '!', '~', '*', '\'', '(', ')',
      '%'].contains character

/-- Whether every percent sign is followed by two hexadecimal digits. -/
def escapesAreComplete : Text -> Bool
  | [] => true
  | '%' :: first :: second :: rest =>
      (hexDigit? first).isSome && (hexDigit? second).isSome && escapesAreComplete rest
  | character :: rest => character != '%' && escapesAreComplete rest

/-- Reads a tag between angle brackets.  It has to be closed, and it is not
empty. -/
def readVerbatimTag (text : Text) : Option Text :=
  let (tag, rest) := text.span fun character =>
    isTagCharacter character || [',', '[', ']'].contains character
  match rest with
  | '>' :: rest => if tag.isEmpty || !escapesAreComplete tag then none else some rest
  | _ => none

/-- Reads a tag with a handle.  A handle with an exclamation mark at its end
has to be declared, and something has to follow it. -/
def readShorthandTag (handles : List Text) (text : Text) : Option Text :=
  let (name, rest) := text.span isNameCharacter
  match rest with
  | '!' :: rest =>
      let (suffix, rest) := rest.span isTagCharacter
      if (name.isEmpty || handles.contains ('!' :: name ++ ['!'])) && !suffix.isEmpty &&
          escapesAreComplete suffix then some rest
      else none
  | _ =>
      let (suffix, rest) := text.span isTagCharacter
      if escapesAreComplete suffix then some rest else none

/-- Reads a tag behind its exclamation mark.  What it says is dropped: only
its end matters. -/
def readTag (inFlow : Bool) (handles : List Text) (text : Text) : Option Text :=
  let read := match text with
    | '<' :: rest => readVerbatimTag rest
    | _ => readShorthandTag handles text
  match read with
  | none => none
  | some rest => if endsWord rest || (inFlow && rest.head? = some ',') then some rest else none

end Yaml
end FluentLog
