import FluentLog.Yaml.Head

namespace FluentLog
namespace Yaml

/-!
# Reading YAML

Nodes are scalars and aliases, collections between brackets, and blocks.  Each kind has its
readers, and the document around them may begin with directives.
-/

/-!
## Reading aliases, anchors and scalars

The readers of nodes take the head where a node may begin and give back the node with the
head behind it, or nothing where the text is not YAML.
-/

def anchor (slot : Option Nat) (node : Node) : Node :=
  match slot with
  | some slot => .anchored slot node
  | none => node

/-- The greatest distance between the beginning of a key and the colon behind
it.  A longer key needs a question mark before it. -/
def maxKeyLength : Nat := 1024

/-- Whether a colon at one head can belong to a key that begins at another.
Both have to be in one line. -/
def isKeyColon (start colon : Head) : Bool :=
  colon.line = start.line && colon.column ≤ start.column + maxKeyLength

/-- Reads the name of an alias and finds its slot.  The anchor has to stand
before the alias. -/
def readAlias (head : Head) (rest : Text) : Option (Node × Head) :=
  match readName rest with
  | none => none
  | some (name, rest) =>
      (head.anchors.lookup name).map fun slot => (.alias slot, (head.moveTo rest).inside)

def readAnchor (head : Head) (rest : Text) : Option (Nat × Head) :=
  (readName rest).map fun (name, rest) => ((head.moveTo rest).inside).addAnchor name

def readQuoted (head : Head) : Option (Node × Head) :=
  let read : Option (Text × Text) := match head.rest with
    | '\'' :: rest => readSingleQuoted .nothing false rest
    | '"' :: rest => readDoubleQuoted .nothing false rest
    | _ => none
  read.map fun (content, rest) => (.scalar false content, (head.moveTo rest).inside)

/-- Reads a plain scalar, if one begins at the head.  A key may begin behind
it only if a line has ended. -/
def readPlainNode (inFlow : Bool) (least : Nat) (head : Head) : Option (Node × Head) :=
  if startsPlain inFlow head.rest then
    (readPlain inFlow least .nothing head.column head.rest).map
      fun (content, isBroken, rest) =>
        (.scalar true content, { head.moveTo rest with mayBegin := isBroken })
  else none

def readBlockNode (least : Nat) (head : Head) : Option (Node × Head) :=
  let read : Option (Text × Text) := match head.rest with
    | '|' :: rest => readBlock false least rest
    | '>' :: rest => readBlock true least rest
    | _ => none
  read.map fun (content, rest) => (.scalar false content, (head.moveTo rest).fresh)

/-!
## Reading flow collections

A flow sequence stands between brackets and a flow mapping between braces.  Line ends
between their parts do not count.  A key is recognized by the colon behind it in the same
line, or by a question mark in front of it.
-/

mutual

/-- Reads a node of a flow collection.  Lines in the block around the
collection begin at column `least` or behind it.  The slot and the flag tell
which properties of the node have been read. -/
def flowNode : Nat -> Nat -> Option Nat -> Bool -> Head -> Option (Node × Head)
  | 0, _, _, _, _ => none
  | fuel + 1, least, slot, isTagged, head =>
      let head := head.skip true
      if head.atBoundary || head.atIndicator '-' then none
      else
        match head.rest with
        | '*' :: rest => if slot.isSome || isTagged then none else readAlias head rest
        | '&' :: rest =>
            match readAnchor head rest with
            | some (new, head) =>
                if slot.isSome then none else flowNode fuel least (some new) isTagged head
            | none => none
        | '!' :: rest =>
            match readTag true head.handles rest with
            | some rest =>
                if isTagged then none else flowNode fuel least slot true (head.moveTo rest)
            | none => none
        | '[' :: rest =>
            (flowItems fuel least true (head.advance '[' rest)).map fun (items, head) =>
              (anchor slot (.sequence items), head)
        | '\x7b' :: rest =>
            (flowEntries fuel least true (head.advance '\x7b' rest)).map fun (entries, head) =>
              (anchor slot (.mapping entries), head)
        | character :: _ =>
            if character = '\'' || character = '"' then
              (readQuoted head).map fun (node, head) => (anchor slot node, head)
            else if startsPlain true head.rest then
              (readPlainNode true least head).map fun (node, head) => (anchor slot node, head)
            else if slot.isSome || isTagged then some (anchor slot .empty, head)
            else none
        | [] => none

/-- Reads the value behind a colon in a flow collection.  It may be missing,
and is empty then. -/
def flowValue : Nat -> Nat -> Head -> Option (Node × Head)
  | 0, _, _ => none
  | fuel + 1, least, head =>
      let head := head.skip true
      match head.rest with
      | ',' :: _ => some (.empty, head)
      | ']' :: _ => some (.empty, head)
      | '\x7d' :: _ => some (.empty, head)
      | _ => flowNode fuel least none false head

/-- Reads the value of a key in a flow collection, if a colon stands at the
head. -/
def flowValueAtColon : Nat -> Nat -> Head -> Option (Node × Head)
  | 0, _, _ => none
  | fuel + 1, least, head =>
      match head.rest with
      | ':' :: rest => flowValue fuel least (head.advance ':' rest)
      | _ => some (.empty, head)

/-- Reads an item of a flow sequence, which may be a mapping with one entry.
Behind a question mark without a key, one colon or comma does not count. -/
def flowItem : Nat -> Nat -> Head -> Option (Node × Head)
  | 0, _, _ => none
  | fuel + 1, least, head =>
      match head.rest with
      | '?' :: rest =>
          let next := (head.advance '?' rest).skip true
          let key := match next.rest with
            | ':' :: rest => some (Node.empty, next.advance ':' rest)
            | ',' :: rest => some (Node.empty, next.advance ',' rest)
            | _ => flowNode fuel least none false next
          match key with
          | none => none
          | some (key, next) =>
              (flowValueAtColon fuel least (next.skip true)).map fun (value, head) =>
                (.mapping [(key, value)], head)
      | _ =>
          match flowNode fuel least none false head with
          | none => none
          | some (node, next) =>
              let next := next.skip true
              if next.rest.head? = some ':' && isKeyColon head next then
                (flowValueAtColon fuel least next).map fun (value, head) =>
                  (.mapping [(node, value)], head)
              else some (node, next)

/-- Reads the items of a flow sequence and its closing bracket.  A comma may
stand behind the last item, but not before the first one. -/
def flowItems : Nat -> Nat -> Bool -> Head -> Option (List Node × Head)
  | 0, _, _, _ => none
  | fuel + 1, least, isFirst, head =>
      let head := head.skip true
      match head.rest with
      | ']' :: rest => some ([], (head.advance ']' rest).inside)
      | ',' :: rest =>
          if isFirst then none
          else
            let head := (head.advance ',' rest).skip true
            match head.rest with
            | ']' :: rest => some ([], (head.advance ']' rest).inside)
            | _ =>
                match flowItem fuel least head with
                | none => none
                | some (item, head) =>
                    (flowItems fuel least false head).map fun (items, head) =>
                      (item :: items, head)
      | _ =>
          if isFirst then
            match flowItem fuel least head with
            | none => none
            | some (item, head) =>
                (flowItems fuel least false head).map fun (items, head) =>
                  (item :: items, head)
          else none

/-- Reads an entry of a flow mapping.  A key without a colon has an empty
value. -/
def flowEntry : Nat -> Nat -> Head -> Option ((Node × Node) × Head)
  | 0, _, _ => none
  | fuel + 1, least, head =>
      match head.rest with
      | '?' :: rest =>
          let next := (head.advance '?' rest).skip true
          let key := match next.rest with
            | ':' :: _ => some (Node.empty, next)
            | _ => flowValue fuel least next
          match key with
          | none => none
          | some (key, next) =>
              (flowValueAtColon fuel least (next.skip true)).map fun (value, head) =>
                ((key, value), head)
      | _ =>
          match flowNode fuel least none false head with
          | none => none
          | some (key, next) =>
              let next := next.skip true
              if next.rest.head? = some ':' && isKeyColon head next then
                (flowValueAtColon fuel least next).map fun (value, head) => ((key, value), head)
              else some ((key, .empty), next)

/-- Reads the entries of a flow mapping and its closing brace.  A comma may
stand behind the last entry, but not before the first one. -/
def flowEntries : Nat -> Nat -> Bool -> Head -> Option (List (Node × Node) × Head)
  | 0, _, _, _ => none
  | fuel + 1, least, isFirst, head =>
      let head := head.skip true
      match head.rest with
      | '\x7d' :: rest => some ([], (head.advance '\x7d' rest).inside)
      | ',' :: rest =>
          if isFirst then none
          else
            let head := (head.advance ',' rest).skip true
            match head.rest with
            | '\x7d' :: rest => some ([], (head.advance '\x7d' rest).inside)
            | _ =>
                match flowEntry fuel least head with
                | none => none
                | some (entry, head) =>
                    (flowEntries fuel least false head).map fun (entries, head) =>
                      (entry :: entries, head)
      | _ =>
          if isFirst then
            match flowEntry fuel least head with
            | none => none
            | some (entry, head) =>
                (flowEntries fuel least false head).map fun (entries, head) =>
                  (entry :: entries, head)
          else none

end

/-!
## Reading blocks

In a block, `least` is the first column that belongs to the node: what stands further out
ends it.  A key of a block mapping is recognized by the colon behind it in the same line.
-/

/-- Reads a node without properties that is no block: an alias, a scalar or a
flow collection. -/
def readLeaf (fuel least : Nat) (head : Head) : Option (Node × Head) :=
  match head.rest with
  | '*' :: rest => readAlias head rest
  | '[' :: _ => flowNode fuel least none false head
  | '\x7b' :: _ => flowNode fuel least none false head
  | '\'' :: _ => readQuoted head
  | '"' :: _ => readQuoted head
  | _ => readPlainNode false least head

/-- Reads a node that may be a key, with its properties.  A node with
properties may be empty. -/
def readKeyNode : Nat -> Nat -> Option Nat -> Bool -> Head -> Option (Node × Head)
  | 0, _, _, _, _ => none
  | fuel + 1, least, slot, isTagged, head =>
      match head.rest with
      | '&' :: rest =>
          match readAnchor head rest with
          | some (new, head) =>
              if slot.isSome then none
              else readKeyNode fuel least (some new) isTagged (head.skip false)
          | none => none
      | '!' :: rest =>
          match readTag false head.handles rest with
          | some rest =>
              if isTagged then none
              else readKeyNode fuel least slot true (((head.moveTo rest).inside).skip false)
          | none => none
      | '*' :: rest => if slot.isSome || isTagged then none else readAlias head rest
      | _ =>
          match readLeaf fuel least head with
          | some (node, head) => some (anchor slot node, head)
          | none => if slot.isSome || isTagged then some (anchor slot .empty, head) else none

/-- Reads a key of a block mapping and the colon behind it.  It fails where no
key begins, which tells a mapping from a scalar. -/
def readKey (fuel least : Nat) (head : Head) : Option (Node × Head) :=
  match readKeyNode fuel least none false head with
  | none => none
  | some (key, next) =>
      let next := next.skip false
      if next.atIndicator ':' && isKeyColon head next then
        some (key, (next.forward 1).inside)
      else none

mutual

/-- Reads a node of a block.  A sequence may stand as far out as the mapping
that holds it if `mayAlign` is set.  The slot and the last flag tell which
properties of the node have been read. -/
def blockNode : Nat -> Nat -> Bool -> Option Nat -> Bool -> Head -> Option (Node × Head)
  | 0, _, _, _, _, _ => none
  | fuel + 1, least, mayAlign, slot, isTagged, head =>
      let head := head.skip false
      if head.atBoundary || head.column + 1 < least then some (anchor slot .empty, head)
      else if head.column + 1 = least then
        if mayAlign && head.atIndicator '-' then
          (blockItems fuel head.column head).map fun (items, head) =>
            (anchor slot (.sequence items), head)
        else
          match head.rest with
          | '|' :: _ => (readBlockNode least head).map fun (node, head) => (anchor slot node, head)
          | '>' :: _ => (readBlockNode least head).map fun (node, head) => (anchor slot node, head)
          | _ => some (anchor slot .empty, head)
      else if head.mayBegin && (head.atIndicator '?' || (readKey fuel least head).isSome) then
        (blockEntries fuel head.column head).map fun (entries, head) =>
          (anchor slot (.mapping entries), head)
      else if head.atIndicator '-' then
        if head.mayBegin then
          (blockItems fuel head.column head).map fun (items, head) =>
            (anchor slot (.sequence items), head)
        else none
      else
        match head.rest with
        | '&' :: rest =>
            match readAnchor head rest with
            | some (new, head) =>
                if slot.isSome then none
                else blockNode fuel least mayAlign (some new) isTagged head
            | none => none
        | '!' :: rest =>
            match readTag false head.handles rest with
            | some rest =>
                if isTagged then none
                else blockNode fuel least mayAlign slot true (head.moveTo rest).inside
            | none => none
        | '*' :: rest => if slot.isSome || isTagged then none else readAlias head rest
        | '|' :: _ => (readBlockNode least head).map fun (node, head) => (anchor slot node, head)
        | '>' :: _ => (readBlockNode least head).map fun (node, head) => (anchor slot node, head)
        | _ => (readLeaf fuel least head).map fun (node, head) => (anchor slot node, head)

/-- Reads the items of a block sequence whose dashes stand at a column.  The
sequence ends at the first token that stands elsewhere or is no dash. -/
def blockItems : Nat -> Nat -> Head -> Option (List Node × Head)
  | 0, _, _ => none
  | fuel + 1, column, head =>
      let head := head.skip false
      if head.atBoundary || head.column != column || !head.atIndicator '-' then
        some ([], head)
      else
        match blockNode fuel (column + 1) false none false (head.forward 1).fresh with
        | none => none
        | some (item, head) =>
            (blockItems fuel column head).map fun (items, head) => (item :: items, head)

/-- Reads the entries of a block mapping whose keys stand at a column.  The
mapping ends at the first token that stands elsewhere. -/
def blockEntries : Nat -> Nat -> Head -> Option (List (Node × Node) × Head)
  | 0, _, _ => none
  | fuel + 1, column, head =>
      let head := head.skip false
      if head.atBoundary || head.column != column then some ([], head)
      else
        match blockEntry fuel column head with
        | none => none
        | some (entry, head) =>
            (blockEntries fuel column head).map fun (entries, head) => (entry :: entries, head)

/-- Reads an entry of a block mapping whose keys stand at a column, which is
that of the head.  A key behind a question mark may be any node, and its value
may be missing. -/
def blockEntry : Nat -> Nat -> Head -> Option ((Node × Node) × Head)
  | 0, _, _ => none
  | fuel + 1, column, head =>
      if head.atIndicator '?' then
        match blockNode fuel (column + 1) true none false (head.forward 1).fresh with
        | none => none
        | some (key, next) =>
            let next := next.skip false
            if next.column = column && next.atIndicator ':' then
              (blockNode fuel (column + 1) true none false (next.forward 1).fresh).map
                fun (value, head) => ((key, value), head)
            else some ((key, .empty), next)
      else
        match readKey fuel (column + 1) head with
        | none => none
        | some (key, head) =>
            (blockNode fuel (column + 1) true none false head).map fun (value, head) =>
              ((key, value), head)

end

/-!
## Reading documents

A text holds one document.  Directives may stand before it if three dashes mark its
start.
-/

/-- Reads the version that a directive asks for, which has to be 1.1 or 1.2. -/
def readVersion (text : Text) : Option Text :=
  match takeDigits? (text.dropWhile isBlank) with
  | some (major, '.' :: rest) =>
      match takeDigits? rest with
      | some (minor, rest) =>
          if major.length ≤ 9 && minor.length ≤ 9 && ofDecimal major = 1 &&
              (ofDecimal minor = 1 || ofDecimal minor = 2) then some rest
          else none
      | none => none
  | _ => none

/-- Reads the handle that a directive declares and what it stands for. -/
def readHandle (text : Text) : Option (Text × Text) :=
  match text.dropWhile isBlank with
  | '!' :: text =>
      let (name, rest) := text.span isNameCharacter
      let handle : Option (Text × Text) := match rest with
        | '!' :: rest => some ('!' :: name ++ ['!'], rest)
        | _ => if name.isEmpty then some (['!'], rest) else none
      match handle with
      | none => none
      | some (handle, rest) =>
          if rest.head?.any isBlank then
            let (tag, rest) := (rest.dropWhile isBlank).span fun character =>
              isTagCharacter character || [',', '[', ']'].contains character
            if tag.isEmpty || !escapesAreComplete tag || !endsWord rest then none
            else some (handle, rest)
          else none
  | _ => none

/-- Reads the rest of the line of a directive, where only a comment may stand.
The line end is read as well. -/
def readLineEnd (text : Text) : Option Text :=
  let text := text.dropWhile isBlank
  let text := if text.head? = some '#' then text.dropWhile fun c => !isBreak c else text
  match text with
  | [] => some []
  | character :: rest => if isBreak character then some rest else none

/-- Reads the directives before a document, up to the dashes that mark its
start.  The version may be asked for only once, and so may every handle be
declared. -/
def readDirectives : Nat -> Bool -> Head -> Option Head
  | 0, _, _ => none
  | fuel + 1, hasVersion, head =>
      let head := head.skip false
      match head.column, head.rest with
      | 0, '%' :: rest =>
          let (name, rest) := rest.span isNameCharacter
          if !endsWord rest then none
          else if name = "YAML".toList then
            match (readVersion rest).bind readLineEnd with
            | some rest =>
                if hasVersion then none else readDirectives fuel true (head.moveTo rest)
            | none => none
          else if name = "TAG".toList then
            match readHandle rest with
            | some (handle, rest) =>
                match readLineEnd rest with
                | some rest =>
                    if head.handles.contains handle then none
                    else
                      let head := head.moveTo rest
                      readDirectives fuel hasVersion
                        { head with handles := handle :: head.handles }
                | none => none
            | none => none
          else none
      | 0, text => if startsDocument text then some head else none
      | _, _ => none

/-- Whether nothing stands behind a document but marks of its end.  A second
document is not tolerated. -/
def endsHere : Nat -> Head -> Bool
  | 0, _ => false
  | fuel + 1, head =>
      let head := head.skip false
      head.rest.isEmpty ||
        (head.column = 0 && endsDocument head.rest && endsHere fuel (head.forward 3).inside)

/-- The node of the document that a text holds.  Before the mark of its end, a
document that is not marked at its start has a node.  Every call of a reader
but a few reads a character, so the fuel is never used up. -/
def read (text : Text) : Option Node :=
  if !text.all isAllowed then none
  else
    let text := unifyBreaks text
    let fuel := 4 * text.length + 16
    let head := ({ rest := text } : Head).skip false
    let start : Option Head :=
      if head.column = 0 && head.rest.head? = some '%' then
        (readDirectives fuel false head).map fun head => (head.forward 3).inside
      else if head.column = 0 && startsDocument head.rest then some (head.forward 3).inside
      else if head.column = 0 && endsDocument head.rest then none
      else some head
    match start with
    | none => none
    | some head =>
        match blockNode fuel 0 false none false head with
        | none => none
        | some (node, head) => if endsHere fuel head then some node else none

end Yaml
end FluentLog
