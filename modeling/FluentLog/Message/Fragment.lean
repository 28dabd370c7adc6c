import FluentLog.Expression.Operand

namespace FluentLog

/-!
# Messages

The text that a chain logs is a template with placeholders.  It is written as a pattern for the
formatter, and it is put together from the fragments of the chain's closures.
-/

/-!
## Message templates

A template is a sequence of literal texts and placeholders.  It is built by
appending, and text appended behind a text joins it, so a template is a normal
form: no text is empty and no two texts are neighbours.

`pattern?` writes a template in the language of the message formatter, in which
`{}` is a placeholder, `\{}` stands for literal braces and `\\{}` for a backslash
with a placeholder behind it, and in which everything after the last placeholder
stands for itself.  Literal braces in front of the last placeholder are therefore
escaped, and a backslash at the end of a text in front of it is doubled.  A text
with a backslash and braces in front of the last placeholder has no pattern.
-/

/-- One piece of a template: a text that is logged as it is, or the place of
an argument. -/
inductive Segment where
  | literal (text : Text)
  | placeholder
  deriving DecidableEq, Repr

/-- A sequence of literal texts and placeholders.  The operations below keep
it in a normal form, but the type does not ask for one. -/
structure Template where
  segments : List Segment
  deriving DecidableEq, Repr

/-- What marks a placeholder in a pattern.  The same two characters in a text
are braces that have to be escaped. -/
def placeholderMark : Text := ['{', '}']

namespace Segment

def isPlaceholder : Segment -> Bool
  | .literal _ => false
  | .placeholder => true

def display : Segment -> Text
  | .literal text => text
  | .placeholder => placeholderMark

end Segment

namespace Template

def empty : Template := ⟨[]⟩

/-- Appends a text, which joins a text at the end.  The empty text changes
nothing. -/
def addText (template : Template) (text : Text) : Template :=
  if text.isEmpty then template
  else
    match template.segments.getLast? with
    | some (.literal last) => ⟨template.segments.dropLast ++ [.literal (last ++ text)]⟩
    | _ => ⟨template.segments ++ [.literal text]⟩

def addPlaceholder (template : Template) : Template :=
  ⟨template.segments ++ [.placeholder]⟩

def push (template : Template) : Segment -> Template
  | .literal text => template.addText text
  | .placeholder => template.addPlaceholder

/-- Appends all segments of another template, one by one, so that texts join
at the seam. -/
def append (template other : Template) : Template :=
  other.segments.foldl push template

def isEmpty (template : Template) : Bool :=
  template.segments.isEmpty

/-- Whether the template ends in a blank of a literal text. -/
def endsBlank (template : Template) : Bool :=
  match template.segments.getLast? with
  | some (.literal text) => text.getLast?.any isBlank
  | _ => false

/-- Appends a space, unless the template is empty or ends in a blank.  It
stands between what two calls contribute. -/
def separate (template : Template) : Template :=
  if template.isEmpty ∨ template.endsBlank then template else template.addText [' ']

def placeholderCount (template : Template) : Nat :=
  template.segments.countP Segment.isPlaceholder

def display (template : Template) : Text :=
  template.segments.flatMap Segment.display

/-! ### Patterns -/

/-- Whether a text contains a backslash with braces behind it.  The formatter
would take these for escaped braces, and no pattern prints them in front of a
placeholder. -/
def hasEscapedBraces : Text -> Bool
  | [] => false
  | character :: rest =>
      (character = '\\' && placeholderMark.isPrefixOf rest) || hasEscapedBraces rest

/-- The text with a backslash in front of each pair of braces.  Braces that
stand alone mean nothing to the formatter and are left as they are. -/
def escapeBraces : Text -> Text
  | '{' :: '}' :: rest => '\\' :: '{' :: '}' :: escapeBraces rest
  | character :: rest => character :: escapeBraces rest
  | [] => []

/-- How a text in front of a later placeholder is written.  A backslash at its
end is doubled, because the mark of a placeholder may follow it. -/
def literalPattern? (text : Text) : Option Text :=
  if hasEscapedBraces text then none
  else some (escapeBraces text ++ if text.getLast? = some '\\' then ['\\'] else [])

/-- The pattern that a sequence of segments is written as.  Behind the last
placeholder there is nothing left to fill in, and texts are written as they
are. -/
def patternOf? : List Segment -> Option Text
  | [] => some []
  | .placeholder :: rest => (patternOf? rest).map (placeholderMark ++ ·)
  | .literal text :: rest =>
      if rest.any Segment.isPlaceholder then do
        let written <- literalPattern? text
        let following <- patternOf? rest
        some (written ++ following)
      else (patternOf? rest).map (text ++ ·)

/-- The pattern that prints the template, if there is one.  There is none if a
text with a backslash and braces stands in front of a placeholder. -/
def pattern? (template : Template) : Option Text :=
  patternOf? template.segments

def literal? (template : Template) : Option Text :=
  template.pattern?.map Literal.quote

end Template

/-!
## Fragments

A fragment is what one supplier contributes to a message: a template, and the
expressions that fill its placeholders, in order.  Literal operands become text of
the template, every other operand becomes a placeholder with an argument.
-/

/-- A template with the expressions that fill its placeholders, in order.
There are as many of them as there are placeholders. -/
structure Fragment where
  template : Template
  arguments : List Text
  deriving DecidableEq, Repr

namespace Fragment

def empty : Fragment := ⟨.empty, []⟩

def addText (fragment : Fragment) (text : Text) : Fragment :=
  { fragment with template := fragment.template.addText text }

/-- Appends a placeholder with the expression that fills it. -/
def addArgument (fragment : Fragment) (argument : Text) : Fragment :=
  ⟨fragment.template.addPlaceholder, fragment.arguments ++ [argument]⟩

def push (fragment : Fragment) : Operand -> Fragment
  | .literal content => fragment.addText content
  | .expression code => fragment.addArgument code

/-- The fragment of a concatenation: literals become text, and every other
operand a placeholder with an argument. -/
def ofConcatenation (expression : Text) : Fragment :=
  (Operand.ofConcatenation expression).foldl push empty

/-- Appends a placeholder for each further argument of a call, separated by
spaces from each other and from the text before them.  A literal among them is
an argument like any other. -/
def addArguments (fragment : Fragment) : List Text -> Fragment
  | [] => fragment
  | extra :: others =>
      others.foldl (fun fragment other => (fragment.addText [' ']).addArgument other)
        ({ fragment with template := fragment.template.separate }.addArgument extra)

end Fragment

end FluentLog
