import FluentLog.Chain.Span
import FluentLog.Code.Comment
import FluentLog.Expression.Operand
import FluentLog.Message.Fragment

namespace FluentLog

/-!
# What becomes of a chain

The argument calls of a chain say what its new message is and which of the calls are replaced.
The replacements are edits of the chain's own text.
-/

/-!
## Argument calls

The text between the parentheses of an argument call decides whether it can be
inlined.  The first argument has to be a supplier.  The call is kept when it contains
a comment, since its arguments are written back on one line, and when inlining would
leave a supplier behind.
-/

/-- An argument call, as its text between the parentheses tells. -/
inductive CallContent where
  /-- A supplier with its normalized body, and the further arguments of the call. -/
  | supplier (body : Text) (extras : List Text)
  /-- A call that is kept as it is. -/
  | plain
  deriving DecidableEq, Repr

namespace CallContent

/-- The call with the given arguments.  If the body of the supplier is a
supplier itself, or a further argument is, the call is kept, since inlining it
would leave a supplier behind as a plain argument. -/
def ofArguments : List Text -> CallContent
  | [] => .plain
  | first :: extras =>
      match (Supplier.body? first).map Supplier.normalize with
      | none => .plain
      | some body =>
          if Supplier.isSupplier body ∨ extras.any Supplier.isSupplier then .plain
          else .supplier body extras

/-- The call with the given text between its parentheses.  A comment anywhere
in it keeps the call, because the rest of its line would become part of the
comment when it is written back. -/
def ofText (text : Text) : CallContent :=
  if hasComment (Utf8.encode text) then .plain
  else ofArguments (splitUnnested ',' text)

end CallContent

/-!
## Edits

An edit replaces one extent of a text.  A list of edits is meant to be in order: each
begins at or behind the end of the one before it, and none reaches beyond the text.
-/

/-- An extent of a text with the bytes that replace it.  Offsets are those of
the text before any edit. -/
structure Edit where
  extent : Extent
  replacement : Bytes
  deriving DecidableEq, Repr

namespace Edit

/-- Puts an edit in its place, behind all that begin where it begins or
earlier.  The other edits keep their order. -/
def insert (edit : Edit) : List Edit -> List Edit
  | [] => [edit]
  | other :: others =>
      if other.extent.start ≤ edit.extent.start then other :: insert edit others
      else edit :: other :: others

/-- Whether the edits are in order, begin no earlier than `start` and end
within `length`.  Exactly then every slice that splicing takes of the text is
one. -/
def inOrder (length start : Nat) : List Edit -> Bool
  | [] => start ≤ length
  | edit :: others =>
      start ≤ edit.extent.start && edit.extent.start ≤ edit.extent.stop &&
        inOrder length edit.extent.stop others

/-- The text from `copied` on, with the edits made.  If edits are out of
order, what lies between is taken as empty, so the function is total where
slicing is not. -/
def spliceFrom (text : Bytes) (copied : Nat) : List Edit -> Bytes
  | [] => text.drop copied
  | edit :: others =>
      (text.drop copied).take (edit.extent.start - copied) ++ edit.replacement ++
        spliceFrom text edit.extent.stop others

/-- The text with the edits made, and all else copied. -/
def splice (text : Bytes) (edits : List Edit) : Bytes :=
  spliceFrom text 0 edits

end Edit

/-!
## Planning and inlining one chain

The supplier calls of a chain are found by a walk over its code that passes over the
whole of each argument call.  Their fragments are merged into one template, with a
space between two of them where neither side has a blank, and each call is replaced
by one call for each argument of its fragment.  The template's pattern becomes the
chain's message.

A chain stays as it is when its template is empty, and when the template has no
pattern.
-/

/-- A supplier call, as offsets in its chain, and what it contributes.  The
extent begins with the dot of the call and ends with its closing parenthesis. -/
structure SupplierCall where
  extent : Extent
  fragment : Fragment
  deriving DecidableEq, Repr

/-- The supplier calls in the text at `offset`.  The walk passes over the
whole of each argument call, whether its content is a supplier or not, and it
does not ask how deep a call is nested.  It ends where an argument call is
never closed. -/
def supplierCallsFrom (dialect : Dialect) (scanner : Scanner) (offset : Nat) :
    Bytes -> List SupplierCall
  | [] => []
  | byte :: rest =>
      match scanner.step byte rest.head? with
      | (none, next) => supplierCallsFrom dialect next (offset + 1) rest
      | (some _, next) =>
          if byte = Byte.dot then
            match Call.argument? dialect ⟨offset + 1, rest⟩ with
            | none => supplierCallsFrom dialect next (offset + 1) rest
            | some opened =>
                match closingParen? opened.rest with
                | none => []
                | some length =>
                    let stop := opened.offset + length + 1
                    let later := supplierCallsFrom dialect next stop
                      (rest.drop (stop - (offset + 1)))
                    match CallContent.ofText (Utf8.decode (opened.rest.take length)) with
                    | .supplier body extras =>
                        let fragment := (Fragment.ofConcatenation body).addArguments extras
                        ⟨⟨offset, stop⟩, fragment⟩ :: later
                    | .plain => later
          else supplierCallsFrom dialect next (offset + 1) rest
termination_by text => text.length
decreasing_by all_goals grind

/-- The supplier calls of a chain, in order, with offsets from its first byte. -/
def supplierCalls (dialect : Dialect) (chain : Bytes) : List SupplierCall :=
  supplierCallsFrom dialect .start 0 chain

/-- The merged template of a chain, the arguments for its placeholders, and
the edits of its supplier calls.  Calls that are kept have no part in it. -/
structure Plan where
  template : Template
  arguments : List Text
  callEdits : List Edit
  deriving DecidableEq, Repr

namespace Plan

/-- The plan for a chain without supplier calls. -/
def empty : Plan := ⟨.empty, [], []⟩

/-- The calls that add the given arguments, one behind the other.  Without
arguments a supplier call is deleted. -/
def argumentCalls (dialect : Dialect) (arguments : List Text) : Text :=
  arguments.flatMap fun argument =>
    '.' :: dialect.argumentMethod.toList ++ '(' :: argument ++ [')']

/-- Merges one more supplier call into the plan.  Its template stands behind
what was merged before, with a space between the two where neither side has a
blank. -/
def addCall (dialect : Dialect) (plan : Plan) (call : SupplierCall) : Plan where
  template := plan.template.separate.append call.fragment.template
  arguments := plan.arguments ++ call.fragment.arguments
  callEdits := plan.callEdits ++
    [⟨call.extent, Utf8.encode (argumentCalls dialect call.fragment.arguments)⟩]

/-- The plan for a chain: its supplier calls merged in their order. -/
def ofSpan (dialect : Dialect) (span : Span) : Plan :=
  (supplierCalls dialect span.text).foldl (addCall dialect) empty

/-- All edits of the chain: those of the supplier calls, and the one that sets
the message, put in its place among them.  The message keeps what stands
around its parentheses. -/
def edits (plan : Plan) (span : Span) (message : Text) : List Edit :=
  Edit.insert
    ⟨⟨span.message.start - span.start, span.message.stop - span.start⟩, Utf8.encode message⟩
    plan.callEdits

end Plan

/-- What becomes of a chain.  It is replaced as a whole or not at all. -/
inductive ChainOutcome where
  /-- There is nothing to inline. -/
  | plain
  /-- The merged template has no pattern. -/
  | unrenderable (template : Template)
  /-- The chain is replaced by the text that the edits make of it. -/
  | inlined (plan : Plan) (edits : List Edit)
  deriving DecidableEq, Repr

namespace Span

/-- What becomes of the chain: it is kept if its template is empty or has no
pattern. -/
def outcome (dialect : Dialect) (span : Span) : ChainOutcome :=
  let plan := Plan.ofSpan dialect span
  if plan.template.isEmpty then .plain
  else
    match plan.template.literal? with
    | none => .unrenderable plan.template
    | some message => .inlined plan (plan.edits span message)

/-- The text that replaces the chain, if it has suppliers to inline.  It is
never the chain itself, which takes a proof. -/
def inlined? (dialect : Dialect) (span : Span) : Option Bytes :=
  match span.outcome dialect with
  | .inlined _ edits => some (Edit.splice span.text edits)
  | _ => none

end Span

end FluentLog
