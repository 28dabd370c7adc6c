import FluentLog.Chain.Plan

namespace FluentLog

/-!
# Inlining the chains of a source text

All chains of a text are inlined in one pass, and a caller can follow what happens to each of
them.
-/

/-!
## Inlining the suppliers of a source text

Each chain of the source text is replaced by its inlined form if it has one, and all
else is copied.  Text in which no chain is replaced is reported as unchanged.
-/

/-- The result of inlining the suppliers of a source text.  An unchanged text
is not repeated, and the number of chains in a changed one is positive. -/
inductive Inlining where
  | unchanged
  | inlined (text : Bytes) (chains : Nat)
  deriving DecidableEq, Repr

namespace Inlining

def chains : Inlining -> Nat
  | .unchanged => 0
  | .inlined _ chains => chains

/-- The new text, which is the source text when nothing changed.  A file is
only written if something did. -/
def text (source : Bytes) : Inlining -> Bytes
  | .unchanged => source
  | .inlined text _ => text

def isChanged : Inlining -> Bool
  | .unchanged => false
  | .inlined .. => true

end Inlining

/-- The edit that replaces a chain, if it has suppliers to inline.  Its
offsets are those of the source text. -/
def Span.edit? (dialect : Dialect) (span : Span) : Option Edit :=
  (span.inlined? dialect).map fun text => ⟨⟨span.start, span.stop⟩, text⟩

/-- Inlines the suppliers of all chains of a source text.  All chains are
located before any is replaced, so what a chain is replaced by is not searched
again. -/
def inlineChains (dialect : Dialect) (source : Bytes) : Inlining :=
  match (locate dialect source).filterMap (Span.edit? dialect) with
  | [] => .unchanged
  | edits => .inlined (Edit.splice source edits) edits.length

/-- Whether the edits of every replaced chain are in order.  Names that are no
identifiers, such as one with a quote in it, can make the calls of a chain
overlap. -/
def editsInOrder (dialect : Dialect) (source : Bytes) : Bool :=
  (locate dialect source).all fun span =>
    match span.outcome dialect with
    | .inlined _ edits => Edit.inOrder span.text.length 0 edits
    | _ => true

/-!
## Events

What there is to say about the chains of a source text, in the order in which they
are met.
-/

/-- How much an event matters.  Replaced chains are told of at the level of
debugging, all else below it. -/
inductive Severity where
  | trace
  | debug
  deriving DecidableEq, Repr

/-- Something that happened while the chains of a source text were inlined.
Lines and offsets are those of the source text. -/
inductive Event where
  /-- A merged template has no pattern. -/
  | unrenderable (template : Template)
  /-- A chain stays as it is. -/
  | kept (line : Nat)
  /-- A chain is replaced. -/
  | inlined (line : Nat) (receiver level : String) (arguments : Nat)
  /-- A candidate was given up at the bound on a chain's length. -/
  | tooLong (start : Nat)
  deriving DecidableEq, Repr

namespace Event

def severity : Event -> Severity
  | .inlined .. => .debug
  | _ => .trace

def message : Event -> String
  | .unrenderable _ => "template has no placeholder-safe rendering"
  | .kept _ => "chain has no supplier arguments"
  | .inlined .. => "rewrote supplier chain"
  | .tooLong _ => "candidate chain exceeds length bound"

/-- The events of one sighting.  A chain whose template has no pattern is told
of twice: that it cannot be rendered, and that it is kept. -/
def ofSighting (dialect : Dialect) (source : Bytes) : Sighting -> List Event
  | .tooLong start => [.tooLong start]
  | .chain span =>
      let line := span.line source
      match span.outcome dialect with
      | .plain => [.kept line]
      | .unrenderable template => [.unrenderable template, .kept line]
      | .inlined plan _ => [.inlined line span.receiver span.level plan.arguments.length]

end Event

/-- The events of a source text, in the order of its chains and given up
candidates. -/
def events (dialect : Dialect) (source : Bytes) : List Event :=
  (sightings dialect source).flatMap (Event.ofSighting dialect source)

end FluentLog
