import FluentLog.Proofs.Chain.Candidates
import FluentLog.Proofs.Chain.Ending
import FluentLog.Proofs.Code.Lexical

namespace FluentLog

/-!
# Chains and lexical elements

No chain begins inside a string literal, a character literal or a comment, as long as the
text in front of it holds plain elements only.  The pass over a source text is at rest where
a chain begins, and as it has dropped no literal at the end of a line, it reads the text
in front of the chain like a scanner that does not jump.  That scanner is at rest in front of
the literal or comment, and then not before its end.

A text block takes this away, from itself on.  It holds chains on lines of its own, behind it
what is a literal and what is not changes places up to the end of the line, and a comment
opener in it hides whole lines until a later comment seems to close it.  A line comment that
ends with a carriage return does the same.
-/

variable {dialect : Dialect}

/-- Where a chain begins, a scanner that has read what stands in front of it
is at rest, unless a line end dropped a literal.  The scanner of the pass may
have jumped, but it agrees with this one. -/
theorem Locates.agree_start (identifiers : dialect.HasIdentifierWords) {scanner : Scanner}
    {before : Option UInt8} {offset : Nat} {text : Bytes} {spans : List Span}
    (located : Locates dialect scanner before offset text spans) {front rest : Bytes}
    (isText : text = front ++ rest) (keeps : scanner.KeepsLines front) :
    ∀ span ∈ spans, span.start = offset + front.length ->
      Scanner.Agree (scanner.run rest.head? front) .start ∧ StartsInitial dialect rest := by
  induction located generalizing front with
  | done => exact fun _ member => absurd member List.not_mem_nil
  | @chain scanner before offset after span spans outside isChain behind ih =>
      rcases chainAt?_spec identifiers isChain with ⟨-, initial, others, lead, argument, tail, -, -,
        spanText, isInitial, -, -, -, -, -, atStart, -⟩
      intro other member begins
      rcases List.mem_cons.mp member with rfl | inSpans
      · -- The chain begins here, so nothing stands in front of it.
        have noFront : front = [] := List.eq_nil_of_length_eq_zero (by omega)
        subst noFront
        refine ⟨outside, initial, ?_⟩
        rw [List.nil_append] at isText
        rw [← isText, spanText]
        exact ⟨_, isInitial, by simp only [List.append_assoc]; rfl⟩
      · -- It begins behind the chain that begins here, which leaves the scanner at rest.
        have isBehind := (behind.inOrder).1 other inSpans
        rw [Span.stop, atStart] at isBehind
        rcases List.prefix_of_prefix_length_le ⟨after, rfl⟩ ⟨rest, isText.symm⟩ (by omega) with
          ⟨more, rfl⟩
        rw [List.append_assoc, List.append_cancel_left_eq] at isText
        have keepsStart := keeps.of_agree outside
        have passed := run_of_chainAt? identifiers isChain keepsStart.of_append_left
        have keepsMore := keepsStart.of_append_right
        rw [passed] at keepsMore
        rcases ih isText keepsMore other inSpans (by
          rw [begins, Span.stop, atStart, List.length_append, Nat.add_assoc]) with ⟨agree, starts⟩
        have reached := (outside.run (more.head?.or rest.head?) span.text).run rest.head? more
        rw [passed] at reached
        rw [Scanner.run_append]
        exact ⟨reached.trans agree, starts⟩
  | @byte scanner before offset byte after spans noChain behind ih =>
      intro span member begins
      have isBehind := (behind.inOrder).1 span member
      cases front with
      | nil =>
          rw [List.length_nil] at begins
          omega
      | cons first front =>
          rcases List.cons.inj isText with ⟨rfl, rfl⟩
          have keepsBehind : (scanner.step byte (front ++ rest).head?).2.KeepsLines front := by
            cases front with
            | nil => exact Scanner.keepsLines_nil _
            | cons next front => exact (Scanner.keepsLines_cons.mp keeps).2
          rw [Scanner.run_cons, ← List.head?_append]
          exact ih rfl keepsBehind span member (by
            rw [begins, List.length_cons]
            omega)

/-! ## An element in its text -/

structure ElementInText where
  front : List Element
  element : Element
  behind : List Element
  deriving DecidableEq, Repr

namespace ElementInText

def elements (place : ElementInText) : List Element :=
  place.front ++ place.element :: place.behind

/-- Whether a chain begins inside the element.  A chain that begins in front
of it and ends behind it does not count. -/
def HoldsStart (dialect : Dialect) (place : ElementInText) : Prop :=
  ∃ span ∈ locate dialect (Element.text place.elements),
    (Element.text place.front).length ≤ span.start ∧
      span.start < (Element.text place.front).length + place.element.bytes.length

instance (dialect : Dialect) (place : ElementInText) : Decidable (place.HoldsStart dialect) :=
  inferInstanceAs (Decidable (∃ span ∈ locate dialect _, _))

/-- No chain begins inside a string literal, a character literal or a comment
with nothing but plain elements in front of it. -/
theorem not_holdsStart_of_plain (identifiers : dialect.HasIdentifierWords)
    (place : ElementInText) (lexical : Element.AreLexical place.elements)
    (plain : ∀ earlier ∈ place.front, earlier.IsPlain)
    (isHidden : place.element.IsLiteralOrComment) : ¬ place.HoldsStart dialect := by
  rcases place with ⟨front, element, behind⟩
  rw [elements] at lexical
  rintro ⟨span, member, atLeast, below⟩
  rw [elements] at member
  dsimp only at lexical plain isHidden member atLeast below
  obtain ⟨part, more, split, nonempty, begins⟩ : ∃ part more, element.bytes = part ++ more ∧
      more ≠ [] ∧ span.start = (Element.text front ++ part).length := by
    rcases Nat.exists_eq_add_of_le atLeast with ⟨length, isStart⟩
    refine ⟨_, _, (List.take_append_drop length _).symm, ?_, ?_⟩
    · rw [ne_eq, List.drop_eq_nil_iff]
      omega
    · rw [List.length_append, List.length_take_of_le (by omega), isStart]
  have whole : Element.text (front ++ element :: behind) =
      (Element.text front ++ part) ++ (more ++ Element.text behind) := by
    rw [Element.text_append, Element.text_cons, split]
    simp only [List.append_assoc]
  rcases Element.run_text lexical plain (List.cons_ne_nil element behind) 0 with
    ⟨⟨depth, atRest⟩, keeps⟩
  have sameAhead : (Element.text (element :: behind)).head? =
      part.head?.or (more ++ Element.text behind).head? := by
    rw [Element.text_cons, split, List.append_assoc, List.head?_append]
  rw [← Scanner.start_eq_atRest] at atRest keeps
  rw [sameAhead] at atRest
  have proper := lexical.of_append_right.1
  have keepsPart := Element.keepsLines proper isHidden depth
  rw [split] at keepsPart
  rcases (locates_locate identifiers _).agree_start identifiers whole
    (keeps.append (atRest ▸ keepsPart.of_append_left)) span member (by rw [begins, Nat.zero_add])
    with ⟨agree, starts⟩
  rw [Scanner.run_append, atRest, List.head?_append_of_ne_nil _ nonempty] at agree
  have notIdentifier := Element.head?_of_agree proper isHidden split nonempty agree
  rcases starts.exists_dot identifiers with ⟨first, word, blanks, after, all, -, isMore⟩
  have atFirst : more.head? = some first := by
    rw [← List.head?_append_of_ne_nil _ nonempty, isMore]
    rfl
  rw [atFirst, Option.any_some, all first List.mem_cons_self] at notIdentifier
  cases notIdentifier

/-! ## Elements of a given text -/

def ofCode (stretch : String) : List Element :=
  (Utf8.ofString stretch).map .code

/-- The string literal of a text in which no backslash stands. -/
def ofQuoted (stretch : String) : Element :=
  .literal Byte.doubleQuote ((Utf8.ofString stretch).map .plain)

/-- The text block of a text in which no backslash stands. -/
def ofBlock (stretch : String) : Element :=
  .textBlock [] ((Utf8.ofString stretch).map .plain)

def wholeChain : String :=
  "log.atInfo().setMessage(\"\x7b\x7d\").log()"

/-- A comment with a chain in it between a literal with a comment opener and a
chain. -/
def commentBehindQuotedOpener : ElementInText where
  front := ofCode "f(" ++ [ofQuoted "/*"]
  element := .blockComment (Utf8.ofString wholeChain)
  behind := ofCode "); log.atInfo().setMessage(" ++ ofQuoted "\x7b\x7d" :: ofCode ").log();"

theorem not_holdsStart_commentBehindQuotedOpener :
    Element.AreLexical commentBehindQuotedOpener.elements ∧
      (locate {} (Element.text commentBehindQuotedOpener.elements)).map Span.start = [48] ∧
      ¬ commentBehindQuotedOpener.HoldsStart {} :=
  have lexical : Element.AreLexical commentBehindQuotedOpener.elements := by decide +kernel
  ⟨lexical, by decide +kernel,
    not_holdsStart_of_plain Dialect.hasIdentifierWords_default commentBehindQuotedOpener lexical
      (by decide +kernel) True.intro⟩

def chainInTextBlock : ElementInText where
  front := ofCode "s = "
  element := ofBlock ("\n" ++ wholeChain ++ "\n")
  behind := ofCode ";"

def literalBehindTextBlock : ElementInText where
  front := ofCode "s = " ++ ofBlock "\n" :: ofCode " + "
  element := ofQuoted "log.atInfo()"
  behind := ofCode "\n  .setMessage(" ++ ofQuoted "\x7b\x7d" :: ofCode ").log();"

/-- A comment on a later line than a text block in which a comment seems to
begin. -/
def commentBelowTextBlock : ElementInText where
  front := ofCode "s = " ++ ofBlock "\n/*\n" :: ofCode ";\n"
  element := .lineComment (Utf8.ofString (" */ " ++ wholeChain)) .endOfText
  behind := []

def commentBehindCarriageReturn : ElementInText where
  front := [.lineComment (Utf8.ofString " x") .carriageReturn]
  element := .blockComment (Utf8.ofString ("\n" ++ wholeChain ++ "\n"))
  behind := []

/-- A text block does not hide its own text, and neither a text block nor a
carriage return leaves hidden what is hidden behind it. -/
theorem holdsStart_of_textBlock_or_carriageReturn :
    (Element.AreLexical chainInTextBlock.elements ∧ chainInTextBlock.HoldsStart {}) ∧
    (Element.AreLexical literalBehindTextBlock.elements ∧ literalBehindTextBlock.HoldsStart {}) ∧
    (Element.AreLexical commentBelowTextBlock.elements ∧ commentBelowTextBlock.HoldsStart {}) ∧
    Element.AreLexical commentBehindCarriageReturn.elements ∧
      commentBehindCarriageReturn.HoldsStart {} := by
  decide +kernel

end ElementInText
end FluentLog
