import FluentLog.Proofs.Code.Tidy
import FluentLog.Proofs.Chain.Items
import Mathlib.Data.List.Infix

namespace FluentLog

/-!
# The lexical elements of a source text

A source text of the language that chains are written in is a sequence of lexical elements:
bytes of code, comments, string and character literals, and text blocks, which are literals
between triple quotes that may run over many lines.  The grammar is stated here for itself,
without any scanner.

A scanner follows it except in two places.  It knows no text blocks: it takes the quotes of
one for those of string literals and drops a literal at the end of a line.  And a line comment
ends for it with a line feed only, where the grammar lets a carriage return end one as well.
In a text in which neither stands, a scanner is at rest between the elements, and in the midst
of a literal or a comment it never is.
-/

/-! ## The grammar -/

def Byte.carriageReturn : UInt8 := 0x0D

/-- Whether a byte ends a line.  A carriage return and a line feed in a row
end one line. -/
def isLineEnd (byte : UInt8) : Bool :=
  byte = Byte.lineFeed || byte = Byte.carriageReturn

theorem ne_lineFeed_of_isLineEnd {byte : UInt8} (notEnd : isLineEnd byte = false) :
    byte ≠ Byte.lineFeed := by
  rintro rfl
  cases notEnd

theorem lineFeed_not_mem_of_isLineEnd {text : Bytes}
    (noEnd : ∀ byte ∈ text, isLineEnd byte = false) : Byte.lineFeed ∉ text :=
  fun member => ne_lineFeed_of_isLineEnd (noEnd _ member) rfl

theorem lineFeed_not_mem_append_return {text : Bytes} (oneLine : Byte.lineFeed ∉ text) :
    Byte.lineFeed ∉ text ++ [Byte.carriageReturn] := by
  rw [List.mem_append, not_or]
  exact ⟨oneLine, by decide⟩

/-- A piece of a literal: a byte that stands for itself, or one behind a
backslash. -/
inductive Piece where
  | plain (byte : UInt8)
  | escaped (byte : UInt8)
  deriving DecidableEq, Repr

namespace Piece

def bytes : Piece -> Bytes
  | .plain byte => [byte]
  | .escaped byte => [Byte.backslash, byte]

/-- Whether a piece can stand in a literal between two such quotes.  A line
end cannot, not even behind a backslash. -/
def Fits (quote : UInt8) : Piece -> Prop
  | .plain byte => byte ≠ Byte.backslash ∧ byte ≠ quote ∧ isLineEnd byte = false
  | .escaped byte => isLineEnd byte = false

/-- Whether a piece can stand in a text block.  Lone quotes and line ends can. -/
def FitsBlock : Piece -> Prop
  | .plain byte => byte ≠ Byte.backslash
  | .escaped _ => True

def endsLine : Piece -> Bool
  | .plain byte => isLineEnd byte
  | .escaped _ => false

instance (quote : UInt8) : (piece : Piece) -> Decidable (piece.Fits quote)
  | .plain byte => inferInstanceAs (Decidable (byte ≠ _ ∧ byte ≠ quote ∧ isLineEnd byte = false))
  | .escaped byte => inferInstanceAs (Decidable (isLineEnd byte = false))

instance : (piece : Piece) -> Decidable piece.FitsBlock
  | .plain byte => inferInstanceAs (Decidable (byte ≠ Byte.backslash))
  | .escaped _ => .isTrue True.intro

end Piece

inductive LineEnd where
  | lineFeed
  | carriageReturn
  | both
  /-- The text ends with the comment. -/
  | endOfText
  deriving DecidableEq, Repr

def LineEnd.bytes : LineEnd -> Bytes
  | .lineFeed => [Byte.lineFeed]
  | .carriageReturn => [Byte.carriageReturn]
  | .both => [Byte.carriageReturn, Byte.lineFeed]
  | .endOfText => []

/-- A lexical element.  The end of its line belongs to a line comment.
Between literals and comments every byte of code is an element of its own. -/
inductive Element where
  | code (byte : UInt8)
  | lineComment (text : Bytes) (lineEnd : LineEnd)
  | blockComment (text : Bytes)
  | literal (quote : UInt8) (pieces : List Piece)
  /-- The blanks behind the opening quotes, and what stands from the end of that line on. -/
  | textBlock (blanks : Bytes) (pieces : List Piece)
  deriving DecidableEq, Repr

namespace Element

def blockQuotes : Bytes := [Byte.doubleQuote, Byte.doubleQuote, Byte.doubleQuote]

def bytes : Element -> Bytes
  | .code byte => [byte]
  | .lineComment text lineEnd => Byte.slash :: Byte.slash :: text ++ lineEnd.bytes
  | .blockComment text => Byte.slash :: Byte.asterisk :: text ++ [Byte.asterisk, Byte.slash]
  | .literal quote pieces => quote :: pieces.flatMap Piece.bytes ++ [quote]
  | .textBlock blanks pieces =>
      blockQuotes ++ blanks ++ pieces.flatMap Piece.bytes ++ blockQuotes

def text (elements : List Element) : Bytes :=
  elements.flatMap bytes

@[simp] theorem text_nil : text [] = [] := rfl

theorem text_cons (element : Element) (elements : List Element) :
    text (element :: elements) = element.bytes ++ text elements := rfl

theorem text_append (front behind : List Element) :
    text (front ++ behind) = text front ++ text behind :=
  List.flatMap_append

/-- Whether an element is well formed in itself.  A block comment ends at the
first asterisk with a slash, and a text block at the first three quotes. -/
def IsProper : Element -> Prop
  | .code byte => byte ≠ Byte.doubleQuote ∧ byte ≠ Byte.singleQuote
  | .lineComment text _ => ∀ byte ∈ text, isLineEnd byte = false
  | .blockComment text => ¬ [Byte.asterisk, Byte.slash] <:+: text ++ [Byte.asterisk]
  | .literal quote pieces =>
      (quote = Byte.doubleQuote ∨ quote = Byte.singleQuote) ∧ ∀ piece ∈ pieces, piece.Fits quote
  | .textBlock blanks pieces =>
      (∀ byte ∈ blanks, isBlankByte byte = true ∧ isLineEnd byte = false) ∧
      pieces.head?.any Piece.endsLine = true ∧
      (∀ piece ∈ pieces, piece.FitsBlock) ∧
      ¬ blockQuotes.map .plain <:+: pieces ∧
      pieces.getLast? ≠ some (.plain Byte.doubleQuote)

/-- Whether a text can follow an element, so that the element ends where it
does. -/
def Precedes (rest : Bytes) : Element -> Prop
  | .code byte =>
      byte = Byte.slash -> rest.head? ≠ some Byte.slash ∧ rest.head? ≠ some Byte.asterisk
  | .lineComment _ lineEnd =>
      (lineEnd = .endOfText -> rest = []) ∧
      (lineEnd = .carriageReturn -> rest.head? ≠ some Byte.lineFeed)
  | .blockComment _ => True
  | .literal quote pieces => pieces = [] -> rest.head? ≠ some quote
  | .textBlock _ _ => True

/-- Whether a sequence of elements is lexically well formed.  This is stated
without any scanner, by the grammar of the language alone. -/
def AreLexical : List Element -> Prop
  | [] => True
  | element :: elements =>
      element.IsProper ∧ element.Precedes (text elements) ∧ AreLexical elements

/-- Whether an element is a string or character literal or a comment.  Nothing
in it is code. -/
def IsLiteralOrComment : Element -> Prop
  | .code _ => False
  | .lineComment _ _ => True
  | .blockComment _ => True
  | .literal _ _ => True
  | .textBlock _ _ => False

/-- Whether a scanner finds the end of an element: it is no text block, and no
line comment that ends with a carriage return alone. -/
def IsPlain : Element -> Prop
  | .code _ => True
  | .lineComment _ lineEnd => lineEnd ≠ .carriageReturn
  | .blockComment _ => True
  | .literal _ _ => True
  | .textBlock _ _ => False

instance : (element : Element) -> Decidable element.IsProper
  | .code byte => inferInstanceAs (Decidable (byte ≠ _ ∧ byte ≠ _))
  | .lineComment text _ => inferInstanceAs (Decidable (∀ byte ∈ text, isLineEnd byte = false))
  | .blockComment text => inferInstanceAs (Decidable (¬ _ <:+: text ++ _))
  | .literal quote pieces =>
      inferInstanceAs (Decidable ((quote = _ ∨ quote = _) ∧ ∀ piece ∈ pieces, piece.Fits quote))
  | .textBlock blanks pieces =>
      inferInstanceAs (Decidable ((∀ byte ∈ blanks, isBlankByte byte = true ∧ _) ∧
        pieces.head?.any Piece.endsLine = true ∧ (∀ piece ∈ pieces, piece.FitsBlock) ∧ ¬ _ ∧ ¬ _))

instance (rest : Bytes) : (element : Element) -> Decidable (element.Precedes rest)
  | .code byte => inferInstanceAs (Decidable (byte = _ -> _ ∧ _))
  | .lineComment _ lineEnd =>
      inferInstanceAs (Decidable ((lineEnd = _ -> rest = []) ∧ (lineEnd = _ -> _)))
  | .blockComment _ => .isTrue True.intro
  | .literal quote pieces => inferInstanceAs (Decidable (pieces = [] -> rest.head? ≠ some quote))
  | .textBlock _ _ => .isTrue True.intro

instance : (element : Element) -> Decidable element.IsPlain
  | .code _ => .isTrue True.intro
  | .lineComment _ lineEnd => inferInstanceAs (Decidable (lineEnd ≠ .carriageReturn))
  | .blockComment _ => .isTrue True.intro
  | .literal _ _ => .isTrue True.intro
  | .textBlock _ _ => .isFalse id

instance decidableAreLexical : (elements : List Element) -> Decidable (AreLexical elements)
  | [] => .isTrue True.intro
  | element :: elements =>
      have := decidableAreLexical elements
      inferInstanceAs (Decidable (element.IsProper ∧ element.Precedes (text elements) ∧
        AreLexical elements))

end Element

/-! ## Scanners over elements -/

namespace Scanner

/-- Whether a scanner is inside a literal or a comment in front of each byte
of a stretch, and in no literal at the end of a line.  No chain begins at any
of these bytes. -/
def Conceals (scanner : Scanner) (ahead : Option UInt8) : Bytes -> Prop
  | [] => True
  | byte :: rest =>
      (scanner.region ≠ .code ∧ scanner.cursor.quoting = .none ∨
        scanner.cursor.isInLiteral = true ∧ byte ≠ Byte.lineFeed) ∧
      Conceals (scanner.step byte (rest.head?.or ahead)).2 ahead rest

variable {scanner : Scanner} {depth : Nat} {ahead : Option UInt8}

theorem keepsLines_nil (scanner : Scanner) : scanner.KeepsLines [] :=
  fun _ _ same => absurd same.symm (by simp)

theorem KeepsLines.append {left right : Bytes} (keepsLeft : scanner.KeepsLines left)
    (keepsRight : (scanner.run (right.head?.or ahead) left).KeepsLines right) :
    scanner.KeepsLines (left ++ right) := by
  induction left generalizing scanner with
  | nil => exact keepsRight
  | cons byte left ih =>
      rw [keepsLines_cons] at keepsLeft
      rw [List.cons_append, keepsLines_cons]
      refine ⟨keepsLeft.1, ?_⟩
      cases left with
      | nil =>
          cases right with
          | nil => exact keepsLines_nil _
          | cons next right => exact keepsRight
      | cons next left => exact ih keepsLeft.2 keepsRight

/-- Where bytes are concealed no line end drops a literal. -/
theorem Conceals.keepsLines {bytes : Bytes} (conceals : scanner.Conceals ahead bytes) :
    scanner.KeepsLines bytes := by
  induction bytes generalizing scanner with
  | nil => exact keepsLines_nil scanner
  | cons byte rest ih =>
      rw [keepsLines_cons]
      constructor
      · rintro rfl
        rcases conceals.1 with ⟨-, outside⟩ | ⟨-, notLineFeed⟩
        · rw [Cursor.isInLiteral, outside]
          rfl
        · exact absurd rfl notLineFeed
      · cases rest with
        | nil => exact keepsLines_nil _
        | cons next rest => exact ih conceals.2

theorem Conceals.not_agree {part more : Bytes} (conceals : scanner.Conceals ahead (part ++ more))
    (nonempty : more ≠ []) : ¬ Agree (scanner.run more.head? part) .start := by
  induction part generalizing scanner with
  | nil =>
      cases more with
      | nil => exact absurd rfl nonempty
      | cons byte more =>
          rintro ⟨inCode, outside⟩
          rcases conceals.1 with ⟨notInCode, -⟩ | ⟨inLiteral, -⟩
          · exact notInCode inCode
          · rw [run_nil] at outside
            rw [Cursor.isInLiteral, outside] at inLiteral
            cases inLiteral
  | cons byte part ih =>
      have behind := conceals.2
      have sameAhead : (part ++ more).head?.or ahead = part.head?.or more.head? := by
        cases more with
        | nil => exact absurd rfl nonempty
        | cons first more => cases part <;> rfl
      rw [List.append_eq, sameAhead] at behind
      rw [run_cons]
      exact ih behind

/-! ### Comments -/

theorem conceals_line {cursor : Cursor} (outside : cursor.quoting = .none) {text last : Bytes}
    (oneLine : Byte.lineFeed ∉ text) (short : last.length ≤ 1) :
    Conceals ⟨cursor, .inside .line⟩ ahead (text ++ last) := by
  induction text with
  | nil =>
      cases last with
      | nil => exact True.intro
      | cons byte last =>
          have noMore : last = [] := List.eq_nil_of_length_eq_zero (by
            rw [List.length_cons] at short
            omega)
          subst noMore
          exact ⟨.inl ⟨by simp, outside⟩, True.intro⟩
  | cons byte text ih =>
      rw [List.mem_cons, not_or] at oneLine
      have read : forall ahead, step ⟨cursor, .inside .line⟩ byte ahead =
          (none, ⟨cursor, .inside .line⟩) := fun _ => if_neg (Ne.symm oneLine.1)
      rw [List.cons_append, Conceals, read]
      exact ⟨.inl ⟨by simp, outside⟩, ih oneLine.2⟩

theorem conceals_block {cursor : Cursor} (outside : cursor.quoting = .none) {text : Bytes}
    (isOpen : ¬ [Byte.asterisk, Byte.slash] <:+: text ++ [Byte.asterisk]) :
    Conceals ⟨cursor, .inside .block⟩ ahead (text ++ [Byte.asterisk, Byte.slash]) := by
  induction text with
  | nil =>
      have read : step ⟨cursor, .inside .block⟩ Byte.asterisk (some Byte.slash) =
          (none, ⟨cursor, .closer⟩) := rfl
      rw [List.nil_append, Conceals, List.head?_cons, Option.some_or, read]
      exact ⟨.inl ⟨by simp, outside⟩, .inl ⟨by simp, outside⟩, True.intro⟩
  | cons byte text ih =>
      rw [List.cons_append, Conceals, step_block isOpen]
      exact ⟨.inl ⟨by simp, outside⟩,
        ih fun inside => isOpen (inside.trans (List.suffix_cons byte _).isInfix)⟩

/-! ### Literals -/

def inLiteral (depth : Nat) (quote : UInt8) : Scanner := ⟨⟨depth, .within quote false⟩, .code⟩

theorem step_quote {quote : UInt8}
    (isQuote : quote = Byte.doubleQuote ∨ quote = Byte.singleQuote) (depth : Nat)
    (ahead : Option UInt8) : (atRest depth).step quote ahead = (none, inLiteral depth quote) := by
  rcases isQuote with rfl | rfl <;> rfl

theorem conceals_pieces {quote : UInt8} {pieces : List Piece}
    (isQuote : quote = Byte.doubleQuote ∨ quote = Byte.singleQuote)
    (fits : ∀ piece ∈ pieces, piece.Fits quote) :
    (inLiteral depth quote).Conceals ahead (pieces.flatMap Piece.bytes ++ [quote]) ∧
      (inLiteral depth quote).run ahead (pieces.flatMap Piece.bytes ++ [quote]) =
        atRest depth := by
  have isInLiteral : forall escaped, Scanner.cursor ⟨⟨depth, .within quote escaped⟩, .code⟩
      |>.isInLiteral := fun _ => rfl
  have within : forall {escaped : Bool} {byte : UInt8} (ahead : Option UInt8),
      byte ≠ Byte.lineFeed ->
      step ⟨⟨depth, .within quote escaped⟩, .code⟩ byte ahead =
        (none, ⟨(Cursor.next ⟨depth, .within quote escaped⟩ byte), .code⟩) := by
    intro escaped byte ahead notLineFeed
    rw [step_code_within, if_neg notLineFeed]
  induction pieces with
  | nil =>
      have notLineFeed : quote ≠ Byte.lineFeed := by
        rcases isQuote with rfl | rfl <;> decide
      have notBackslash : quote ≠ Byte.backslash := by
        rcases isQuote with rfl | rfl <;> decide
      refine ⟨⟨.inr ⟨isInLiteral false, notLineFeed⟩, True.intro⟩, ?_⟩
      rw [List.flatMap_nil, List.nil_append, run_cons, inLiteral, within _ notLineFeed, Cursor.next,
        Cursor.step]
      simp only [Bool.false_eq_true, if_false, if_neg notBackslash, if_true]
      rfl
  | cons piece pieces ih =>
      have here := fits piece List.mem_cons_self
      have behind := ih fun other member => fits other (List.mem_cons_of_mem piece member)
      cases piece with
      | plain byte =>
          have notLineFeed := ne_lineFeed_of_isLineEnd here.2.2
          have next : Cursor.next ⟨depth, .within quote false⟩ byte =
              ⟨depth, .within quote false⟩ := by
            rw [Cursor.next, Cursor.step]
            simp only [Bool.false_eq_true, if_false, if_neg here.1, if_neg here.2.1]
          rw [List.flatMap_cons, Piece.bytes, List.append_assoc, List.singleton_append, Conceals,
            run_cons, inLiteral, within _ notLineFeed, next]
          exact ⟨⟨.inr ⟨isInLiteral false, notLineFeed⟩, behind.1⟩, behind.2⟩
      | escaped byte =>
          have notLineFeed := ne_lineFeed_of_isLineEnd here
          have isBackslash : Byte.backslash ≠ Byte.lineFeed := by decide
          have opens : Cursor.next ⟨depth, .within quote false⟩ Byte.backslash =
              ⟨depth, .within quote true⟩ := by
            rw [Cursor.next, Cursor.step]
            simp only [Bool.false_eq_true, if_false, if_true]
          have next : Cursor.next ⟨depth, .within quote true⟩ byte =
              ⟨depth, .within quote false⟩ := rfl
          rw [List.flatMap_cons, Piece.bytes, List.append_assoc, List.cons_append,
            List.singleton_append, Conceals, run_cons, inLiteral, within _ isBackslash, opens,
            Conceals, run_cons, within _ notLineFeed, next]
          exact ⟨⟨.inr ⟨isInLiteral false, isBackslash⟩, .inr ⟨isInLiteral true, notLineFeed⟩,
            behind.1⟩, behind.2⟩

end Scanner

/-! ### Elements -/

namespace Element

variable {element : Element} {depth : Nat} {rest : Bytes}

/-- A literal or a comment begins with no identifier, and a scanner at rest in
front of it is inside of it at each byte but the first. -/
theorem conceals (proper : element.IsProper) (isHidden : element.IsLiteralOrComment)
    (depth : Nat) (ahead : Option UInt8) :
    ∃ first others, element.bytes = first :: others ∧ isIdentifierByte first = false ∧
      ((Scanner.atRest depth).step first (others.head?.or ahead)).2.Conceals ahead others := by
  cases element with
  | code byte => exact absurd isHidden id
  | lineComment text lineEnd =>
      refine ⟨Byte.slash, Byte.slash :: text ++ lineEnd.bytes, rfl, rfl, ?_⟩
      have opens : (Scanner.atRest depth).step Byte.slash (some Byte.slash) =
          (none, ⟨⟨depth, .none⟩, .opener .line⟩) := rfl
      have inside : forall ahead, Scanner.step ⟨⟨depth, .none⟩, .opener .line⟩ Byte.slash ahead =
          (none, ⟨⟨depth, .none⟩, .inside .line⟩) := fun _ => rfl
      have oneLine := lineFeed_not_mem_of_isLineEnd proper
      have oneLineReturn := lineFeed_not_mem_append_return oneLine
      rw [List.cons_append, List.head?_cons, Option.some_or, opens, Scanner.Conceals, inside]
      refine ⟨.inl ⟨by simp, rfl⟩, ?_⟩
      cases lineEnd with
      | lineFeed => exact Scanner.conceals_line rfl oneLine (Nat.le_refl 1)
      | carriageReturn => exact Scanner.conceals_line rfl oneLine (Nat.le_refl 1)
      | both =>
          have isLast : Scanner.Conceals ⟨⟨depth, .none⟩, .inside .line⟩ ahead
              (text ++ [Byte.carriageReturn] ++ [Byte.lineFeed]) :=
            Scanner.conceals_line rfl oneLineReturn (Nat.le_refl 1)
          rw [List.append_assoc] at isLast
          exact isLast
      | endOfText => exact Scanner.conceals_line rfl oneLine (Nat.zero_le 1)
  | blockComment text =>
      refine ⟨Byte.slash, Byte.asterisk :: text ++ [Byte.asterisk, Byte.slash], rfl, rfl, ?_⟩
      have opens : (Scanner.atRest depth).step Byte.slash (some Byte.asterisk) =
          (none, ⟨⟨depth, .none⟩, .opener .block⟩) := rfl
      have inside : forall ahead, Scanner.step ⟨⟨depth, .none⟩, .opener .block⟩ Byte.asterisk ahead =
          (none, ⟨⟨depth, .none⟩, .inside .block⟩) := fun _ => rfl
      rw [List.cons_append, List.head?_cons, Option.some_or, opens, Scanner.Conceals, inside]
      exact ⟨.inl ⟨by simp, rfl⟩, Scanner.conceals_block rfl proper⟩
  | literal quote pieces =>
      refine ⟨quote, pieces.flatMap Piece.bytes ++ [quote], rfl, ?_, ?_⟩
      · rcases proper.1 with rfl | rfl <;> rfl
      · rw [Scanner.step_quote proper.1]
        exact (Scanner.conceals_pieces proper.1 proper.2).1
  | textBlock blanks pieces => exact absurd isHidden id

theorem keepsLines (proper : element.IsProper) (isHidden : element.IsLiteralOrComment)
    (depth : Nat) : (Scanner.atRest depth).KeepsLines element.bytes := by
  rcases conceals proper isHidden depth none with ⟨first, others, isBytes, -, hidden⟩
  rw [Option.or_none] at hidden
  rw [isBytes, Scanner.keepsLines_cons]
  exact ⟨fun _ => rfl, hidden.keepsLines⟩

theorem head?_of_agree (proper : element.IsProper) (isHidden : element.IsLiteralOrComment)
    {part more : Bytes} (split : element.bytes = part ++ more) (nonempty : more ≠ [])
    (agree : Scanner.Agree ((Scanner.atRest depth).run more.head? part) .start) :
    more.head?.any isIdentifierByte = false := by
  rcases conceals proper isHidden depth none with ⟨first, others, isBytes, notIdentifier, hidden⟩
  rw [isBytes] at split
  cases part with
  | nil =>
      rw [List.nil_append] at split
      rw [← split]
      exact notIdentifier
  | cons other part =>
      rcases List.cons.inj split with ⟨rfl, rfl⟩
      rw [Option.or_none, List.append_eq, List.head?_append] at hidden
      exact absurd agree (hidden.not_agree nonempty)

/-- A plain element that something follows leaves a scanner at rest, and keeps
its lines. -/
theorem run (proper : element.IsProper) (precedes : element.Precedes rest)
    (plain : element.IsPlain) (nonempty : rest ≠ []) (depth : Nat) :
    (∃ after, (Scanner.atRest depth).run rest.head? element.bytes = Scanner.atRest after) ∧
      (Scanner.atRest depth).KeepsLines element.bytes := by
  cases element with
  | code byte =>
      constructor
      · have noComment : Comment.opened? byte rest.head? = none := by
          rw [Comment.opened?]
          split
          · rename_i isSlash
            rcases precedes isSlash with ⟨notSlash, notAsterisk⟩
            rw [if_neg notSlash, if_neg notAsterisk]
          · rfl
        have notQuote : ¬ (byte = Byte.doubleQuote ∨ byte = Byte.singleQuote) :=
          not_or.mpr proper
        rw [bytes, Scanner.run_cons, List.head?_nil, Option.none_or, Scanner.atRest,
          Scanner.step_code_none, noComment]
        simp only [if_neg notQuote]
        split_ifs <;> exact ⟨_, rfl⟩
      · rw [bytes, Scanner.keepsLines_cons]
        exact ⟨fun _ => rfl, Scanner.keepsLines_nil _⟩
  | lineComment text lineEnd =>
      refine ⟨⟨depth, ?_⟩, keepsLines proper True.intro depth⟩
      have oneLine := lineFeed_not_mem_of_isLineEnd proper
      have oneLineReturn := lineFeed_not_mem_append_return oneLine
      have opens : (Scanner.atRest depth).run rest.head? (bytes (.lineComment text lineEnd)) =
          Scanner.run ⟨⟨depth, .none⟩, .inside .line⟩ rest.head? (text ++ lineEnd.bytes) := rfl
      rw [opens]
      cases lineEnd with
      | lineFeed => exact (Scanner.passes_line oneLine _).1
      | carriageReturn => exact absurd rfl plain
      | both =>
          have isLast : Scanner.run ⟨⟨depth, .none⟩, .inside .line⟩ rest.head?
              (text ++ [Byte.carriageReturn] ++ [Byte.lineFeed]) = Scanner.atRest depth :=
            (Scanner.passes_line oneLineReturn _).1
          rw [List.append_assoc] at isLast
          exact isLast
      | endOfText => exact absurd (precedes.1 rfl) nonempty
  | blockComment text =>
      refine ⟨⟨depth, ?_⟩, keepsLines proper True.intro depth⟩
      have opens : (Scanner.atRest depth).run rest.head? (bytes (.blockComment text)) =
          Scanner.run ⟨⟨depth, .none⟩, .inside .block⟩ rest.head?
            (text ++ [Byte.asterisk, Byte.slash]) := rfl
      rw [opens]
      exact (Scanner.passes_block proper _).1
  | literal quote pieces =>
      refine ⟨⟨depth, ?_⟩, keepsLines proper True.intro depth⟩
      rw [bytes, List.cons_append, Scanner.run_cons, Scanner.step_quote proper.1]
      exact (Scanner.conceals_pieces proper.1 proper.2).2
  | textBlock blanks pieces => exact absurd plain id

theorem bytes_ne_nil (element : Element) : element.bytes ≠ [] := by
  cases element <;> simp [bytes, blockQuotes]

theorem AreLexical.of_append_right {front behind : List Element}
    (lexical : AreLexical (front ++ behind)) : AreLexical behind := by
  induction front with
  | nil => exact lexical
  | cons element front ih => exact ih lexical.2.2

theorem text_ne_nil {elements : List Element} (nonempty : elements ≠ []) : text elements ≠ [] := by
  cases elements with
  | nil => exact absurd rfl nonempty
  | cons element elements => exact List.append_ne_nil_of_left_ne_nil element.bytes_ne_nil _

/-- Between plain elements a scanner is at rest, and no line end drops a
literal. -/
theorem run_text {front behind : List Element} (lexical : AreLexical (front ++ behind))
    (plain : ∀ element ∈ front, element.IsPlain) (nonempty : behind ≠ []) (depth : Nat) :
    (∃ after, (Scanner.atRest depth).run (text behind).head? (text front) =
        Scanner.atRest after) ∧
      (Scanner.atRest depth).KeepsLines (text front) := by
  induction front generalizing depth with
  | nil => exact ⟨⟨depth, rfl⟩, Scanner.keepsLines_nil _⟩
  | cons element front ih =>
      rcases lexical with ⟨proper, precedes, lexicalBehind⟩
      rw [List.append_eq] at precedes lexicalBehind
      have follows : text (front ++ behind) ≠ [] :=
        text_ne_nil (List.append_ne_nil_of_right_ne_nil front nonempty)
      rcases run proper precedes (plain element List.mem_cons_self) follows depth with
        ⟨⟨after, atRest⟩, keeps⟩
      rcases ih lexicalBehind (fun other member => plain other (List.mem_cons_of_mem element member))
        after with ⟨⟨final, atRestBehind⟩, keepsBehind⟩
      rw [text_append, List.head?_append] at atRest
      constructor
      · rw [text_cons, Scanner.run_append, atRest]
        exact ⟨final, atRestBehind⟩
      · rw [text_cons]
        rw [← atRest] at keepsBehind
        exact keeps.append keepsBehind

end Element
end FluentLog
