import FluentLog.Proofs.Chain.Candidates
import FluentLog.Proofs.Chain.Ending

namespace FluentLog

/-!
# Chains as sequences of calls

A chain whose calls follow one another is a list of items: calls, each with what stands
in front of its parentheses and what stands between them, and the quiet stretches between
the calls.  What a walk meets outside of all parentheses is read off this list, one call
after the other.
-/

variable {dialect : Dialect}

/-! ## Quiet stretches -/

/-- Whether a byte of code means nothing to a walk over a chain. -/
def isQuietByte (byte : UInt8) : Bool :=
  Scanner.isPlainByte byte && byte != Byte.dot && !endsExpression byte

/-- Code in which nothing happens, such as blanks and names, and whole
comments.  Neither the search for a terminal call nor the walk for suppliers
stops there. -/
inductive IsQuiet : Bytes -> Prop
  | nil : IsQuiet []
  | code {byte : UInt8} {rest : Bytes} (quiet : isQuietByte byte = true)
      (behind : IsQuiet rest) : IsQuiet (byte :: rest)
  /-- A comment to the end of its line. -/
  | line {text rest : Bytes} (oneLine : Byte.lineFeed ∉ text) (behind : IsQuiet rest) :
      IsQuiet (Byte.slash :: Byte.slash :: (text ++ [Byte.lineFeed] ++ rest))
  /-- A comment to the first asterisk with a slash. -/
  | block {text rest : Bytes}
      (isOpen : ¬ [Byte.asterisk, Byte.slash] <:+: text ++ [Byte.asterisk])
      (behind : IsQuiet rest) :
      IsQuiet (Byte.slash :: Byte.asterisk :: (text ++ [Byte.asterisk, Byte.slash] ++ rest))

namespace Scanner

variable {cursor : Cursor}

/-- A line comment goes on at each byte in front of its end. -/
theorem step_line {byte : UInt8} (notLineFeed : byte ≠ Byte.lineFeed) (ahead : Option UInt8) :
    step ⟨cursor, .inside .line⟩ byte ahead = (none, ⟨cursor, .inside .line⟩) :=
  if_neg notLineFeed

theorem passes_line {text : Bytes} (oneLine : Byte.lineFeed ∉ text) (ahead : Option UInt8) :
    run ⟨cursor, .inside .line⟩ ahead (text ++ [Byte.lineFeed]) = ⟨cursor, .code⟩ ∧
      Silent ⟨cursor, .inside .line⟩ ahead (text ++ [Byte.lineFeed]) := by
  induction text with
  | nil => exact ⟨rfl, (fun same => by cases same), True.intro⟩
  | cons byte text ih =>
      have notLineFeed : byte ≠ Byte.lineFeed := fun same => oneLine (by simp [same])
      rw [List.cons_append, run_cons, Silent, step_line notLineFeed]
      rcases ih fun member => oneLine (List.mem_cons_of_mem byte member) with ⟨ends, silent⟩
      exact ⟨ends, (fun same => by cases same), silent⟩

/-- A block comment goes on at each byte in front of its end. -/
theorem step_block {byte : UInt8} {text : Bytes}
    (isOpen : ¬ [Byte.asterisk, Byte.slash] <:+: byte :: text ++ [Byte.asterisk])
    (ahead : Option UInt8) :
    step ⟨cursor, .inside .block⟩ byte ((text ++ [Byte.asterisk, Byte.slash]).head?.or ahead) =
      (none, ⟨cursor, .inside .block⟩) := by
  apply if_neg
  rintro ⟨rfl, isSlash⟩
  cases text with
  | nil => cases isSlash
  | cons second text =>
      cases isSlash
      exact isOpen ⟨[], text ++ [Byte.asterisk], rfl⟩

theorem passes_block {text : Bytes}
    (isOpen : ¬ [Byte.asterisk, Byte.slash] <:+: text ++ [Byte.asterisk])
    (ahead : Option UInt8) :
    run ⟨cursor, .inside .block⟩ ahead (text ++ [Byte.asterisk, Byte.slash]) =
        ⟨cursor, .code⟩ ∧
      Silent ⟨cursor, .inside .block⟩ ahead (text ++ [Byte.asterisk, Byte.slash]) := by
  induction text with
  | nil => exact ⟨rfl, (fun same => by cases same), (fun same => by cases same), True.intro⟩
  | cons byte text ih =>
      rw [List.cons_append, run_cons, Silent, step_block isOpen]
      rcases ih fun inside => isOpen (inside.trans (List.suffix_cons byte _).isInfix) with
        ⟨ends, silent⟩
      exact ⟨ends, (fun same => by cases same), silent⟩

end Scanner

namespace IsQuiet

variable {stretch : Bytes}

/-- A quiet stretch leaves a scanner at rest as it is, and reports nothing of
note. -/
theorem passes (quiet : IsQuiet stretch) (depth : Nat) (ahead : Option UInt8) :
    (Scanner.atRest depth).run ahead stretch = Scanner.atRest depth ∧
      (Scanner.atRest depth).Silent ahead stretch := by
  induction quiet with
  | nil => exact ⟨rfl, True.intro⟩
  | @code byte rest isQuiet behind ih =>
      simp only [isQuietByte, Bool.and_eq_true, bne_iff_ne, ne_eq, Bool.not_eq_true'] at isQuiet
      rcases isQuiet with ⟨⟨plain, notDot⟩, goesOn⟩
      rw [Scanner.run_cons, Scanner.Silent, Scanner.step_atRest_plain plain]
      exact ⟨ih.1, fun _ => ⟨goesOn, notDot⟩, ih.2⟩
  | @line text rest oneLine behind ih =>
      rcases Scanner.passes_line oneLine (rest.head?.or ahead) with ⟨ends, silent⟩
      refine ⟨?_, (fun same => by cases same), (fun same => by cases same), Scanner.Silent.append silent ?_⟩
      · rw [Scanner.run_cons, Scanner.run_cons]
        exact (Scanner.run_append ..).trans (ends ▸ ih.1)
      · exact ends ▸ ih.2
  | @block text rest isOpen behind ih =>
      rcases Scanner.passes_block isOpen (rest.head?.or ahead) with ⟨ends, silent⟩
      refine ⟨?_, (fun same => by cases same), (fun same => by cases same), Scanner.Silent.append silent ?_⟩
      · rw [Scanner.run_cons, Scanner.run_cons]
        exact (Scanner.run_append ..).trans (ends ▸ ih.1)
      · exact ends ▸ ih.2

theorem of_forall (quiet : ∀ byte ∈ stretch, isQuietByte byte = true) : IsQuiet stretch := by
  induction stretch with
  | nil => exact .nil
  | cons byte stretch ih =>
      exact .code (quiet byte List.mem_cons_self)
        (ih fun other member => quiet other (List.mem_cons_of_mem byte member))

/-- What a plain stretch in front of a parenthesis is, if a quiet one stands
there. -/
theorem lead_unique {other after otherAfter : Bytes} (quiet : IsQuiet stretch)
    (plain : ∀ byte ∈ other, Scanner.isPlainByte byte = true)
    (same : other ++ Byte.openParen :: otherAfter = stretch ++ Byte.openParen :: after) :
    other = stretch ∧ otherAfter = after := by
  induction quiet generalizing other with
  | nil =>
      cases other with
      | nil => exact ⟨rfl, (List.cons.inj same).2⟩
      | cons byte other =>
          have isOpen := plain byte List.mem_cons_self
          rw [(List.cons.inj same).1] at isOpen
          cases isOpen
  | @code byte rest isQuiet behind ih =>
      cases other with
      | nil =>
          rw [← (List.cons.inj same).1] at isQuiet
          cases isQuiet
      | cons first other =>
          rcases List.cons.inj same with ⟨rfl, sameRest⟩
          rcases ih (fun byte member => plain byte (List.mem_cons_of_mem _ member)) sameRest with
            ⟨rfl, sameAfter⟩
          exact ⟨rfl, sameAfter⟩
  | line oneLine behind ih =>
      cases other with
      | nil => exact absurd (List.cons.inj same).1 (by decide)
      | cons first other =>
          have isSlash := plain first List.mem_cons_self
          rw [(List.cons.inj same).1] at isSlash
          cases isSlash
  | block isOpen behind ih =>
      cases other with
      | nil => exact absurd (List.cons.inj same).1 (by decide)
      | cons first other =>
          have isSlash := plain first List.mem_cons_self
          rw [(List.cons.inj same).1] at isSlash
          cases isSlash

theorem of_isNamed {word : String} (identifier : isIdentifierWord word = true)
    (named : Call.IsNamed word stretch) : IsQuiet stretch := by
  have quiet : forall byte, isBlankByte byte = true ∨ isIdentifierByte byte = true ->
      isQuietByte byte = true := by
    intro byte isName
    simp only [isQuietByte, Bool.and_eq_true, bne_iff_ne, ne_eq, Bool.not_eq_true']
    refine ⟨⟨?_, ?_⟩, Bool.eq_false_iff.mpr ?_⟩
    · rcases isName with blank | identifier
      · exact Scanner.isPlainByte_of_isBlankByte blank
      · exact Scanner.isPlainByte_of_isIdentifierByte identifier
    · rintro rfl
      exact absurd isName (by decide)
    · intro ends
      simp only [endsExpression, Bool.or_eq_true, decide_eq_true_eq] at ends
      rcases ends with (((rfl | rfl) | rfl) | rfl) | rfl <;> exact absurd isName (by decide)
  exact of_forall fun byte member => quiet byte (named.byte_cases identifier byte member)

end IsQuiet

/-! ## Items -/

/-- A piece of a chain outside all parentheses: a call with the bytes in front
of its parentheses and those between them, or what stands between two calls.
A chain of calls is its receiver with a list of these. -/
inductive Item where
  | gap (bytes : Bytes)
  | call (lead inside : Bytes)
  deriving DecidableEq, Repr

namespace Item

def bytes : Item -> Bytes
  | .gap bytes => bytes
  | .call lead inside => Byte.dot :: lead ++ Byte.openParen :: inside ++ [Byte.closeParen]

def text (items : List Item) : Bytes :=
  items.flatMap bytes

/-- Whether gaps are quiet, and calls are quiet in front of parentheses that
close. -/
def IsProper : Item -> Prop
  | .gap bytes => bytes ≠ [] ∧ IsQuiet bytes
  | .call lead inside => IsQuiet lead ∧ IsEnclosed inside

theorem isProper_gap {bytes : Bytes} (nonempty : bytes ≠ [])
    (quiet : bytes.all isQuietByte = true) : IsProper (.gap bytes) :=
  ⟨nonempty, .of_forall (List.all_eq_true.mp quiet)⟩

theorem isProper_call {lead inside : Bytes} (quiet : lead.all isQuietByte = true)
    (enclosed : IsEnclosed inside) : IsProper (.call lead inside) :=
  ⟨.of_forall (List.all_eq_true.mp quiet), enclosed⟩

def IsTerminal (dialect : Dialect) : Item -> Prop
  | .gap _ => False
  | .call lead inside => Call.IsNamed dialect.terminalMethod lead ∧ IsBlank inside

@[simp] theorem text_nil : text [] = [] := rfl

@[simp] theorem text_cons (item : Item) (items : List Item) :
    text (item :: items) = item.bytes ++ text items := rfl

@[simp] theorem text_append (left right : List Item) :
    text (left ++ right) = text left ++ text right :=
  List.flatMap_append

theorem bytes_call_append (lead inside rest : Bytes) :
    bytes (.call lead inside) ++ rest =
      Byte.dot :: (lead ++ Byte.openParen :: inside ++ [Byte.closeParen] ++ rest) := by
  simp [bytes]

theorem length_bytes_call (lead inside : Bytes) :
    (bytes (.call lead inside)).length = lead.length + inside.length + 3 := by
  simp only [bytes, List.length_append, List.length_cons, List.length_nil]
  omega

theorem offset_behind_dot (offset : Nat) (lead inside : Bytes) :
    offset + 1 + (lead ++ Byte.openParen :: inside ++ [Byte.closeParen]).length =
      offset + (bytes (.call lead inside)).length := by
  simp only [length_bytes_call, List.length_append, List.length_cons, List.length_nil]
  omega

theorem IsProper.length_pos {item : Item} (proper : item.IsProper) : 0 < item.bytes.length := by
  cases item with
  | gap bytes => exact List.length_pos_iff.mpr proper.1
  | call lead inside =>
      rw [length_bytes_call]
      omega

theorem eq_nil_of_text {items : List Item} (proper : ∀ item ∈ items, item.IsProper)
    (noText : (text items).length = 0) : items = [] := by
  cases items with
  | nil => rfl
  | cons item items =>
      have positive := (proper item List.mem_cons_self).length_pos
      rw [text_cons, List.length_append] at noText
      omega

theorem IsProper.passes {lead inside : Bytes} (proper : IsProper (.call lead inside))
    (depth : Nat) (ahead : Option UInt8) :
    (Scanner.atRest depth).run ahead (lead ++ Byte.openParen :: inside ++ [Byte.closeParen]) =
        Scanner.atRest depth ∧
      (Scanner.atRest depth).Silent ahead
        (lead ++ Byte.openParen :: inside ++ [Byte.closeParen]) :=
  Scanner.passes_call (proper.1.passes depth) proper.2 ahead

theorem IsProper.run {item : Item} (proper : item.IsProper) (depth : Nat)
    (ahead : Option UInt8) :
    (Scanner.atRest depth).run ahead item.bytes = Scanner.atRest depth := by
  cases item with
  | gap bytes => exact (proper.2.passes depth ahead).1
  | call lead inside =>
      have read : forall ahead, ((Scanner.atRest depth).step Byte.dot ahead).2 =
          Scanner.atRest depth := fun _ => rfl
      have whole := bytes_call_append lead inside []
      rw [List.append_nil, List.append_nil] at whole
      rw [whole, Scanner.run_cons, read, (proper.passes depth _).1]

theorem IsProper.closesOwn {item : Item} (proper : item.IsProper) (depth : Nat)
    (ahead : Option UInt8) : (Scanner.atRest depth).ClosesOwn ahead item.bytes := by
  cases item with
  | gap bytes => exact (proper.2.passes depth ahead).2.closesOwn
  | call lead inside =>
      have whole := bytes_call_append lead inside []
      rw [List.append_nil, List.append_nil] at whole
      rw [whole]
      exact ⟨fun closes => absurd closes.1 (by decide), (proper.passes depth ahead).2.closesOwn⟩

theorem run_text {items : List Item} (proper : ∀ item ∈ items, item.IsProper) (depth : Nat)
    (ahead : Option UInt8) :
    (Scanner.atRest depth).run ahead (text items) = Scanner.atRest depth := by
  induction items with
  | nil => rfl
  | cons item items ih =>
      rw [text_cons, Scanner.run_append, (proper item List.mem_cons_self).run]
      exact ih fun other member => proper other (List.mem_cons_of_mem item member)

theorem closesOwn_text {items : List Item} (proper : ∀ item ∈ items, item.IsProper) (depth : Nat)
    (ahead : Option UInt8) : (Scanner.atRest depth).ClosesOwn ahead (text items) := by
  induction items with
  | nil => exact True.intro
  | cons item items ih =>
      have here := proper item List.mem_cons_self
      rw [text_cons]
      apply Scanner.ClosesOwn.append (here.closesOwn depth _)
      rw [here.run]
      exact ih fun other member => proper other (List.mem_cons_of_mem item member)

/-! ### Reading a call -/

section

variable {lead inside : Bytes} (identifiers : dialect.HasIdentifierWords)
  (proper : IsProper (.call lead inside)) (offset : Nat) (rest : Bytes)

include identifiers proper

theorem argument?_call (opened : Place) :
    Call.argument? dialect ⟨offset, lead ++ Byte.openParen :: inside ++ [Byte.closeParen] ++ rest⟩ =
        some opened ↔
      Call.IsNamed dialect.argumentMethod lead ∧
        opened = ⟨offset + lead.length + 1, inside ++ Byte.closeParen :: rest⟩ := by
  have whole : lead ++ Byte.openParen :: inside ++ [Byte.closeParen] ++ rest =
      lead ++ Byte.openParen :: (inside ++ Byte.closeParen :: rest) := by
    simp
  rw [whole, Call.argument?_eq_some_iff identifiers]
  constructor
  · rintro ⟨other, named, same, atOffset⟩
    rcases proper.1.lead_unique (named.plain identifiers.argumentMethod) same.symm with
      ⟨rfl, sameRest⟩
    refine ⟨named, ?_⟩
    rcases opened with ⟨openedOffset, openedRest⟩
    simp only at sameRest atOffset
    rw [sameRest, atOffset]
  · rintro ⟨named, rfl⟩
    exact ⟨lead, named, rfl, rfl⟩

/-- A call with kept lines is a message call by its name and by what it is
given. -/
theorem message?_call (keeps : Scanner.start.KeepsLines inside) (call : Call.Message) :
    Call.message? dialect ⟨offset, lead ++ Byte.openParen :: inside ++ [Byte.closeParen] ++ rest⟩ =
        some call ↔
      Call.IsNamed dialect.messageMethod lead ∧ Call.IsBareMessage inside ∧
        call = ⟨⟨offset + lead.length + 1, offset + lead.length + 1 + inside.length⟩,
          offset + lead.length + 1 + inside.length + 1⟩ := by
  have whole : lead ++ Byte.openParen :: inside ++ [Byte.closeParen] ++ rest =
      lead ++ Byte.openParen :: (inside ++ Byte.closeParen :: rest) := by
    simp
  rw [whole, Call.message?_eq_some_iff identifiers]
  constructor
  · rintro ⟨other, argument, after, named, bare, same, rfl⟩
    rw [List.append_assoc, List.cons_append] at same
    rcases proper.1.lead_unique (named.plain identifiers.messageMethod) same.symm with
      ⟨rfl, sameInside⟩
    -- Without parentheses of its own the bare message cannot go beyond the call.
    rcases split_behind bare.closeParen_not_mem sameInside.symm with ⟨middle, isInside, -⟩
    rw [isInside] at keeps
    have isArgument := (bare.isEnclosed_of_keepsLines keeps.of_append_left).unique proper.2
      sameInside
    subst isArgument
    exact ⟨named, bare, rfl⟩
  · rintro ⟨named, bare, rfl⟩
    exact ⟨lead, inside, rest, named, bare, by simp, rfl⟩

theorem terminal?_call (stop : Nat) :
    Call.terminal? dialect ⟨offset, lead ++ Byte.openParen :: inside ++ [Byte.closeParen] ++ rest⟩ =
        some stop ↔
      IsTerminal dialect (.call lead inside) ∧ stop = offset + lead.length + inside.length + 2 := by
  have whole : lead ++ Byte.openParen :: inside ++ [Byte.closeParen] ++ rest =
      lead ++ Byte.openParen :: (inside ++ Byte.closeParen :: rest) := by
    simp
  rw [whole, Call.terminal?_eq_some_iff identifiers]
  constructor
  · rintro ⟨other, blanks, after, named, blank, same, rfl⟩
    rw [List.append_assoc, List.cons_append] at same
    rcases proper.1.lead_unique (named.plain identifiers.terminalMethod) same.symm with
      ⟨rfl, sameInside⟩
    have isInside := (isEnclosed_of_plain blank.plain).unique proper.2 sameInside
    subst isInside
    exact ⟨⟨named, blank⟩, rfl⟩
  · rintro ⟨⟨named, blank⟩, rfl⟩
    exact ⟨lead, inside, rest, named, blank, by simp, rfl⟩

end

end Item

/-! ## What a walk meets -/

namespace Scanner

/-- The dots that a walk over a text meets outside of all parentheses. -/
def outerDots (scanner : Scanner) (offset : Nat) (text : Bytes) : List CodeByte :=
  (scanner.codeBytes offset text).filter fun point => point.byte = Byte.dot ∧ point.depth = 0

theorem outerDots_cons (scanner : Scanner) (offset : Nat) (byte : UInt8) (rest : Bytes) :
    scanner.outerDots offset (byte :: rest) =
      (if byte = Byte.dot ∧ (scanner.step byte rest.head?).1 = some 0 then
        [⟨offset, byte, 0⟩] else []) ++
        (scanner.step byte rest.head?).2.outerDots (offset + 1) rest := by
  rw [outerDots, codeBytes_cons, List.filter_append, outerDots]
  congr 1
  cases (scanner.step byte rest.head?).1 with
  | none => simp
  | some depth =>
      by_cases isDot : byte = Byte.dot ∧ depth = 0
      · simp [isDot]
      · simp [isDot]

theorem outerDots_append_of_silent {scanner : Scanner} {offset : Nat} {stretch rest : Bytes}
    (silent : scanner.Silent rest.head? stretch) :
    scanner.outerDots offset (stretch ++ rest) =
      (scanner.run rest.head? stretch).outerDots (offset + stretch.length) rest := by
  induction stretch generalizing scanner offset with
  | nil => rfl
  | cons byte stretch ih =>
      have noDot : ¬ (byte = Byte.dot ∧
          (scanner.step byte (stretch.head?.or rest.head?)).1 = some 0) :=
        fun isDot => (silent.1 isDot.2).2 isDot.1
      rw [List.cons_append, outerDots_cons, List.head?_append, if_neg noDot, List.nil_append,
        ih silent.2, Scanner.run_cons, List.length_cons, Nat.add_comm stretch.length,
        ← Nat.add_assoc]

end Scanner

namespace Item

def outerDots (offset : Nat) : List Item -> List CodeByte
  | [] => []
  | .gap bytes :: items => outerDots (offset + bytes.length) items
  | .call lead inside :: items =>
      ⟨offset, Byte.dot, 0⟩ :: outerDots (offset + (bytes (.call lead inside)).length) items

/-- Outside of all parentheses a walk meets the calls, one after the other.
Gaps have no dots, and those between parentheses are deeper. -/
theorem outerDots_text {items : List Item} (proper : ∀ item ∈ items, item.IsProper)
    (offset : Nat) : (Scanner.atRest 0).outerDots offset (text items) = outerDots offset items := by
  induction items generalizing offset with
  | nil => rfl
  | cons item items ih =>
      have here := proper item List.mem_cons_self
      have behind := ih fun other member => proper other (List.mem_cons_of_mem item member)
      rw [text_cons]
      cases item with
      | gap bytes =>
          rcases here.2.passes 0 (text items).head? with ⟨back, silent⟩
          rw [Item.bytes, Scanner.outerDots_append_of_silent silent, back, behind, outerDots]
      | call lead inside =>
          rcases here.passes 0 (text items).head? with ⟨back, silent⟩
          have read : forall ahead, (Scanner.atRest 0).step Byte.dot ahead =
              (some 0, Scanner.atRest 0) := fun _ => rfl
          rw [bytes_call_append, Scanner.outerDots_cons, read, if_pos ⟨rfl, rfl⟩,
            Scanner.outerDots_append_of_silent silent, back, behind, offset_behind_dot, outerDots,
            List.singleton_append]

theorem offset_of_mem_outerDots {offset : Nat} {items : List Item} {point : CodeByte}
    (member : point ∈ outerDots offset items) : offset ≤ point.offset := by
  induction items generalizing offset with
  | nil => cases member
  | cons item items ih =>
      cases item with
      | gap bytes =>
          have behind := ih member
          omega
      | call lead inside =>
          rcases List.mem_cons.mp member with rfl | inItems
          · exact Nat.le_refl offset
          · have behind := ih inItems
            omega

end Item

/-! ### Argument calls -/

/-- An argument call, with the bytes between its dot and its parentheses and
those between its parentheses. -/
structure ArgumentCall where
  lead : Bytes
  inside : Bytes
  deriving DecidableEq, Repr

def argumentCall? (dialect : Dialect) (behind : Bytes) : Option ArgumentCall := do
  let opened <- Call.argument? dialect ⟨0, behind⟩
  let length <- closingParen? opened.rest
  some ⟨behind.take (opened.offset - 1), opened.rest.take length⟩

/-- The argument calls that a walk over a text meets outside of all
parentheses. -/
def outerArguments (dialect : Dialect) (text : Bytes) : List ArgumentCall :=
  (Scanner.start.outerDots 0 text).filterMap fun point =>
    argumentCall? dialect (text.drop (point.offset + 1))

namespace Item

def argument? (dialect : Dialect) : Item -> Option ArgumentCall
  | .gap _ => none
  | .call lead inside =>
      argumentCall? dialect (lead ++ Byte.openParen :: inside ++ [Byte.closeParen])

/-- The answer does not depend on what follows the call. -/
theorem argumentCall?_call (identifiers : dialect.HasIdentifierWords) {lead inside : Bytes}
    (proper : IsProper (.call lead inside)) (rest : Bytes) (call : ArgumentCall) :
    argumentCall? dialect (lead ++ Byte.openParen :: inside ++ [Byte.closeParen] ++ rest) =
        some call ↔
      Call.IsNamed dialect.argumentMethod lead ∧ call = ⟨lead, inside⟩ := by
  have closes : closingParen? (inside ++ Byte.closeParen :: rest) = some inside.length :=
    closingParen?_eq_some_iff.mpr ⟨inside, rest, rfl, rfl, proper.2⟩
  have taken : (lead ++ Byte.openParen :: inside ++ [Byte.closeParen] ++ rest).take
      (0 + lead.length + 1 - 1) = lead := by
    rw [List.append_assoc, List.append_assoc]
    exact List.take_left' (by omega)
  unfold argumentCall?
  simp only [Option.bind_eq_bind, Option.bind_eq_some_iff]
  constructor
  · rintro ⟨opened, isOpened, length, isLength, isCall⟩
    rcases (argument?_call identifiers proper 0 rest opened).mp isOpened with ⟨named, rfl⟩
    rw [closes] at isLength
    cases isLength
    rw [taken, List.take_left] at isCall
    cases isCall
    exact ⟨named, rfl⟩
  · rintro ⟨named, rfl⟩
    refine ⟨_, (argument?_call identifiers proper 0 rest _).mpr ⟨named, rfl⟩, _, closes, ?_⟩
    rw [taken, List.take_left]

theorem argument?_eq_some_iff (identifiers : dialect.HasIdentifierWords) {lead inside : Bytes}
    (proper : IsProper (.call lead inside)) (call : ArgumentCall) :
    argument? dialect (.call lead inside) = some call ↔
      Call.IsNamed dialect.argumentMethod lead ∧ call = ⟨lead, inside⟩ := by
  have same := argumentCall?_call identifiers proper [] call
  rw [List.append_nil] at same
  exact same

section

variable {source : Bytes} {offset : Nat} {item : Item} {items : List Item}

theorem drop_text (atOffset : source.drop offset = text (item :: items)) :
    source.drop (offset + item.bytes.length) = text items := by
  rw [← List.drop_drop, atOffset, text_cons, List.drop_left]

theorem drop_call {lead inside : Bytes}
    (atOffset : source.drop offset = text (.call lead inside :: items)) :
    source.drop (offset + 1) =
      lead ++ Byte.openParen :: inside ++ [Byte.closeParen] ++ text items := by
  rw [← List.drop_drop, atOffset, text_cons, bytes_call_append, List.drop_one, List.tail_cons]

theorem filterMap_outerDots (identifiers : dialect.HasIdentifierWords)
    (proper : ∀ item ∈ items, item.IsProper) (atOffset : source.drop offset = text items) :
    ((outerDots offset items).filterMap fun point =>
        argumentCall? dialect (source.drop (point.offset + 1))) =
      items.filterMap (argument? dialect) := by
  induction items generalizing offset with
  | nil => rfl
  | cons item items ih =>
      have behind := ih (fun other member => proper other (List.mem_cons_of_mem item member))
        (drop_text atOffset)
      cases item with
      | gap bytes => exact behind
      | call lead inside =>
          have here := proper _ List.mem_cons_self
          have same : argumentCall? dialect (source.drop (offset + 1)) =
              argument? dialect (.call lead inside) := by
            ext call
            rw [drop_call atOffset, argumentCall?_call identifiers here,
              argument?_eq_some_iff identifiers here]
          rw [outerDots, List.filterMap_cons, List.filterMap_cons, same, behind]

/-! ### Terminal calls -/

/-- The first terminal call among items is the last item, if that is one and
no other. -/
theorem findSome?_outerDots (identifiers : dialect.HasIdentifierWords) {last : Item}
    (proper : ∀ item ∈ items ++ [last], item.IsProper)
    (noTerminal : ∀ item ∈ items, ¬ item.IsTerminal dialect)
    (isTerminal : last.IsTerminal dialect)
    (atOffset : source.drop offset = text (items ++ [last])) :
    (outerDots offset (items ++ [last])).findSome? (terminalAt? dialect source) =
      some (offset + (text (items ++ [last])).length) := by
  induction items generalizing offset with
  | nil =>
      cases last with
      | gap bytes => exact absurd isTerminal id
      | call lead inside =>
          have found := (terminal?_call identifiers (proper _ List.mem_cons_self) (offset + 1)
            (text []) _).mpr ⟨isTerminal, rfl⟩
          rw [← drop_call atOffset] at found
          have isDot : Byte.dot = Byte.dot := rfl
          rw [List.nil_append, outerDots, List.findSome?_cons, terminalAt?, if_pos isDot, found,
            text_cons, text_nil, List.append_nil, length_bytes_call]
          simp only [Option.some_inj]
          omega
  | cons item items ih =>
      rw [List.cons_append] at atOffset
      have behind := ih (fun other member => proper other (List.mem_cons_of_mem item member))
        (fun other member => noTerminal other (List.mem_cons_of_mem item member))
        (drop_text atOffset)
      rw [Nat.add_assoc, ← List.length_append, ← text_cons] at behind
      cases item with
      | gap bytes => exact behind
      | call lead inside =>
          have here := proper _ List.mem_cons_self
          have isDot : Byte.dot = Byte.dot := rfl
          have reads := terminal?_call identifiers here (offset + 1) (text (items ++ [last]))
          rw [← drop_call atOffset] at reads
          rw [List.cons_append, outerDots, List.findSome?_cons, terminalAt?, if_pos isDot]
          split
          · rename_i stop found
            exact absurd ((reads stop).mp found).1 (noTerminal _ List.mem_cons_self)
          · exact behind

end

end Item

end FluentLog
