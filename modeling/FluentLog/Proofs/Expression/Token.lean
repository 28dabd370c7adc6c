import FluentLog.Expression.Operand
import FluentLog.Proofs.Code.Tidy

namespace FluentLog

/-!
# Reading tokens

What a scan does in a literal, in a word or in blanks does not depend on what the scan
looks for: in a literal the cursor stays inside until the closing quote, and in a word and
in blanks it stays where it is.  So one statement covers all scans.  It is about a test
that each character has to pass, given the cursor in front of it.
-/

namespace Cursor

variable {test : Cursor -> Char -> Prop} {cursor : Cursor}

/-- Whether each character of a text passes a test, given the cursor in front
of it. -/
def Holds (test : Cursor -> Char -> Prop) (cursor : Cursor) : Text -> Prop
  | [] => True
  | character :: rest => test cursor character ∧ Holds test (cursor.feedChar character) rest

/-- Whether each character passes a test and the cursor behind a text is the
one in front. -/
def Reads (test : Cursor -> Char -> Prop) (cursor : Cursor) (text : Text) : Prop :=
  cursor.Holds test text ∧ cursor.feedText text = cursor

theorem Holds.append {left right : Text} (first : cursor.Holds test left)
    (second : (cursor.feedText left).Holds test right) : cursor.Holds test (left ++ right) := by
  induction left generalizing cursor with
  | nil => exact second
  | cons character left ih => exact ⟨first.1, ih first.2 second⟩

theorem Holds.of_append {left right : Text} (holds : cursor.Holds test (left ++ right)) :
    (cursor.feedText left).Holds test right := by
  induction left generalizing cursor with
  | nil => exact holds
  | cons character left ih => exact ih holds.2

theorem Reads.append {left right : Text} (first : cursor.Reads test left)
    (second : cursor.Reads test right) : cursor.Reads test (left ++ right) := by
  refine ⟨first.1.append (first.2.symm ▸ second.1), ?_⟩
  rw [feedText_append, first.2, second.2]

theorem reads_of_forall {text : Text} (depth : Nat)
    (passes : ∀ character ∈ text, test ⟨depth, .none⟩ character ∧
      character ∉ ['"', '\'', '(', ')']) : Reads test ⟨depth, .none⟩ text := by
  induction text with
  | nil => exact ⟨True.intro, rfl⟩
  | cons character text ih =>
      rcases passes character List.mem_cons_self with ⟨here, harmless⟩
      have same := feedChar_outside depth harmless
      rcases ih fun other member => passes other (List.mem_cons_of_mem character member) with
        ⟨holds, back⟩
      refine ⟨⟨here, same.symm ▸ holds⟩, ?_⟩
      rw [feedText, List.foldl_cons, same]
      exact back

theorem reads_parens {text : Text} {depth : Nat} (opening : test ⟨depth, .none⟩ '(')
    (inside : Reads test ⟨depth + 1, .none⟩ text) (closing : test ⟨depth + 1, .none⟩ ')') :
    Reads test ⟨depth, .none⟩ ('(' :: text ++ [')']) := by
  have opened : feedChar ⟨depth, .none⟩ '(' = ⟨depth + 1, .none⟩ := rfl
  have closed : feedChar ⟨depth + 1, .none⟩ ')' = ⟨depth, .none⟩ := rfl
  have behind : Holds test (feedText ⟨depth + 1, .none⟩ text) [')'] := by
    rw [inside.2]
    exact ⟨closing, True.intro⟩
  constructor
  · refine ⟨opening, ?_⟩
    rw [opened]
    exact inside.1.append behind
  · rw [List.cons_append, feedText, List.foldl_cons, opened]
    rw [← feedText, feedText_append, inside.2]
    exact closed

/-! ## Inside literals -/

theorem feedChar_openingQuote {quote : UInt8}
    (isQuote : quote = Byte.doubleQuote ∨ quote = Byte.singleQuote) (depth : Nat) :
    feedChar ⟨depth, .none⟩ (Char.ofNat quote.toNat) = ⟨depth, .within quote false⟩ := by
  rcases isQuote with rfl | rfl <;> rfl

theorem feedChar_closingQuote {quote : UInt8}
    (isQuote : quote = Byte.doubleQuote ∨ quote = Byte.singleQuote) (depth : Nat) :
    feedChar ⟨depth, .within quote false⟩ (Char.ofNat quote.toNat) = ⟨depth, .none⟩ := by
  rcases isQuote with rfl | rfl <;> rfl

theorem feedChar_backslash {quote : UInt8}
    (isQuote : quote = Byte.doubleQuote ∨ quote = Byte.singleQuote) (depth : Nat) :
    feedChar ⟨depth, .within quote false⟩ '\\' = ⟨depth, .within quote true⟩ := by
  rcases isQuote with rfl | rfl <;> rfl

/-- A character behind a backslash leaves the cursor inside the literal,
whatever it is. -/
theorem feedChar_escaped {quote : UInt8} (ascii : quote.toNat < 0x80) (depth : Nat)
    (character : Char) :
    feedChar ⟨depth, .within quote true⟩ character = ⟨depth, .within quote false⟩ := by
  have read : forall byte, next ⟨depth, .within quote true⟩ byte =
      ⟨depth, .within quote false⟩ := fun _ => rfl
  by_cases small : character.toNat < 0x80
  · rw [feedChar, Utf8.encodeChar_ascii small]
    rfl
  · have bytes := Utf8.le_of_mem_encodeChar (Nat.le_of_not_lt small)
    rw [feedChar]
    cases isEncoded : String.utf8EncodeChar character with
    | nil => simp at isEncoded
    | cons byte others =>
        rw [feed_cons, read]
        have large : ∀ other ∈ others, 0x80 ≤ other.toNat := by
          intro other member
          apply bytes other
          rw [isEncoded]
          exact List.mem_cons_of_mem byte member
        clear isEncoded bytes
        induction others with
        | nil => rfl
        | cons other others ih =>
            have isLarge := large other List.mem_cons_self
            have notBackslash : other ≠ Byte.backslash := by
              rintro rfl
              exact absurd isLarge (by decide)
            have notQuote : other ≠ quote := by
              rintro rfl
              omega
            have stays : next ⟨depth, .within quote false⟩ other =
                ⟨depth, .within quote false⟩ := by
              simp [next, step, notBackslash, notQuote]
            rw [feed_cons, stays]
            exact ih fun further member => large further (List.mem_cons_of_mem other member)

end Cursor

/-! ## Literals -/

namespace Literal

variable {test : Cursor -> Char -> Prop} {quote : UInt8} {code content : Text}

/-- What stands behind the opening quote of a literal is inside of it, the
closing quote included, and behind that the literal is over. -/
theorem reads_bodyBefore? (isQuote : quote = Byte.doubleQuote ∨ quote = Byte.singleQuote)
    {rest body : Text} (inside : ∀ character ∈ rest, forall cursor : Cursor,
      cursor.isInLiteral = true -> test cursor character)
    (isBody : bodyBefore? (Char.ofNat quote.toNat) rest = some body) (depth : Nat) :
    Cursor.Holds test ⟨depth, .within quote false⟩ rest ∧
      Cursor.feedText ⟨depth, .within quote false⟩ rest = ⟨depth, .none⟩ := by
  have ascii : quote.toNat < 0x80 := by rcases isQuote with rfl | rfl <;> decide
  have closes := Cursor.feedChar_closingQuote isQuote depth
  have opens := Cursor.feedChar_backslash isQuote depth
  have within : Cursor.isInLiteral ⟨depth, .within quote false⟩ = true := rfl
  fun_induction bodyBefore? (Char.ofNat quote.toNat) rest generalizing body with
  | case1 => cases isBody
  | case2 => exact ⟨⟨inside _ List.mem_cons_self _ within, True.intro⟩, closes⟩
  | case3 character notQuote => cases isBody
  | case4 following rest => cases isBody
  | case5 rest notQuote => cases isBody
  | case6 following rest notLineFeed notQuote ih =>
      rcases Option.map_eq_some_iff.mp isBody with ⟨others, isOthers, -⟩
      simp only [List.forall_mem_cons] at inside
      have stays := Cursor.feedChar_escaped ascii depth following
      rcases ih inside.2.2 isOthers with ⟨holds, back⟩
      rw [Cursor.feedText_cons, Cursor.feedText_cons, Cursor.Holds, Cursor.Holds, opens, stays]
      exact ⟨⟨inside.1 _ within, inside.2.1 _ rfl, holds⟩, back⟩
  | case7 character following rest notQuote notBackslash ih =>
      rcases Option.map_eq_some_iff.mp isBody with ⟨others, isOthers, -⟩
      rcases List.forall_mem_cons.mp inside with ⟨here, behind⟩
      have stays := Cursor.feedChar_within ascii depth notBackslash notQuote
      rcases ih behind isOthers with ⟨holds, back⟩
      rw [Cursor.feedText_cons, Cursor.Holds, stays]
      exact ⟨⟨here _ within, holds⟩, back⟩

/-- Behind its closing quote nothing belongs to a literal. -/
theorem bodyBefore?_append {letter : Char} {rest body more : Text}
    (isBody : bodyBefore? letter rest = some body) (goesOn : more ≠ []) :
    bodyBefore? letter (rest ++ more) = none := by
  fun_induction bodyBefore? letter rest generalizing body with
  | case1 => cases isBody
  | case2 =>
      cases more with
      | nil => exact absurd rfl goesOn
      | cons following more => simp [bodyBefore?]
  | case3 character notQuote => cases isBody
  | case4 following rest => cases isBody
  | case5 rest notQuote => cases isBody
  | case6 following rest notLineFeed notQuote ih =>
      rcases Option.map_eq_some_iff.mp isBody with ⟨others, isOthers, -⟩
      simp [bodyBefore?, notLineFeed, notQuote, ih isOthers]
  | case7 character following rest notQuote notBackslash ih =>
      rcases Option.map_eq_some_iff.mp isBody with ⟨others, isOthers, -⟩
      have behind := ih isOthers
      rw [List.cons_append] at behind
      simp [bodyBefore?, notQuote, notBackslash, behind]

theorem exists_quote_of_body? {text body : Text} (isBody : body? text = some body) :
    ∃ quote rest, Text.trim text = Char.ofNat quote.toNat :: rest ∧
      (quote = Byte.doubleQuote ∨ quote = Byte.singleQuote) ∧
      bodyBefore? (Char.ofNat quote.toNat) rest = some body := by
  rw [body?] at isBody
  split at isBody
  · rename_i rest isText
    exact ⟨Byte.doubleQuote, rest, isText, .inl rfl, isBody⟩
  · rename_i rest isText
    exact ⟨Byte.singleQuote, rest, isText, .inr rfl, isBody⟩
  · cases isBody

/-- Blanks around a literal do not matter. -/
theorem decode_trim (text : Text) : decode (Text.trim text) = decode text := by
  rw [decode, body?, Text.trim_trim]
  rfl

/-- Whether a text is one literal, on one line, and what it stands for.  Its
quotes are its first and its last character. -/
structure IsToken (code content : Text) : Prop where
  decodes : decode code = some content
  tight : Text.IsTight code
  oneLine : '\n' ∉ code

namespace IsToken

/-- A literal begins with a quote, and the rest of it is a body and the same
quote. -/
theorem exists_quote (token : IsToken code content) :
    ∃ quote rest body, code = Char.ofNat quote.toNat :: rest ∧
      (quote = Byte.doubleQuote ∨ quote = Byte.singleQuote) ∧
      bodyBefore? (Char.ofNat quote.toNat) rest = some body := by
  rcases Option.map_eq_some_iff.mp token.decodes with ⟨body, isBody, -⟩
  rcases exists_quote_of_body? isBody with ⟨quote, rest, isCode, isQuote, isRest⟩
  rw [token.tight.trim_self] at isCode
  exact ⟨quote, rest, body, isCode, isQuote, isRest⟩

theorem reads (token : IsToken code content) (depth : Nat)
    (inside : forall (cursor : Cursor) (character : Char), cursor.isInLiteral = true ->
      character ≠ '\n' -> test cursor character)
    (opening : test ⟨depth, .none⟩ '"' ∧ test ⟨depth, .none⟩ '\'') :
    Cursor.Reads test ⟨depth, .none⟩ code := by
  rcases token.exists_quote with ⟨quote, rest, body, rfl, isQuote, isBody⟩
  have insideRest : ∀ character ∈ rest, forall cursor : Cursor, cursor.isInLiteral = true ->
      test cursor character := by
    intro character member cursor isInside
    apply inside cursor character isInside
    rintro rfl
    exact token.oneLine (List.mem_cons_of_mem _ member)
  have behind := reads_bodyBefore? isQuote insideRest isBody depth
  have opened := Cursor.feedChar_openingQuote isQuote depth
  have first : test ⟨depth, .none⟩ (Char.ofNat quote.toNat) := by
    rcases isQuote with rfl | rfl
    · exact opening.1
    · exact opening.2
  rw [Cursor.Reads, Cursor.feedText_cons, Cursor.Holds, opened]
  exact ⟨⟨first, behind.1⟩, behind.2⟩

theorem decode_append (token : IsToken code content) {more : Text} (goesOn : more ≠ [])
    (tight : Text.IsTight (code ++ more)) : decode (code ++ more) = none := by
  rcases token.exists_quote with ⟨quote, rest, body, rfl, isQuote, isBody⟩
  have behind := bodyBefore?_append isBody goesOn
  rw [decode, body?, tight.trim_self, List.cons_append]
  rcases isQuote with rfl | rfl
  · exact congrArg (Option.map unescape) behind
  · exact congrArg (Option.map unescape) behind

end IsToken
end Literal

/-! ## Code -/

def Text.IsBlank (text : Text) : Prop :=
  ∀ character ∈ text, FluentLog.isBlank character = true

instance (text : Text) : Decidable (Text.IsBlank text) :=
  List.decidableBAll _ text

/-- What scans for comments and for separators need of a character: no literal
is broken, no comment opens, and outside literals and parentheses it is no
separator. -/
def IsCode (separators : Text) (cursor : Cursor) (character : Char) : Prop :=
  (cursor.isInLiteral = true -> character ≠ '\n') ∧
    (cursor.isInLiteral = false -> character ≠ '/') ∧
    (cursor.isUnnested = true -> character ∉ separators)

/-- The signs that stand between the operands of a body, and between
arguments. -/
def signs : Text := [',', '+', '?', ':']

variable {separators : Text} {character : Char}

/-- Outside literals a character is code, unless it opens a comment or
separates. -/
theorem isCode_outside (depth : Nat) (notSlash : character ≠ '/')
    (notSeparator : character ∈ separators -> 0 < depth) :
    IsCode separators ⟨depth, .none⟩ character := by
  refine ⟨(fun inside => by cases inside), fun _ => notSlash, fun unnested member => ?_⟩
  have positive := notSeparator member
  have atTop : depth = 0 := congrArg Cursor.depth (Cursor.eq_start_of_isUnnested unnested)
  omega

theorem not_isCode_start {sign : Char} (isSeparator : sign ∈ separators) :
    ¬ IsCode separators .start sign :=
  fun code => code.2.2 rfl isSeparator

theorem isCode_within {cursor : Cursor} (inside : cursor.isInLiteral = true)
    (notLineFeed : character ≠ '\n') : IsCode separators cursor character := by
  refine ⟨fun _ => notLineFeed, fun outside => ?_, fun unnested => ?_⟩
  · rw [inside] at outside
    cases outside
  · rw [Cursor.eq_start_of_isUnnested unnested] at inside
    cases inside

/-- A text that scans pass over without slashes and separators is code. -/
theorem Cursor.Passes.reads {excluded text : Text} {cursor : Cursor} (slash : '/' ∈ excluded)
    (subset : separators ⊆ excluded) (passes : cursor.Passes excluded text) :
    cursor.Reads (IsCode separators) text := by
  have holds : forall {cursor : Cursor}, cursor.Excludes excluded text ->
      cursor.Holds (IsCode separators) text := by
    clear passes
    induction text with
    | nil => exact fun _ => True.intro
    | cons character text ih =>
        rintro cursor ⟨notLineFeed, within | notExcluded, behind⟩
        · exact ⟨isCode_within within notLineFeed, ih behind⟩
        · refine ⟨⟨fun _ => notLineFeed, fun _ isSlash => ?_, fun _ member => ?_⟩, ih behind⟩
          · exact notExcluded (isSlash ▸ slash)
          · exact notExcluded (subset member)
  exact ⟨holds passes.1, passes.2⟩

theorem containsCommentFrom_of_isCode {cursor : Cursor} {text : Text}
    (code : cursor.Holds (IsCode separators) text) :
    containsCommentFrom cursor (Utf8.encode text) = false := by
  induction text generalizing cursor with
  | nil => rfl
  | cons character text ih =>
      rcases code with ⟨⟨keeps, noComment, -⟩, behind⟩
      have later := ih behind
      rw [Utf8.encode_cons]
      by_cases small : character.toNat < 0x80
      · have isFed : cursor.feedChar character = cursor.next (UInt8.ofNat character.toNat) := by
          rw [Cursor.feedChar, Utf8.encodeChar_ascii small]
          rfl
        rw [Utf8.encodeChar_ascii small, List.singleton_append, containsCommentFrom]
        rw [isFed] at later
        split
        · -- At a line end no literal is open, so the cursor goes on as it is.
          rename_i isLineFeed
          have notInside : cursor.isInLiteral = false := Bool.eq_false_iff.mpr fun inside =>
            keeps inside ((Utf8.ofNat_toNat_eq_iff small (by decide)).mp isLineFeed)
          rcases cursor with ⟨depth, quoting⟩
          cases quoting with
          | within quote escaped => cases notInside
          | none =>
              rw [isLineFeed] at later
              exact later
        · rw [if_neg, later]
          rw [Bool.and_eq_true, Bool.not_eq_true', Comment.opened?]
          rintro ⟨outside, opens⟩
          have notSlash : UInt8.ofNat character.toNat ≠ Byte.slash := fun isSlash =>
            noComment outside ((Utf8.ofNat_toNat_eq_iff small (by decide)).mp isSlash)
          rw [if_neg notSlash] at opens
          cases opens
      · rw [(Cursor.isInert_encodeChar small cursor).containsCommentFrom]
        exact later

/-- In code no separator stands at the top level. -/
theorem noCut_of_isCode {separator : Char} (member : separator ∈ separators) {cursor : Cursor}
    {text : Text} (code : cursor.Holds (IsCode separators) text) :
    NoCut separator cursor text := by
  induction text generalizing cursor with
  | nil => exact True.intro
  | cons character text ih =>
      refine ⟨?_, ih code.2⟩
      rintro ⟨rfl, unnested⟩
      exact code.1.2.2 unnested member

theorem Text.IsBlank.reads {blanks : Text} (blank : Text.IsBlank blanks) (depth : Nat)
    (subset : separators ⊆ signs) :
    Cursor.Reads (IsCode separators) ⟨depth, .none⟩ blanks := by
  have notBlanks : ('/' :: (['"', '\'', '(', ')'] ++ signs)).all
      (fun sign => !FluentLog.isBlank sign) = true := by
    decide
  apply Cursor.reads_of_forall
  intro character member
  have isNoSign : character ∉ '/' :: (['"', '\'', '(', ')'] ++ signs) := by
    intro isSign
    have notBlank := List.all_eq_true.mp notBlanks character isSign
    rw [blank character member] at notBlank
    cases notBlank
  refine ⟨isCode_outside depth (fun same => isNoSign (same ▸ List.mem_cons_self))
    fun isSeparator => ?_, fun special => ?_⟩
  · exact absurd (List.mem_cons_of_mem _ (List.mem_append_right _ (subset isSeparator))) isNoSign
  · exact isNoSign (List.mem_cons_of_mem _ (List.mem_append_left _ special))

theorem reads_sign {sign : Char} (harmless : sign ∉ ['/', '"', '\'', '(', ')'])
    (other : sign ∉ separators) : Cursor.Reads (IsCode separators) .start [sign] := by
  apply Cursor.reads_of_forall 0
  intro character member
  rw [List.mem_singleton.mp member]
  rw [List.mem_cons, not_or] at harmless
  exact ⟨isCode_outside 0 harmless.1 fun member => absurd member other, harmless.2⟩

theorem Literal.IsToken.reads_code {code content : Text} (token : Literal.IsToken code content)
    (depth : Nat) (subset : separators ⊆ signs) :
    Cursor.Reads (IsCode separators) ⟨depth, .none⟩ code := by
  apply token.reads depth (fun _ _ => isCode_within)
  constructor
  · exact isCode_outside depth (by decide) fun member => absurd (subset member) (by decide)
  · exact isCode_outside depth (by decide) fun member => absurd (subset member) (by decide)

/-! ## Collapsing blanks -/

/-- The space that a run of blanks collapses to.  No blanks collapse to
nothing. -/
def Text.squeeze (blanks : Text) : Text :=
  if blanks.isEmpty then [] else [' ']

theorem Text.isBlank_squeeze (blanks : Text) : Text.IsBlank (Text.squeeze blanks) := by
  unfold Text.squeeze
  split
  · decide
  · decide

/-- Whether a piece of code outside literals, at some depth, collapses to
another one, whatever stands around it. -/
def Collapses (depth : Nat) (code collapsed : Text) : Prop :=
  forall (pending : Bool) (rest : Text),
    collapseBlanksFrom ⟨depth, .none⟩ pending (code ++ rest) =
      (if pending then [' '] else []) ++ collapsed ++
        collapseBlanksFrom ⟨depth, .none⟩ false rest

/-- Blanks outside literals are pending until the character behind them. -/
theorem collapseBlanksFrom_blanks {blanks : Text}
    (blank : ∀ character ∈ blanks, isBlank character = true) (depth : Nat) (pending : Bool)
    (rest : Text) :
    collapseBlanksFrom ⟨depth, .none⟩ pending (blanks ++ rest) =
      collapseBlanksFrom ⟨depth, .none⟩ (pending || !blanks.isEmpty) rest := by
  induction blanks generalizing pending with
  | nil => rw [List.nil_append, List.isEmpty_nil, Bool.not_true, Bool.or_false]
  | cons character blanks ih =>
      have here : isBlank character = true ∧
          (!Cursor.isInLiteral ⟨depth, .none⟩) = true :=
        ⟨blank character List.mem_cons_self, rfl⟩
      rw [List.cons_append, collapseBlanksFrom, if_pos here,
        ih fun other member => blank other (List.mem_cons_of_mem character member)]
      simp

namespace Collapses

variable {depth : Nat} {code collapsed : Text}

/-- Code without blanks outside literals is kept. -/
theorem of_reads (dense : Cursor.Reads
      (fun cursor character => cursor.isInLiteral = false -> isBlank character = false)
      ⟨depth, .none⟩ code) (nonempty : code ≠ []) : Collapses depth code code := by
  have kept : forall (text rest : Text) (cursor : Cursor) (pending : Bool), cursor.Holds
      (fun cursor character => cursor.isInLiteral = false -> isBlank character = false) text ->
      text ≠ [] -> collapseBlanksFrom cursor pending (text ++ rest) =
        (if pending then [' '] else []) ++ text ++
          collapseBlanksFrom (cursor.feedText text) false rest := by
    intro text rest
    induction text with
    | nil => exact fun _ _ _ nonempty => absurd rfl nonempty
    | cons character text ih =>
        intro cursor pending holds _
        have notBlank : ¬ (isBlank character = true ∧ (!cursor.isInLiteral) = true) := by
          rintro ⟨blank, outside⟩
          rw [holds.1 (Bool.not_eq_true' _ |>.mp outside)] at blank
          cases blank
        rw [List.cons_append, collapseBlanksFrom, if_neg notBlank, Cursor.feedText_cons]
        cases text with
        | nil => simp [Cursor.feedText]
        | cons following text =>
            rw [ih _ false holds.2 (List.cons_ne_nil _ _)]
            simp
  intro pending rest
  rw [kept code rest _ pending dense.1 nonempty, dense.2]

theorem append {blanks second squeezed : Text} (first : Collapses depth code collapsed)
    (blank : ∀ character ∈ blanks, isBlank character = true)
    (behind : Collapses depth second squeezed) :
    Collapses depth (code ++ blanks ++ second) (collapsed ++ Text.squeeze blanks ++ squeezed) := by
  intro pending rest
  rw [List.append_assoc, List.append_assoc, first, collapseBlanksFrom_blanks blank, behind,
    Text.squeeze]
  cases blanks <;> simp

theorem parens {left right : Text} (blankLeft : ∀ character ∈ left, isBlank character = true)
    (blankRight : ∀ character ∈ right, isBlank character = true)
    (inside : Collapses (depth + 1) code collapsed) :
    Collapses depth ('(' :: left ++ code ++ right ++ [')'])
      ('(' :: Text.squeeze left ++ collapsed ++ Text.squeeze right ++ [')']) := by
  have opened : Cursor.feedChar ⟨depth, .none⟩ '(' = ⟨depth + 1, .none⟩ := rfl
  have closed : Cursor.feedChar ⟨depth + 1, .none⟩ ')' = ⟨depth, .none⟩ := rfl
  intro pending rest
  simp only [List.cons_append, List.append_assoc, List.nil_append]
  rw [collapseBlanksFrom_cons (by decide), opened, collapseBlanksFrom_blanks blankLeft, inside,
    collapseBlanksFrom_blanks blankRight, collapseBlanksFrom_cons (by decide), closed,
    Text.squeeze, Text.squeeze]
  cases left <;> cases right <;> simp

theorem collapseBlanks_eq (collapses : Collapses 0 code collapsed) :
    collapseBlanks code = collapsed := by
  have whole := collapses false []
  rw [List.append_nil] at whole
  rw [collapseBlanks]
  exact whole.trans (by simp [collapseBlanksFrom])

end Collapses
end FluentLog
