import FluentLog.Proofs.Expression.Brackets
import FluentLog.Proofs.Expression.Supplier
import FluentLog.Proofs.Text.Utf8

namespace FluentLog

/-!
# Blocks of statements

A block that is no single returned expression stands for itself: it is meant to become one
placeholder with the whole block as its argument.  Three steps can take it apart: the
argument list is cut at commas, the block is unwrapped if it looks like a returned
expression, and what is left is cut at plus signs.  None of them knows braces.

So a block of two statements or more stays whole exactly if no statement has a comma or a
plus sign outside of parentheses, and not both the first statement begins with `return` and
the last one ends with a semicolon.
-/

/-- Whether a character is the last one of a text, but for blanks behind it. -/
def EndsWith (final : Char) (text : Text) : Prop :=
  (Text.trimRight text).getLast? = some final

instance (final : Char) (text : Text) : Decidable (EndsWith final text) :=
  inferInstanceAs (Decidable (_ = _))

theorem endsWith_iff {final : Char} {text : Text} :
    EndsWith final text ↔ isBlank final = false ∧
      ∃ front trail, text = front ++ final :: trail ∧ Text.IsBlank trail := by
  constructor
  · intro ends
    have whole : text = Text.trimRight text ++ (text.reverse.takeWhile isBlank).reverse := by
      rw [Text.trimRight, ← List.reverse_append, List.takeWhile_append_dropWhile,
        List.reverse_reverse]
    have notBlank : isBlank final = false := by
      have isHead : (text.reverse.dropWhile isBlank).head? = some final := by
        rw [EndsWith, Text.trimRight, List.getLast?_reverse] at ends
        exact ends
      have notHead := List.head?_dropWhile_not isBlank text.reverse
      rw [isHead] at notHead
      exact notHead
    rcases List.getLast?_eq_some_iff.mp ends with ⟨front, isTrimmed⟩
    refine ⟨notBlank, front, (text.reverse.takeWhile isBlank).reverse, ?_, ?_⟩
    · rw [isTrimmed] at whole
      rw [List.append_assoc] at whole
      exact whole
    · intro character member
      exact List.all_eq_true.mp List.all_takeWhile character (List.mem_reverse.mp member)
  · rintro ⟨notBlank, front, trail, rfl, blank⟩
    have grouped : front ++ final :: trail = (front ++ [final]) ++ trail := by simp
    rw [EndsWith, grouped, Text.trimRight_append_of_blank blank,
      Text.trimRight_append_of_not_blank notBlank, List.getLast?_concat]

theorem EndsWith.getLast? {final : Char} {text : Text} (ends : EndsWith final text) :
    ∃ last, text.getLast? = some last ∧ (last = final ∨ isBlank last = true) := by
  rcases endsWith_iff.mp ends with ⟨-, front, trail, rfl, blank⟩
  cases isLast : trail.getLast? with
  | none =>
      rw [List.getLast?_eq_none_iff.mp isLast]
      exact ⟨final, by simp, .inl rfl⟩
  | some last =>
      refine ⟨last, ?_, .inr (blank last (List.mem_of_getLast? isLast))⟩
      rw [List.getLast?_append, List.getLast?_cons, isLast]
      rfl

/-- Whether a text begins with the word `return`, but for blanks in front of
it, and has a blank behind that. -/
def BeginsReturn (text : Text) : Prop :=
  (("return".toList.isPrefixOf? (Text.trimLeft text)).bind List.head?).any isBlank = true

instance (text : Text) : Decidable (BeginsReturn text) :=
  inferInstanceAs (Decidable (_ = true))

theorem beginsReturn_iff {text : Text} :
    BeginsReturn text ↔ ∃ lead blank rest, text = lead ++ "return".toList ++ blank :: rest ∧
      Text.IsBlank lead ∧ isBlank blank = true := by
  unfold BeginsReturn
  rw [Option.any_eq_true]
  simp only [Option.bind_eq_some_iff, List.isPrefixOf?_eq_some_iff_append_eq]
  constructor
  · rintro ⟨blank, ⟨after, isAfter, isHead⟩, isBlank⟩
    rcases exists_trimLeft text with ⟨lead, blankLead, isText⟩
    rcases List.head?_eq_some_iff.mp isHead with ⟨rest, rfl⟩
    refine ⟨lead, blank, rest, ?_, blankLead, isBlank⟩
    rw [isText, ← isAfter, List.append_assoc]
  · rintro ⟨lead, blank, rest, rfl, blankLead, isBlank⟩
    refine ⟨blank, ⟨blank :: rest, ?_, rfl⟩, isBlank⟩
    rw [List.append_assoc, Text.trimLeft_append_of_blank blankLead]
    exact (Text.trimLeft_cons_of_not_blank (by decide) _).symm

/-! ## Statements and blocks -/

/-- Whether a text, with the blanks around it, can be a statement of a block:
its brackets are matched, its literals closed, and it ends with a semicolon or
a brace.  Whether it is a statement of the language is not asked. -/
structure IsStatement (statement : Text) : Prop where
  nested : IsNested statement
  ends : EndsWith ';' statement ∨ EndsWith '}' statement

instance (statement : Text) : Decidable (IsStatement statement) :=
  decidable_of_iff (IsNested statement ∧ (EndsWith ';' statement ∨ EndsWith '}' statement))
    ⟨fun both => ⟨both.1, both.2⟩, fun isStatement => ⟨isStatement.nested, isStatement.ends⟩⟩

def block (statements : List Text) : Text :=
  '{' :: statements.flatten ++ ['}']

theorem isTight_block (statements : List Text) : Text.IsTight (block statements) :=
  ⟨⟨'{', statements.flatten ++ ['}'], rfl, by decide⟩,
    ⟨'{' :: statements.flatten, '}', rfl, by decide⟩⟩

theorem isNested_flatten {statements : List Text}
    (nested : ∀ statement ∈ statements, IsNested statement) : IsNested statements.flatten := by
  induction statements with
  | nil => exact ⟨rfl, rfl⟩
  | cons statement others ih =>
      rcases List.forall_mem_cons.mp nested with ⟨nestedFirst, nestedOthers⟩
      rw [List.flatten_cons, nestedFirst.append_iff]
      exact ih nestedOthers

theorem isNested_block {statements : List Text}
    (areStatements : ∀ statement ∈ statements, IsStatement statement) :
    IsNested (block statements) :=
  (isNested_flatten fun statement member => (areStatements statement member).nested).braces

namespace IsStatement

variable {statement rest : Text} {statements : List Text}

/-- The last sign of a statement is a semicolon or a brace. -/
theorem exists_final (isStatement : IsStatement statement) :
    ∃ final, (final = ';' ∨ final = '}') ∧ EndsWith final statement := by
  rcases isStatement.ends with semicolon | brace
  · exact ⟨';', .inl rfl, semicolon⟩
  · exact ⟨'}', .inr rfl, brace⟩

theorem getLast?_ne (isStatement : IsStatement statement) {separator : Char}
    (isSeparator : separator = ',' ∨ separator = '+') : statement.getLast? ≠ some separator := by
  rcases isStatement.exists_final with ⟨final, isFinal, ends⟩
  rcases ends.getLast? with ⟨last, isLast, isSame⟩
  rw [isLast]
  intro same
  cases same
  rcases isSame with rfl | blank
  · rcases isSeparator with rfl | rfl <;> rcases isFinal with same | same <;> cases same
  · rcases isSeparator with rfl | rfl <;> cases blank

/-- Statements are cut apart from each other and from the braces around them. -/
theorem cutFronts_block_eq_nil_iff (areStatements : ∀ other ∈ statements, IsStatement other)
    {separator : Char} (isSeparator : separator = ',' ∨ separator = '+') :
    cutFronts separator (block statements) = [] ↔
      ∀ other ∈ statements, cutFronts separator other = [] := by
  have keeps : Cursor.start.feedChar separator = .start := by
    rcases isSeparator with rfl | rfl <;> rfl
  have single : forall {brace : Char}, brace = '{' ∨ brace = '}' ->
      Cursor.start.feedText [brace] = .start ∧ [brace].getLast? ≠ some separator ∧
        cutFronts separator [brace] = [] := by
    intro brace isBrace
    rcases isSeparator with rfl | rfl <;> rcases isBrace with rfl | rfl <;> decide
  have inside : cutFronts separator (statements.flatten ++ ['}']) = [] ↔
      ∀ other ∈ statements, cutFronts separator other = [] := by
    induction statements with
    | nil => simp [(single (.inr rfl)).2.2]
    | cons statement others ih =>
        rcases List.forall_mem_cons.mp areStatements with ⟨isStatement, areOthers⟩
        rw [List.flatten_cons, List.append_assoc, List.forall_mem_cons,
          cutFronts_append_eq_nil_iff keeps
            (areApart_of_getLast? (isStatement.getLast?_ne isSeparator)) isStatement.nested.2,
          ih areOthers]
  rcases single (.inl rfl) with ⟨back, last, uncut⟩
  rw [block, List.cons_append, ← List.singleton_append, cutFronts_append_eq_nil_iff keeps
    (areApart_of_getLast? last) back, inside]
  exact ⟨fun both => both.2, fun others => ⟨uncut, others⟩⟩

theorem beginsReturn_append_iff (isStatement : IsStatement statement) :
    BeginsReturn (statement ++ rest) ↔ BeginsReturn statement := by
  rw [beginsReturn_iff, beginsReturn_iff]
  rcases isStatement.exists_final with ⟨final, isFinal, ends⟩
  rcases endsWith_iff.mp ends with ⟨notBlank, front, trail, rfl, -⟩
  constructor
  · rintro ⟨lead, blank, after, same, blankLead, isBlank⟩
    have notMember : final ∉ lead ++ "return".toList ++ [blank] := by
      intro member
      simp only [List.mem_append, List.mem_singleton] at member
      rcases member with (inLead | inWord) | rfl
      · rw [blankLead final inLead] at notBlank
        cases notBlank
      · rcases isFinal with rfl | rfl <;> exact absurd inWord (by decide)
      · rw [isBlank] at notBlank
        cases notBlank
    have whole : front ++ final :: (trail ++ rest) =
        (lead ++ "return".toList ++ [blank]) ++ after := by
      simpa using same
    rcases split_behind notMember whole with ⟨between, rfl, -⟩
    exact ⟨lead, blank, between ++ final :: trail, by simp, blankLead, isBlank⟩
  · rintro ⟨lead, blank, after, same, blankLead, isBlank⟩
    exact ⟨lead, blank, after ++ rest, by rw [same]; simp, blankLead, isBlank⟩

theorem endsWith_append_iff (isStatement : IsStatement statement) {final : Char} :
    EndsWith final (rest ++ statement) ↔ EndsWith final statement := by
  rcases isStatement.exists_final with ⟨last, -, ends⟩
  rcases endsWith_iff.mp ends with ⟨notBlank, front, trail, isText, blank⟩
  have wholeEnds : EndsWith last (rest ++ statement) :=
    endsWith_iff.mpr ⟨notBlank, rest ++ front, trail, by rw [isText, List.append_assoc], blank⟩
  unfold EndsWith at ends wholeEnds ⊢
  rw [ends, wholeEnds]

end IsStatement

/-! ## Unwrapping a block -/

namespace Supplier

/-- A semicolon in front of the closing brace is found. -/
theorem isSome_beforeLastSemicolon? {front rest : Text} (isLast : Text.trim rest = ['}']) :
    (beforeLastSemicolon? (front ++ ';' :: rest)).isSome = true := by
  induction front with
  | nil =>
      rw [List.nil_append, beforeLastSemicolon?, if_pos ⟨rfl, isLast⟩]
      rfl
  | cons character front ih =>
      rw [List.cons_append, beforeLastSemicolon?]
      split
      · rfl
      · rw [Option.isSome_map]
        exact ih

theorem returns_of_returned?_block {statements : List Text} {expression : Text}
    (isReturned : returned? (block statements) = some expression) :
    BeginsReturn statements.flatten ∧ EndsWith ';' statements.flatten := by
  rcases exists_block_of_returned? isReturned with
    ⟨lead, inner, first, outer, gap, trail, same, blank⟩
  simp only [List.forall_mem_append] at blank
  rcases blank with ⟨⟨⟨⟨blankLead, blankInner⟩, blankOuter⟩, blankGap⟩, blankTrail⟩
  have noLead : lead = [] := by
    cases lead with
    | nil => rfl
    | cons character lead =>
        have isBrace : '{' = character := (List.cons.inj same).1
        exact absurd (blankLead character List.mem_cons_self) (isBrace ▸ by decide)
  have noTrail : trail = [] := by
    rcases List.eq_nil_or_concat trail with isNil | ⟨others, character, isTrail⟩
    · exact isNil
    · have isLast := congrArg List.getLast? same
      rw [isTrail, List.concat_eq_append, ← List.append_assoc, block, List.getLast?_concat,
        List.getLast?_concat] at isLast
      have isBrace : '}' = character := Option.some.inj isLast
      have isBlank := blankTrail character (by simp [isTrail])
      rw [← isBrace] at isBlank
      cases isBlank
  rw [noLead, noTrail, block, List.append_nil, List.nil_append] at same
  have inside : statements.flatten =
      inner ++ "return".toList ++ first :: outer ++ expression ++ ';' :: gap :=
    (List.cons.inj (List.append_cancel_right same)).2.trans (by simp)
  constructor
  · rw [beginsReturn_iff]
    exact ⟨inner, first, outer ++ expression ++ ';' :: gap, by simp [inside], blankInner,
      blankOuter first List.mem_cons_self⟩
  · rw [endsWith_iff]
    exact ⟨by decide, _, gap, inside, blankGap⟩

/-- A block is unwrapped exactly if its statements, taken together, begin with
`return` and end with a semicolon. -/
theorem returned?_block_eq_none_iff {statements : List Text} :
    returned? (block statements) = none ↔
      ¬ (BeginsReturn statements.flatten ∧ EndsWith ';' statements.flatten) := by
  rw [← Option.not_isSome_iff_eq_none, not_iff_not]
  constructor
  · intro isSome
    rcases Option.isSome_iff_exists.mp isSome with ⟨expression, isReturned⟩
    exact returns_of_returned?_block isReturned
  · rintro ⟨begins, ends⟩
    rcases beginsReturn_iff.mp begins with ⟨lead, blank, rest, isBegin, blankLead, isBlank⟩
    rcases endsWith_iff.mp ends with ⟨-, front, trail, isEnd, blankTrail⟩
    have notMember : ';' ∉ lead ++ "return".toList ++ [blank] := by
      intro member
      simp only [List.mem_append, List.mem_singleton] at member
      rcases member with (inLead | inWord) | rfl
      · exact absurd (blankLead ';' inLead) (by decide)
      · exact absurd inWord (by decide)
      · exact absurd isBlank (by decide)
    have same : front ++ ';' :: trail = (lead ++ "return".toList ++ [blank]) ++ rest := by
      rw [← isEnd, isBegin]
      simp
    rcases split_behind notMember same with ⟨between, -, rfl⟩
    have opening : ['{'].isPrefixOf? (Text.trimLeft (block statements)) =
        some (statements.flatten ++ ['}']) := by
      apply List.isPrefixOf?_eq_some_iff_append_eq.mpr
      exact (Text.trimLeft_cons_of_not_blank (by decide) _).symm
    have word : "return".toList.isPrefixOf? (Text.trimLeft (statements.flatten ++ ['}'])) =
        some (blank :: (between ++ ';' :: (trail ++ ['}']))) := by
      have whole : statements.flatten ++ ['}'] =
          lead ++ ("return".toList ++ blank :: (between ++ ';' :: (trail ++ ['}']))) := by
        rw [isBegin]
        simp only [List.append_assoc, List.cons_append]
      apply List.isPrefixOf?_eq_some_iff_append_eq.mpr
      rw [whole, Text.trimLeft_append_of_blank blankLead]
      exact (Text.trimLeft_cons_of_not_blank (by decide) _).symm
    have trimmed : Text.trimLeft (blank :: (between ++ ';' :: (trail ++ ['}']))) =
        Text.trimLeft between ++ ';' :: (trail ++ ['}']) :=
      (List.dropWhile_cons_of_pos isBlank).trans (Text.trimLeft_append_cons (by decide) _ _)
    have isLast : Text.trim (trail ++ ['}']) = ['}'] := by
      have brace : Text.IsTight ['}'] := ⟨⟨'}', [], rfl, by decide⟩, ⟨[], '}', rfl, by decide⟩⟩
      have isTrimmed := brace.trim_eq blankTrail (by decide : Text.IsBlank [])
      rw [List.append_nil] at isTrimmed
      exact isTrimmed
    unfold returned?
    simp only [Option.bind_eq_bind, opening, word, Option.bind_some, List.head?_cons,
      Option.any_some, isBlank, if_true, trimmed]
    exact isSome_beforeLastSemicolon? isLast

end Supplier

/-! ## How much a text holds -/

/-- The number of signs in a text, which are all characters but the blanks. -/
def signCount (text : Text) : Nat :=
  text.countP (!isBlank ·)

theorem signCount_eq_zero {blanks : Text} (blank : Text.IsBlank blanks) : signCount blanks = 0 := by
  rw [signCount, List.countP_eq_zero]
  intro character member
  simp [blank character member]

theorem signCount_append (left right : Text) :
    signCount (left ++ right) = signCount left + signCount right :=
  List.countP_append

theorem signCount_trim (text : Text) : signCount (Text.trim text) = signCount text := by
  rcases Text.exists_trim text with ⟨lead, trail, whole, blankLead, blankTrail⟩
  have same := congrArg signCount whole
  rw [signCount_append, signCount_append, signCount_eq_zero blankLead,
    signCount_eq_zero blankTrail, Nat.zero_add, Nat.add_zero] at same
  exact same.symm

theorem signCount_le_of_isInfix {part text : Text} (isInfix : part <:+: text) :
    signCount part ≤ signCount text :=
  isInfix.sublist.countP_le

theorem signCount_collapseBlanks (code : Text) : signCount (collapseBlanks code) = signCount code := by
  have same : forall (cursor : Cursor) (pending : Bool),
      signCount (collapseBlanksFrom cursor pending code) = signCount code := by
    induction code with
    | nil => exact fun _ _ => rfl
    | cons character rest ih =>
        intro cursor pending
        rw [collapseBlanksFrom]
        split
        · rename_i blank
          have noSign : signCount [character] = 0 :=
            signCount_eq_zero fun other member => List.mem_singleton.mp member ▸ blank.1
          rw [ih, ← List.singleton_append, signCount_append, noSign, Nat.zero_add]
        · have space : signCount (if pending then [' '] else []) = 0 := by
            cases pending <;> rfl
          rw [signCount_append, space, Nat.zero_add, ← List.singleton_append, signCount_append, ih,
            ← signCount_append]
          rfl
  exact same .start false

theorem signCount_lt_of_mem_splitUnnested {separator : Char}
    (keeps : Cursor.start.feedChar separator = .start) (notBlank : isBlank separator = false)
    {text part : Text} (isCut : cutFronts separator text ≠ [])
    (member : part ∈ splitUnnested separator text) : signCount part < signCount text := by
  rcases splitUnnested_peel keeps text with ⟨uncut, -⟩ | ⟨first, rest, isText, -, isSplit⟩
  · exact absurd uncut isCut
  · have one : signCount [separator] = 1 := by simp [signCount, notBlank]
    have whole : signCount text = signCount first + (1 + signCount rest) := by
      rw [isText, ← List.singleton_append, signCount_append, signCount_append, one]
    rw [isSplit] at member
    rcases List.mem_append.mp member with inFirst | inRest
    · have isFirst := List.mem_singleton.mp (List.mem_of_mem_filter inFirst)
      rw [isFirst, signCount_trim]
      omega
    · have fewer := signCount_le_of_isInfix (isInfix_of_mem_splitUnnested keeps inRest)
      omega

/-! ## Blocks as operands -/

theorem exists_part_of_arguments {expression code : Text}
    (same : (Fragment.ofConcatenation expression).arguments = [collapseBlanks code]) :
    ∃ part ∈ splitUnnested '+' expression, signCount part = signCount code := by
  have member : collapseBlanks code ∈
      Operand.expressions (Operand.ofConcatenation expression) := by
    rw [← Fragment.arguments_ofConcatenation, same]
    exact List.mem_singleton_self _
  rcases List.mem_map.mp (Operand.mem_expressions_iff.mp member) with ⟨part, isPart, isCode⟩
  refine ⟨part, isPart, ?_⟩
  unfold Operand.ofText at isCode
  split at isCode
  · cases isCode
  · have sameCode := congrArg signCount (Operand.expression.inj isCode)
    rw [signCount_collapseBlanks, signCount_trim, signCount_collapseBlanks] at sameCode
    exact sameCode

/-- A block is one operand if it is neither unwrapped nor cut. -/
theorem ofConcatenation_normalize_block_iff (statements : List Text) :
    Fragment.ofConcatenation (Supplier.normalize (block statements)) =
        ⟨⟨[.placeholder]⟩, [collapseBlanks (block statements)]⟩ ↔
      cutFronts '+' (block statements) = [] ∧ Supplier.returned? (block statements) = none := by
  have keeps : Cursor.start.feedChar '+' = .start := rfl
  unfold Supplier.normalize
  cases isReturned : Supplier.returned? (block statements) with
  | none =>
      rw [Option.getD_none, (isTight_block statements).trim_self]
      simp only [and_true]
      constructor
      · intro whole
        by_contra isCut
        rcases exists_part_of_arguments (congrArg Fragment.arguments whole) with
          ⟨part, isPart, sameCount⟩
        have fewer := signCount_lt_of_mem_splitUnnested keeps (by decide) isCut isPart
        omega
      · intro uncut
        have isOnly : splitUnnested '+' (block statements) = [block statements] := by
          rw [splitUnnested_of_uncut uncut, (isTight_block statements).trim_self]
          rfl
        have isCode : Operand.ofText (block statements) =
            .expression (collapseBlanks (block statements)) := by
          rw [Operand.ofText, Literal.decode, Literal.body?, (isTight_block statements).trim_self]
          rfl
        rw [Fragment.ofConcatenation, Operand.ofConcatenation, isOnly, List.map_singleton, isCode]
        rfl
  | some expression =>
      rw [Option.getD_some]
      constructor
      · intro whole
        rcases exists_part_of_arguments (congrArg Fragment.arguments whole) with
          ⟨part, isPart, sameCount⟩
        have fewer := signCount_le_of_isInfix (isInfix_of_mem_splitUnnested keeps isPart)
        rw [signCount_trim] at fewer
        rcases Supplier.exists_block_of_returned? isReturned with
          ⟨lead, inner, first, outer, gap, trail, isBlock, -⟩
        have count := congrArg signCount isBlock
        have brace : signCount ['{'] = 1 := by decide
        simp only [signCount_append, brace] at count
        omega
      · exact fun both => by cases both.2

/-! ## Blocks as bodies of suppliers -/

section

variable {lead head back : Text} {statements : List Text}

/-- What stands around the block in a supplier is not cut at a comma. -/
theorem cutFronts_around_block_eq_nil_iff
    (areStatements : ∀ statement ∈ statements, IsStatement statement)
    (blankLead : Text.IsBlank lead) (blankBack : Text.IsBlank back)
    (readsHead : Cursor.Reads (IsCode [',']) .start ('(' :: head)) :
    cutFronts ',' (lead ++ ('(' :: head ++ block statements) ++ back) = [] ↔
      cutFronts ',' (block statements) = [] := by
  have subset : [','] ⊆ signs := by decide
  have readsFront : Cursor.Reads (IsCode [',']) .start (lead ++ '(' :: head) :=
    (blankLead.reads 0 subset).append readsHead
  have readsBack : Cursor.Reads (IsCode [',']) .start back := blankBack.reads 0 subset
  have noCut : forall {stretch : Text}, Cursor.start.Holds (IsCode [',']) stretch ->
      NoCut ',' .start stretch := noCut_of_isCode (List.mem_singleton_self ',')
  have uncutBack : cutFronts ',' back = [] := by
    have same := (cutFronts_append_of_noCut (noCut readsBack.1) readsBack.2).mpr
      (rfl : cutFronts ',' [] = [])
    rw [List.append_nil] at same
    exact same
  have last : (block statements).getLast? ≠ some ',' := by
    rw [block, List.getLast?_concat]
    decide
  have regrouped : lead ++ ('(' :: head ++ block statements) ++ back =
      (lead ++ '(' :: head) ++ (block statements ++ back) := by simp
  rw [regrouped, cutFronts_append_of_noCut (noCut readsFront.1) readsFront.2,
    cutFronts_append_eq_nil_iff rfl (areApart_of_getLast? last)
      (isNested_block areStatements).2]
  exact and_iff_left uncutBack

/-- A supplier of a block that is cut at a comma has more than one part: the
first one has the opening parenthesis, and one behind it has the last brace. -/
theorem splitUnnested_around_block_ne_singleton (blankLead : Text.IsBlank lead)
    (blankBack : Text.IsBlank back)
    (isCut : cutFronts ',' (lead ++ ('(' :: head ++ block statements) ++ back) ≠ []) (part : Text) :
    splitUnnested ',' (lead ++ ('(' :: head ++ block statements) ++ back) ≠ [part] := by
  intro isSplit
  have keeps : Cursor.start.feedChar ',' = .start := rfl
  rcases splitUnnested_peel keeps (lead ++ ('(' :: head ++ block statements) ++ back) with
    ⟨uncut, -⟩ | ⟨front, rest, isText, -, areParts⟩
  · exact isCut uncut
  · have blankComma : forall {blanks : Text}, Text.IsBlank blanks -> ',' ∉ blanks :=
      fun blank member => absurd (blank ',' member) (by decide)
    have opening : ',' ∉ lead ++ ['('] := by
      simp [blankComma blankLead]
    have closing : ',' ∉ '}' :: back := by
      simp [blankComma blankBack]
    have fromLeft : front ++ ',' :: rest =
        (lead ++ ['(']) ++ (head ++ block statements ++ back) := by
      rw [← isText]
      simp
    have fromRight : front ++ ',' :: rest =
        (lead ++ '(' :: head ++ '{' :: statements.flatten) ++ '}' :: back := by
      rw [← isText]
      simp [block]
    rcases split_behind opening fromLeft with ⟨between, isFront, -⟩
    rcases split_before closing fromRight with ⟨behind, -, isRest⟩
    have trimmed : Text.trim front ≠ [] :=
      Text.trim_ne_nil (by simp [isFront] : '(' ∈ front) (by decide)
    have more : splitUnnested ',' rest ≠ [] :=
      splitUnnested_ne_nil keeps (by simp [isRest] : '}' ∈ rest) (by decide) (by decide)
    rw [isSplit, List.filter_cons_of_pos (by simpa using trimmed), List.filter_nil,
      List.singleton_append] at areParts
    exact absurd (List.cons.inj areParts).2.symm more

end

/-- The supplier of a block has further arguments exactly if the block is cut
at a comma. -/
theorem extras_eq_nil_iff {text body : Text} {statements extras : List Text}
    (areStatements : ∀ statement ∈ statements, IsStatement statement)
    (supplies : IsSupplierOf (block statements) text)
    (content : CallContent.ofText text = .supplier body extras) :
    (extras = [] ↔ cutFronts ',' (block statements) = []) ∧
      (extras = [] -> body = Supplier.normalize (block statements)) := by
  rcases CallContent.exists_of_ofText_eq_supplier content with
    ⟨-, first, raw, isSplit, isRaw, rfl⟩
  rcases supplies.exists_head (isTight_block statements) with
    ⟨lead, head, back, rfl, blankLead, blankBack, readsHead, tight, isBody⟩
  have sameCuts := cutFronts_around_block_eq_nil_iff areStatements blankLead blankBack readsHead
  have whenUncut : cutFronts ',' (block statements) = [] ->
      extras = [] ∧ raw = block statements := by
    intro uncut
    have isOnly := splitUnnested_of_uncut (sameCuts.mpr uncut)
    rw [isSplit, tight.trim_eq blankLead blankBack] at isOnly
    rcases List.cons.inj isOnly with ⟨rfl, noExtras⟩
    rw [isBody] at isRaw
    exact ⟨noExtras, (Option.some.inj isRaw).symm⟩
  have whenNone : extras = [] -> cutFronts ',' (block statements) = [] := by
    intro noExtras
    by_contra isCut
    apply splitUnnested_around_block_ne_singleton blankLead blankBack
      (mt sameCuts.mp isCut) first
    rw [isSplit, noExtras]
  refine ⟨⟨whenNone, fun uncut => (whenUncut uncut).1⟩, fun noExtras => ?_⟩
  rw [(whenUncut (whenNone noExtras)).2]

/-- The supplier of a block of two statements or more becomes one placeholder
with the whole block as its argument exactly if no statement is cut at a comma
or a plus sign, and not both the first one begins with `return` and the last
one ends with a semicolon. -/
theorem block_isOpaque_iff {text body first last : Text} {middle extras : List Text}
    (areStatements : ∀ statement ∈ first :: (middle ++ [last]), IsStatement statement)
    (supplies : IsSupplierOf (block (first :: (middle ++ [last]))) text)
    (content : CallContent.ofText text = .supplier body extras) :
    (extras = [] ∧ Fragment.ofConcatenation body =
        ⟨⟨[.placeholder]⟩, [collapseBlanks (block (first :: (middle ++ [last])))]⟩) ↔
      (∀ statement ∈ first :: (middle ++ [last]),
        cutFronts ',' statement = [] ∧ cutFronts '+' statement = []) ∧
      ¬ (BeginsReturn first ∧ EndsWith ';' last) := by
  rcases extras_eq_nil_iff areStatements supplies content with ⟨noExtras, isBody⟩
  have cut : forall {separator : Char}, separator = ',' ∨ separator = '+' ->
      (cutFronts separator (block (first :: (middle ++ [last]))) = [] ↔
        ∀ statement ∈ first :: (middle ++ [last]), cutFronts separator statement = []) :=
    IsStatement.cutFronts_block_eq_nil_iff areStatements
  have isFirst := areStatements first List.mem_cons_self
  have isLast := areStatements last (by simp)
  have begins : BeginsReturn (first :: (middle ++ [last])).flatten ↔ BeginsReturn first := by
    rw [List.flatten_cons, isFirst.beginsReturn_append_iff]
  have ends : EndsWith ';' (first :: (middle ++ [last])).flatten ↔ EndsWith ';' last := by
    rw [← List.cons_append, List.flatten_append, List.flatten_singleton,
      isLast.endsWith_append_iff]
  rw [noExtras, cut (.inl rfl), forall₂_and, and_assoc]
  apply and_congr_right
  intro noComma
  rw [isBody (noExtras.mpr ((cut (.inl rfl)).mpr noComma)), ofConcatenation_normalize_block_iff,
    cut (.inr rfl), Supplier.returned?_block_eq_none_iff, begins, ends]

/-- Sums and commas between parentheses leave a block whole. -/
theorem block_isOpaque_ofCalls :
    (∀ statement ∈ [" int x = f(a, b);".toList, "\n return (\"a\" + x); ".toList],
        IsStatement statement) ∧
      IsSupplierOf (block [" int x = f(a, b);".toList, "\n return (\"a\" + x); ".toList])
        "() -> \x7b int x = f(a, b);\n return (\"a\" + x); \x7d".toList ∧
      CallContent.ofText "() -> \x7b int x = f(a, b);\n return (\"a\" + x); \x7d".toList =
        .supplier "\x7b int x = f(a, b);\n return (\"a\" + x); \x7d".toList [] ∧
      Fragment.ofConcatenation "\x7b int x = f(a, b);\n return (\"a\" + x); \x7d".toList =
        ⟨⟨[.placeholder]⟩,
          [collapseBlanks (block [" int x = f(a, b);".toList, "\n return (\"a\" + x); ".toList])]⟩ := by
  have areStatements : ∀ statement ∈ [" int x = f(a, b);".toList, "\n return (\"a\" + x); ".toList],
      IsStatement statement := by decide +kernel
  have supplies : IsSupplierOf
      (block [" int x = f(a, b);".toList, "\n return (\"a\" + x); ".toList])
      "() -> \x7b int x = f(a, b);\n return (\"a\" + x); \x7d".toList :=
    ⟨[], [], [' '], [' '], [], by decide, by decide, by decide, by decide, by decide,
      by decide +kernel⟩
  have content : CallContent.ofText
        "() -> \x7b int x = f(a, b);\n return (\"a\" + x); \x7d".toList =
      .supplier "\x7b int x = f(a, b);\n return (\"a\" + x); \x7d".toList [] := by
    decide +kernel
  refine ⟨areStatements, supplies, content, ?_⟩
  exact ((@block_isOpaque_iff _ _ _ _ [] _ areStatements supplies content).mpr
    (by decide +kernel)).2

/-- A declaration of two variables is cut at its comma, and the block with it. -/
theorem not_block_isOpaque_declarations :
    (∀ statement ∈ [" int a = 1, b = 2;".toList, " return a; ".toList], IsStatement statement) ∧
      IsSupplierOf (block [" int a = 1, b = 2;".toList, " return a; ".toList])
        "() -> \x7b int a = 1, b = 2; return a; \x7d".toList ∧
      CallContent.ofText "() -> \x7b int a = 1, b = 2; return a; \x7d".toList =
        .supplier "\x7b int a = 1".toList ["b = 2; return a; \x7d".toList] :=
  ⟨by decide +kernel, ⟨[], [], [' '], [' '], [], by decide, by decide, by decide, by decide,
    by decide, by decide +kernel⟩, by decide +kernel⟩

end FluentLog
