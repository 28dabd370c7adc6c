import FluentLog.Proofs.Yaml.Scalar.Block
import FluentLog.Proofs.Yaml.Scalar.Quoted
import FluentLog.Yaml.Reader

namespace FluentLog
namespace Yaml

/-!
# Printed scalars are read as nodes

A scalar begins behind a space and ends with its line, or with the last line of its block.  The
reader first looks whether it is a key.  It is none, since behind the scalar the head comes to
what follows, and that is no colon.
-/

open Head

variable {column least fuel : Nat} {following : Following} {head : Head}

/-! ## Nodes that are no keys -/

structure BeginsScalar (least : Nat) (head : Head) : Prop where
  begins : BeginsToken head.rest
  nonempty : head.rest ≠ []
  further : least < head.column
  noProperty : ∀ character ∈ head.rest.head?, character ∉ ['&', '!', '*']
  notAlone : head.atIndicator '?' = false ∧ head.atIndicator '-' = false

theorem BeginsScalar.of_first {character : Char} {rest : Text}
    (isRest : head.rest = character :: rest) (noBreak : isBreak character = false)
    (notBlank : isBlank character = false) (other : character ∉ ['#', '\uFEFF', '&', '!', '*'])
    (notAlone : character ∈ ['?', '-'] -> endsWord rest = false) (further : least < head.column) :
    BeginsScalar least head := by
  simp only [isBlank, Bool.or_eq_false_iff, decide_eq_false_iff_not] at notBlank
  simp only [List.mem_cons, List.not_mem_nil, or_false, not_or] at other
  refine ⟨?_, by simp [isRest], further, ?_, ?_⟩
  · intro first isFirst
    rw [isRest, List.head?_cons, Option.mem_some_iff] at isFirst
    subst isFirst
    simp [noBreak, notBlank, other]
  · intro first isFirst
    rw [isRest, List.head?_cons, Option.mem_some_iff] at isFirst
    subst isFirst
    simp [other]
  · simp only [atIndicator, isRest, Bool.and_eq_false_iff, decide_eq_false_iff_not]
    constructor
    · by_cases isMark : character = '?'
      · exact .inr (notAlone (by simp [isMark]))
      · exact .inl isMark
    · by_cases isMark : character = '-'
      · exact .inr (notAlone (by simp [isMark]))
      · exact .inl isMark

theorem readKey_eq_none (begins : BeginsScalar least head)
    (reaches : ∀ fuel, ∀ read ∈ readLeaf fuel least head, read.2.Reaches following)
    (isProper : following.IsProper least) (fuel : Nat) : readKey fuel least head = none := by
  cases fuel with
  | zero => rfl
  | succ fuel =>
      have isLeaf : readKeyNode (fuel + 1) least none false head = readLeaf fuel least head := by
        have noProperty := begins.noProperty
        unfold readKeyNode
        split
        any_goals
          rename_i same
          rw [same] at noProperty
          exact absurd (noProperty _ rfl) (by decide)
        cases readLeaf fuel least head <;> rfl
      rw [readKey, isLeaf]
      cases isRead : readLeaf fuel least head with
      | none => rfl
      | some read =>
          have atNext := (reaches fuel read isRead).1
          have noColon : (read.2.skip false).atIndicator ':' = false := by
            rw [atIndicator, atNext]
            cases isRest : following.rest with
            | nil => rfl
            | cons character rest =>
                have other := isProper.other character (by rw [isRest]; rfl)
                have notColon : character ≠ ':' := by
                  rintro rfl
                  exact other.2.2 (by decide)
                simp [notColon]
          simp [noColon]

theorem blockNode_of_beginsScalar (begins : BeginsScalar least head)
    (noKey : readKey fuel least head = none) (mayAlign : Bool) :
    blockNode (fuel + 1) least mayAlign none false head =
      match head.rest with
      | '|' :: _ => readBlockNode least head
      | '>' :: _ => readBlockNode least head
      | _ => readLeaf fuel least head := by
  have stays := skip_of_beginsToken false rfl begins.begins
  have inside : head.atBoundary = false := by
    have notMargin : head.column ≠ 0 := Nat.ne_of_gt (Nat.zero_lt_of_lt begins.further)
    simp [atBoundary, begins.nonempty, notMargin]
  have further := begins.further
  have noProperty : ∀ character rest, head.rest = character :: rest ->
      character ∉ ['&', '!', '*'] :=
    fun character rest isRest => begins.noProperty character (by rw [isRest]; rfl)
  have noAnchor : (fun (read : Node × Head) => (anchor none read.1, read.2)) = id := rfl
  rw [blockNode, stays, inside, noKey, begins.notAlone.1, begins.notAlone.2, if_neg, if_neg,
    if_neg, if_neg]
  · split
    · rename_i rest same
      exact absurd (by decide) (noProperty _ rest same)
    · rename_i rest same
      exact absurd (by decide) (noProperty _ rest same)
    · rename_i rest same
      exact absurd (by decide) (noProperty _ rest same)
    · rename_i isLiteral
      rw [noAnchor, Option.map_id, isLiteral]
      rfl
    · rename_i isFolded
      rw [noAnchor, Option.map_id, isFolded]
      rfl
    · rename_i notLiteral notFolded
      rw [noAnchor, Option.map_id]
      split
      · rename_i isLiteral
        exact absurd isLiteral (notLiteral _)
      · rename_i isFolded
        exact absurd isFolded (notFolded _)
      · rfl
  · simp
  · simp
  · omega
  · simp
    omega

/-! ## The kinds of scalars -/

theorem readLeaf_of_notIndicator {character : Char} {rest : Text} (fuel : Nat)
    (isRest : head.rest = character :: rest) (notIndicator : isIndicator character = false) :
    readLeaf fuel least head = readPlainNode false least head := by
  unfold readLeaf
  rw [isRest]
  split
  all_goals first
    | rfl
    | (rename_i same
       cases same
       cases notIndicator)

theorem columnBehind_line (column count : Nat) (text : Text) :
    columnBehind column (text ++ '\n' :: List.replicate count ' ') = count := by
  rw [columnBehind_append, columnBehind, if_pos (by decide), columnBehind_spaces, Nat.zero_add]

theorem BeginsPlain.other {character : Char} {text : Text} (begins : BeginsPlain character text)
    (printable : isPrintable character = true) :
    character ∉ ['#', '\uFEFF', '&', '!', '*', '|', '>'] := by
  intro member
  have checked : ['#', '\uFEFF', '&', '!', '*', '|', '>'].all
      (fun other => isIndicator other || !isPrintable other) = true := by decide
  have here := List.all_eq_true.mp checked character member
  simp [begins.notIndicator, printable] at here

theorem exists_blockNode_of_readLeaf {node : Node} {next : Head}
    (begins : BeginsScalar least head)
    (noBlock : ∀ character ∈ head.rest.head?, character ∉ ['|', '>'])
    (read : ∀ fuel, readLeaf fuel least head = some (node, next)) (reaches : next.Reaches following)
    (isProper : following.IsProper least) (mayAlign : Bool) :
    ∃ next, blockNode (fuel + 1) least mayAlign none false head = some (node, next) ∧
      next.Reaches following := by
  have noKey : readKey fuel least head = none := by
    apply readKey_eq_none begins _ isProper
    intro fuel other isRead
    rw [read, Option.mem_some_iff] at isRead
    exact isRead ▸ reaches
  refine ⟨next, ?_, reaches⟩
  rw [blockNode_of_beginsScalar begins noKey]
  split
  · rename_i isLiteral
    exact absurd (by decide) (noBlock '|' (by rw [isLiteral]; rfl))
  · rename_i isFolded
    exact absurd (by decide) (noBlock '>' (by rw [isFolded]; rfl))
  · exact read fuel

theorem exists_blockNode_plain {content : Text} (allows : allowsPlain content = true)
    (nonempty : content ≠ []) (isText : head.rest = content ++ '\n' :: following.text)
    (further : least < head.column) (isProper : following.IsProper least) (mayAlign : Bool) :
    ∃ next, blockNode (fuel + 1) least mayAlign none false head =
      some (.scalar true content, next) ∧ next.Reaches following := by
  rcases isPlain_of_allowsPlain allows with ⟨isPlain, lastWord⟩
  rcases List.exists_cons_of_ne_nil nonempty with ⟨character, others, isContent⟩
  have beginsPlain : BeginsPlain character (others ++ '\n' :: following.text) :=
    (beginsPlain_of_allowsPlain (isContent ▸ allows)).append _
  have isRest : head.rest = character :: (others ++ '\n' :: following.text) := by
    rw [isText, isContent, List.cons_append]
  have isMoved : head.rest =
      content ++ '\n' :: List.replicate following.column ' ' ++ following.rest := by
    rw [isText, Following.text, List.append_assoc, List.cons_append]
  have other := beginsPlain.other (isPlain.1 character (by simp [isContent])).1
  simp only [List.mem_cons, List.not_mem_nil, or_false, not_or] at other
  have begins : BeginsScalar least head := by
    refine .of_first isRest beginsPlain.noBreak beginsPlain.notBlank (by simp [other]) ?_ further
    intro isMark
    apply beginsPlain.notAlone
    simp only [List.mem_cons, List.not_mem_nil, or_false] at isMark ⊢
    exact isMark.imp_right .inr
  have read : ∀ fuel, readLeaf fuel least head =
      some (.scalar true content, { head.moveTo following.rest with mayBegin := true }) := by
    intro fuel
    have readText : readPlain false least .nothing head.column
        (content ++ '\n' :: following.text) = some (content, true, following.rest) :=
      readPlain_text isProper isPlain (.inl rfl) (.inl rfl) (fun _ => rfl) lastWord
    rw [readLeaf_of_notIndicator fuel isRest beginsPlain.notIndicator, readPlainNode, isRest,
      if_pos beginsPlain.startsPlain, ← isRest, isText, readText]
    rfl
  have reaches : ({ head.moveTo following.rest with mayBegin := true } : Head).Reaches
      following := by
    rw [moveTo_append isMoved]
    exact .of_token rfl (fun _ => columnBehind_line head.column following.column content) rfl
      isProper
  refine exists_blockNode_of_readLeaf begins ?_ read reaches isProper mayAlign
  intro first isFirst
  rw [isRest, List.head?_cons, Option.mem_some_iff] at isFirst
  subst isFirst
  simp [other]

theorem exists_blockNode_quoted {quote : Char} {content text : Text}
    (isQuote : quote ∈ ['\'', '"']) (isText : head.rest = quote :: text ++ '\n' :: following.text)
    (read : readQuoted head = some (.scalar false content,
      (head.moveTo ('\n' :: following.text)).inside))
    (further : least < head.column) (isProper : following.IsProper least) (mayAlign : Bool) :
    ∃ next, blockNode (fuel + 1) least mayAlign none false head =
      some (.scalar false content, next) ∧ next.Reaches following := by
  have isLeaf : ∀ fuel, readLeaf fuel least head = readQuoted head := by
    intro fuel
    rw [readLeaf, isText]
    simp only [List.mem_cons, List.not_mem_nil, or_false] at isQuote
    rcases isQuote with rfl | rfl <;> rfl
  have reaches : ((head.moveTo ('\n' :: following.text)).inside).Reaches following := by
    refine .of_line ?_ isProper
    rw [moveTo_append isText]
    rfl
  rw [List.cons_append] at isText
  have quotes : isBreak quote = false ∧ isBlank quote = false ∧
      quote ∉ ['#', '\uFEFF', '&', '!', '*'] ∧ quote ∉ ['?', '-'] ∧ quote ∉ ['|', '>'] := by
    simp only [List.mem_cons, List.not_mem_nil, or_false] at isQuote
    rcases isQuote with rfl | rfl <;> decide
  rcases quotes with ⟨noBreak, notBlank, other, notAlone, noBlock⟩
  refine exists_blockNode_of_readLeaf (.of_first isText noBreak notBlank other
    (fun isMark => absurd isMark notAlone) further) ?_ (fun fuel => (isLeaf fuel).trans read)
    reaches isProper mayAlign
  intro first isFirst
  rw [isText, List.head?_cons, Option.mem_some_iff] at isFirst
  exact isFirst ▸ noBlock

/-! ## Literal blocks -/

/-- A literal block ends with the end of a line. -/
theorem columnBehind_literalLines (indent : Nat) (text : Text) :
    columnBehind 0 (literalLines indent true text) = 0 := by
  have ended : ∀ {column : Nat} {content rest : Text} {lineEnd : Char}, isBreak lineEnd = true ->
      columnBehind column (content ++ lineEnd :: rest) = columnBehind 0 rest := by
    intro column content rest lineEnd ends
    rw [columnBehind_append, columnBehind, if_pos ends]
  induction text using line_induction with
  | nil => rfl
  | last content nonempty noBreak =>
      have printed := literalLines_line indent nonempty noBreak []
      rw [List.append_nil] at printed
      rw [printed, literalLines, if_neg (by decide), ended (by decide)]
      rfl
  | line content lineEnd rest noBreak ends ih =>
      by_cases isEmpty : content = []
      · subst isEmpty
        rw [List.nil_append, literalLines, if_pos ends, columnBehind, if_pos ends, ih]
      · rw [literalLines_line indent isEmpty noBreak, literalLines, if_pos ends, ended ends, ih]

theorem exists_blockNode_literal {content : Text} (nonempty : content ≠ [])
    (noTab : content.head? ≠ some '\t')
    (isText : head.rest = literal (least + 1) content ++ following.text)
    (further : least < head.column) (positive : 0 < least) (isProper : following.IsProper least)
    (mayAlign : Bool) :
    ∃ next, blockNode (fuel + 1) least mayAlign none false head =
      some (.scalar false content, next) ∧ next.Reaches following := by
  rw [literal_eq] at isText
  have begins : BeginsScalar least head :=
    .of_first isText (by decide) (by decide) (by decide) (fun isMark => absurd isMark (by decide))
      further
  have noLeaf : ∀ fuel, readLeaf fuel least head = none := by
    intro fuel
    rw [readLeaf, isText]
    simp only [List.cons_append]
    rw [readPlainNode, isText]
    rfl
  have noKey : readKey fuel least head = none := by
    apply readKey_eq_none begins _ isProper
    intro fuel other isRead
    rw [noLeaf] at isRead
    cases isRead
  have reaches : ((head.moveTo following.text).fresh).Reaches following := by
    rw [moveTo_append isText]
    refine .of_margin rfl ?_ rfl isProper
    change columnBehind head.column _ = 0
    rw [← List.cons_append, columnBehind_append, columnBehind, if_pos (by decide),
      columnBehind_literalLines]
  refine ⟨_, ?_, reaches⟩
  rw [blockNode_of_beginsScalar begins noKey, isText]
  simp only [List.cons_append]
  rw [readBlockNode, isText]
  simp only [List.cons_append]
  rw [readBlock_literal isProper positive nonempty noTab]
  rfl

/-! ## All styles -/

theorem plain_of_style {content : Text} (style : Style.of content = .plain) :
    content ≠ [] ∧ allowsPlain content = true := by
  unfold Style.of at style
  split_ifs at style with _ _ allows
  rw [Bool.and_eq_true] at allows
  refine ⟨?_, allows.2⟩
  rintro rfl
  cases allows.1

theorem isUnfolded_of_style {content : Text} (style : Style.of content = .singleQuoted) :
    IsUnfolded content := by
  unfold Style.of at style
  split_ifs at style with noLineFeed _ _ allows
  rw [List.contains_eq_mem, decide_eq_true_eq] at noLineFeed
  simp only [allowsSingleQuotes, needsEscapes, Bool.and_eq_true, Bool.not_eq_true',
    Bool.or_eq_false_iff, Bool.not_eq_false', List.all_eq_true] at allows
  rcases allows with ⟨⟨printable, noSpaceBefore⟩, noSpaceAfter⟩
  exact ⟨printable, noLineFeed, noSpaceBefore, noSpaceAfter⟩

theorem literal_of_style {content : Text} (style : Style.of content = .literal) :
    content ≠ [] ∧ ∀ character ∈ content, isPrintable character = true := by
  unfold Style.of at style
  split_ifs at style with _ allows
  simp only [allowsLiteral, needsEscapes, Bool.and_eq_true, Bool.not_eq_true',
    Bool.or_eq_false_iff, Bool.not_eq_false', List.all_eq_true, List.isEmpty_eq_false_iff]
    at allows
  exact ⟨allows.1.1, allows.1.2.1⟩

/-- A text is read back in whatever style it is written.  The style is chosen
by what the text holds, and each choice is what its reader needs. -/
theorem exists_blockNode_scalar {content : Text}
    (isText : head.rest = scalar (least + 1) content ++ following.text)
    (further : least < head.column) (positive : 0 < least) (isProper : following.IsProper least)
    (mayAlign : Bool) :
    ∃ isPlain next, blockNode (fuel + 1) least mayAlign none false head =
      some (.scalar isPlain content, next) ∧ next.Reaches following := by
  rw [scalar] at isText
  cases style : Style.of content with
  | plain =>
      rcases plain_of_style style with ⟨nonempty, allows⟩
      rw [style] at isText
      simp only [List.append_assoc, List.singleton_append] at isText
      exact ⟨true, exists_blockNode_plain allows nonempty isText further isProper mayAlign⟩
  | singleQuoted =>
      rw [style] at isText
      have isQuoted : head.rest = '\'' :: (singleQuotedFrom (least + 1) false content ++ ['\'']) ++
          '\n' :: following.text := by
        rw [isText]
        simp [singleQuoted]
      have isRest : head.rest = '\'' :: (singleQuotedFrom (least + 1) false content ++
          '\'' :: '\n' :: following.text) := by
        rw [isQuoted]
        simp
      have readText := readSingleQuoted_text (Nat.succ_pos least) (isUnfolded_of_style style)
        (.blanks [] content (.inl rfl)) ('\n' :: following.text) (by simp)
      have read : readQuoted head = some (.scalar false content,
          (head.moveTo ('\n' :: following.text)).inside) := by
        rw [readQuoted, isRest]
        exact congrArg (Option.map _) readText
      exact ⟨false, exists_blockNode_quoted (by decide) isQuoted read further isProper mayAlign⟩
  | doubleQuoted =>
      rw [style] at isText
      have isQuoted : head.rest = '"' :: (content.flatMap escape ++ ['"']) ++
          '\n' :: following.text := by
        rw [isText]
        simp [doubleQuoted]
      have isRest : head.rest =
          '"' :: (content.flatMap escape ++ '"' :: '\n' :: following.text) := by
        rw [isQuoted]
        simp
      have read : readQuoted head = some (.scalar false content,
          (head.moveTo ('\n' :: following.text)).inside) := by
        rw [readQuoted, isRest]
        exact congrArg (Option.map _) (readDoubleQuoted_text content [] ('\n' :: following.text))
      exact ⟨false, exists_blockNode_quoted (by decide) isQuoted read further isProper mayAlign⟩
  | literal =>
      rcases literal_of_style style with ⟨nonempty, printable⟩
      have noTab : content.head? ≠ some '\t' := fun isHead =>
        absurd (printable '\t' (List.mem_of_mem_head? isHead)) (by decide)
      rw [style] at isText
      exact ⟨false,
        exists_blockNode_literal nonempty noTab isText further positive isProper mayAlign⟩

theorem beginsToken_of_allowsPlain {content : Text} (allows : allowsPlain content = true)
    (nonempty : content ≠ []) (rest : Text) : BeginsToken (content ++ rest) := by
  rcases List.exists_cons_of_ne_nil nonempty with ⟨character, others, rfl⟩
  have printable := ((isPlain_of_allowsPlain allows).1.1 character List.mem_cons_self).1
  have beginsPlain := beginsPlain_of_allowsPlain allows
  have other := beginsPlain.other printable
  have notBlank := beginsPlain.notBlank
  simp only [isBlank, Bool.or_eq_false_iff, decide_eq_false_iff_not] at notBlank
  intro first isFirst
  rw [List.cons_append, List.head?_cons, Option.mem_some_iff] at isFirst
  subst isFirst
  simp only [List.mem_cons, List.not_mem_nil, or_false, not_or] at other ⊢
  exact ⟨⟨other.1, notBlank.1, notBlank.2, other.2.1⟩, beginsPlain.noBreak⟩

theorem beginsToken_scalar (indent : Nat) (content rest : Text) :
    BeginsToken (scalar indent content ++ rest) := by
  rw [scalar]
  cases style : Style.of content with
  | plain =>
      rcases plain_of_style style with ⟨nonempty, allows⟩
      simp only [List.append_assoc]
      exact beginsToken_of_allowsPlain allows nonempty _
  | singleQuoted => exact fun _ isFirst => Option.mem_some_iff.mp isFirst ▸ by decide
  | doubleQuoted => exact fun _ isFirst => Option.mem_some_iff.mp isFirst ▸ by decide
  | literal =>
      simp only [literal_eq]
      exact fun _ isFirst => Option.mem_some_iff.mp isFirst ▸ by decide

/-! ## Behind a space -/

theorem blockNode_space {rest : Text} (isText : head.rest = ' ' :: rest)
    (begins : BeginsToken rest) (mayAlign : Bool) :
    blockNode (fuel + 1) least mayAlign none false head =
      blockNode (fuel + 1) least mayAlign none false
        { head with rest := rest, column := head.column + 1 } := by
  have skipped : head.skip false = { head with rest := rest, column := head.column + 1 } :=
    skip_spaces (isText.trans (by rfl : ' ' :: rest = List.replicate 1 ' ' ++ rest)) begins
  have stays := skip_of_beginsToken false
    (rfl : ({ head with rest := rest, column := head.column + 1 } : Head).rest = rest) begins
  rw [blockNode, blockNode, skipped, stays]

/-- A text as the value of a field or as an item of a list. -/
theorem exists_blockNode_text (fuel : Nat) {content : Text}
    (isText : head.rest = ' ' :: (scalar (column + 2) content ++ following.text))
    (further : column < head.column) (isProper : following.IsProper (column + 1))
    (mayAlign : Bool) :
    ∃ isPlain next, blockNode (fuel + 1) (column + 1) mayAlign none false head =
      some (.scalar isPlain content, next) ∧ next.Reaches following := by
  rw [blockNode_space isText (beginsToken_scalar _ _ _)]
  exact exists_blockNode_scalar rfl (Nat.succ_lt_succ further) (Nat.succ_pos column) isProper
    mayAlign

theorem exists_blockNode_word (fuel : Nat) {word : Text}
    (isWord : ∀ character ∈ word, isWordCharacter character = true) (nonempty : word ≠ [])
    (isText : head.rest = ' ' :: (word ++ '\n' :: following.text))
    (further : column < head.column) (isProper : following.IsProper (column + 1))
    (mayAlign : Bool) :
    ∃ next, blockNode (fuel + 1) (column + 1) mayAlign none false head =
      some (.scalar true word, next) ∧ next.Reaches following := by
  have allows := allowsPlain_of_word isWord
  rw [blockNode_space isText (beginsToken_of_allowsPlain allows nonempty _)]
  exact exists_blockNode_plain allows nonempty rfl (Nat.succ_lt_succ further) isProper mayAlign

/-- Two brackets or two braces as the value of a field. -/
theorem exists_blockNode_empty (fuel : Nat) {opening closing : Char} {node : Node}
    (isEmpty : (opening, closing, node) = ('[', ']', .sequence []) ∨
      (opening, closing, node) = ('\x7b', '\x7d', .mapping []))
    (isText : head.rest = ' ' :: opening :: closing :: '\n' :: following.text)
    (further : column < head.column) (inside : head.mayBegin = false)
    (isProper : following.IsProper (column + 1)) (mayAlign : Bool) :
    ∃ next, blockNode (fuel + 3) (column + 1) mayAlign none false head = some (node, next) ∧
      next.Reaches following := by
  generalize isStart : ({ head with
    rest := opening :: closing :: '\n' :: following.text, column := head.column + 1 } : Head) = start
  have startRest : start.rest = opening :: closing :: '\n' :: following.text := by rw [← isStart]
  have startInside : start.mayBegin = false := by rw [← isStart, inside]
  have startFurther : column + 1 < start.column := by
    rw [← isStart]
    exact Nat.succ_lt_succ further
  have notBoundary : start.atBoundary = false := by
    simp [atBoundary, startRest, Nat.ne_of_gt (Nat.zero_lt_of_lt startFurther)]
  have openingBegins : BeginsToken (opening :: closing :: '\n' :: following.text) := by
    rcases isEmpty with isEmpty | isEmpty <;> cases isEmpty <;>
      exact fun _ isFirst => Option.mem_some_iff.mp isFirst ▸ by decide
  have closingBegins : BeginsToken (closing :: '\n' :: following.text) := by
    rcases isEmpty with isEmpty | isEmpty <;> cases isEmpty <;>
      exact fun _ isFirst => Option.mem_some_iff.mp isFirst ▸ by decide
  have notDash : start.atIndicator '-' = false := by
    rcases isEmpty with isEmpty | isEmpty <;> cases isEmpty <;> simp [atIndicator, startRest]
  refine ⟨((start.advance opening (closing :: '\n' :: following.text)).advance closing
    ('\n' :: following.text)).inside, ?_, ?_⟩
  · rw [blockNode_space isText openingBegins, isStart, blockNode,
      skip_of_beginsToken false startRest openingBegins, notBoundary, startInside, notDash,
      if_neg (by simp; omega), if_neg (by omega), if_neg (by simp), if_neg (by simp), startRest]
    have stays := skip_of_beginsToken true startRest openingBegins
    generalize isInner : start.advance opening (closing :: '\n' :: following.text) = inner
    have innerRest : inner.rest = closing :: '\n' :: following.text := by
      rw [← isInner]
      unfold advance
      split <;> rfl
    have innerStays := skip_of_beginsToken true innerRest closingBegins
    rcases isEmpty with isEmpty | isEmpty <;> cases isEmpty
    · simp only [readLeaf, startRest, flowNode, stays, notBoundary, notDash, Bool.false_eq_true,
        Bool.or_self, if_false, isInner, flowItems, innerStays, innerRest, Option.map_some]
      rfl
    · simp only [readLeaf, startRest, flowNode, stays, notBoundary, notDash, Bool.false_eq_true,
        Bool.or_self, if_false, isInner, flowEntries, innerStays, innerRest, Option.map_some]
      rfl
  · refine .of_line ?_ isProper
    rcases isEmpty with isEmpty | isEmpty <;> cases isEmpty <;> rfl

end Yaml
end FluentLog
