import FluentLog.Chain.Plan
import FluentLog.Proofs.Code.Tidy
import FluentLog.Proofs.Message.Concatenation

namespace FluentLog

/-!
# The parts of a closed text

The arguments that are written back for a supplier call are cut out of its text, first at
commas, then behind the arrow, out of a block and at plus signs, and their blanks are
collapsed.  Each of these keeps a text closed: all cuts are made where the cursor is at
the start, and what is dropped beside them are blanks and punctuation that move no
cursor.
-/

/-! ## Cutting off the ends of a text -/

def IsHarmless (text : Text) : Prop :=
  ∀ character ∈ text, character ∉ ['"', '\'', '(', ')']

instance (text : Text) : Decidable (IsHarmless text) :=
  List.decidableBAll _ text

theorem isHarmless_of_isBlank {blanks : Text}
    (blank : ∀ character ∈ blanks, isBlank character = true) : IsHarmless blanks := by
  intro character member
  have isBlank := blank character member
  simp only [List.mem_cons, List.not_mem_nil, or_false, not_or]
  refine ⟨?_, ?_, ?_, ?_⟩ <;>
    · rintro rfl
      exact absurd isBlank (by decide)

theorem IsHarmless.append {left right : Text} (first : IsHarmless left)
    (second : IsHarmless right) : IsHarmless (left ++ right) := by
  intro character member
  rcases List.mem_append.mp member with inLeft | inRight
  · exact first character inLeft
  · exact second character inRight

theorem IsHarmless.of_append {left right : Text} (harmless : IsHarmless (left ++ right)) :
    IsHarmless left ∧ IsHarmless right :=
  ⟨fun character member => harmless character (List.mem_append_left right member),
    fun character member => harmless character (List.mem_append_right left member)⟩

theorem IsHarmless.feedText {text : Text} (harmless : IsHarmless text) :
    Cursor.start.feedText text = .start :=
  Cursor.feedText_outside 0 harmless

namespace IsClosed

variable {left right text : Text}

/-- A closed text can be cut wherever nothing is open. -/
theorem of_append (closed : IsClosed (left ++ right))
    (outside : Cursor.start.feedText left = .start) : IsClosed left ∧ IsClosed right := by
  rcases closed with ⟨tidy, back⟩
  have behind := tidy.of_append_right
  rw [Cursor.feedText_append, outside] at back
  rw [outside] at behind
  exact ⟨⟨tidy.of_append_left, outside⟩, behind, back⟩

theorem of_ends {lead trail : Text} (closed : IsClosed (lead ++ text ++ trail))
    (harmlessLead : IsHarmless lead) (harmlessTrail : IsHarmless trail) : IsClosed text := by
  have inFront : Cursor.start.feedText (lead ++ text) = .start := by
    apply Cursor.eq_start_of_feedText (Cursor.isProper_start.feedText _) harmlessTrail
    rw [← Cursor.feedText_append]
    exact closed.2
  exact ((closed.of_append inFront).1.of_append harmlessLead.feedText).2

theorem trim (closed : IsClosed text) : IsClosed (Text.trim text) := by
  rcases Text.exists_trim text with ⟨lead, trail, whole, blankLead, blankTrail⟩
  rw [whole] at closed
  exact closed.of_ends (isHarmless_of_isBlank blankLead) (isHarmless_of_isBlank blankTrail)

end IsClosed

/-! ## Splitting -/

/-- The first part begins the text, and it ends where nothing is open. -/
theorem isClosed_splitFrom {separator : Char} (harmless : IsHarmless [separator])
    {cursor : Cursor} {text : Text} (tidy : cursor.IsTidy text)
    (back : cursor.feedText text = .start) :
    (splitFrom separator cursor text).1 <+: text ∧
      cursor.feedText (splitFrom separator cursor text).1 = .start ∧
      ∀ part ∈ (splitFrom separator cursor text).2, IsClosed part := by
  have keeps : Cursor.start.feedChar separator = .start := harmless.feedText
  fun_induction splitFrom separator cursor text with
  | case1 cursor => exact ⟨List.nil_prefix, back, List.forall_mem_nil _⟩
  | case2 cursor character isCut =>
      refine ⟨List.nil_prefix, Cursor.eq_start_of_isUnnested isCut.2, fun part member => ?_⟩
      rw [List.mem_singleton.mp member]
      exact ⟨True.intro, rfl⟩
  | case3 cursor character noCut =>
      exact ⟨List.prefix_rfl, back, List.forall_mem_nil _⟩
  | case4 cursor character following rest isCut isIncrement first others split ih =>
      have keepsFirst : Cursor.start.feedChar character = .start := isCut.1 ▸ keeps
      have keepsSecond : Cursor.start.feedChar following = .start := by
        rw [isIncrement.2, ← isIncrement.1]
        exact keeps
      have behind := tidy.2.2.2.2.2.2
      rw [Cursor.eq_start_of_isUnnested isCut.2] at ih behind back split ⊢
      rw [Cursor.feedText_cons, Cursor.feedText_cons, keepsFirst, keepsSecond] at back
      rw [keepsFirst, keepsSecond] at behind
      rw [split] at ih
      rcases ih behind back with ⟨begins, outside, closed⟩
      refine ⟨List.prefix_cons_inj _ |>.mpr (List.prefix_cons_inj _ |>.mpr begins), ?_, closed⟩
      rw [Cursor.feedText_cons, Cursor.feedText_cons, keepsFirst, keepsSecond]
      exact outside
  | case5 cursor character following rest isCut notIncrement first others split ih =>
      have keepsFirst : Cursor.start.feedChar character = .start := isCut.1 ▸ keeps
      have behind := tidy.2.2.2
      rw [Cursor.eq_start_of_isUnnested isCut.2] at ih behind back split ⊢
      rw [Cursor.feedText_cons, keepsFirst] at back
      rw [keepsFirst] at behind
      rw [split] at ih
      rcases ih behind back with ⟨⟨after, isRest⟩, outside, closed⟩
      rw [← isRest] at behind
      refine ⟨List.nil_prefix, rfl, fun part member => ?_⟩
      rcases List.mem_cons.mp member with rfl | inOthers
      · exact ⟨behind.of_append_left, outside⟩
      · exact closed part inOthers
  | case6 cursor character following rest noCut first others split ih =>
      rw [split] at ih
      rcases ih tidy.2.2.2 back with ⟨begins, outside, closed⟩
      exact ⟨(List.prefix_cons_inj _).mpr begins, outside, closed⟩

theorem isClosed_of_mem_splitUnnested {separator : Char} (harmless : IsHarmless [separator])
    {text part : Text} (closed : IsClosed text) (member : part ∈ splitUnnested separator text) :
    IsClosed part := by
  rcases isClosed_splitFrom harmless closed.1 closed.2 with ⟨⟨after, isText⟩, outside, others⟩
  have first : IsClosed (splitFrom separator .start text).1 := by
    rw [← isText] at closed
    exact (closed.of_append outside).1
  rw [splitUnnested_eq] at member
  rcases List.mem_map.mp (List.mem_of_mem_filter member) with ⟨untrimmed, isPart, rfl⟩
  rcases List.mem_cons.mp isPart with rfl | inOthers
  · exact first.trim
  · exact (others untrimmed inOthers).trim

/-! ## Bodies of suppliers -/

theorem exists_trimLeft (text : Text) :
    ∃ blanks, (∀ character ∈ blanks, isBlank character = true) ∧
      text = blanks ++ Text.trimLeft text :=
  ⟨text.takeWhile isBlank, List.all_eq_true.mp List.all_takeWhile,
    List.takeWhile_append_dropWhile.symm⟩

theorem Supplier.exists_of_body? {argument body : Text} (isBody : body? argument = some body) :
    ∃ lead inner outer after, argument =
        lead ++ ('(' :: inner ++ [')']) ++ (outer ++ ['-', '>']) ++ after ∧
      (∀ character ∈ lead ++ inner ++ outer, isBlank character = true) ∧
      body = Text.trim after := by
  rcases Option.map_eq_some_iff.mp isBody with ⟨after, isAfter, rfl⟩
  unfold Supplier.afterArrow? at isAfter
  simp only [Option.bind_eq_bind, Option.bind_eq_some_iff,
    List.isPrefixOf?_eq_some_iff_append_eq] at isAfter
  rcases isAfter with ⟨opened, isOpened, closing, isClosing, isArrow⟩
  rcases exists_trimLeft argument with ⟨lead, blankLead, isArgument⟩
  rcases exists_trimLeft opened with ⟨inner, blankInner, isInner⟩
  rcases exists_trimLeft closing with ⟨outer, blankOuter, isOuter⟩
  refine ⟨lead, inner, outer, after, ?_, ?_, rfl⟩
  · rw [isArgument, ← isOpened, isInner, ← isClosing, isOuter, ← isArrow]
    simp
  · intro character member
    rcases List.mem_append.mp member with inFront | inOuter
    · rcases List.mem_append.mp inFront with inLead | inInner
      · exact blankLead character inLead
      · exact blankInner character inInner
    · exact blankOuter character inOuter

/-- The body of a supplier stands behind `() ->`, where the parentheses are
closed. -/
theorem isClosed_body? {argument body : Text} (closed : IsClosed argument)
    (isBody : Supplier.body? argument = some body) : IsClosed body := by
  rcases Supplier.exists_of_body? isBody with ⟨lead, inner, outer, after, rfl, blank, rfl⟩
  have harmless := isHarmless_of_isBlank blank
  have parens : Cursor.start.feedText ('(' :: inner ++ [')']) = .start := by
    have opens : Cursor.start.feedChar '(' = ⟨1, .none⟩ := by decide
    rw [List.cons_append, Cursor.feedText_cons, opens, Cursor.feedText_append,
      Cursor.feedText_outside 1 harmless.of_append.1.of_append.2]
    decide
  have arrow : IsHarmless (outer ++ ['-', '>']) := harmless.of_append.2.append (by decide)
  apply IsClosed.trim
  apply (closed.of_append _).2
  rw [Cursor.feedText_append _ _ (outer ++ _), Cursor.feedText_append _ lead,
    harmless.of_append.1.of_append.1.feedText, parens, arrow.feedText]

/-- Whether a text consists of blanks and of what a block puts around its
expression. -/
def Supplier.IsBlockFrame (text : Text) : Prop :=
  ∀ character ∈ text, isBlank character = true ∨ character ∈ "\x7breturn;\x7d".toList

/-- The last statement of a block ends with a semicolon, and then come the
brace and blanks. -/
theorem Supplier.exists_of_beforeLastSemicolon? {text expression : Text}
    (isExpression : beforeLastSemicolon? text = some expression) :
    ∃ gap trail, text = expression ++ ';' :: gap ++ ['}'] ++ trail ∧
      ∀ character ∈ gap ++ trail, isBlank character = true := by
  induction text generalizing expression with
  | nil => cases isExpression
  | cons character rest ih =>
      rw [beforeLastSemicolon?] at isExpression
      split at isExpression
      · rename_i isLast
        cases isExpression
        rcases Text.exists_trim rest with ⟨gap, trail, isRest, blankGap, blankTrail⟩
        refine ⟨gap, trail, ?_, List.forall_mem_append.mpr ⟨blankGap, blankTrail⟩⟩
        rw [isLast.2] at isRest
        rw [isRest, isLast.1]
        rfl
      · rcases Option.map_eq_some_iff.mp isExpression with ⟨others, isOthers, rfl⟩
        rcases ih isOthers with ⟨gap, trail, rfl, blank⟩
        exact ⟨gap, trail, rfl, blank⟩

theorem Supplier.exists_block_of_returned? {body expression : Text}
    (isReturned : returned? body = some expression) :
    ∃ lead inner blank outer gap trail, body =
        lead ++ ['{'] ++ (inner ++ "return".toList ++ blank :: outer) ++ expression ++
          ';' :: gap ++ ['}'] ++ trail ∧
      ∀ character ∈ lead ++ inner ++ blank :: outer ++ gap ++ trail, isBlank character = true := by
  unfold Supplier.returned? at isReturned
  simp only [Option.bind_eq_bind, Option.bind_eq_some_iff,
    List.isPrefixOf?_eq_some_iff_append_eq] at isReturned
  rcases isReturned with ⟨opened, isOpened, after, isAfter, isStatement⟩
  split at isStatement
  · rename_i blankBehind
    rcases exists_trimLeft body with ⟨lead, blankLead, isBody⟩
    rcases exists_trimLeft opened with ⟨inner, blankInner, isInner⟩
    cases after with
    | nil => cases blankBehind
    | cons blank after =>
        have isBlank : FluentLog.isBlank blank = true := blankBehind
        have sameTrim : Text.trimLeft (blank :: after) = Text.trimLeft after :=
          List.dropWhile_cons_of_pos isBlank
        rcases exists_trimLeft after with ⟨outer, blankOuter, isOuter⟩
        rw [sameTrim] at isStatement
        rcases exists_of_beforeLastSemicolon? isStatement with ⟨gap, trail, isTrimmed, blankEnds⟩
        refine ⟨lead, inner, blank, outer, gap, trail, ?_, ?_⟩
        · rw [isBody, ← isOpened, isInner, ← isAfter, isOuter, isTrimmed]
          simp
        · rw [List.append_assoc _ gap trail]
          simp only [List.forall_mem_append, List.forall_mem_cons] at blankEnds ⊢
          exact ⟨⟨⟨blankLead, blankInner⟩, isBlank, blankOuter⟩, blankEnds⟩
  · cases isStatement

theorem Supplier.exists_of_returned? {body expression : Text}
    (isReturned : returned? body = some expression) :
    ∃ front trail, body = front ++ expression ++ trail ∧
      IsBlockFrame front ∧ IsBlockFrame trail := by
  rcases exists_block_of_returned? isReturned with
    ⟨lead, inner, first, outer, gap, trail, rfl, blank⟩
  refine ⟨lead ++ ['{'] ++ (inner ++ "return".toList ++ first :: outer),
    ';' :: gap ++ ['}'] ++ trail, by simp, ?_, ?_⟩
  · intro character member
    have word : "return".toList ⊆ "\x7breturn;\x7d".toList := by decide
    have punctuation : '{' ∈ "\x7breturn;\x7d".toList := by decide
    simp only [List.mem_append, List.mem_singleton] at member blank
    rcases member with (inLead | rfl) | ((inInner | inWord) | inOuter)
    · exact .inl (blank character (.inl (.inl (.inl (.inl inLead)))))
    · exact .inr punctuation
    · exact .inl (blank character (.inl (.inl (.inl (.inr inInner)))))
    · exact .inr (word inWord)
    · exact .inl (blank character (.inl (.inl (.inr inOuter))))
  · intro character member
    simp only [List.mem_append, List.mem_cons, List.not_mem_nil, or_false] at member blank
    rcases member with ((rfl | inGap) | rfl) | inTrail
    · exact .inr (by decide)
    · exact .inl (blank character (.inl (.inr inGap)))
    · exact .inr (by decide)
    · exact .inl (blank character (.inr inTrail))

theorem Supplier.IsBlockFrame.isHarmless {text : Text} (frame : IsBlockFrame text) :
    IsHarmless text := by
  intro character member
  rcases frame character member with blank | inFrame
  · exact isHarmless_of_isBlank (fun other isOther => List.mem_singleton.mp isOther ▸ blank)
      character (List.mem_singleton_self character)
  · exact (by decide : IsHarmless "\x7breturn;\x7d".toList) character inFrame

/-- The expression of a block stands between harmless ends. -/
theorem isClosed_returned? {body expression : Text} (closed : IsClosed body)
    (isReturned : Supplier.returned? body = some expression) : IsClosed expression := by
  rcases Supplier.exists_of_returned? isReturned with ⟨front, trail, rfl, frame, frameTrail⟩
  exact closed.of_ends frame.isHarmless frameTrail.isHarmless

theorem isClosed_normalize {body : Text} (closed : IsClosed body) :
    IsClosed (Supplier.normalize body) := by
  unfold Supplier.normalize
  cases isReturned : Supplier.returned? body with
  | none => exact closed.trim
  | some expression => exact (isClosed_returned? closed isReturned).trim

/-! ## Collapsing blanks -/

/-- What the collapsed text begins with: the space of a run of blanks, or the
first character of the text. -/
theorem head?_collapseBlanksFrom (cursor : Cursor) (pending : Bool) (text : Text) :
    (collapseBlanksFrom cursor pending text).head? = none ∨
      (collapseBlanksFrom cursor pending text).head? = some ' ' ∨
      pending = false ∧ (collapseBlanksFrom cursor pending text).head? = text.head? := by
  have space : forall rest : Text,
      (collapseBlanksFrom cursor true rest).head? = none ∨
        (collapseBlanksFrom cursor true rest).head? = some ' ' := by
    intro rest
    induction rest with
    | nil => exact .inl rfl
    | cons character rest ih =>
        rw [collapseBlanksFrom]
        split
        · exact ih
        · exact .inr rfl
  cases text with
  | nil => exact .inl rfl
  | cons character rest =>
      rw [collapseBlanksFrom]
      split
      · rcases space rest with isNone | isSpace
        · exact .inl isNone
        · exact .inr (.inl isSpace)
      · cases pending with
        | true => exact .inr (.inl rfl)
        | false => exact .inr (.inr ⟨rfl, rfl⟩)

theorem feedChar_of_isBlank {cursor : Cursor} (outside : cursor.isInLiteral = false)
    {character : Char} (blank : isBlank character = true) :
    cursor.feedChar character = cursor := by
  rcases cursor with ⟨depth, quoting⟩
  cases quoting with
  | within quote escaped => cases outside
  | none =>
      have single : ∀ other ∈ [character], isBlank other = true := by
        intro other member
        rw [List.mem_singleton.mp member]
        exact blank
      exact Cursor.feedText_outside depth (isHarmless_of_isBlank single)

theorem feedText_collapseBlanksFrom {cursor : Cursor} {pending : Bool} {text : Text}
    (outside : pending = true -> cursor.isInLiteral = false) :
    cursor.feedText (collapseBlanksFrom cursor pending text) = cursor.feedText text := by
  induction text generalizing cursor pending with
  | nil => rfl
  | cons character rest ih =>
      rw [collapseBlanksFrom, Cursor.feedText_cons]
      split
      · rename_i isBlank
        have notInside : cursor.isInLiteral = false := Bool.not_eq_true' _ |>.mp isBlank.2
        rw [feedChar_of_isBlank notInside isBlank.1]
        exact ih fun _ => notInside
      · have sameRest : (cursor.feedChar character).feedText
              (collapseBlanksFrom (cursor.feedChar character) false rest) =
            (cursor.feedChar character).feedText rest := ih (by simp)
        cases pending with
        | false => exact sameRest
        | true =>
            have stays : cursor.feedChar ' ' = cursor := feedChar_of_isBlank (outside rfl) rfl
            rw [if_pos rfl, List.singleton_append, Cursor.feedText_cons, stays]
            exact sameRest

theorem isTidy_collapseBlanksFrom {cursor : Cursor} {pending : Bool} {text : Text}
    (outside : pending = true -> cursor.isInLiteral = false) (tidy : cursor.IsTidy text) :
    cursor.IsTidy (collapseBlanksFrom cursor pending text) := by
  induction text generalizing cursor pending with
  | nil => exact True.intro
  | cons character rest ih =>
      rcases tidy with ⟨keeps, noComment, own, behind⟩
      rw [collapseBlanksFrom]
      split
      · rename_i isBlank
        have notInside : cursor.isInLiteral = false := Bool.not_eq_true' _ |>.mp isBlank.2
        rw [feedChar_of_isBlank notInside isBlank.1] at behind
        exact ih (fun _ => notInside) behind
      · have tidyRest : (cursor.feedChar character).IsTidy
            (collapseBlanksFrom (cursor.feedChar character) false rest) := ih (by simp) behind
        have tidyHere : cursor.IsTidy
            (character :: collapseBlanksFrom (cursor.feedChar character) false rest) := by
          refine ⟨keeps, ?_, own, tidyRest⟩
          intro notInside isSlash
          have notHead := noComment notInside isSlash
          rcases head?_collapseBlanksFrom (cursor.feedChar character) false rest with
            isNone | isSpace | ⟨-, same⟩
          · rw [isNone]
            exact ⟨by simp, by simp⟩
          · rw [isSpace]
            decide
          · rw [same]
            exact notHead
        cases pending with
        | false => exact tidyHere
        | true =>
            have stays : cursor.feedChar ' ' = cursor := feedChar_of_isBlank (outside rfl) rfl
            refine ⟨fun _ => by decide, fun _ isSlash => absurd isSlash (by decide),
              fun _ => by decide, ?_⟩
            rw [stays]
            exact tidyHere

theorem isClosed_collapseBlanks {code : Text} (closed : IsClosed code) :
    IsClosed (collapseBlanks code) := by
  have notPending : false = true -> Cursor.start.isInLiteral = false := by simp
  exact ⟨isTidy_collapseBlanksFrom notPending closed.1,
    (feedText_collapseBlanksFrom notPending).trans closed.2⟩

/-! ## The arguments of a supplier call -/

namespace Fragment

theorem arguments_ofConcatenation (expression : Text) :
    (ofConcatenation expression).arguments =
      Operand.expressions (Operand.ofConcatenation expression) :=
  congrArg Fragment.arguments (ofConcatenation_eq expression)

theorem arguments_addArguments (fragment : Fragment) (extras : List Text) :
    (fragment.addArguments extras).arguments = fragment.arguments ++ extras := by
  have pushed : forall (others : List Text) (fragment : Fragment),
      (others.foldl (fun fragment other => (fragment.addText [' ']).addArgument other)
        fragment).arguments = fragment.arguments ++ others := by
    intro others
    induction others with
    | nil => exact fun fragment => (List.append_nil _).symm
    | cons other others ih =>
        intro fragment
        rw [List.foldl_cons, ih, addArgument, addText, List.append_assoc]
        rfl
  cases extras with
  | nil => exact (List.append_nil _).symm
  | cons extra others =>
      rw [addArguments, pushed, addArgument, List.append_assoc]
      rfl

end Fragment

theorem isClosed_of_mem_expressions {expression code : Text} (closed : IsClosed expression)
    (member : code ∈ Operand.expressions (Operand.ofConcatenation expression)) :
    IsClosed code := by
  rcases List.mem_map.mp (Operand.mem_expressions_iff.mp member) with ⟨operand, isPart, isCode⟩
  have closedOperand := isClosed_of_mem_splitUnnested (by decide) closed isPart
  unfold Operand.ofText at isCode
  split at isCode
  · cases isCode
  · cases isCode
    exact isClosed_collapseBlanks closedOperand.trim

/-- What an argument call consists of when it is inlined. -/
theorem CallContent.exists_of_ofText_eq_supplier {text body : Text} {extras : List Text}
    (content : ofText text = .supplier body extras) :
    hasComment (Utf8.encode text) = false ∧ ∃ first raw,
      splitUnnested ',' text = first :: extras ∧ Supplier.body? first = some raw ∧
        Supplier.normalize raw = body := by
  unfold ofText at content
  split at content
  · cases content
  · rename_i noComment
    refine ⟨Bool.eq_false_iff.mpr noComment, ?_⟩
    unfold ofArguments at content
    split at content
    · cases content
    · rename_i first others isSplit
      split at content
      · cases content
      · rename_i normalized isBody
        split at content
        · cases content
        · cases content
          rcases Option.map_eq_some_iff.mp isBody with ⟨raw, isRaw, rfl⟩
          exact ⟨first, raw, isSplit, isRaw, rfl⟩

theorem isClosed_of_mem_arguments {text body : Text} {extras : List Text} (closed : IsClosed text)
    (content : CallContent.ofText text = .supplier body extras) :
    ∀ argument ∈ ((Fragment.ofConcatenation body).addArguments extras).arguments,
      IsClosed argument := by
  rcases CallContent.exists_of_ofText_eq_supplier content with
    ⟨-, first, raw, isSplit, isBody, rfl⟩
  have parts : ∀ part ∈ first :: extras, IsClosed part := by
    rw [← isSplit]
    exact fun part => isClosed_of_mem_splitUnnested (by decide) closed
  intro argument member
  rw [Fragment.arguments_addArguments, Fragment.arguments_ofConcatenation] at member
  rcases List.mem_append.mp member with inBody | inExtras
  · apply isClosed_of_mem_expressions _ inBody
    exact isClosed_normalize (isClosed_body? (parts first List.mem_cons_self) isBody)
  · exact parts argument (List.mem_cons_of_mem first inExtras)

end FluentLog
