import FluentLog.Proofs.Expression.Closed
import FluentLog.Proofs.Expression.Cuts
import FluentLog.Proofs.Expression.Token

namespace FluentLog

/-!
# Bracketed texts

The cursor counts parentheses and knows no other brackets.  Here brackets of all three
kinds are matched, outside of literals: each opening bracket makes its closing bracket due,
and a closing bracket has to be the one due first.

The arguments that are written back for a supplier call are cut out of its text where no
parenthesis is open.  So they are properly nested, all of them, exactly if no other bracket
is open at any of these cuts, and the block around a returned expression is the one that
its last brace closes.
-/

/-! ## Matching brackets -/

def closer? : Char -> Option Char
  | '(' => some ')'
  | '[' => some ']'
  | '{' => some '}'
  | _ => none

/-- The closing brackets that are due behind a character of code, the first
one first. -/
def dueBehind? (due : Text) (character : Char) : Option Text :=
  match closer? character with
  | some closer => some (closer :: due)
  | none =>
      if character ∈ [')', ']', '}'] then
        if due.head? = some character then some due.tail else none
      else some due

/-- The closing brackets that are due behind a text, if all that close in it
match.  Brackets in literals do not count. -/
def nest (cursor : Cursor) (due : Text) : Text -> Option Text
  | [] => some due
  | character :: rest =>
      (if cursor.isInLiteral then some due else dueBehind? due character).bind fun behind =>
        nest (cursor.feedChar character) behind rest

/-- Whether all brackets of a text outside of literals are matched, and all
literals are closed.  Angle brackets do not count, since they may be
comparisons. -/
def IsNested (text : Text) : Prop :=
  nest .start [] text = some [] ∧ Cursor.start.feedText text = .start

instance (text : Text) : Decidable (IsNested text) :=
  inferInstanceAs (Decidable (_ ∧ _))

/-- The characters that move a cursor or are brackets. -/
def bracketsAndQuotes : Text := ['"', '\'', '(', ')', '[', ']', '{', '}']

def IsBracketless (text : Text) : Prop :=
  ∀ character ∈ text, character ∉ bracketsAndQuotes

instance (text : Text) : Decidable (IsBracketless text) :=
  List.decidableBAll _ text

variable {cursor : Cursor} {due behind text left right : Text}

theorem nest_append (cursor : Cursor) (due left right : Text) :
    nest cursor due (left ++ right) =
      (nest cursor due left).bind fun behind => nest (cursor.feedText left) behind right := by
  induction left generalizing cursor due with
  | nil => rfl
  | cons character left ih =>
      simp only [List.cons_append, nest, ih, Option.bind_assoc]
      rfl

theorem dueBehind?_below {character : Char} (isDue : dueBehind? due character = some behind)
    (below : Text) : dueBehind? (due ++ below) character = some (behind ++ below) := by
  unfold dueBehind? at isDue ⊢
  split at isDue
  · cases isDue
    rfl
  · split at isDue
    · split at isDue
      · rename_i isHead
        cases due with
        | nil => cases isHead
        | cons first due =>
            cases isDue
            simp_all
      · cases isDue
    · cases isDue
      simp_all

/-- Brackets that are due later do not matter to a text that leaves them open. -/
theorem nest_below (isDue : nest cursor due text = some behind) (below : Text) :
    nest cursor (due ++ below) text = some (behind ++ below) := by
  induction text generalizing cursor due with
  | nil =>
      cases isDue
      rfl
  | cons character text ih =>
      rw [nest, Option.bind_eq_some_iff] at isDue ⊢
      rcases isDue with ⟨middle, isMiddle, isBehind⟩
      refine ⟨middle ++ below, ?_, ih isBehind⟩
      split
      · rename_i inside
        rw [if_pos inside] at isMiddle
        cases isMiddle
        rfl
      · rename_i outside
        rw [if_neg outside] at isMiddle
        exact dueBehind?_below isMiddle below

/-- Without brackets of code nothing becomes due. -/
theorem nest_of_holds (holds : cursor.Holds
      (fun cursor character => cursor.isInLiteral = true ∨
        character ∉ ['(', ')', '[', ']', '{', '}']) text) :
    nest cursor due text = some due := by
  induction text generalizing cursor with
  | nil => rfl
  | cons character text ih =>
      rcases holds with ⟨inert, holds⟩
      have stays : (if cursor.isInLiteral then some due else dueBehind? due character) =
          some due := by
        split
        · rfl
        · rename_i outside
          have notBracket := inert.resolve_left outside
          have notOpening : closer? character = none := by
            unfold closer?
            split <;> simp_all
          unfold dueBehind?
          rw [notOpening]
          simp_all
      rw [nest, stays]
      exact ih holds

theorem nest_of_isBracketless (bracketless : IsBracketless text) :
    nest cursor due text = some due := by
  apply nest_of_holds
  induction text generalizing cursor with
  | nil => exact True.intro
  | cons character text ih =>
      refine ⟨.inr fun member => bracketless character List.mem_cons_self ?_,
        ih fun other inText => bracketless other (List.mem_cons_of_mem character inText)⟩
      have subset : ['(', ')', '[', ']', '{', '}'] ⊆ bracketsAndQuotes := by decide
      exact subset member

theorem IsBracketless.isHarmless (bracketless : IsBracketless text) : IsHarmless text := by
  intro character member special
  have subset : ['"', '\'', '(', ')'] ⊆ bracketsAndQuotes := by decide
  exact bracketless character member (subset special)

theorem IsBracketless.append (first : IsBracketless left) (second : IsBracketless right) :
    IsBracketless (left ++ right) :=
  List.forall_mem_append.mpr ⟨first, second⟩

theorem isBracketless_of_isBlank (blank : ∀ character ∈ text, isBlank character = true) :
    IsBracketless text := by
  intro character member special
  have notBlanks : bracketsAndQuotes.all (fun other => !isBlank other) = true := by decide
  have notBlank := List.all_eq_true.mp notBlanks character special
  rw [blank character member] at notBlank
  cases notBlank

/-! ## Cutting nested texts -/

namespace IsNested

theorem of_isBracketless (bracketless : IsBracketless text) : IsNested text :=
  ⟨nest_of_isBracketless bracketless, bracketless.isHarmless.feedText⟩

theorem append_iff (nested : IsNested left) : IsNested (left ++ right) ↔ IsNested right := by
  unfold IsNested
  rw [nest_append, Cursor.feedText_append, nested.1, nested.2]
  rfl

/-- Ends without quotes and brackets do not matter. -/
theorem ends_iff {lead trail : Text} (bracketlessLead : IsBracketless lead)
    (bracketlessTrail : IsBracketless trail) :
    IsNested (lead ++ text ++ trail) ↔ IsNested text := by
  rw [List.append_assoc, (of_isBracketless bracketlessLead).append_iff]
  constructor
  · rintro ⟨isDue, back⟩
    have inFront : Cursor.start.feedText text = .start := by
      apply Cursor.eq_start_of_feedText (Cursor.isProper_start.feedText _)
        bracketlessTrail.isHarmless
      rw [← Cursor.feedText_append]
      exact back
    rw [nest_append, Option.bind_eq_some_iff] at isDue
    rcases isDue with ⟨behind, isBehind, atEnd⟩
    rw [nest_of_isBracketless bracketlessTrail] at atEnd
    exact ⟨isBehind.trans atEnd, inFront⟩
  · exact fun nested => nested.append_iff.mpr (of_isBracketless bracketlessTrail)

theorem trim_iff : IsNested (Text.trim text) ↔ IsNested text := by
  rcases Text.exists_trim text with ⟨lead, trail, whole, blankLead, blankTrail⟩
  have same : IsNested (lead ++ Text.trim text ++ trail) ↔ IsNested (Text.trim text) :=
    ends_iff (isBracketless_of_isBlank blankLead) (isBracketless_of_isBlank blankTrail)
  rw [← whole] at same
  exact same.symm

end IsNested

/-! ## Splitting -/

variable {separator : Char}

/-- Of a nested text that is put together from parts, the parts are nested if
nothing is open at any of the separators. -/
theorem forall_parts_isNested_iff (bracketless : IsBracketless [separator]) {done first : Text}
    {others : List Text} (nestedDone : IsNested done)
    (nested : IsNested (done ++ [separator].intercalate (first :: others))) :
    (∀ part ∈ first :: others, IsNested part) ↔
      ∀ front ∈ fronts separator done first others, IsNested front := by
  induction others generalizing done first with
  | nil =>
      rw [List.intercalate_singleton, nestedDone.append_iff] at nested
      simp [fronts, nested]
  | cons next others ih =>
      rw [fronts, List.forall_mem_cons, List.forall_mem_cons (l := fronts _ _ _ _),
        nestedDone.append_iff]
      apply and_congr_right
      intro nestedFirst
      have nestedFront : IsNested (done ++ first ++ [separator]) :=
        (nestedDone.append_iff.mpr nestedFirst).append_iff.mpr (.of_isBracketless bracketless)
      apply ih nestedFront
      rw [List.intercalate_cons_cons] at nested
      simpa using nested

theorem isNested_intercalate (bracketless : IsBracketless [separator]) {first : Text}
    {others : List Text} (nested : ∀ part ∈ first :: others, IsNested part) :
    IsNested ([separator].intercalate (first :: others)) := by
  induction others generalizing first with
  | nil => exact List.intercalate_singleton ▸ nested first List.mem_cons_self
  | cons next others ih =>
      rcases List.forall_mem_cons.mp nested with ⟨nestedFirst, nestedOthers⟩
      rw [List.intercalate_cons_cons, List.append_assoc, nestedFirst.append_iff,
        (IsNested.of_isBracketless bracketless).append_iff]
      exact ih nestedOthers

/-- Trimming the parts and leaving out the empty ones changes nothing. -/
theorem forall_splitUnnested_isNested_iff :
    (∀ part ∈ splitUnnested separator text, IsNested part) ↔
      ∀ part ∈ (splitFrom separator .start text).1 :: (splitFrom separator .start text).2,
        IsNested part := by
  rw [splitUnnested_eq]
  constructor
  · intro nested part member
    rw [← IsNested.trim_iff]
    cases isTrimmed : Text.trim part with
    | nil => exact ⟨rfl, rfl⟩
    | cons character rest =>
        apply nested
        rw [← isTrimmed]
        refine List.mem_filter.mpr ⟨List.mem_map_of_mem member, ?_⟩
        rw [isTrimmed]
        rfl
  · intro nested part member
    rcases List.mem_map.mp (List.mem_of_mem_filter member) with ⟨untrimmed, isPart, rfl⟩
    exact IsNested.trim_iff.mpr (nested untrimmed isPart)

theorem isNested_of_splitUnnested (bracketless : IsBracketless [separator])
    (nested : ∀ part ∈ splitUnnested separator text, IsNested part) : IsNested text := by
  rw [← intercalate_splitFrom separator .start text]
  exact isNested_intercalate bracketless (forall_splitUnnested_isNested_iff.mp nested)

/-- The parts of a nested text are nested exactly if it is cut outside of all
brackets. -/
theorem forall_splitUnnested_isNested_iff_cutFronts (bracketless : IsBracketless [separator])
    (nested : IsNested text) :
    (∀ part ∈ splitUnnested separator text, IsNested part) ↔
      ∀ front ∈ cutFronts separator text, IsNested front := by
  rw [forall_splitUnnested_isNested_iff, cutFronts]
  apply forall_parts_isNested_iff bracketless ⟨rfl, rfl⟩
  rw [intercalate_splitFrom]
  exact nested

/-! ## Bodies of suppliers -/

theorem isNested_body?_iff {argument body : Text} (isBody : Supplier.body? argument = some body) :
    IsNested body ↔ IsNested argument := by
  rcases Supplier.exists_of_body? isBody with ⟨lead, inner, outer, after, rfl, blank, rfl⟩
  simp only [List.forall_mem_append] at blank
  have parens : IsNested ('(' :: inner ++ [')']) := by
    have bracketless := isBracketless_of_isBlank blank.1.2
    refine ⟨?_, ?_⟩
    · rw [List.cons_append, nest]
      change nest ⟨1, .none⟩ [')'] (inner ++ [')']) = some []
      rw [nest_append, nest_of_isBracketless bracketless,
        Cursor.feedText_outside 1 bracketless.isHarmless]
      rfl
    · rw [List.cons_append, Cursor.feedText_cons]
      change Cursor.feedText ⟨1, .none⟩ (inner ++ [')']) = .start
      rw [Cursor.feedText_append, Cursor.feedText_outside 1 bracketless.isHarmless]
      rfl
  have arrow : IsNested (outer ++ ['-', '>']) :=
    .of_isBracketless ((isBracketless_of_isBlank blank.2).append (by decide))
  have front : IsNested (lead ++ ('(' :: inner ++ [')']) ++ (outer ++ ['-', '>'])) :=
    ((IsNested.of_isBracketless (isBracketless_of_isBlank blank.1.1)).append_iff.mpr
      parens).append_iff.mpr arrow
  rw [IsNested.trim_iff, front.append_iff]

theorem IsNested.braces (nested : IsNested text) : IsNested ('{' :: text ++ ['}']) := by
  have inside : nest .start ['}'] text = some ['}'] := nest_below nested.1 ['}']
  constructor
  · rw [List.cons_append, nest]
    change nest .start ['}'] (text ++ ['}']) = some []
    rw [nest_append, inside, nested.2]
    rfl
  · rw [List.cons_append, Cursor.feedText_cons]
    change Cursor.start.feedText (text ++ ['}']) = .start
    rw [Cursor.feedText_append, nested.2]
    rfl

/-- A nested expression is returned from a nested block. -/
theorem isNested_of_normalize (nested : IsNested (Supplier.normalize text)) : IsNested text := by
  unfold Supplier.normalize at nested
  rw [IsNested.trim_iff] at nested
  cases isReturned : Supplier.returned? text with
  | none =>
      rw [isReturned] at nested
      exact nested
  | some expression =>
      rw [isReturned, Option.getD_some] at nested
      rcases Supplier.exists_block_of_returned? isReturned with
        ⟨lead, inner, first, outer, gap, trail, rfl, blank⟩
      simp only [List.forall_mem_append] at blank
      rcases blank with ⟨⟨⟨⟨blankLead, blankInner⟩, blankOuter⟩, blankGap⟩, blankTrail⟩
      have word : IsBracketless (inner ++ "return".toList ++ first :: outer) :=
        ((isBracketless_of_isBlank blankInner).append (by decide)).append
          (isBracketless_of_isBlank blankOuter)
      have semicolon : IsBracketless (';' :: gap) :=
        IsBracketless.append (by decide : IsBracketless [';']) (isBracketless_of_isBlank blankGap)
      have inBraces := ((IsNested.ends_iff word semicolon).mpr nested).braces
      have block := (IsNested.ends_iff (isBracketless_of_isBlank blankLead)
        (isBracketless_of_isBlank blankTrail)).mpr inBraces
      simpa using block

/-! ## Operands -/

theorem isNested_of_decode {content : Text} (decodes : Literal.decode text = some content) :
    IsNested text := by
  rcases Option.map_eq_some_iff.mp decodes with ⟨body, isBody, -⟩
  rcases Literal.exists_quote_of_body? isBody with ⟨quote, rest, isText, isQuote, isRest⟩
  rcases Literal.reads_bodyBefore? isQuote
    (fun _ _ _ inside => Or.inl inside) isRest 0 with ⟨holds, back⟩
  have opened : Cursor.start.feedChar (Char.ofNat quote.toNat) = ⟨0, .within quote false⟩ :=
    Cursor.feedChar_openingQuote isQuote 0
  have noBracket : dueBehind? [] (Char.ofNat quote.toNat) = some [] := by
    rcases isQuote with rfl | rfl <;> rfl
  rw [← IsNested.trim_iff, isText]
  constructor
  · rw [nest, opened]
    change (dueBehind? [] _).bind _ = _
    rw [noBracket]
    exact nest_of_holds holds
  · rw [Cursor.feedText_cons, opened]
    exact back

/-- A blank of code changes neither what is due nor the cursor. -/
theorem nest_blank (outside : cursor.isInLiteral = false) {blank : Char}
    (isBlank : FluentLog.isBlank blank = true) (due rest : Text) :
    nest cursor due (blank :: rest) = nest cursor due rest := by
  have single : nest cursor due [blank] = some due :=
    nest_of_isBracketless (isBracketless_of_isBlank
      fun other member => List.mem_singleton.mp member ▸ isBlank)
  rw [← List.singleton_append, nest_append, single, Option.bind_some]
  change nest (cursor.feedChar blank) due rest = _
  rw [feedChar_of_isBlank outside isBlank]

theorem nest_collapseBlanksFrom {pending : Bool}
    (outside : pending = true -> cursor.isInLiteral = false) (due : Text) :
    nest cursor due (collapseBlanksFrom cursor pending text) = nest cursor due text := by
  induction text generalizing cursor pending due with
  | nil => rfl
  | cons character rest ih =>
      rw [collapseBlanksFrom]
      split
      · rename_i blank
        have notInside : cursor.isInLiteral = false := Bool.not_eq_true' _ |>.mp blank.2
        rw [nest_blank notInside blank.1]
        exact ih (fun _ => notInside) due
      · have sameRest : forall behind : Text, nest (cursor.feedChar character) behind
              (collapseBlanksFrom (cursor.feedChar character) false rest) =
            nest (cursor.feedChar character) behind rest := ih (by simp)
        have here : nest cursor due
              (character :: collapseBlanksFrom (cursor.feedChar character) false rest) =
            nest cursor due (character :: rest) := by
          simp only [nest, sameRest]
        cases pending with
        | false => exact here
        | true =>
            rw [if_pos rfl, List.singleton_append, nest_blank (outside rfl) rfl]
            exact here

theorem isNested_collapseBlanks_iff : IsNested (collapseBlanks text) ↔ IsNested text := by
  have notPending : false = true -> Cursor.start.isInLiteral = false := by simp
  unfold IsNested collapseBlanks
  rw [nest_collapseBlanksFrom notPending, feedText_collapseBlanksFrom notPending]

theorem forall_expressions_isNested_iff {expression : Text} :
    (∀ code ∈ Operand.expressions (Operand.ofConcatenation expression), IsNested code) ↔
      ∀ part ∈ splitUnnested '+' expression, IsNested part := by
  have operand : forall part : Text,
      (∀ code, Operand.ofText part = .expression code -> IsNested code) ↔ IsNested part := by
    intro part
    unfold Operand.ofText
    split
    · rename_i decodes
      exact ⟨fun _ => isNested_of_decode decodes, fun _ _ same => by cases same⟩
    · constructor
      · intro nested
        exact IsNested.trim_iff.mp (isNested_collapseBlanks_iff.mp (nested _ rfl))
      · intro nested code same
        cases same
        exact isNested_collapseBlanks_iff.mpr (IsNested.trim_iff.mpr nested)
  constructor
  · intro nested part member
    rw [← operand]
    intro code isCode
    exact nested code (Operand.mem_expressions_iff.mpr (List.mem_map.mpr ⟨part, member, isCode⟩))
  · intro nested code member
    rcases List.mem_map.mp (Operand.mem_expressions_iff.mp member) with ⟨part, isPart, isCode⟩
    exact (operand part).mpr (nested part isPart) code isCode

/-! ## The arguments that are written back -/

/-- The arguments that are written back for a nested supplier call are nested
exactly if neither a cut at a comma nor a cut at a plus sign is made inside
brackets, and the body is not cut out of a block that goes on. -/
theorem forall_arguments_isNested_iff {text body : Text} {extras : List Text}
    (nested : IsNested text) (content : CallContent.ofText text = .supplier body extras) :
    (∀ argument ∈ ((Fragment.ofConcatenation body).addArguments extras).arguments,
        IsNested argument) ↔
      (∀ front ∈ cutFronts ',' text, IsNested front) ∧ IsNested body ∧
        ∀ front ∈ cutFronts '+' body, IsNested front := by
  rcases CallContent.exists_of_ofText_eq_supplier content with
    ⟨-, first, raw, isSplit, isBody, rfl⟩
  have comma := forall_splitUnnested_isNested_iff_cutFronts (by decide : IsBracketless [',']) nested
  rw [isSplit, List.forall_mem_cons] at comma
  rw [Fragment.arguments_addArguments, Fragment.arguments_ofConcatenation,
    List.forall_mem_append, forall_expressions_isNested_iff, ← comma]
  constructor
  · rintro ⟨operands, nestedExtras⟩
    have nestedBody : IsNested (Supplier.normalize raw) :=
      isNested_of_splitUnnested (by decide) operands
    have nestedFirst : IsNested first :=
      (isNested_body?_iff isBody).mp (isNested_of_normalize nestedBody)
    refine ⟨⟨nestedFirst, nestedExtras⟩, nestedBody, ?_⟩
    exact (forall_splitUnnested_isNested_iff_cutFronts (by decide) nestedBody).mp operands
  · rintro ⟨⟨-, nestedExtras⟩, nestedBody, fronts⟩
    exact ⟨(forall_splitUnnested_isNested_iff_cutFronts (by decide) nestedBody).mpr fronts,
      nestedExtras⟩

/-- Inside parentheses and around whole operands brackets do no harm. -/
theorem forall_arguments_isNested_inParens :
    IsNested "() -> \x7b return \"v[\" + (a[i + 1]) + f(b, \x7b\x7d)[0]; \x7d, c[j]".toList ∧
      CallContent.ofText
          "() -> \x7b return \"v[\" + (a[i + 1]) + f(b, \x7b\x7d)[0]; \x7d, c[j]".toList =
        .supplier "\"v[\" + (a[i + 1]) + f(b, \x7b\x7d)[0]".toList ["c[j]".toList] ∧
      ∀ argument ∈ ((Fragment.ofConcatenation
          "\"v[\" + (a[i + 1]) + f(b, \x7b\x7d)[0]".toList).addArguments
            ["c[j]".toList]).arguments, IsNested argument := by
  have nested : IsNested
      "() -> \x7b return \"v[\" + (a[i + 1]) + f(b, \x7b\x7d)[0]; \x7d, c[j]".toList := by
    decide +kernel
  refine ⟨nested, by decide +kernel, ?_⟩
  exact (forall_arguments_isNested_iff nested (by decide +kernel)).mpr (by decide +kernel)

/-- An index is cut in two at its plus sign. -/
theorem not_forall_arguments_isNested_index :
    IsNested "() -> a[i + 1]".toList ∧
      Scanner.start.KeepsLines (Utf8.encode "() -> a[i + 1]".toList) ∧
      CallContent.ofText "() -> a[i + 1]".toList = .supplier "a[i + 1]".toList [] ∧
      ¬ ∀ argument ∈ ((Fragment.ofConcatenation "a[i + 1]".toList).addArguments []).arguments,
          IsNested argument := by
  decide +kernel

end FluentLog
