import FluentLog.Proofs.Chain.Filling
import FluentLog.Proofs.Chain.Slices
import FluentLog.Proofs.Chain.SupplierCalls
import FluentLog.Proofs.Expression.Shedding

namespace FluentLog

/-!
# What supplier calls contribute to a plan

A plan collects three things: a template, the arguments for its placeholders, and the edits
that write these arguments back.  They are made by different functions, but all three come
from the suppliers that a walk over the chain meets.  Each supplier contributes the operands
of its body and its further arguments, and what it adds to one of the three matches what it
adds to the others.
-/

variable {dialect : Dialect}

/-! ## The suppliers on a walk -/

/-- A supplier call that a walk meets: where it stands in the chain, the
normalized body of its supplier, and its further arguments. -/
structure Contribution where
  extent : Extent
  body : Text
  extras : List Text

/-- What a walk over the code of a chain contributes, by the code byte that it
finds next and the walk behind that byte.  Behind a call that is closed the
walk goes on behind the closing parenthesis. -/
inductive Contributes (dialect : Dialect) (chain : Bytes) :
    Option CodeByte × Walk -> List Contribution -> Prop
  | done (walk : Walk) : Contributes dialect chain (none, walk) []
  /-- No argument call begins at the code byte. -/
  | byte {point : CodeByte} {walk : Walk} {contributions : List Contribution}
      (noCall : point.byte = Byte.dot ->
        Call.argument? dialect ⟨point.offset + 1, chain.drop (point.offset + 1)⟩ = none)
      (behind : Contributes dialect chain walk.next contributions) :
      Contributes dialect chain (some point, walk) contributions
  /-- An argument call that is never closed. -/
  | unclosed {point : CodeByte} {opened : Place} (walk : Walk) (isDot : point.byte = Byte.dot)
      (isOpened : Call.argument? dialect ⟨point.offset + 1, chain.drop (point.offset + 1)⟩ =
        some opened)
      (neverCloses : closingParen? opened.rest = none) :
      Contributes dialect chain (some point, walk) []
  /-- An argument call that is kept as it is. -/
  | plain {point : CodeByte} {walk : Walk} {opened : Place} {length : Nat}
      {contributions : List Contribution} (isDot : point.byte = Byte.dot)
      (isOpened : Call.argument? dialect ⟨point.offset + 1, chain.drop (point.offset + 1)⟩ =
        some opened)
      (closes : closingParen? opened.rest = some length)
      (isPlain : CallContent.ofText (Utf8.decode (opened.rest.take length)) = .plain)
      (behind : Contributes dialect chain (walk.moveTo (opened.offset + length + 1)).next
        contributions) :
      Contributes dialect chain (some point, walk) contributions
  | supplier {point : CodeByte} {walk : Walk} {opened : Place} {length : Nat} {body : Text}
      {extras : List Text} {contributions : List Contribution} (isDot : point.byte = Byte.dot)
      (isOpened : Call.argument? dialect ⟨point.offset + 1, chain.drop (point.offset + 1)⟩ =
        some opened)
      (closes : closingParen? opened.rest = some length)
      (isSupplier : CallContent.ofText (Utf8.decode (opened.rest.take length)) =
        .supplier body extras)
      (behind : Contributes dialect chain (walk.moveTo (opened.offset + length + 1)).next
        contributions) :
      Contributes dialect chain (some point, walk)
        (⟨⟨point.offset, opened.offset + length + 1⟩, body, extras⟩ :: contributions)

theorem Contributes.unique {chain : Bytes} {found : Option CodeByte × Walk}
    {contributions others : List Contribution}
    (first : Contributes dialect chain found contributions)
    (second : Contributes dialect chain found others) : contributions = others := by
  induction first generalizing others with
  | done walk => cases second; rfl
  | byte noCall behind ih =>
      cases second with
      | byte noCall behind => exact ih behind
      | unclosed walk isDot isOpened => cases (noCall isDot).symm.trans isOpened
      | plain isDot isOpened => cases (noCall isDot).symm.trans isOpened
      | supplier isDot isOpened => cases (noCall isDot).symm.trans isOpened
  | unclosed walk isDot isOpened neverCloses =>
      cases second with
      | byte noCall => cases (noCall isDot).symm.trans isOpened
      | unclosed => rfl
      | plain _ isOther closes =>
          cases isOpened.symm.trans isOther
          cases neverCloses.symm.trans closes
      | supplier _ isOther closes =>
          cases isOpened.symm.trans isOther
          cases neverCloses.symm.trans closes
  | plain isDot isOpened closes isPlain behind ih =>
      cases second with
      | byte noCall => cases (noCall isDot).symm.trans isOpened
      | unclosed _ _ isOther neverCloses =>
          cases isOpened.symm.trans isOther
          cases neverCloses.symm.trans closes
      | plain _ isOther closesOther _ behind =>
          cases isOpened.symm.trans isOther
          cases closes.symm.trans closesOther
          exact ih behind
      | supplier _ isOther closesOther isSupplier =>
          cases isOpened.symm.trans isOther
          cases closes.symm.trans closesOther
          cases isPlain.symm.trans isSupplier
  | supplier isDot isOpened closes isSupplier behind ih =>
      cases second with
      | byte noCall => cases (noCall isDot).symm.trans isOpened
      | unclosed _ _ isOther neverCloses =>
          cases isOpened.symm.trans isOther
          cases neverCloses.symm.trans closes
      | plain _ isOther closesOther isPlain =>
          cases isOpened.symm.trans isOther
          cases closes.symm.trans closesOther
          cases isPlain.symm.trans isSupplier
      | supplier _ isOther closesOther isSupplierOther behind =>
          cases isOpened.symm.trans isOther
          cases closes.symm.trans closesOther
          cases isSupplier.symm.trans isSupplierOther
          rw [ih behind]

/-! ## The walk and the search -/

def Contribution.call (contribution : Contribution) : SupplierCall :=
  ⟨contribution.extent,
    (Fragment.ofConcatenation contribution.body).addArguments contribution.extras⟩

namespace Walk

variable {text : Bytes} {bound offset depth : Nat} {scanner next : Scanner} {byte : UInt8}
  {rest : Bytes}

theorem next_of_silent (within : offset < bound)
    (read : scanner.step byte rest.head? = (none, next)) :
    Walk.next ⟨text, bound, scanner, offset, byte :: rest⟩ =
      Walk.next ⟨text, bound, next, offset + 1, rest⟩ := by
  -- A walk seeks with the scanner it is given, not with its own.
  have ignores : forall (first second : Scanner) (offset other : Nat) (before rest : Bytes)
      (scanner : Scanner) (start : Nat) (bytes : Bytes),
      seek ⟨text, bound, first, offset, before⟩ scanner start bytes =
        seek ⟨text, bound, second, other, rest⟩ scanner start bytes := by
    intro first second offset other before rest scanner start bytes
    induction bytes generalizing scanner start with
    | nil => rfl
    | cons byte bytes ih =>
        rw [seek, seek]
        simp only [ih]
  rw [Walk.next, seek, if_neg fun reached => absurd reached.2 (Nat.not_le.mpr within)]
  simp only [read]
  exact ignores _ _ _ _ _ _ _ _ _

theorem next_of_reported (within : offset < bound)
    (read : scanner.step byte rest.head? = (some depth, next)) :
    Walk.next ⟨text, bound, scanner, offset, byte :: rest⟩ =
      (some ⟨offset, byte, depth⟩, ⟨text, bound, next, offset + 1, rest⟩) := by
  rw [Walk.next, seek, if_neg fun reached => absurd reached.2 (Nat.not_le.mpr within)]
  simp only [read]

end Walk

/-- Behind a closed argument call the walk goes on in the text that the search
goes on in. -/
theorem Place.LiesIn.behind_argument {chain : Bytes} {offset depth length : Nat} {rest : Bytes}
    {scanner next : Scanner} {opened : Place} (lies : LiesIn chain ⟨offset, Byte.dot :: rest⟩)
    (read : scanner.step Byte.dot rest.head? = (some depth, next))
    (isOpened : Call.argument? dialect ⟨offset + 1, rest⟩ = some opened)
    (closes : closingParen? opened.rest = some length) :
    LiesIn chain ⟨opened.offset + length + 1,
        rest.drop (opened.offset + length + 1 - (offset + 1))⟩ ∧
      Walk.moveTo ⟨chain, chain.length, next, offset + 1, rest⟩ (opened.offset + length + 1) =
        ⟨chain, chain.length, next, opened.offset + length + 1,
          rest.drop (opened.offset + length + 1 - (offset + 1))⟩ := by
  have bounds := stop_of_argument? isOpened closes
  have sameLength := lies.next.offset_add_length
  simp only at sameLength
  have liesBehind := @drop offset Byte.dot rest chain (opened.offset + length + 1) lies (by omega)
    (by omega)
  refine ⟨liesBehind, ?_⟩
  rw [Walk.moveTo, liesBehind.drop_eq, (Scanner.eq_atRest_of_dot read).2]
  rfl

theorem exists_contributes {chain : Bytes} {scanner : Scanner} {offset : Nat} {text : Bytes}
    (lies : Place.LiesIn chain ⟨offset, text⟩) :
    ∃ contributions, Contributes dialect chain
        (Walk.next ⟨chain, chain.length, scanner, offset, text⟩) contributions ∧
      supplierCallsFrom dialect scanner offset text = contributions.map Contribution.call := by
  fun_induction supplierCallsFrom dialect scanner offset text with
  | case1 scanner offset => exact ⟨[], .done _, rfl⟩
  | case2 scanner offset byte rest next read ih =>
      rcases ih lies.next with ⟨contributions, contributes, isMap⟩
      rw [Walk.next_of_silent lies.lt_length read]
      exact ⟨contributions, contributes, isMap⟩
  | case3 scanner offset rest depth next notOpened read ih =>
      rcases ih lies.next with ⟨contributions, contributes, isMap⟩
      rw [Walk.next_of_reported lies.lt_length read]
      refine ⟨contributions, .byte (fun _ => ?_) contributes, isMap⟩
      rw [lies.next.drop_eq]
      exact notOpened
  | case4 scanner offset rest depth next opened isOpened neverCloses read =>
      rw [Walk.next_of_reported lies.lt_length read]
      refine ⟨[], .unclosed _ rfl ?_ neverCloses, rfl⟩
      rw [lies.next.drop_eq]
      exact isOpened
  | case5 scanner offset rest depth next opened isOpened length closes stop later body extras
      content fragment read ih =>
      rcases lies.behind_argument read isOpened closes with ⟨liesBehind, moved⟩
      rcases ih liesBehind with ⟨contributions, contributes, isMap⟩
      rw [Walk.next_of_reported lies.lt_length read]
      rw [← moved] at contributes
      refine ⟨_, .supplier rfl ?_ closes content contributes, ?_⟩
      · rw [lies.next.drop_eq]
        exact isOpened
      · rw [List.map_cons, ← isMap]
        rfl
  | case6 scanner offset rest depth next opened isOpened length closes stop later content read
      ih =>
      rcases lies.behind_argument read isOpened closes with ⟨liesBehind, moved⟩
      rcases ih liesBehind with ⟨contributions, contributes, isMap⟩
      rw [Walk.next_of_reported lies.lt_length read]
      rw [← moved] at contributes
      refine ⟨contributions, .plain rfl ?_ closes content contributes, isMap⟩
      rw [lies.next.drop_eq]
      exact isOpened
  | case7 scanner offset byte rest depth next read notDot ih =>
      rcases ih lies.next with ⟨contributions, contributes, isMap⟩
      rw [Walk.next_of_reported lies.lt_length read]
      exact ⟨contributions, .byte (fun isDot => absurd isDot notDot) contributes, isMap⟩

/-! ## What a supplier contributes -/

/-- An operand as a template shows it. -/
def Operand.display : Operand -> Text
  | .literal content => content
  | .expression _ => placeholderMark

namespace Contribution

/-- The expressions among the operands of the body, and the further arguments
of the call. -/
def arguments (contribution : Contribution) : List Text :=
  Operand.expressions (Operand.ofConcatenation contribution.body) ++ contribution.extras

/-- The operands of the body as a template shows them, and a placeholder for
each further argument. -/
def display (contribution : Contribution) : Text :=
  contribution.extras.foldl (fun text _ => Template.spaced text ++ placeholderMark)
    ((Operand.ofConcatenation contribution.body).flatMap Operand.display)

/-- The edit that replaces the call by one call for each argument. -/
def edit (dialect : Dialect) (contribution : Contribution) : Edit where
  extent := contribution.extent
  replacement := Utf8.encode (contribution.arguments.flatMap fun argument =>
    '.' :: dialect.argumentMethod.toList ++ '(' :: argument ++ [')'])

end Contribution

namespace Fragment

theorem display_ofConcatenation (expression : Text) :
    (ofConcatenation expression).template.display =
      (Operand.ofConcatenation expression).flatMap Operand.display := by
  have pushed : forall (operands : List Operand) (fragment : Fragment),
      (operands.foldl push fragment).template.display =
        fragment.template.display ++ operands.flatMap Operand.display := by
    intro operands
    induction operands with
    | nil => exact fun fragment => (List.append_nil _).symm
    | cons operand operands ih =>
        intro fragment
        rw [List.foldl_cons, ih, List.flatMap_cons, ← List.append_assoc]
        cases operand with
        | literal content => rw [push, addText, Template.display_addText, Operand.display]
        | expression code =>
            rw [push, addArgument, Template.display_addPlaceholder, Operand.display]
  exact pushed _ empty

theorem display_addArguments {fragment : Fragment} (normal : fragment.IsNormal)
    (extras : List Text) :
    (fragment.addArguments extras).template.display =
      extras.foldl (fun text _ => Template.spaced text ++ placeholderMark)
        fragment.template.display := by
  have spaced (text : Text) :
      Template.spaced (text ++ placeholderMark) = text ++ placeholderMark ++ [' '] := by
    have noRoom : ¬ (text ++ placeholderMark = [] ∨
        (text ++ placeholderMark).getLast?.any isBlank = true) := by
      have nonempty : placeholderMark ≠ [] := List.cons_ne_nil _ _
      rw [List.getLast?_append_of_ne_nil text nonempty, List.append_eq_nil_iff]
      exact not_or.mpr ⟨fun isNil => nonempty isNil.2, by decide⟩
    exact if_neg noRoom
  have added : forall (others : List Text) (fragment : Fragment) (front : Text),
      fragment.template.display = front ++ placeholderMark ->
      (others.foldl (fun fragment other => (fragment.addText [' ']).addArgument other)
          fragment).template.display =
        others.foldl (fun text _ => Template.spaced text ++ placeholderMark)
          fragment.template.display := by
    intro others
    induction others with
    | nil => exact fun _ _ _ => rfl
    | cons other others ih =>
        intro fragment front isDisplay
        have next : ((fragment.addText [' ']).addArgument other).template.display =
            Template.spaced fragment.template.display ++ placeholderMark := by
          rw [addArgument, addText, Template.display_addPlaceholder, Template.display_addText,
            isDisplay, spaced]
        rw [List.foldl_cons, List.foldl_cons, ih _ _ next, next]
  cases extras with
  | nil => rfl
  | cons extra others =>
      have first : (addArgument { fragment with template := fragment.template.separate }
          extra).template.display =
            Template.spaced fragment.template.display ++ placeholderMark := by
        rw [addArgument, Template.display_addPlaceholder, normal.template.display_separate]
      rw [addArguments, List.foldl_cons, added _ _ _ first, first]

end Fragment

namespace Contribution

variable (contribution : Contribution)

theorem arguments_call : contribution.call.fragment.arguments = contribution.arguments := by
  rw [call, Fragment.arguments_addArguments, Fragment.arguments_ofConcatenation, arguments]

theorem display_call : contribution.call.fragment.template.display = contribution.display := by
  rw [call, Fragment.display_addArguments (Fragment.isNormal_ofConcatenation _),
    Fragment.display_ofConcatenation, display]

theorem edit_call : contribution.call.edit dialect = contribution.edit dialect := by
  rw [SupplierCall.edit, arguments_call]
  rfl

end Contribution

/-! ## The plan -/

namespace Plan

theorem arguments_foldl (plan : Plan) (calls : List SupplierCall) :
    (calls.foldl (addCall dialect) plan).arguments =
      plan.arguments ++ calls.flatMap (·.fragment.arguments) := by
  induction calls generalizing plan with
  | nil => exact (List.append_nil _).symm
  | cons call calls ih =>
      rw [List.foldl_cons, ih, List.flatMap_cons, ← List.append_assoc]
      rfl

theorem display_foldl {plan : Plan} (normal : plan.template.IsNormal) (calls : List SupplierCall) :
    (calls.foldl (addCall dialect) plan).template.display =
      calls.foldl (fun text call => Template.spaced text ++ call.fragment.template.display)
        plan.template.display := by
  induction calls generalizing plan with
  | nil => rfl
  | cons call calls ih =>
      have isNext : (addCall dialect plan call).template.display =
          Template.spaced plan.template.display ++ call.fragment.template.display := by
        rw [addCall, Template.display_append, normal.display_separate]
      rw [List.foldl_cons, List.foldl_cons, ← isNext]
      exact ih (normal.separate.append _)

/-- The three parts of a plan stay in step.  There is one argument for each
placeholder.  The arguments are those of the suppliers on the walk over the
chain, in order, and what replaces the supplier calls, in order, are the calls
that add these arguments.  The template shows what the suppliers contribute,
with a space in front of each where the text so far is not empty and does not
end in a blank. -/
theorem ofSpan_in_step (dialect : Dialect) (span : Span) :
    ∃ contributions : List Contribution,
      (∀ others, Contributes dialect span.text (Walk.start span.text 0).next others ↔
        others = contributions) ∧
      (ofSpan dialect span).template.placeholderCount = (ofSpan dialect span).arguments.length ∧
      (ofSpan dialect span).arguments = contributions.flatMap Contribution.arguments ∧
      (ofSpan dialect span).callEdits = contributions.map (Contribution.edit dialect) ∧
      Edit.inOrder span.text.length 0 (ofSpan dialect span).callEdits = true ∧
      (ofSpan dialect span).callEdits.flatMap Edit.replacement =
        Utf8.encode ((ofSpan dialect span).arguments.flatMap fun argument =>
          '.' :: dialect.argumentMethod.toList ++ '(' :: argument ++ [')']) ∧
      (ofSpan dialect span).template.display =
        contributions.foldl (fun text contribution =>
          Template.spaced text ++ contribution.display) [] := by
  rcases exists_contributes ⟨[], rfl, rfl⟩ with ⟨contributions, contributes, isMap⟩
  have isCalls : supplierCalls dialect span.text = contributions.map Contribution.call := isMap
  have isArguments : (ofSpan dialect span).arguments =
      contributions.flatMap Contribution.arguments := by
    rw [ofSpan, isCalls, arguments_foldl, List.flatMap_map]
    simp only [Contribution.arguments_call]
    rfl
  have isEdits : (ofSpan dialect span).callEdits =
      contributions.map (Contribution.edit dialect) := by
    rw [callEdits_ofSpan, isCalls, List.map_map]
    exact List.map_congr_left fun contribution _ => contribution.edit_call
  refine ⟨contributions, fun others => ⟨fun other => other.unique contributes, ?_⟩,
    (isNormal_ofSpan span).2, isArguments, isEdits, ?_, ?_, ?_⟩
  · rintro rfl
    exact contributes
  · have ordered := inOrder_supplierCallsFrom dialect .start 0 span.text
    rw [Nat.zero_add] at ordered
    rw [callEdits_ofSpan]
    exact ordered
  · rw [isEdits, isArguments, List.flatMap_map]
    change contributions.flatMap (fun contribution =>
        Utf8.encode (argumentCalls dialect contribution.arguments)) =
      Utf8.encode (argumentCalls dialect (contributions.flatMap Contribution.arguments))
    rw [← flatMap_argumentCalls, Utf8.encode, List.flatMap_assoc]
    rfl
  · rw [ofSpan, isCalls, display_foldl Template.isNormal_empty, List.foldl_map]
    simp only [Contribution.display_call]
    rfl

/-- A supplier without text leaves no more than a space. -/
example : (ofSpan {} ⟨0, Utf8.ofString ("log.atInfo().addArgument(() -> \"a\")" ++
      ".addArgument(() -> \"\").addArgument(() -> \"\", x, y).log()"), "log", "Info",
      ⟨0, 0⟩⟩).template.display = "a \x7b\x7d \x7b\x7d".toList := by
  decide +kernel

end Plan
end FluentLog
