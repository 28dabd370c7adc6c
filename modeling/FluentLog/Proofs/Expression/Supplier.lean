import FluentLog.Chain.Plan
import FluentLog.Proofs.Expression.Token
import Mathlib.Data.List.Basic

namespace FluentLog

/-!
# Suppliers of an expression

A supplier is an expression with empty parentheses and an arrow in front of it.  The blanks
between these do not matter: as the only argument of a call it is read as a supplier of that
expression, unless the expression is a block or a supplier itself.
-/

/-- Whether a text is a supplier of an expression, with any blanks between the
tokens. -/
def IsSupplierOf (expression argument : Text) : Prop :=
  ∃ lead inner outer front back : Text, Text.IsBlank lead ∧ Text.IsBlank inner ∧
    Text.IsBlank outer ∧ Text.IsBlank front ∧ Text.IsBlank back ∧
    argument = lead ++ (('(' :: inner ++ [')']) ++ outer ++ ['-', '>'] ++ front ++ expression) ++
      back

theorem Text.isPrefixOf?_of_ne {character first : Char} (other : first ≠ character) (rest : Text) :
    [character].isPrefixOf? (first :: rest) = none := by
  apply Option.eq_none_iff_forall_ne_some.mpr
  intro behind isPrefix
  have same := List.isPrefixOf?_eq_some_iff_append_eq.mp isPrefix
  exact other (List.cons.inj same).1.symm

namespace Supplier

/-- Behind its parentheses and its arrow the rest of a supplier stands. -/
theorem afterArrow?_eq {inner outer : Text} (blankInner : Text.IsBlank inner)
    (blankOuter : Text.IsBlank outer) (rest : Text) :
    afterArrow? (('(' :: inner ++ [')']) ++ outer ++ ['-', '>'] ++ rest) = some rest := by
  have opening : ['('].isPrefixOf? (('(' :: inner ++ [')']) ++ outer ++ ['-', '>'] ++ rest) =
      some (inner ++ ')' :: (outer ++ '-' :: '>' :: rest)) := by
    apply List.isPrefixOf?_eq_some_iff_append_eq.mpr
    simp only [List.append_assoc, List.cons_append, List.nil_append]
  have closing : [')'].isPrefixOf? (Text.trimLeft (inner ++ ')' :: (outer ++ '-' :: '>' :: rest))) =
      some (outer ++ '-' :: '>' :: rest) := by
    rw [Text.trimLeft_append_of_blank blankInner, Text.trimLeft_cons_of_not_blank (by decide)]
    exact List.isPrefixOf?_eq_some_iff_append_eq.mpr rfl
  have arrow : ['-', '>'].isPrefixOf? (Text.trimLeft (outer ++ '-' :: '>' :: rest)) =
      some rest := by
    rw [Text.trimLeft_append_of_blank blankOuter, Text.trimLeft_cons_of_not_blank (by decide)]
    exact List.isPrefixOf?_eq_some_iff_append_eq.mpr rfl
  rw [afterArrow?, opening]
  simp only [Option.bind_eq_bind, Option.bind_some, closing, arrow]

theorem isSupplier_of_not_paren {first : Char} {rest : Text} (notBlank : isBlank first = false)
    (notParen : first ≠ '(') : isSupplier (first :: rest) = false := by
  rw [isSupplier, body?, Text.trimLeft_cons_of_not_blank notBlank, afterArrow?,
    Text.isPrefixOf?_of_ne notParen]
  rfl

theorem isSupplier_of_not_empty {blanks rest : Text} {first : Char}
    (blank : Text.IsBlank blanks) (notBlank : isBlank first = false) (notParen : first ≠ ')') :
    isSupplier ('(' :: (blanks ++ first :: rest)) = false := by
  have opening : ['('].isPrefixOf? ('(' :: (blanks ++ first :: rest)) =
      some (blanks ++ first :: rest) := List.isPrefixOf?_eq_some_iff_append_eq.mpr rfl
  have notClosed : [')'].isPrefixOf? (Text.trimLeft (blanks ++ first :: rest)) = none := by
    rw [Text.trimLeft_append_of_blank blank, Text.trimLeft_cons_of_not_blank notBlank,
      Text.isPrefixOf?_of_ne notParen]
  rw [isSupplier, body?, Text.trimLeft_cons_of_not_blank (by decide), afterArrow?, opening]
  simp only [Option.bind_eq_bind, Option.bind_some, notClosed, Option.bind_none,
    Option.map_none, Option.isSome_none]

theorem returned?_of_not_brace {first : Char} {rest : Text} (notBlank : isBlank first = false)
    (notBrace : first ≠ '{') : returned? (first :: rest) = none := by
  rw [returned?, Text.trimLeft_cons_of_not_blank notBlank, Text.isPrefixOf?_of_ne notBrace]
  rfl

end Supplier

namespace IsSupplierOf

variable {expression argument : Text}

/-- Without the blanks around it a supplier is its expression behind a head
without top-level commas. -/
theorem exists_head (supplies : IsSupplierOf expression argument)
    (tight : Text.IsTight expression) :
    ∃ lead head back : Text, argument = lead ++ ('(' :: head ++ expression) ++ back ∧
      Text.IsBlank lead ∧ Text.IsBlank back ∧
      Cursor.Reads (IsCode [',']) .start ('(' :: head) ∧
      Text.IsTight ('(' :: head ++ expression) ∧
      Supplier.body? ('(' :: head ++ expression) = some expression := by
  rcases supplies with ⟨lead, inner, outer, front, back, blankLead, blankInner, blankOuter,
    blankFront, blankBack, rfl⟩
  have subset : [','] ⊆ signs := by decide
  have arrow : Cursor.Reads (IsCode [',']) .start ['-', '>'] :=
    (reads_sign (by decide) (by decide) : Cursor.Reads _ _ ['-']).append
      (reads_sign (by decide) (by decide))
  have parens : Cursor.Reads (IsCode [',']) .start ('(' :: inner ++ [')']) :=
    Cursor.reads_parens (isCode_outside 0 (by decide) (by decide)) (blankInner.reads 1 subset)
      (isCode_outside 1 (by decide) (by decide))
  have isHead : ('(' :: inner ++ [')']) ++ outer ++ ['-', '>'] ++ front =
      '(' :: (inner ++ [')'] ++ outer ++ ['-', '>'] ++ front) := by simp
  have tightWhole : Text.IsTight
      (('(' :: inner ++ [')']) ++ outer ++ ['-', '>'] ++ front ++ expression) := by
    have opening : Text.IsTight ['('] := ⟨⟨'(', [], rfl, by decide⟩, ⟨[], '(', rfl, by decide⟩⟩
    have whole := opening.between tight (inner ++ [')'] ++ outer ++ ['-', '>'] ++ front)
    simpa using whole
  have isBody : Supplier.body? (('(' :: inner ++ [')']) ++ outer ++ ['-', '>'] ++ front ++
      expression) = some expression := by
    have trimmed := tight.trim_eq blankFront (by decide : Text.IsBlank [])
    rw [List.append_nil] at trimmed
    have opening : forall rest : Text, Text.trimLeft ('(' :: inner ++ rest) =
        '(' :: inner ++ rest :=
      fun _ => Text.trimLeft_cons_of_not_blank (by decide) _
    have behind := Supplier.afterArrow?_eq blankInner blankOuter (front ++ expression)
    simp only [List.append_assoc] at behind
    rw [Supplier.body?]
    simp only [List.append_assoc, opening, behind, Option.map_some, trimmed]
  refine ⟨lead, inner ++ [')'] ++ outer ++ ['-', '>'] ++ front, back, ?_, blankLead, blankBack,
    ?_, ?_, ?_⟩
  · rw [isHead]
  · rw [← isHead]
    exact ((parens.append (blankOuter.reads 0 subset)).append arrow).append
      (blankFront.reads 0 subset)
  · rw [← isHead]
    exact tightWhole
  · rw [← isHead]
    exact isBody

theorem ofText_eq (supplies : IsSupplierOf expression argument)
    (code : Cursor.Reads (IsCode [',']) .start expression) (tight : Text.IsTight expression)
    (noSupplier : Supplier.isSupplier expression = false)
    (notBlock : Supplier.returned? expression = none) :
    CallContent.ofText argument = .supplier expression [] := by
  rcases supplies.exists_head tight with
    ⟨lead, head, back, rfl, blankLead, blankBack, readsHead, tightWhole, isBody⟩
  have subset : [','] ⊆ signs := by decide
  have reads : Cursor.Reads (IsCode [',']) .start
      (lead ++ ('(' :: head ++ expression) ++ back) :=
    ((blankLead.reads 0 subset).append (readsHead.append code)).append (blankBack.reads 0 subset)
  have onlyPart : splitUnnested ',' (lead ++ ('(' :: head ++ expression) ++ back) =
      ['(' :: head ++ expression] := by
    have split := splitFrom_append_of_noCut (noCut_of_isCode (List.mem_singleton_self ',') reads.1) []
    rw [List.append_nil] at split
    rw [splitUnnested_eq, split, splitFrom, List.append_nil, List.map_cons, List.map_nil,
      tightWhole.trim_eq blankLead blankBack]
    rfl
  have normalized : Supplier.normalize expression = expression := by
    rw [Supplier.normalize, notBlock]
    exact tight.trim_self
  rw [CallContent.ofText, hasComment, containsCommentFrom_of_isCode reads.1,
    if_neg Bool.false_ne_true, onlyPart, CallContent.ofArguments, isBody, Option.map_some,
    normalized]
  simp only [noSupplier, Bool.false_eq_true, List.any_nil, or_self, if_false]

end IsSupplierOf
end FluentLog
