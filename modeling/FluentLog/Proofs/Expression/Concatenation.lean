import FluentLog.Proofs.Code.Inert
import FluentLog.Expression.Operand

namespace FluentLog

/-!
# Reading a concatenation back

A concatenation of quoted texts and identifiers is split into the operands it was
written from.  No plus sign stands in an identifier, and those in a quoted text are
inside a literal, so the plus signs between the operands are the only ones that count.
-/

/-- Whether a character belongs to ASCII identifiers. -/
def isNameCharacter (character : Char) : Bool :=
  character.isAlphanum || character = '_' || character = '$'

namespace Operand

def written : Operand -> Text
  | .literal content => Literal.quote content
  | .expression code => code

/-- Whether an operand is a literal or an ASCII identifier.  Neither is cut at
a plus sign, and an identifier is one placeholder. -/
def IsSimple : Operand -> Prop
  | .literal _ => True
  | .expression code => code ≠ [] ∧ ∀ character ∈ code, isNameCharacter character = true

instance decidableIsSimple : (operand : Operand) -> Decidable operand.IsSimple
  | .literal _ => inferInstanceAs (Decidable True)
  | .expression code =>
      @instDecidableAnd (code ≠ []) (∀ character ∈ code, isNameCharacter character = true) _
        (List.decidableBAll _ code)

def concatenation (operands : List Operand) : Text :=
  Text.join [' ', '+', ' '] (operands.map written)

/-! ## Names -/

theorem not_isBlank_of_isNameCharacter {character : Char}
    (isName : isNameCharacter character = true) : isBlank character = false := by
  have bounds : 0x20 < character.toNat ∧ character.toNat < 0x7F := by
    have byCode : isNameCharacter character =
        (((decide ('A'.val ≤ character.val ∧ character.val ≤ 'Z'.val) ||
          (decide ('a'.val ≤ character.val) && decide (character.val ≤ 'z'.val))) ||
          (decide ('0'.val ≤ character.val) && decide (character.val ≤ '9'.val))) ||
          decide (character = '_') || decide (character = '$')) := rfl
    simp only [byCode, Bool.or_eq_true, Bool.and_eq_true, decide_eq_true_eq,
      UInt32.le_iff_toNat_le] at isName
    have isCode : character.toNat = character.val.toNat := rfl
    rcases isName with (((⟨least, most⟩ | ⟨least, most⟩) | ⟨least, most⟩) | rfl) | rfl <;>
      simp_all <;> omega
  simp only [isBlank, Bool.or_eq_false_iff, Bool.and_eq_false_iff, decide_eq_false_iff_not,
    beq_eq_false_iff_ne]
  omega

theorem ne_of_isNameCharacter {character other : Char} (isName : isNameCharacter character = true)
    (notName : isNameCharacter other = false) : character ≠ other := by
  rintro rfl
  rw [isName] at notName
  cases notName

theorem collapseBlanksFrom_of_not_blank {text : Text}
    (notBlank : ∀ character ∈ text, isBlank character = false) (cursor : Cursor) :
    collapseBlanksFrom cursor false text = text := by
  induction text generalizing cursor with
  | nil => rfl
  | cons character text ih =>
      have here := notBlank character List.mem_cons_self
      rw [collapseBlanksFrom_cons here,
        ih fun other member => notBlank other (List.mem_cons_of_mem character member)]
      rfl

/-! ## Single operands -/

variable {operand : Operand} {operands : List Operand}

theorem IsSimple.isTight (simple : operand.IsSimple) : Text.IsTight operand.written := by
  cases operand with
  | literal content =>
      exact ⟨⟨'"', Literal.escape content ++ ['"'], rfl, by decide⟩,
        ⟨'"' :: Literal.escape content, '"', rfl, by decide⟩⟩
  | expression code =>
      exact Text.isTight_of_forall simple.1 fun character member =>
        not_isBlank_of_isNameCharacter (simple.2 character member)

theorem ofText_written (simple : operand.IsSimple) : ofText operand.written = operand := by
  cases operand with
  | literal content => rw [written, ofText, Literal.decode_quote]
  | expression code =>
      rcases simple with ⟨nonempty, isName⟩
      have notBlank : ∀ character ∈ code, isBlank character = false :=
        fun character member => not_isBlank_of_isNameCharacter (isName character member)
      have trimmed := (Text.isTight_of_forall nonempty notBlank).trim_self
      have noLiteral : Literal.decode code = none := by
        rw [Literal.decode, Literal.body?, trimmed]
        cases code with
        | nil => rfl
        | cons first rest =>
            have isFirst := isName first List.mem_cons_self
            have notDouble : first ≠ '"' := ne_of_isNameCharacter isFirst (by decide)
            have notSingle : first ≠ '\'' := ne_of_isNameCharacter isFirst (by decide)
            split
            · rename_i same
              exact absurd (List.cons.inj same).1 notDouble
            · rename_i same
              exact absurd (List.cons.inj same).1 notSingle
            · rfl
      rw [written, ofText, noLiteral, trimmed, collapseBlanks,
        collapseBlanksFrom_of_not_blank notBlank]

theorem IsSimple.passes (simple : operand.IsSimple) (depth : Nat) :
    Cursor.Passes ['/', '(', ')', ',', '+'] ⟨depth, .none⟩ operand.written := by
  cases operand with
  | literal content => exact Cursor.passes_quote (by decide) content depth
  | expression code =>
      apply Cursor.passes_of_forall
      intro character member special
      have notName : ['\n', '"', '\'', '(', ')', '/', '(', ')', ',', '+'].all
          (fun other => !isNameCharacter other) = true := by
        decide
      have noName := List.all_eq_true.mp notName character special
      rw [simple.2 character member] at noName
      cases noName

/-! ## Concatenations -/

theorem concatenation_cons_cons (operand second : Operand) (rest : List Operand) :
    concatenation (operand :: second :: rest) =
      operand.written ++ [' ', '+', ' '] ++ concatenation (second :: rest) := by
  simp [concatenation, Text.join]

theorem concatenation_singleton (operand : Operand) :
    concatenation [operand] = operand.written := by
  simp [concatenation, Text.join]

/-- The parts of a concatenation between its plus signs, with blanks in front
of it. -/
theorem splitFrom_concatenation (simple : ∀ operand ∈ operands, operand.IsSimple)
    (nonempty : operands ≠ []) {lead : Text} (blank : ∀ character ∈ lead, character = ' ') :
    ((splitFrom '+' .start (lead ++ concatenation operands)).1 ::
        (splitFrom '+' .start (lead ++ concatenation operands)).2).map Text.trim =
      operands.map written := by
  induction operands generalizing lead with
  | nil => exact absurd rfl nonempty
  | cons operand rest ih =>
      have isSimple := simple operand List.mem_cons_self
      have passed : Cursor.Passes ['/', '(', ')', ',', '+'] .start (lead ++ operand.written) := by
        refine Cursor.Passes.append ?_ (isSimple.passes 0)
        apply Cursor.passes_of_forall
        rintro character member
        rw [blank character member]
        decide
      have noCut : NoCut '+' .start (lead ++ operand.written) := passed.1.noCut (by simp)
      have blankLead : ∀ character ∈ lead, isBlank character := by
        intro character member
        rw [blank character member]
        rfl
      cases rest with
      | nil =>
          have split := splitFrom_append_of_noCut noCut []
          rw [List.append_nil] at split
          rw [concatenation_singleton, split, splitFrom, List.map_cons,
            isSimple.isTight.trim_eq blankLead fun _ member => absurd member List.not_mem_nil]
          rfl
      | cons second rest =>
          have whole : lead ++ concatenation (operand :: second :: rest) =
              (lead ++ operand.written) ++ ' ' :: '+' :: ([' '] ++ concatenation (second :: rest)) := by
            rw [concatenation_cons_cons]
            simp
          have later := ih (fun other member => simple other (List.mem_cons_of_mem operand member))
            (List.cons_ne_nil second rest) (by simp : ∀ character ∈ [' '], character = ' ')
          have blankCursor : Cursor.feedChar .start ' ' = .start := rfl
          have cut : splitFrom '+' .start ('+' :: ([' '] ++ concatenation (second :: rest))) =
              ([], (splitFrom '+' .start ([' '] ++ concatenation (second :: rest))).1 ::
                (splitFrom '+' .start ([' '] ++ concatenation (second :: rest))).2) := by
            rw [List.singleton_append, splitFrom, if_pos ⟨rfl, rfl⟩, if_neg (by decide)]
          rw [whole, splitFrom_append_of_noCut noCut, passed.2,
            splitFrom_cons_of_noCut (fun isCut => absurd isCut.1 (by decide)), blankCursor, cut,
            List.map_cons, later, isSimple.isTight.trim_eq blankLead (by simp [isBlank])]
          rfl

/-- A concatenation is read back as the operands it was written from. -/
theorem ofConcatenation_concatenation (simple : ∀ operand ∈ operands, operand.IsSimple)
    (nonempty : operands ≠ []) : ofConcatenation (concatenation operands) = operands := by
  have parts := splitFrom_concatenation simple nonempty
    (fun _ member => absurd member List.not_mem_nil : ∀ character ∈ ([] : Text), character = ' ')
  rw [List.nil_append] at parts
  have kept : (operands.map written).filter (fun part => !part.isEmpty) = operands.map written := by
    rw [List.filter_eq_self]
    intro part member
    rcases List.mem_map.mp member with ⟨operand, isOperand, rfl⟩
    rcases (simple operand isOperand).isTight.head with ⟨first, others, isWritten, -⟩
    rw [isWritten]
    rfl
  rw [ofConcatenation, splitUnnested_eq, parts, kept, List.map_map]
  calc operands.map (ofText ∘ written)
      _ = operands.map id := List.map_congr_left fun operand member =>
        ofText_written (simple operand member)
      _ = operands := List.map_id operands

theorem isTight_concatenation (simple : ∀ operand ∈ operands, operand.IsSimple)
    (nonempty : operands ≠ []) : Text.IsTight (concatenation operands) := by
  induction operands with
  | nil => exact absurd rfl nonempty
  | cons operand rest ih =>
      have isTight := (simple operand List.mem_cons_self).isTight
      cases rest with
      | nil =>
          rw [concatenation_singleton]
          exact isTight
      | cons second rest =>
          rw [concatenation_cons_cons]
          exact isTight.between (ih (fun other member =>
            simple other (List.mem_cons_of_mem operand member)) (List.cons_ne_nil second rest)) _

/-- All scans but the one for plus signs pass over a concatenation. -/
theorem passes_concatenation (simple : ∀ operand ∈ operands, operand.IsSimple) (depth : Nat) :
    Cursor.Passes ['/', '(', ')', ','] ⟨depth, .none⟩ (concatenation operands) := by
  induction operands with
  | nil => exact ⟨True.intro, rfl⟩
  | cons operand rest ih =>
      have passes : Cursor.Passes ['/', '(', ')', ','] ⟨depth, .none⟩ operand.written :=
        ((simple operand List.mem_cons_self).passes depth).of_subset (by simp)
      cases rest with
      | nil =>
          rw [concatenation_singleton]
          exact passes
      | cons second rest =>
          have glue : Cursor.Passes ['/', '(', ')', ','] ⟨depth, .none⟩ [' ', '+', ' '] :=
            Cursor.passes_of_forall depth (by simp)
          rw [concatenation_cons_cons]
          exact (passes.append glue).append (ih fun other member =>
            simple other (List.mem_cons_of_mem operand member))

end Operand
end FluentLog
