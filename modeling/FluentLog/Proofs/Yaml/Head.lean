import FluentLog.Yaml.Head

namespace FluentLog
namespace Yaml

/-!
# Where the head comes to

The readers of scalars work on texts and know nothing of lines and columns.  The head catches
up with them by moving over what they have read.  In front of a token it skips spaces and line
ends, and behind a line end a key or an item may begin again.

In a printed text, what follows a node is the next key or dash, with spaces in front of it, or
nothing.  The column of that key or dash decides which collections end there.
-/

/-! ## Columns -/

def columnBehind (column : Nat) : Text -> Nat
  | [] => column
  | character :: rest => columnBehind (if isBreak character then 0 else column + 1) rest

theorem columnBehind_append (column : Nat) (left right : Text) :
    columnBehind column (left ++ right) = columnBehind (columnBehind column left) right := by
  induction left generalizing column with
  | nil => rfl
  | cons character left ih => exact ih _

/-- Within a line each character takes one column. -/
theorem columnBehind_of_noBreak {text : Text}
    (noBreak : ∀ character ∈ text, isBreak character = false) (column : Nat) :
    columnBehind column text = column + text.length := by
  induction text generalizing column with
  | nil => rfl
  | cons character text ih =>
      rw [List.forall_mem_cons] at noBreak
      rw [columnBehind, noBreak.1, if_neg Bool.false_ne_true, ih noBreak.2, List.length_cons]
      omega

theorem columnBehind_spaces (column count : Nat) :
    columnBehind column (List.replicate count ' ') = column + count := by
  rw [columnBehind_of_noBreak, List.length_replicate]
  intro character member
  rw [List.eq_of_mem_replicate member]
  rfl

namespace Head

variable {head : Head} {text rest : Text}

/-! ## Moving -/

def behind (head : Head) (text rest : Text) : Head :=
  { head with
    rest := rest
    line := head.line + text.countP isBreak
    column := columnBehind head.column text }

theorem behind_nil (isRest : head.rest = rest) : head.behind [] rest = head := by
  rw [behind, ← isRest]
  rfl

theorem forward_append (isText : head.rest = text ++ rest) :
    head.forward text.length = head.behind text rest := by
  induction text generalizing head with
  | nil => exact (behind_nil isText).symm
  | cons character text ih =>
      have isRest : (head.advance character (text ++ rest)).rest = text ++ rest := by
        unfold advance
        split <;> rfl
      rw [List.length_cons, forward, isText, List.cons_append]
      change forward text.length (head.advance character (text ++ rest)) = _
      rw [ih isRest]
      cases ends : isBreak character with
      | true => simp [behind, advance, columnBehind, ends, Nat.add_comm, Nat.add_left_comm]
      | false => simp [behind, advance, columnBehind, ends]

theorem forward_one {character : Char} (isRest : head.rest = character :: rest)
    (noBreak : isBreak character = false) :
    head.forward 1 = { head with rest := rest, column := head.column + 1 } := by
  rw [forward, isRest]
  simp only [advance, noBreak, Bool.false_eq_true, if_false]
  rfl

theorem moveTo_append (isText : head.rest = text ++ rest) :
    head.moveTo rest = head.behind text rest := by
  rw [moveTo, ← forward_append isText, isText, List.length_append, Nat.add_sub_cancel]

/-! ## Skipping -/

/-- Whether nothing is skipped in front of a text.  A reader that skips
blanks, comments and line ends stays where it is. -/
def BeginsToken (text : Text) : Prop :=
  ∀ character ∈ text.head?,
    character ∉ ['#', ' ', '\t', '\uFEFF'] ∧ isBreak character = false

theorem skipFrom_of_beginsToken (begins : BeginsToken rest) (inFlow mayBegin atMargin : Bool) :
    skipFrom inFlow false mayBegin atMargin rest = rest := by
  cases rest with
  | nil => rfl
  | cons character rest =>
      rcases begins character rfl with ⟨notSkipped, noBreak⟩
      simp only [List.mem_cons, List.not_mem_nil, or_false, not_or] at notSkipped
      simp [skipFrom, noBreak, notSkipped]

/-- Whether a text consists of spaces and line feeds. -/
def IsGap (text : Text) : Prop :=
  ∀ character ∈ text, character = ' ' ∨ character = '\n'

theorem skipFrom_append (isGap : IsGap text) (begins : BeginsToken rest)
    (mayBegin atMargin : Bool) :
    skipFrom false false mayBegin atMargin (text ++ rest) = rest := by
  induction text generalizing mayBegin atMargin with
  | nil => exact skipFrom_of_beginsToken begins false mayBegin atMargin
  | cons character text ih =>
      rcases List.forall_mem_cons.mp isGap with ⟨rfl | rfl, isGapRest⟩
      · exact ih isGapRest _ _
      · exact ih isGapRest _ _

theorem skip_of_beginsToken (inFlow : Bool) (isRest : head.rest = rest)
    (begins : BeginsToken rest) : head.skip inFlow = head := by
  have stays : head.moveTo rest = head := by
    rw [moveTo_append (isRest.trans (List.nil_append rest).symm), behind_nil isRest]
  rw [skip, isRest, skipFrom_of_beginsToken begins, stays]
  simp

/-- Spaces within a line are skipped. -/
theorem skip_spaces {count : Nat} (isText : head.rest = List.replicate count ' ' ++ rest)
    (begins : BeginsToken rest) :
    head.skip false = { head with rest := rest, column := head.column + count } := by
  have isGap : IsGap (List.replicate count ' ') :=
    fun character member => .inl (List.eq_of_mem_replicate member)
  have noBreaks : (List.replicate count ' ').countP isBreak = 0 := by
    rw [List.countP_eq_zero]
    intro character member
    rw [List.eq_of_mem_replicate member]
    decide
  rw [skip, isText, skipFrom_append isGap begins, moveTo_append isText, behind, noBreaks,
    columnBehind_spaces]
  simp

/-- Behind the end of a line a key or an item may begin. -/
theorem skip_line {count : Nat} (isText : head.rest = '\n' :: List.replicate count ' ' ++ rest)
    (begins : BeginsToken rest) :
    head.skip false =
      { head with rest := rest, line := head.line + 1, column := count, mayBegin := true } := by
  have isGap : IsGap ('\n' :: List.replicate count ' ') := by
    refine List.forall_mem_cons.mpr ⟨.inr rfl, fun character member => .inl ?_⟩
    exact List.eq_of_mem_replicate member
  have oneBreak : ('\n' :: List.replicate count ' ').countP isBreak = 1 := by
    rw [List.countP_cons_of_pos (by decide), List.countP_eq_zero.mpr]
    intro character member
    rw [List.eq_of_mem_replicate member]
    decide
  have column : columnBehind head.column ('\n' :: List.replicate count ' ') = count := by
    rw [columnBehind, if_pos (by decide), columnBehind_spaces, Nat.zero_add]
  rw [skip, isText, skipFrom_append isGap begins, moveTo_append isText, behind, oneBreak, column]
  simp [fresh]

end Head

/-! ## Words -/

/-- The characters of keys and numbers. -/
def isWordCharacter (character : Char) : Bool :=
  character.isAlphanum || character = '_'

theorem lt_of_isWordCharacter {character : Char} (isWord : isWordCharacter character = true) :
    character.toNat < 0x80 := by
  have upTo : forall most : Char, most.toNat < 0x80 -> character.val ≤ most.val ->
      character.toNat < 0x80 :=
    fun _ small bounded => Nat.lt_of_le_of_lt (UInt32.le_iff_toNat_le.mp bounded) small
  rcases Bool.or_eq_true_iff.mp isWord with isAlphanum | isUnderscore
  · rcases Bool.or_eq_true_iff.mp isAlphanum with isAlpha | isDigit
    · rcases Bool.or_eq_true_iff.mp isAlpha with isUpper | isLower
      · exact upTo 'Z' (by decide) (of_decide_eq_true isUpper).2
      · exact upTo 'z' (by decide) (of_decide_eq_true (Bool.and_eq_true_iff.mp isLower).2)
    · exact upTo '9' (by decide) (of_decide_eq_true (Bool.and_eq_true_iff.mp isDigit).2)
  · rw [of_decide_eq_true isUnderscore]
    decide

/-- The characters of words stand for nothing else in YAML. -/
theorem other_of_isWordCharacter {character : Char} (isWord : isWordCharacter character = true) :
    isPrintable character = true ∧ isBreak character = false ∧ isBlank character = false ∧
      isIndicator character = false ∧ character ∉ ['-', '?', ':', '.', '\uFEFF'] := by
  have checked : ∀ code < 0x80, isWordCharacter (Char.ofNat code) = true ->
      isPrintable (Char.ofNat code) = true ∧ isBreak (Char.ofNat code) = false ∧
        isBlank (Char.ofNat code) = false ∧ isIndicator (Char.ofNat code) = false ∧
        Char.ofNat code ∉ ['-', '?', ':', '.', '\uFEFF'] := by
    decide +kernel
  have here := checked character.toNat (lt_of_isWordCharacter isWord)
  rw [Char.ofNat_toNat] at here
  exact here isWord

/-! ## What follows a node -/

/-- What follows a node in a printed text: the next key or dash with its
column, or nothing.  Columns tell where the node ends. -/
structure Following where
  column : Nat
  rest : Text

namespace Following

/-- The end of the text. -/
def nothing : Following := ⟨0, []⟩

def text (following : Following) : Text :=
  List.replicate following.column ' ' ++ following.rest

/-- Whether what follows is nothing, or begins with a key or with the dash of
an item further out than a column. -/
structure IsProper (following : Following) (least : Nat) : Prop where
  further : following = nothing ∨ following.rest ≠ [] ∧ following.column < least
  begins : ∀ character ∈ following.rest.head?, isWordCharacter character = true ∨ character = '-'

variable {following : Following} {least : Nat}

theorem isProper_nothing (least : Nat) : nothing.IsProper least :=
  ⟨.inl rfl, by simp [nothing]⟩

theorem IsProper.mono {greater : Nat} (isProper : following.IsProper least)
    (isLess : least ≤ greater) : following.IsProper greater :=
  ⟨isProper.further.imp_right fun further => ⟨further.1, by omega⟩, isProper.begins⟩

/-- No blank, no line end and no comment stands where something follows, and
no colon. -/
theorem IsProper.other (isProper : following.IsProper least) :
    ∀ character ∈ following.rest.head?, isBreak character = false ∧ isBlank character = false ∧
      character ∉ ['#', ':', '\uFEFF'] := by
  intro character isHead
  rcases isProper.begins character isHead with isWord | rfl
  · rcases other_of_isWordCharacter isWord with ⟨-, noBreak, notBlank, notIndicator, other⟩
    refine ⟨noBreak, notBlank, ?_⟩
    simp only [List.mem_cons, List.not_mem_nil, or_false, not_or] at other ⊢
    refine ⟨?_, other.2.2.1, other.2.2.2.2⟩
    rintro rfl
    cases notIndicator
  · decide

theorem IsProper.beginsToken (isProper : following.IsProper least) :
    Head.BeginsToken following.rest := by
  intro character isHead
  rcases isProper.other character isHead with ⟨noBreak, notBlank, other⟩
  simp only [isBlank, Bool.or_eq_false_iff, decide_eq_false_iff_not] at notBlank
  simp only [List.mem_cons, List.not_mem_nil, or_false, not_or] at other ⊢
  exact ⟨⟨other.1, notBlank.1, notBlank.2, other.2.2⟩, noBreak⟩

end Following

/-- Whether a head comes to what follows, if there is something.  There a key
or an item may begin.  This is what every reader of a node leaves behind. -/
def Head.Reaches (head : Head) (following : Following) : Prop :=
  (head.skip false).rest = following.rest ∧
    (following.rest ≠ [] -> (head.skip false).column = following.column ∧
      (head.skip false).mayBegin = true)

namespace Head.Reaches

variable {head : Head} {following : Following} {least : Nat}

theorem skip (reaches : head.Reaches following) (isProper : following.IsProper least) :
    (head.skip false).Reaches following := by
  have stays := skip_of_beginsToken false reaches.1 isProper.beginsToken
  unfold Reaches
  rw [stays]
  exact reaches

theorem of_line (isText : head.rest = '\n' :: following.text)
    (isProper : following.IsProper least) : head.Reaches following := by
  rw [Following.text, ← List.cons_append] at isText
  rw [Reaches, skip_line isText isProper.beginsToken]
  exact ⟨rfl, fun _ => ⟨rfl, rfl⟩⟩

/-- Behind a node that takes the end of its line with it. -/
theorem of_margin (isText : head.rest = following.text) (atMargin : head.column = 0)
    (mayBegin : head.mayBegin = true) (isProper : following.IsProper least) :
    head.Reaches following := by
  rw [Reaches, skip_spaces isText isProper.beginsToken]
  exact ⟨rfl, fun _ => ⟨by rw [atMargin, Nat.zero_add], mayBegin⟩⟩

theorem of_token (isText : head.rest = following.rest)
    (isColumn : following.rest ≠ [] -> head.column = following.column)
    (mayBegin : head.mayBegin = true) (isProper : following.IsProper least) :
    head.Reaches following := by
  rw [Reaches, skip_of_beginsToken false isText isProper.beginsToken]
  exact ⟨isText, fun nonempty => ⟨isColumn nonempty, mayBegin⟩⟩

end Head.Reaches

end Yaml
end FluentLog
