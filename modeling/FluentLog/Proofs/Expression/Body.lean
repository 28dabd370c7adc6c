import FluentLog.Proofs.Expression.Concatenation
import FluentLog.Proofs.Expression.Token

namespace FluentLog

/-!
# Bodies of suppliers, and what they evaluate to

The bodies are sums of literals, numbers, names and sums in parentheses, or a choice
between two such sums by a condition.  They are given as they are written, with the blanks
between their tokens.

Plus signs are read from the left.  A plus sign adds two numbers, characters among them,
and concatenates once there is a text on either side of it.
-/

/-! ## Values -/

/-- What an expression evaluates to.  A character counts as a number in an
addition, but it is shown as itself. -/
inductive Datum where
  | text (content : Text)
  | integer (number : Int)
  | character (content : Char)
  deriving DecidableEq, Repr

namespace Datum

/-- How a value is shown in a message and in a concatenation. -/
def display : Datum -> Text
  | .text content => content
  | .integer number => (toString number).toList
  | .character content => [content]

/-- What a value counts for in an addition.  A text does not count. -/
def number? : Datum -> Option Int
  | .text _ => none
  | .integer number => some number
  | .character content => some content.toNat

end Datum

/-- What the code of an expression leaves open: the values of its names, what
the sum of two integers is, since it may wrap around, and which values are
taken for true. -/
structure Environment where
  name : Text -> Datum
  add : Int -> Int -> Int
  isTrue : Datum -> Bool

namespace Environment

variable (environment : Environment)

def plus (left right : Datum) : Datum :=
  match left.number?, right.number? with
  | some first, some second => .integer (environment.add first second)
  | _, _ => .text (left.display ++ right.display)

/-- The value of a sum, given those of its operands. -/
def total : List Datum -> Datum
  | [] => .text []
  | first :: rest => rest.foldl environment.plus first

/-- Whether the numbers in front of the first text, taken together, are shown
as they are one by one.  Behind a text all plus signs concatenate, so nothing
else can go wrong. -/
def AddsUp (values : List Datum) : Prop :=
  (environment.total (values.takeWhile fun datum => datum.number?.isSome)).display =
    (values.takeWhile fun datum => datum.number?.isSome).flatMap Datum.display

instance (values : List Datum) : Decidable (environment.AddsUp values) :=
  inferInstanceAs (Decidable (_ = _))

variable {environment}

theorem plus_text {left right : Datum} (isText : left.number? = none ∨ right.number? = none) :
    environment.plus left right = .text (left.display ++ right.display) := by
  unfold plus
  split
  · rename_i first second isFirst isSecond
    rw [isFirst, isSecond] at isText
    rcases isText with isNone | isNone <;> cases isNone
  · rfl

theorem foldl_plus_text (content : Text) (values : List Datum) :
    values.foldl environment.plus (.text content) =
      .text (content ++ values.flatMap Datum.display) := by
  induction values generalizing content with
  | nil => simp
  | cons value values ih =>
      rw [List.foldl_cons, plus_text (.inl rfl), ih, List.flatMap_cons, List.append_assoc]
      rfl

/-- A sum is shown as its values one by one exactly if the numbers in front of
the first text are. -/
theorem display_total_iff (values : List Datum) :
    (environment.total values).display = values.flatMap Datum.display ↔
      environment.AddsUp values := by
  have whole := @List.takeWhile_append_dropWhile _ (fun datum => datum.number?.isSome) values
  have isText := List.head?_dropWhile_not (fun datum => datum.number?.isSome) values
  unfold AddsUp
  generalize values.takeWhile _ = numbers at whole ⊢
  generalize values.dropWhile _ = behind at whole isText
  subst whole
  cases behind with
  | nil => rw [List.append_nil]
  | cons datum behind =>
      have noNumber : datum.number? = none := by simpa using isText
      have fromText : environment.total (numbers ++ datum :: behind) =
          .text ((environment.total numbers).display ++ (datum :: behind).flatMap Datum.display) := by
        cases numbers with
        | nil =>
            cases datum with
            | text content => exact foldl_plus_text content behind
            | integer number => cases noNumber
            | character content => cases noNumber
        | cons first numbers =>
            rw [List.cons_append, total, List.foldl_append, List.foldl_cons,
              plus_text (.inr noNumber), foldl_plus_text, List.append_assoc]
            rfl
      rw [fromText, List.flatMap_append]
      exact List.append_left_inj _

theorem addsUp_of_length_le_one {values : List Datum}
    (short : (values.takeWhile fun datum => datum.number?.isSome).length ≤ 1) :
    environment.AddsUp values := by
  unfold AddsUp
  generalize values.takeWhile _ = numbers at short ⊢
  cases numbers with
  | nil => rfl
  | cons datum numbers =>
      have alone : numbers = [] := List.length_eq_zero_iff.mp (by simpa using short)
      rw [alone]
      exact (List.append_nil datum.display).symm

end Environment

/-! ## Grammar -/

mutual

/-- An operand of a sum.  A literal comes with what it stands for. -/
inductive Term where
  | string (code content : Text)
  | character (code : Text) (content : Char)
  | integer (code : Text) (number : Nat)
  | name (code : Text)
  | parens (left : Text) (inner : Addition) (right : Text)

/-- Operands with plus signs between them, and blanks around these. -/
inductive Addition where
  | last (term : Term)
  | more (term : Term) (left right : Text) (rest : Addition)

end

/-- A condition, with what it chooses if it is true.  What it chooses
otherwise is the sum behind it. -/
structure Test where
  condition : Addition
  beforeMark : Text
  afterMark : Text
  whenTrue : Addition
  beforeColon : Text
  afterColon : Text

/-- A sum, with the test whose second choice it is, if there is one. -/
structure Body where
  test : Option Test
  sum : Addition

/-- Whether a character belongs to names and numbers.  Beyond ASCII all
characters but blanks are allowed. -/
def isWordCharacter (character : Char) : Bool :=
  isNameCharacter character || (0x80 ≤ character.toNat && !isBlank character)

/-- The number that digits stand for, with a prefix for a base other than ten. -/
def integer? : Text -> Option Nat
  | '0' :: 'x' :: digits => ofDigits? 16 digits
  | '0' :: 'X' :: digits => ofDigits? 16 digits
  | '0' :: 'b' :: digits => ofDigits? 2 digits
  | '0' :: 'B' :: digits => ofDigits? 2 digits
  | '0' :: digits => ofDigits? 8 digits
  | digits => ofDigits? 10 digits

structure IsWord (number : Bool) (code : Text) : Prop where
  nonempty : code ≠ []
  all : ∀ character ∈ code, isWordCharacter character = true
  digit : code.head?.any Char.isDigit = number

mutual

def Term.written : Term -> Text
  | .string code _ => code
  | .character code _ => code
  | .integer code _ => code
  | .name code => code
  | .parens left inner right => '(' :: left ++ inner.written ++ right ++ [')']

def Addition.written : Addition -> Text
  | .last term => term.written
  | .more term left right rest => term.written ++ left ++ ['+'] ++ right ++ rest.written

end

mutual

/-- Whether the pieces of code are of the kind that they stand for.  What a
literal stands for is what it is read as. -/
def Term.IsProper : Term -> Prop
  | .string code content => Literal.IsToken code content ∧ code.head? = some '"'
  | .character code content => Literal.IsToken code [content] ∧ code.head? = some '\''
  | .integer code number => IsWord true code ∧ integer? (code.filter (· ≠ '_')) = some number
  | .name code => IsWord false code
  | .parens left inner right => Text.IsBlank left ∧ inner.IsProper ∧ Text.IsBlank right

def Addition.IsProper : Addition -> Prop
  | .last term => term.IsProper
  | .more term left right rest =>
      term.IsProper ∧ Text.IsBlank left ∧ Text.IsBlank right ∧ rest.IsProper

end

mutual

def Term.evaluate (environment : Environment) : Term -> Datum
  | .string _ content => .text content
  | .character _ content => .character content
  | .integer _ number => .integer number
  | .name code => environment.name code
  | .parens _ inner _ => environment.total (inner.values environment)

def Addition.values (environment : Environment) : Addition -> List Datum
  | .last term => [term.evaluate environment]
  | .more term _ _ rest => term.evaluate environment :: rest.values environment

end

mutual

/-- An operand with each run of blanks in it as one space. -/
def Term.collapsed : Term -> Term
  | .parens left inner right =>
      .parens (Text.squeeze left) inner.collapsed (Text.squeeze right)
  | .string code content => .string code content
  | .character code content => .character code content
  | .integer code number => .integer code number
  | .name code => .name code

def Addition.collapsed : Addition -> Addition
  | .last term => .last term.collapsed
  | .more term left right rest =>
      .more term.collapsed (Text.squeeze left) (Text.squeeze right) rest.collapsed

end

def Term.literal? : Term -> Option Text
  | .string _ content => some content
  | .character _ content => some [content]
  | _ => none

namespace Addition

def evaluate (environment : Environment) (addition : Addition) : Datum :=
  environment.total (addition.values environment)

def first : Addition -> Term
  | .last term => term
  | .more term _ _ _ => term

def others : Addition -> List Term
  | .last _ => []
  | .more _ _ _ rest => rest.first :: rest.others

def front : Addition -> List Term
  | .last _ => []
  | .more term _ _ rest => term :: rest.front

def final : Addition -> Term
  | .last term => term
  | .more _ _ _ rest => rest.final

end Addition

namespace Test

/-- The condition, and the question mark with the blanks around it. -/
def question (test : Test) : Text :=
  test.condition.written ++ test.beforeMark ++ ['?'] ++ test.afterMark

def written (test : Test) : Text :=
  test.question ++ test.whenTrue.written ++ test.beforeColon ++ [':']

structure IsProper (test : Test) : Prop where
  condition : test.condition.IsProper
  beforeMark : Text.IsBlank test.beforeMark
  afterMark : Text.IsBlank test.afterMark
  whenTrue : test.whenTrue.IsProper
  beforeColon : Text.IsBlank test.beforeColon
  afterColon : Text.IsBlank test.afterColon

/-- The test of the last operand of the condition. -/
def narrowed (test : Test) : Test :=
  { test with condition := .last test.condition.final }

def collapsed (test : Test) : Test where
  condition := test.condition.collapsed
  beforeMark := Text.squeeze test.beforeMark
  afterMark := Text.squeeze test.afterMark
  whenTrue := test.whenTrue.collapsed
  beforeColon := Text.squeeze test.beforeColon
  afterColon := Text.squeeze test.afterColon

end Test

namespace Body

/-- What stands in front of the sum. -/
def opening (body : Body) : Text :=
  match body.test with
  | none => []
  | some test => test.written ++ test.afterColon

def written (body : Body) : Text :=
  body.opening ++ body.sum.written

structure IsProper (body : Body) : Prop where
  test : ∀ test ∈ body.test, test.IsProper
  sum : body.sum.IsProper

def single (term : Term) : Body :=
  ⟨none, .last term⟩

/-- Whether the first choice of the test is one operand, if there is a test.
Otherwise a plus sign in it cuts the test in two. -/
def HasSingleChoice (body : Body) : Prop :=
  ∀ test ∈ body.test, ∃ term, test.whenTrue = .last term

/-- What a body evaluates to.  The test is the last thing that is done. -/
def evaluate (environment : Environment) (body : Body) : Datum :=
  match body.test with
  | none => body.sum.evaluate environment
  | some test =>
      if environment.isTrue (test.condition.evaluate environment) then
        test.whenTrue.evaluate environment
      else body.sum.evaluate environment

def collapsed (body : Body) : Body where
  test := body.test.map Test.collapsed
  sum := body.sum.collapsed

/-- The operands of the condition in front of its last one. -/
def leading (body : Body) : List Term :=
  match body.test with
  | none => []
  | some test => test.condition.front

/-- The first operand of the sum, with the rest of the test in front of it. -/
def middle (body : Body) : Body where
  test := body.test.map Test.narrowed
  sum := .last body.sum.first

/-- The pieces of a body between its plus signs, if the first choice has none.
The first one behind the condition takes the test with it. -/
def pieces (body : Body) : List Body :=
  body.leading.map single ++ body.middle :: body.sum.others.map single

def literal? (body : Body) : Option Text :=
  match body.test, body.sum with
  | none, .last term => term.literal?
  | _, _ => none

/-- What a body without plus signs is taken for. -/
def operand (body : Body) : Operand :=
  match body.literal? with
  | some content => .literal content
  | none => .expression body.collapsed.written

end Body

/-! ## Operands of a sum -/

theorem Addition.isProper_first : (addition : Addition) -> addition.IsProper ->
    addition.first.IsProper
  | .last _, proper => proper
  | .more _ _ _ _, proper => proper.1

theorem Addition.isProper_others : (addition : Addition) -> addition.IsProper ->
    ∀ term ∈ addition.others, term.IsProper
  | .last _, _ => List.forall_mem_nil _
  | .more _ _ _ rest, ⟨_, _, _, proper⟩ => List.forall_mem_cons.mpr
      ⟨rest.isProper_first proper, rest.isProper_others proper⟩

theorem Addition.isProper_front : (addition : Addition) -> addition.IsProper ->
    ∀ term ∈ addition.front, term.IsProper
  | .last _, _ => List.forall_mem_nil _
  | .more _ _ _ rest, ⟨proper, _, _, properRest⟩ => List.forall_mem_cons.mpr
      ⟨proper, rest.isProper_front properRest⟩

theorem Addition.isProper_final : (addition : Addition) -> addition.IsProper ->
    addition.final.IsProper
  | .last _, proper => proper
  | .more _ _ _ rest, ⟨_, _, _, proper⟩ => rest.isProper_final proper

theorem Addition.values_eq (environment : Environment) : (addition : Addition) ->
    addition.values environment =
      (addition.first :: addition.others).map (Term.evaluate environment)
  | .last _ => rfl
  | .more _ _ _ rest => congrArg _ (rest.values_eq environment)

/-! ## Collapsed code -/

mutual

theorem Term.isProper_collapsed : (term : Term) -> term.IsProper -> term.collapsed.IsProper
  | .string _ _, proper => proper
  | .character _ _, proper => proper
  | .integer _ _, proper => proper
  | .name _, proper => proper
  | .parens left inner right, ⟨_, proper, _⟩ =>
      ⟨Text.isBlank_squeeze left, inner.isProper_collapsed proper, Text.isBlank_squeeze right⟩

theorem Addition.isProper_collapsed : (addition : Addition) -> addition.IsProper ->
    addition.collapsed.IsProper
  | .last term, proper => term.isProper_collapsed proper
  | .more term left right rest, ⟨proper, _, _, properRest⟩ =>
      ⟨term.isProper_collapsed proper, Text.isBlank_squeeze left, Text.isBlank_squeeze right,
        rest.isProper_collapsed properRest⟩

end

mutual

/-- Blanks do not count in an evaluation. -/
theorem Term.evaluate_collapsed (environment : Environment) : (term : Term) ->
    term.collapsed.evaluate environment = term.evaluate environment
  | .string _ _ => rfl
  | .character _ _ => rfl
  | .integer _ _ => rfl
  | .name _ => rfl
  | .parens _ inner _ => congrArg environment.total (inner.values_collapsed environment)

theorem Addition.values_collapsed (environment : Environment) : (addition : Addition) ->
    addition.collapsed.values environment = addition.values environment
  | .last term => congrArg (fun value => [value]) (term.evaluate_collapsed environment)
  | .more term _ _ rest => by
      rw [Addition.collapsed, Addition.values, Addition.values,
        term.evaluate_collapsed environment, rest.values_collapsed environment]

end

theorem Test.IsProper.collapsed {test : Test} (proper : test.IsProper) :
    test.collapsed.IsProper where
  condition := test.condition.isProper_collapsed proper.condition
  beforeMark := Text.isBlank_squeeze _
  afterMark := Text.isBlank_squeeze _
  whenTrue := test.whenTrue.isProper_collapsed proper.whenTrue
  beforeColon := Text.isBlank_squeeze _
  afterColon := Text.isBlank_squeeze _

namespace Body

variable {body : Body}

theorem IsProper.collapsed (proper : body.IsProper) : body.collapsed.IsProper where
  test := by
    intro test isTest
    rcases Option.map_eq_some_iff.mp isTest with ⟨old, isOld, rfl⟩
    exact (proper.test old isOld).collapsed
  sum := body.sum.isProper_collapsed proper.sum

theorem evaluate_collapsed (environment : Environment) (body : Body) :
    body.collapsed.evaluate environment = body.evaluate environment := by
  have same : forall addition : Addition,
      addition.collapsed.evaluate environment = addition.evaluate environment :=
    fun addition => congrArg environment.total (addition.values_collapsed environment)
  rcases body with ⟨test, sum⟩
  cases test with
  | none => exact same sum
  | some test =>
      have whole : collapsed ⟨some test, sum⟩ = ⟨some test.collapsed, sum.collapsed⟩ := rfl
      rw [whole, evaluate, evaluate]
      simp only [Test.collapsed, same]

theorem isProper_single {term : Term} (proper : term.IsProper) : (single term).IsProper where
  test := fun _ isTest => by cases isTest
  sum := proper

theorem IsProper.middle (proper : body.IsProper) : body.middle.IsProper where
  test := by
    intro test isTest
    rcases Option.map_eq_some_iff.mp isTest with ⟨whole, isWhole, rfl⟩
    have properWhole := proper.test whole isWhole
    exact { properWhole with condition := whole.condition.isProper_final properWhole.condition }
  sum := body.sum.isProper_first proper.sum

theorem isProper_of_mem_pieces (proper : body.IsProper) {piece : Body}
    (member : piece ∈ body.pieces) : piece.IsProper ∧ ∃ term, piece.sum = .last term := by
  rcases List.mem_append.mp member with isLeading | behind
  · rcases List.mem_map.mp isLeading with ⟨term, isTerm, rfl⟩
    refine ⟨isProper_single ?_, term, rfl⟩
    rcases body with ⟨test, sum⟩
    cases test with
    | none => cases isTerm
    | some test =>
        exact test.condition.isProper_front (proper.test test rfl).condition term isTerm
  · rcases List.mem_cons.mp behind with rfl | isOther
    · exact ⟨proper.middle, _, rfl⟩
    · rcases List.mem_map.mp isOther with ⟨term, isTerm, rfl⟩
      exact ⟨isProper_single (body.sum.isProper_others proper.sum term isTerm), term, rfl⟩

/-! ## What the pieces are shown as -/

/-- Whether a body is shown as its pieces are one by one.  If the test chooses
the first sum, what stands behind the plus signs must not be seen.  A
condition with plus signs is cut up too, and its first operands are shown
whatever is chosen. -/
def IsShownByPieces (environment : Environment) (body : Body) : Prop :=
  match body.test with
  | none => environment.AddsUp (body.sum.values environment)
  | some test =>
      match test.condition with
      | .last term =>
          if environment.isTrue (term.evaluate environment) then
            ∀ datum ∈ (body.sum.values environment).tail, datum.display = []
          else environment.AddsUp (body.sum.values environment)
      | .more .. =>
          body.pieces.flatMap (fun piece => (piece.evaluate environment).display) =
            (body.evaluate environment).display

theorem flatMap_pieces_iff (environment : Environment) (body : Body) :
    body.pieces.flatMap (fun piece => (piece.evaluate environment).display) =
        (body.evaluate environment).display ↔ body.IsShownByPieces environment := by
  have values := body.sum.values_eq environment
  rw [List.map_cons] at values
  have others : (body.sum.others.map single).flatMap
      (fun piece => (piece.evaluate environment).display) =
        (body.sum.values environment).tail.flatMap Datum.display := by
    rw [values, List.tail_cons, List.flatMap_map, List.flatMap_map]
    rfl
  have together : (body.sum.first.evaluate environment).display ++
      (body.sum.values environment).tail.flatMap Datum.display =
        (body.sum.evaluate environment).display ↔
          environment.AddsUp (body.sum.values environment) := by
    rw [← environment.display_total_iff, Addition.evaluate, values, List.flatMap_cons,
      List.tail_cons, eq_comm]
  rcases body with ⟨test, sum⟩
  cases test with
  | none =>
      have pieces : pieces ⟨none, sum⟩ = single sum.first :: sum.others.map single := rfl
      rw [pieces, List.flatMap_cons, others]
      exact together
  | some test =>
      rcases test with ⟨condition, beforeMark, afterMark, whenTrue, beforeColon, afterColon⟩
      cases condition with
      | more term left right rest => exact Iff.rfl
      | last term =>
          have pieces : pieces ⟨some ⟨.last term, beforeMark, afterMark, whenTrue, beforeColon,
              afterColon⟩, sum⟩ = ⟨some ⟨.last term, beforeMark, afterMark, whenTrue, beforeColon,
              afterColon⟩, .last sum.first⟩ :: sum.others.map single := rfl
          rw [pieces, List.flatMap_cons, others]
          unfold IsShownByPieces evaluate
          by_cases isTrue : environment.isTrue (term.evaluate environment) = true
          · have chosen : environment.isTrue ((Addition.last term).evaluate environment) = true :=
              isTrue
            simp only [isTrue, chosen, if_true, List.append_right_eq_self, List.flatMap_eq_nil_iff]
          · have chosen : ¬ environment.isTrue ((Addition.last term).evaluate environment) = true :=
              isTrue
            simp only [isTrue, chosen, Bool.false_eq_true, if_false]
            exact together

end Body

end FluentLog
