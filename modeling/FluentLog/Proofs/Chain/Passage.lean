import FluentLog.Proofs.Chain.Matching
import FluentLog.Proofs.Text.Utf8

namespace FluentLog

/-!
# The places of a matcher

A matcher goes from one place of a text to the next, and what it passes over is a text each
time: a word or a sign, or blanks.  So it never leaves the source text, its offsets count
the bytes it has passed, and it stops at boundaries of characters only.  None of this depends
on what the words of the dialect are.
-/

theorem IsBlank.exists_encode {blanks : Bytes} (blank : IsBlank blanks) :
    ∃ text : Text, blanks = Utf8.encode text ∧
      ∀ character ∈ text, isBlank character = true := by
  induction blanks with
  | nil => exact ⟨[], rfl, List.forall_mem_nil _⟩
  | cons byte blanks ih =>
      rcases ih fun other member => blank other (List.mem_cons_of_mem byte member) with
        ⟨text, rfl, allBlank⟩
      have isBlankByte := blank byte List.mem_cons_self
      have single : [byte] = Utf8.encode [Char.ofNat byte.toNat] ∧
          isBlank (Char.ofNat byte.toNat) = true := by
        simp only [FluentLog.isBlankByte, Bool.or_eq_true, decide_eq_true_eq] at isBlankByte
        rcases isBlankByte with (((rfl | rfl) | rfl) | rfl) | rfl <;> decide
      refine ⟨Char.ofNat byte.toNat :: text, ?_, List.forall_mem_cons.mpr ⟨single.2, allBlank⟩⟩
      rw [← List.singleton_append, single.1, ← Utf8.encode_append]
      rfl

namespace Place

/-- Whether a matcher gets from one place to another by passing over a text.
The matchers look at bytes, but all that they pass over is whole characters. -/
def Passes (word : Text) (place after : Place) : Prop :=
  place.rest = Utf8.encode word ++ after.rest ∧
    after.offset = place.offset + (Utf8.encode word).length

def LiesIn (source : Bytes) (place : Place) : Prop :=
  ∃ left, source = left ++ place.rest ∧ left.length = place.offset

variable {place middle after : Place} {word other : Text}

/-! ## Passing over a text -/

theorem Passes.trans (first : Passes word place middle) (second : Passes other middle after) :
    Passes (word ++ other) place after := by
  constructor
  · rw [first.1, second.1, Utf8.encode_append, List.append_assoc]
  · rw [second.2, first.2, Utf8.encode_append, List.length_append, Nat.add_assoc]

theorem Passes.le (passes : Passes word place after) : place.offset ≤ after.offset := by
  rw [passes.2]
  exact Nat.le_add_right _ _

theorem Passes.lt (passes : Passes word place after) (nonempty : word ≠ []) :
    place.offset < after.offset := by
  have positive : 0 < (Utf8.encode word).length := by
    cases word with
    | nil => exact absurd rfl nonempty
    | cons character word =>
        rcases Utf8.exists_encodeChar character with ⟨first, others, isCharacter, -, -⟩
        rw [Utf8.encode_cons, isCharacter]
        exact Nat.succ_pos _
  rw [passes.2]
  omega

/-- The text behind is what is left when the passed bytes are dropped. -/
theorem Passes.drop (passes : Passes word place after) :
    place.rest.drop (after.offset - place.offset) = after.rest := by
  rw [passes.1]
  exact List.drop_left' (by rw [passes.2]; omega)

theorem passes_of_eat (eaten : place.eat (Utf8.encode word) = some after) :
    Passes word place after :=
  eat_eq_some_iff.mp eaten

theorem passes_of_eatWord {word : String} (eaten : place.eatWord word = some after) :
    Passes word.toList place after :=
  passes_of_eat (eatWord_eq_some_iff.mp eaten).1

theorem exists_passes_skipBlanks (place : Place) : ∃ blanks, Passes blanks place place.skipBlanks := by
  rcases place.exists_skipBlanks with ⟨bytes, blank, same, atOffset⟩
  rcases blank.exists_encode with ⟨blanks, rfl, -⟩
  exact ⟨blanks, same, atOffset⟩

theorem exists_passes_of_sign (first : Char) (others : Text)
    (eaten : place.skipBlanks.eat (Utf8.encode (first :: others)) = some after) :
    ∃ word, word ≠ [] ∧ Passes word place after := by
  rcases place.exists_passes_skipBlanks with ⟨blanks, passes⟩
  exact ⟨blanks ++ first :: others, List.append_ne_nil_of_right_ne_nil blanks
    (List.cons_ne_nil first others), passes.trans (passes_of_eat eaten)⟩

theorem exists_passes_of_eatEmptyParens (eaten : place.eatEmptyParens = some after) :
    ∃ word, word ≠ [] ∧ Passes word place after := by
  rcases Option.bind_eq_some_iff.mp eaten with ⟨opened, isOpened, isClosed⟩
  rcases exists_passes_of_sign '(' [] isOpened with
    ⟨first, nonempty, toOpened⟩
  rcases exists_passes_of_sign ')' [] isClosed with
    ⟨second, -, toClosed⟩
  exact ⟨first ++ second, List.append_ne_nil_of_left_ne_nil nonempty second,
    toOpened.trans toClosed⟩

/-! ## Places of a source text -/

theorem LiesIn.offset_add_length {source : Bytes} (lies : place.LiesIn source) :
    place.offset + place.rest.length = source.length := by
  rcases lies with ⟨left, rfl, sameLength⟩
  rw [List.length_append, sameLength]

theorem LiesIn.drop_eq {source : Bytes} (lies : place.LiesIn source) :
    source.drop place.offset = place.rest := by
  rcases lies with ⟨left, same, atOffset⟩
  rw [same, List.drop_left' atOffset]

theorem LiesIn.next {source : Bytes} {offset : Nat} {byte : UInt8} {rest : Bytes}
    (lies : LiesIn source ⟨offset, byte :: rest⟩) : LiesIn source ⟨offset + 1, rest⟩ := by
  rcases lies with ⟨left, rfl, rfl⟩
  exact ⟨left ++ [byte], by simp, by simp⟩

theorem LiesIn.eat {source token : Bytes} (lies : place.LiesIn source)
    (eaten : place.eat token = some after) : after.LiesIn source := by
  rcases eat_eq_some_iff.mp eaten with ⟨same, atOffset⟩
  rcases lies with ⟨left, rfl, sameLength⟩
  refine ⟨left ++ token, ?_, ?_⟩
  · rw [same, List.append_assoc]
  · rw [List.length_append, sameLength, atOffset]

theorem LiesIn.passes {source : Bytes} (lies : place.LiesIn source)
    (passes : Passes word place after) : after.LiesIn source :=
  lies.eat (eat_eq_some_iff.mpr passes)

variable {text : Text}

/-- A place behind a text that was passed stands at a boundary if the one in
front of it does. -/
theorem LiesIn.isBoundary_of_passes (lies : place.LiesIn (Utf8.encode text))
    (boundary : Utf8.IsBoundary text place.offset) (passes : Passes word place after) :
    Utf8.IsBoundary text after.offset := by
  rcases lies with ⟨left, same, sameLength⟩
  rw [passes.1] at same
  rw [← sameLength] at boundary
  rw [passes.2, ← sameLength]
  exact boundary.append same

theorem LiesIn.isBoundary (lies : place.LiesIn (Utf8.encode text)) (nonempty : word ≠ [])
    (passes : Passes word place after) : Utf8.IsBoundary text place.offset := by
  rcases lies with ⟨left, same, sameLength⟩
  rw [passes.1] at same
  rw [← sameLength]
  exact Utf8.isBoundary_of_append nonempty same

end Place

/-! ## Calls -/

namespace Call

variable {dialect : Dialect} {place : Place}

theorem exists_passes_of_argument? {opened : Place}
    (isOpened : argument? dialect place = some opened) :
    ∃ word, word ≠ [] ∧ Place.Passes word place opened := by
  rcases Option.bind_eq_some_iff.mp isOpened with ⟨named, isNamed, isOpen⟩
  rcases place.exists_passes_skipBlanks with ⟨blanks, toWord⟩
  rcases Place.exists_passes_of_sign '(' [] isOpen with
    ⟨sign, nonempty, toOpened⟩
  exact ⟨_, List.append_ne_nil_of_right_ne_nil _ nonempty,
    (toWord.trans (Place.passes_of_eatWord isNamed)).trans toOpened⟩

theorem exists_passes_of_terminal? {stop : Nat} (isCall : terminal? dialect place = some stop) :
    ∃ word after, Place.Passes word place after ∧ after.offset = stop := by
  rcases Option.bind_eq_some_iff.mp isCall with ⟨named, isNamed, isCall⟩
  rcases Option.bind_eq_some_iff.mp isCall with ⟨closed, isClosed, atStop⟩
  rcases place.exists_passes_skipBlanks with ⟨blanks, toWord⟩
  rcases Place.exists_passes_of_eatEmptyParens isClosed with ⟨parens, -, toClosed⟩
  exact ⟨_, closed, (toWord.trans (Place.passes_of_eatWord isNamed)).trans toClosed,
    Option.some.inj atStop⟩

/-- What a message call passes over: all in front of its argument, the
argument, and the closing parenthesis. -/
theorem exists_passes_of_message? {call : Message} (isCall : message? dialect place = some call) :
    ∃ lead argument closing opened ended after, Place.Passes lead place opened ∧
      argument ≠ [] ∧ Place.Passes argument opened ended ∧ Place.Passes closing ended after ∧
      call = ⟨⟨opened.offset, ended.offset⟩, after.offset⟩ := by
  rcases Option.bind_eq_some_iff.mp isCall with ⟨named, isNamed, isCall⟩
  rcases Option.bind_eq_some_iff.mp isCall with ⟨opened, isOpened, isCall⟩
  rcases Option.bind_eq_some_iff.mp isCall with ⟨quoted, isQuoted, isCall⟩
  rcases Option.bind_eq_some_iff.mp isCall with ⟨braced, isBraced, isCall⟩
  rcases Option.bind_eq_some_iff.mp isCall with ⟨unquoted, isUnquoted, isCall⟩
  rcases Option.bind_eq_some_iff.mp isCall with ⟨closed, isClosed, isCall⟩
  rcases place.exists_passes_skipBlanks with ⟨blanks, toWord⟩
  rcases Place.exists_passes_of_sign '(' [] isOpened with
    ⟨sign, -, toOpened⟩
  rcases Place.exists_passes_of_sign '"' [] isQuoted with
    ⟨first, nonempty, toQuoted⟩
  rcases Place.exists_passes_of_sign '\x7b' ['\x7d'] isBraced with
    ⟨braces, -, toBraced⟩
  rcases Place.exists_passes_of_sign '"' [] isUnquoted with
    ⟨second, -, toUnquoted⟩
  rcases unquoted.exists_passes_skipBlanks with ⟨last, toEnd⟩
  exact ⟨_, _, [')'], opened, unquoted.skipBlanks, closed,
    (toWord.trans (Place.passes_of_eatWord isNamed)).trans toOpened,
    List.append_ne_nil_of_left_ne_nil nonempty _,
    toQuoted.trans (toBraced.trans (toUnquoted.trans toEnd)), Place.passes_of_eat isClosed,
    (Option.some.inj isCall).symm⟩

/-- What an initial call passes over: the receiver, the sign and the words in
front of the level, the level, and the parentheses. -/
theorem exists_passes_of_initial? {call : Initial} (isCall : initial? dialect place = some call) :
    ∃ between parens after, between ≠ [] ∧ Place.Passes
        (call.receiver.toList ++ (between ++ (call.level.toList ++ parens))) place after ∧
      after.offset = call.stop := by
  rw [initial?_eq] at isCall
  rcases List.exists_of_findSome?_eq_some isCall with ⟨receiver, -, isCall⟩
  rcases Option.bind_eq_some_iff.mp isCall with ⟨levelled, received, isCall⟩
  rcases Option.bind_eq_some_iff.mp received with ⟨named, isNamed, received⟩
  rcases Option.bind_eq_some_iff.mp received with ⟨dotted, isDotted, isPrefix⟩
  rcases List.exists_of_findSome?_eq_some isCall with ⟨level, -, isCall⟩
  rcases Option.bind_eq_some_iff.mp isCall with ⟨spelled, isSpelled, isCall⟩
  rcases Option.bind_eq_some_iff.mp isCall with ⟨closed, isClosed, isCall⟩
  rcases Place.exists_passes_of_sign '.' [] isDotted with
    ⟨sign, nonempty, toDotted⟩
  rcases dotted.exists_passes_skipBlanks with ⟨blanks, toPrefix⟩
  rcases Place.exists_passes_of_eatEmptyParens isClosed with ⟨parens, -, toClosed⟩
  have sameCall := Option.some.inj isCall
  subst sameCall
  exact ⟨_, parens, closed, List.append_ne_nil_of_left_ne_nil nonempty _,
    (Place.passes_of_eatWord isNamed).trans
      ((toDotted.trans (toPrefix.trans (Place.passes_of_eat isPrefix))).trans
        ((Place.passes_of_eatWord isSpelled).trans toClosed)), rfl⟩

theorem exists_passes_nonempty_of_initial? {call : Initial}
    (isCall : initial? dialect place = some call) :
    ∃ word after, word ≠ [] ∧ Place.Passes word place after ∧ after.offset = call.stop := by
  rcases exists_passes_of_initial? isCall with ⟨between, parens, after, nonempty, passes, isStop⟩
  exact ⟨_, after, List.append_ne_nil_of_right_ne_nil call.receiver.toList
    (List.append_ne_nil_of_left_ne_nil nonempty (call.level.toList ++ parens)), passes, isStop⟩

end Call
end FluentLog
