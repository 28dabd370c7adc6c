import FluentLog.Proofs.Chain.Nesting

namespace FluentLog

/-!
# Texts in which chains are renewed

Inlining puts another text in the place of each chain that it replaces.  The new text
begins with the initial call of the chain and ends with its terminal call, outside all
parentheses.  So a candidate in front of it that was not completed before is not
completed afterwards either: inside parentheses it passes over both texts alike, and
outside of them the old chain would have completed it.
-/

variable {dialect : Dialect}

/-- Whether a text keeps the initial call of a chain, closes only its own
parentheses and ends with a terminal call.  So what stands around a chain
cannot tell it from its replacement. -/
def StaysWhole (dialect : Dialect) (chain new : Bytes) : Prop :=
  (∃ initial tail newTail, chain = initial ++ tail ∧ new = initial ++ newTail ∧
    Call.IsInitial dialect initial) ∧ IsTail dialect .start new

theorem IsChain.staysWhole (identifiers : dialect.HasIdentifierWords) {chain : Bytes}
    (isChain : IsChain dialect chain) : StaysWhole dialect chain chain := by
  rcases isChain with ⟨initial, tail, begins, rfl, isInitial, isTail, -, -⟩
  refine ⟨⟨initial, tail, tail, rfl, rfl, isInitial⟩, ?_⟩
  rcases isTail with ⟨middle, lead, inside, named, blank, rfl, own, atRest⟩
  rcases isInitial.run_atRest identifiers with ⟨-, reads⟩
  refine ⟨initial ++ middle, lead, inside, named, blank, by simp, ?_, ?_⟩
  · apply Scanner.ClosesOwn.append (reads 0 _).2
    rw [(reads 0 _).1]
    exact own
  · rw [Scanner.run_append, Scanner.start_eq_atRest, (reads 0 _).1]
    exact atRest

/-- What closes only its own parentheses is silent inside parentheses, and
leaves a scanner there as it is. -/
theorem IsTail.silent (identifiers : dialect.HasIdentifierWords) {chain : Bytes}
    (isTail : IsTail dialect .start chain) (depth : Nat) (ahead : Option UInt8) :
    (Scanner.atRest (depth + 1)).Silent ahead chain ∧
      (Scanner.atRest (depth + 1)).run ahead chain = Scanner.atRest (depth + 1) := by
  rcases isTail.closesOwn identifiers ahead with ⟨own, atRest⟩
  have silent := Scanner.silent_deepen own depth
  have deeper := Scanner.run_deepen own (depth + 1)
  rw [atRest] at deeper
  rw [Scanner.start_eq_atRest, Scanner.deepen_atRest, Nat.zero_add] at silent
  rw [Scanner.start_eq_atRest, Scanner.deepen_atRest, Nat.zero_add] at deeper
  exact ⟨silent, deeper⟩

/-! ## The relation -/

/-- Whether a text is another one with some of its chains renewed.  The
scanner and the byte in front are those of a pass over the other text. -/
inductive Renews (dialect : Dialect) : Scanner -> Option UInt8 -> Bytes -> Bytes -> Prop
  | done (scanner : Scanner) (before : Option UInt8) : Renews dialect scanner before [] []
  /-- A chain is renewed. -/
  | chain {scanner : Scanner} {before : Option UInt8} {chain new rest newRest : Bytes}
      (outside : Scanner.Agree scanner .start) (boundary : before.any isIdentifierByte = false)
      (isChain : IsChain dialect chain) (whole : StaysWhole dialect chain new)
      (behind : Renews dialect .start (some Byte.closeParen) rest newRest) :
      Renews dialect scanner before (chain ++ rest) (new ++ newRest)
  /-- A byte stays. -/
  | byte {scanner : Scanner} {before : Option UInt8} {byte : UInt8} {rest newRest : Bytes}
      (behind : Renews dialect (scanner.step byte rest.head?).2 (some byte) rest newRest) :
      Renews dialect scanner before (byte :: rest) (byte :: newRest)

namespace Renews

variable {scanner : Scanner} {before : Option UInt8} {text new : Bytes}

theorem head?_eq (identifiers : dialect.HasIdentifierWords)
    (renews : Renews dialect scanner before text new) : text.head? = new.head? := by
  cases renews with
  | done => rfl
  | chain outside boundary isChain whole behind =>
      rcases whole.1 with ⟨initial, tail, newTail, rfl, rfl, isInitial⟩
      cases initial with
      | nil => cases (isInitial.run_atRest identifiers).1
      | cons => rfl
  | byte => rfl

/-- No chain is renewed in a stretch in which no initial call begins, so it
begins both texts if it begins one. -/
theorem take (renews : Renews dialect scanner before text new) {front : Bytes}
    (noInitial : NoInitial dialect before front)
    (begins : (∃ after, text = front ++ after) ∨ ∃ after, new = front ++ after) :
    ∃ rest newRest, text = front ++ rest ∧ new = front ++ newRest ∧
      Renews dialect (scanner.run rest.head? front) (front.getLast?.or before) rest newRest := by
  induction front generalizing scanner before text new with
  | nil => exact ⟨text, new, rfl, rfl, renews⟩
  | cons first front ih =>
      cases renews with
      | done =>
          rcases begins with ⟨after, same⟩ | ⟨after, same⟩ <;> cases same
      | @chain _ _ chain new rest newRest outside boundary isChain whole behind =>
          rcases whole.1 with ⟨initial, tail, newTail, rfl, rfl, isInitial⟩
          rcases noInitial.1 with inWord | notStarts
          · rw [boundary] at inWord
            cases inWord
          · rcases begins with ⟨after, same⟩ | ⟨after, same⟩
            · apply absurd _ (notStarts after)
              exact ⟨initial, tail ++ rest, isInitial, by rw [← same, List.append_assoc]⟩
            · apply absurd _ (notStarts after)
              exact ⟨initial, newTail ++ newRest, isInitial, by rw [← same, List.append_assoc]⟩
      | @byte _ _ byte rest newRest behind =>
          have later : byte = first ∧
              ((∃ after, rest = front ++ after) ∨ ∃ after, newRest = front ++ after) := by
            rcases begins with ⟨after, same⟩ | ⟨after, same⟩
            · exact ⟨(List.cons.inj same).1, .inl ⟨after, (List.cons.inj same).2⟩⟩
            · exact ⟨(List.cons.inj same).1, .inr ⟨after, (List.cons.inj same).2⟩⟩
          rcases later with ⟨rfl, inRest⟩
          rcases ih behind noInitial.2 inRest with ⟨others, newOthers, rfl, rfl, renewed⟩
          refine ⟨others, newOthers, rfl, rfl, ?_⟩
          rw [getLast?_cons_or, Scanner.run_cons, ← List.head?_append]
          exact renewed

theorem beginAlike (identifiers : dialect.HasIdentifierWords)
    (renews : Renews dialect scanner before text new) : Call.BeginAlike text new := by
  intro bytes plain
  have noInitial := plain.noInitial identifiers before
  constructor
  · intro begins
    rcases renews.take noInitial (.inl begins) with ⟨-, newRest, -, same, -⟩
    exact ⟨newRest, same⟩
  · intro begins
    rcases renews.take noInitial (.inr begins) with ⟨rest, -, same, -, -⟩
    exact ⟨rest, same⟩

/-- A candidate that is not completed in the old text is not completed in the
new one.  A renewed chain is silent between parentheses, and outside of them
the old one would have completed the candidate. -/
theorem ending?_eq_none (identifiers : dialect.HasIdentifierWords)
    (own : dialect.HasOwnTerminal) {hasMessage : Bool} {other : Scanner}
    (renews : Renews dialect scanner before text new) (agree : Scanner.Agree other scanner)
    (unbroken : HasUnbrokenBraces text) (unbrokenNew : HasUnbrokenBraces new)
    (lost : ending? dialect hasMessage other text = none) :
    ending? dialect hasMessage other new = none := by
  induction renews generalizing hasMessage other with
  | done => exact lost
  | @chain scanner before chain new rest newRest outside boundary isChain whole behind ih =>
      have isAtRest := (agree.trans outside).eq_atRest
      generalize other.cursor.depth = depth at isAtRest
      subst isAtRest
      cases depth with
      | zero =>
          -- Outside all parentheses the old chain would have completed it.
          have found := isChain.isSome_ending? identifiers own hasMessage unbroken
          rw [lost] at found
          cases found
      | succ depth =>
          have passed := (isChain.staysWhole identifiers).2.silent identifiers depth rest.head?
          have passedNew := whole.2.silent identifiers depth newRest.head?
          rw [ending?_append_of_silent passed.1, passed.2, Option.map_eq_none_iff] at lost
          rw [ending?_append_of_silent passedNew.1, passedNew.2, Option.map_eq_none_iff]
          exact ih (Scanner.agree_atRest _ 0) unbroken.of_append_right
            unbrokenNew.of_append_right lost
  | @byte scanner before byte rest newRest behind ih =>
      have unbrokenRest : HasUnbrokenBraces rest := unbroken.tail
      have unbrokenNewRest : HasUnbrokenBraces newRest := unbrokenNew.tail
      have sameHead := behind.head?_eq identifiers
      have sameVerdict : verdict dialect hasMessage other byte rest =
          verdict dialect hasMessage other byte newRest :=
        verdict_congr identifiers unbrokenRest unbrokenNewRest sameHead
          fun _ _ => behind.beginAlike identifiers
      rw [ending?, sameVerdict] at lost
      rw [ending?]
      cases isVerdict : verdict dialect hasMessage other byte newRest with
      | «open» goesOn =>
          rw [isVerdict] at lost
          simp only [Option.map_eq_none_iff] at lost ⊢
          rw [← sameHead]
          exact ih (agree.step byte rest.head?).2 unbrokenRest unbrokenNewRest lost
      | found length =>
          rw [isVerdict] at lost
          cases lost
      | lost => rfl

end Renews
end FluentLog
