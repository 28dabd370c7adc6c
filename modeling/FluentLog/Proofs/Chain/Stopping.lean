import FluentLog.Proofs.Chain.Locality
import FluentLog.Proofs.Chain.Shift

namespace FluentLog

/-!
# Searches that stop inside a stretch

A stretch decides a search if the search stops inside of it, at a terminal call or where the
expression ends, without regard to what follows.  The search with jumps then gives the same for
the stretch alone and for the stretch in front of any other text, as long as no braces
are broken in it.  It looks ahead at a byte and at calls only, and a call in front of the place
where the search stops lies in front of that place as a whole: up to its closing parenthesis
no byte of it would stop the search.
-/

variable {dialect : Dialect}

theorem Scanner.closesOwn_of_not_mem {scanner : Scanner} {ahead : Option UInt8} {bytes : Bytes}
    (noClose : Byte.closeParen ∉ bytes) : scanner.ClosesOwn ahead bytes := by
  induction bytes generalizing scanner with
  | nil => exact True.intro
  | cons byte rest ih =>
      rw [List.mem_cons, not_or] at noClose
      exact ⟨fun closes => noClose.1 closes.1.symm, ih noClose.2⟩

namespace Call

theorem message?_eq_none_of_terminal? (identifiers : dialect.HasIdentifierWords) {place : Place}
    {stop : Nat} (isTerminal : terminal? dialect place = some stop) :
    message? dialect place = none := by
  rcases (terminal?_eq_some_iff identifiers).mp isTerminal with
    ⟨lead, inside, after, named, blank, same, -⟩
  rcases place with ⟨offset, rest⟩
  simp only at same
  rw [same]
  exact message?_eq_none_of_isBlank identifiers identifiers.terminalMethod named blank offset after

/-- A terminal call is found whatever follows the text that it stands in. -/
theorem terminal?_append_of_some (identifiers : dialect.HasIdentifierWords) {offset stop : Nat}
    {text : Bytes} (isTerminal : terminal? dialect ⟨offset, text⟩ = some stop) (rest : Bytes) :
    terminal? dialect ⟨offset, text ++ rest⟩ = some stop := by
  rcases (terminal?_eq_some_iff identifiers).mp isTerminal with
    ⟨lead, inside, after, named, blank, same, atStop⟩
  simp only at same
  exact (terminal?_eq_some_iff identifiers).mpr
    ⟨lead, inside, after ++ rest, named, blank, by rw [same]; simp, atStop⟩

end Call

namespace Decides

variable {scanner : Scanner} {stretch : Bytes}

theorem head?_or (decides : Decides dialect scanner stretch) (ahead : Option UInt8) :
    stretch.head?.or ahead = stretch.head? := by
  cases decides <;> rfl

theorem not_silent (decides : Decides dialect scanner stretch) (ahead : Option UInt8) :
    ¬ scanner.Silent ahead stretch := by
  induction decides with
  | @ends byte rest isEnd =>
      intro silent
      have quiet := (silent.1 (step_atRest_ends isEnd 0 _)).1
      rw [isEnd] at quiet
      cases quiet
  | terminal named blank =>
      intro silent
      exact absurd rfl (silent.1 rfl).2
  | @byte scanner byte rest behind ih =>
      intro silent
      have silentRest := silent.2
      rw [behind.head?_or] at silentRest
      exact ih silentRest

theorem of_silent {rest : Bytes} (decides : Decides dialect scanner (stretch ++ rest))
    (silent : scanner.Silent rest.head? stretch) :
    Decides dialect (scanner.run rest.head? stretch) rest := by
  induction stretch generalizing scanner with
  | nil => exact decides
  | cons byte stretch ih =>
      generalize isText : byte :: stretch ++ rest = text at decides
      cases decides with
      | ends isEnd =>
          rcases List.cons.inj isText with ⟨rfl, -⟩
          have quiet := (silent.1 (step_atRest_ends isEnd 0 _)).1
          rw [isEnd] at quiet
          cases quiet
      | terminal named blank =>
          rcases List.cons.inj isText with ⟨rfl, -⟩
          exact absurd rfl (silent.1 rfl).2
      | byte behind =>
          rcases List.cons.inj isText with ⟨rfl, isRest⟩
          rw [← isRest, List.append_eq, List.head?_append] at behind
          exact ih behind silent.2

/-- A message call in front of the place where the search stops lies in front
of that place. -/
theorem message?_append (identifiers : dialect.HasIdentifierWords)
    (decides : Decides dialect (Scanner.atRest 0) stretch) (offset : Nat) (rest : Bytes) :
    Call.message? dialect ⟨offset, stretch ++ rest⟩ = Call.message? dialect ⟨offset, stretch⟩ := by
  apply Option.ext
  intro call
  rw [Call.message?_eq_some_iff identifiers, Call.message?_eq_some_iff identifiers]
  constructor
  · rintro ⟨lead, argument, after, named, bare, same, isCall⟩
    simp only at same isCall
    -- Up to its closing parenthesis the call is silent, whether its braces are broken or not.
    have silent : (Scanner.atRest 0).Silent (some Byte.closeParen)
        (lead ++ Byte.openParen :: argument) := by
      have names := named.byte_cases identifiers.messageMethod
      have own : Scanner.start.ClosesOwn (some Byte.closeParen) argument :=
        Scanner.closesOwn_of_not_mem bare.closeParen_not_mem
      apply Scanner.Silent.append (Scanner.silent_of_names names 0 _).2
      rw [(Scanner.silent_of_names names 0 _).1, Scanner.Silent, Scanner.step_atRest_open]
      exact ⟨fun _ => by decide, Scanner.silent_deepen own 0⟩
    have within : ∃ others, stretch = lead ++ Byte.openParen :: argument ++ others :=
      @Decides.exists_of_silent _ _ _ decides rest _ (Byte.closeParen :: after) silent same
    rcases within with ⟨others, rfl⟩
    have isAfter : others ++ rest = Byte.closeParen :: after := by
      simpa using same
    cases others with
    | nil =>
        rw [List.append_nil] at decides
        exact absurd silent (decides.not_silent _)
    | cons first others =>
        rcases List.cons.inj isAfter with ⟨rfl, -⟩
        exact ⟨lead, argument, others, named, bare, rfl, isCall⟩
  · rintro ⟨lead, argument, after, named, bare, same, isCall⟩
    simp only at same isCall
    exact ⟨lead, argument, after ++ rest, named, bare, by rw [same]; simp, isCall⟩

theorem terminal?_append (identifiers : dialect.HasIdentifierWords)
    (decides : Decides dialect (Scanner.atRest 0) stretch) (offset : Nat) (rest : Bytes) :
    Call.terminal? dialect ⟨offset, stretch ++ rest⟩ = Call.terminal? dialect ⟨offset, stretch⟩ := by
  rw [Call.terminal?_offset identifiers, Call.terminal?_offset identifiers offset,
    Call.terminal?_congr identifiers (decides.beginAlike rest)]

/-- The byte that decides, and all in front of it, are read without regard to
what follows. -/
theorem step_append {byte : UInt8} (decides : Decides dialect scanner (byte :: stretch))
    (rest : Bytes) : scanner.step byte (stretch ++ rest).head? = scanner.step byte stretch.head? := by
  cases decides with
  | ends isEnd =>
      simp only [endsExpression, Bool.or_eq_true, decide_eq_true_eq] at isEnd
      apply Scanner.step_ahead <;>
        rcases isEnd with (((rfl | rfl) | rfl) | rfl) | rfl <;> decide
  | @terminal lead inside others named blank => cases lead <;> rfl
  | byte behind => rw [behind.head?_append]

/-- Where no terminal call begins and the expression does not end, the search
stops further on. -/
theorem behind_byte (identifiers : dialect.HasIdentifierWords) {byte : UInt8} (offset : Nat)
    (decides : Decides dialect scanner (byte :: stretch))
    (goesOn : scanner = Scanner.atRest 0 -> ¬ endsExpression byte = true)
    (notTerminal : scanner = Scanner.atRest 0 -> byte = Byte.dot ->
      Call.terminal? dialect ⟨offset, stretch⟩ = none) :
    Decides dialect (scanner.step byte stretch.head?).2 stretch := by
  cases decides with
  | ends isEnd => exact absurd isEnd (goesOn rfl)
  | @terminal lead inside others named blank =>
      have isTerminal : Call.terminal? dialect
          ⟨offset, lead ++ Byte.openParen :: inside ++ Byte.closeParen :: others⟩ = some _ :=
        (Call.terminal?_eq_some_iff identifiers).mpr ⟨lead, inside, others, named, blank, rfl, rfl⟩
      rw [notTerminal rfl rfl] at isTerminal
      cases isTerminal
  | byte behind => exact behind

/-- Behind a dot at which no terminal call begins the search stops further on. -/
theorem behind_dot (identifiers : dialect.HasIdentifierWords) {offset : Nat}
    (decides : Decides dialect (Scanner.atRest 0) (Byte.dot :: stretch))
    (notTerminal : Call.terminal? dialect ⟨offset, stretch⟩ = none) :
    Decides dialect (Scanner.atRest 0) stretch := by
  have behind := decides.behind_byte identifiers offset (fun _ => by decide) fun _ _ => notTerminal
  rw [Scanner.step_atRest_plain rfl] at behind
  exact behind

theorem behind_message (identifiers : dialect.HasIdentifierWords) {offset : Nat}
    {call : Call.Message} (decides : Decides dialect (Scanner.atRest 0) stretch)
    (isMessage : Call.message? dialect ⟨offset, stretch⟩ = some call)
    (unbroken : HasUnbrokenBraces stretch) :
    ∃ after, (forall rest, (stretch ++ rest).drop (call.stop - offset) = after ++ rest) ∧
      Decides dialect (Scanner.atRest 0) after ∧ HasUnbrokenBraces after := by
  rcases Call.message?_passes identifiers isMessage unbroken with
    ⟨bytes, after, rfl, atStop, -, passes⟩
  refine ⟨after, ?_, ?_, unbroken.of_append_right⟩
  · intro rest
    rw [List.append_assoc]
    exact List.drop_left' (by omega)
  · have behind := decides.of_silent (passes _).1
    rw [(passes _).2] at behind
    exact behind

/-- A dot that means nothing where the search stops further on means nothing
in the whole text. -/
theorem passesDot_append (identifiers : dialect.HasIdentifierWords) {stage : Stage} {offset : Nat}
    (decides : Decides dialect (Scanner.atRest 0) (Byte.dot :: stretch))
    (passes : stage.PassesDot dialect ⟨offset, stretch⟩) (rest : Bytes) :
    stage.PassesDot dialect ⟨offset, stretch ++ rest⟩ := by
  have onward := decides.behind_dot identifiers passes.terminal?_eq_none
  have noTerminal := (onward.terminal?_append identifiers offset rest).trans
    passes.terminal?_eq_none
  cases stage with
  | beforeMessage => exact ⟨(onward.message?_append identifiers offset rest).trans passes.1, noTerminal⟩
  | afterMessage message => exact noTerminal

/-- The search with jumps does not depend on what stands behind the place
where it stops.  Its jumps end in front of that place. -/
theorem completes_append (identifiers : dialect.HasIdentifierWords) {limit offset : Nat}
    {stage : Stage} {completion : Completion} (decides : Decides dialect scanner stretch)
    (unbroken : HasUnbrokenBraces stretch)
    (completes : Completes dialect limit stage scanner offset stretch completion) (rest : Bytes) :
    Completes dialect limit stage scanner offset (stretch ++ rest) completion := by
  induction completes with
  | ended => cases decides
  | reached atBound => exact .reached atBound
  | dropped within ends => exact .dropped within ends
  | early within noMessage isTerminal =>
      have isTerminalBoth := Call.terminal?_append_of_some identifiers isTerminal rest
      exact .early within (Call.message?_eq_none_of_terminal? identifiers isTerminalBoth)
        isTerminalBoth
  | terminal within isTerminal =>
      exact .terminal within (Call.terminal?_append_of_some identifiers isTerminal rest)
  | @message offset others call completion within isMessage behind ih =>
      have notTerminal : Call.terminal? dialect ⟨offset + 1, others⟩ = none := by
        cases found : Call.terminal? dialect ⟨offset + 1, others⟩ with
        | none => rfl
        | some stop =>
            rw [Call.message?_eq_none_of_terminal? identifiers found] at isMessage
            cases isMessage
      have onward := decides.behind_dot identifiers notTerminal
      rcases onward.behind_message identifiers isMessage unbroken.tail with
        ⟨after, dropped, decidesAfter, unbrokenAfter⟩
      have isAfter := dropped []
      rw [List.append_nil, List.append_nil] at isAfter
      rw [isAfter] at ih
      refine .message within ((onward.message?_append identifiers _ rest).trans isMessage) ?_
      rw [List.append_eq, dropped]
      exact ih decidesAfter unbrokenAfter
  | @onward stage scanner offset byte others completion within quiet behind ih =>
      have sameStep := decides.step_append rest
      have decidesBehind := decides.behind_byte identifiers (offset + 1)
        (fun atRest isEnd => by
          rw [(quiet (atRest ▸ step_atRest_ends isEnd 0 _)).1] at isEnd
          cases isEnd)
        (fun atRest isDot => by
          subst atRest isDot
          exact ((quiet rfl).2 rfl).terminal?_eq_none)
      refine .onward within (fun outside => ?_) ?_
      · rw [List.append_eq, sameStep] at outside
        refine ⟨(quiet outside).1, fun isDot => ?_⟩
        rw [Scanner.eq_atRest_of_step outside, isDot] at decides
        exact decides.passesDot_append identifiers ((quiet outside).2 isDot) rest
      · rw [List.append_eq, sameStep]
        exact ih decidesBehind unbroken.tail

end Decides

end FluentLog
