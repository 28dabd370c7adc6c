import FluentLog.Proofs.Chain.Items
import FluentLog.Proofs.Chain.OuterCalls

namespace FluentLog

/-!
# What a located chain is made of

A chain is a receiver, a call of a level, further calls, and a terminal call, with nothing
but blanks and comments around their dots and names.  The search for chains does not ask
for all of this.  Behind the initial call it passes over every byte outside of parentheses
that does not end an expression, be it an operator, a literal or another receiver, until it
comes to a message call and a terminal call.  So two expressions around an operator can be
taken for one chain, with the initial call of the first and the other calls of the second.

Whether this has happened can be told by a reader that only looks at what stands outside
of all parentheses, and that gives up where the next byte cannot continue a chain.
-/

variable {dialect : Dialect}

/-! ## The grammar of chains -/

/-- Blanks and whole comments.  A comment to the end of its line holds its
line feed, so a gap never ends in an open comment. -/
inductive IsGap : Bytes -> Prop
  | nil : IsGap []
  | blank {byte : UInt8} {rest : Bytes} (isBlank : isBlankByte byte = true)
      (behind : IsGap rest) : IsGap (byte :: rest)
  /-- A comment to the end of its line. -/
  | line {text rest : Bytes} (oneLine : Byte.lineFeed ∉ text) (behind : IsGap rest) :
      IsGap (Byte.slash :: Byte.slash :: (text ++ [Byte.lineFeed] ++ rest))
  /-- A comment to the first asterisk with a slash. -/
  | block {text rest : Bytes}
      (isOpen : ¬ [Byte.asterisk, Byte.slash] <:+: text ++ [Byte.asterisk])
      (behind : IsGap rest) :
      IsGap (Byte.slash :: Byte.asterisk :: (text ++ [Byte.asterisk, Byte.slash] ++ rest))

/-- Whether bytes are one call of a name, with gaps around its dot and its
name. -/
def IsCall (name inside bytes : Bytes) : Prop :=
  ∃ front before behind, IsGap front ∧ IsGap before ∧ IsGap behind ∧
    bytes = front ++ Byte.dot :: before ++ name ++ behind ++
      Byte.openParen :: inside ++ [Byte.closeParen]

/-- Calls that follow one another, with balanced arguments.  What stands
between the parentheses of a call is free to hold calls, literals and
operators. -/
inductive IsCalls : Bytes -> Prop
  | nil : IsCalls []
  | call {name inside call rest : Bytes} (nonempty : name ≠ [])
      (isName : ∀ byte ∈ name, isIdentifierByte byte = true) (enclosed : IsEnclosed inside)
      (isCall : IsCall name inside call) (behind : IsCalls rest) : IsCalls (call ++ rest)

/-- Whether a text is one chain: a receiver with the call of a level, any
calls, and a terminal call.  Nothing but gaps stands between them, so no
operator joins it to another expression. -/
def IsCallChain (dialect : Dialect) (text : Bytes) : Prop :=
  ∃ receiver ∈ dialect.receivers, ∃ level ∈ dialect.levels,
    ∃ noArguments first calls nothing last, IsGap noArguments ∧ IsGap nothing ∧
      IsCall (Utf8.ofString (dialect.levelPrefix ++ level)) noArguments first ∧
      IsCalls calls ∧ IsCall (Utf8.ofString dialect.terminalMethod) nothing last ∧
      text = Utf8.ofString receiver ++ first ++ calls ++ last

/-! ## Reading a chain -/

/-- What a reader waits for outside of all parentheses: a dot, or behind it a
name, or in or behind the name a parenthesis.  These are the states of an
automaton that recognizes calls. -/
inductive Awaited where
  | dot
  | name
  | opening (inName : Bool)
  deriving DecidableEq, Repr

namespace Awaited

/-- A blank or a comment ends a name. -/
def pause : Awaited -> Awaited
  | .opening _ => .opening false
  | awaited => awaited

@[simp] theorem pause_pause (awaited : Awaited) : awaited.pause.pause = awaited.pause := by
  cases awaited <;> rfl

/-- What the reader waits for behind a byte of code, unless that cannot stand
here. -/
def behind? (awaited : Awaited) (byte : UInt8) : Option Awaited :=
  if isBlankByte byte then some awaited.pause
  else
    match awaited with
    | .dot => if byte = Byte.dot then some .name else none
    | .name => if isIdentifierByte byte then some (.opening true) else none
    | .opening inName =>
        if byte = Byte.openParen then some .dot
        else if inName && isIdentifierByte byte then some (.opening true) else none

end Awaited

namespace Scanner

/-- What the reader waits for behind one byte.  Inside parentheses nothing
matters, and in a literal or a comment nothing moves the reader on. -/
def await? (scanner : Scanner) (awaited : Awaited) (byte : UInt8) (ahead : Option UInt8) :
    Option Awaited :=
  if scanner.cursor.depth ≠ 0 then some awaited
  else if scanner.region ≠ .code ∨ (scanner.opened? byte ahead).isSome then some awaited.pause
  else awaited.behind? byte

/-- What the reader waits for behind a text. -/
def awaitAll? (scanner : Scanner) (awaited : Awaited) (ahead : Option UInt8) :
    Bytes -> Option Awaited
  | [] => some awaited
  | byte :: rest =>
      (scanner.await? awaited byte (rest.head?.or ahead)).bind fun next =>
        (scanner.step byte (rest.head?.or ahead)).2.awaitAll? next ahead rest

end Scanner

/-- Whether outside of all parentheses a text is made of calls only.  Unlike
the grammar of calls this can be computed, byte by byte. -/
def ReadsAsCalls (text : Bytes) : Prop :=
  Scanner.start.awaitAll? .dot none text = some .dot

instance (text : Bytes) : Decidable (ReadsAsCalls text) :=
  inferInstanceAs (Decidable (_ = _))

/-! ## Gaps and calls are read -/

theorem IsGap.append {left right : Bytes} (first : IsGap left) (second : IsGap right) :
    IsGap (left ++ right) := by
  induction first with
  | nil => exact second
  | blank isBlank behind ih => exact .blank isBlank ih
  | line oneLine behind ih =>
      rw [List.cons_append, List.cons_append, List.append_assoc]
      exact .line oneLine ih
  | block isOpen behind ih =>
      rw [List.cons_append, List.cons_append, List.append_assoc]
      exact .block isOpen ih

theorem isGap_of_isBlank {bytes : Bytes} (blank : IsBlank bytes) : IsGap bytes := by
  induction bytes with
  | nil => exact .nil
  | cons byte bytes ih =>
      exact .blank (blank byte List.mem_cons_self)
        (ih fun other member => blank other (List.mem_cons_of_mem byte member))

theorem IsGap.isQuiet {gap : Bytes} (isGap : IsGap gap) : IsQuiet gap := by
  induction isGap with
  | nil => exact .nil
  | @blank byte rest isBlank behind ih =>
      refine .code ?_ ih
      simp only [isBlankByte, Bool.or_eq_true, decide_eq_true_eq] at isBlank
      rcases isBlank with (((rfl | rfl) | rfl) | rfl) | rfl <;> rfl
  | line oneLine behind ih => exact .line oneLine ih
  | block isOpen behind ih => exact .block isOpen ih

theorem IsGap.run {gap : Bytes} (isGap : IsGap gap) (ahead : Option UInt8) :
    (Scanner.atRest 0).run ahead gap = Scanner.atRest 0 :=
  (isGap.isQuiet.passes 0 ahead).1

namespace Scanner

variable {scanner : Scanner} {awaited : Awaited} {ahead : Option UInt8}

theorem awaitAll?_append (left right : Bytes) :
    scanner.awaitAll? awaited ahead (left ++ right) =
      (scanner.awaitAll? awaited (right.head?.or ahead) left).bind fun next =>
        (scanner.run (right.head?.or ahead) left).awaitAll? next ahead right := by
  induction left generalizing scanner awaited with
  | nil => rfl
  | cons byte left ih =>
      rw [List.cons_append, awaitAll?, awaitAll?, List.head?_append, Option.or_assoc,
        Option.bind_assoc, run_cons]
      congr 1
      funext next
      exact ih

/-- A dot behind a text is no part of a comment's opener or end. -/
theorem awaitAll?_dot (text : Bytes) :
    scanner.awaitAll? awaited (some Byte.dot) text = scanner.awaitAll? awaited none text ∧
      scanner.run (some Byte.dot) text = scanner.run none text := by
  have opened : forall (scanner : Scanner) (byte : UInt8),
      scanner.opened? byte (some Byte.dot) = scanner.opened? byte none := by
    intro scanner byte
    simp only [opened?, Comment.opened?]
    rfl
  have step : forall (scanner : Scanner) (byte : UInt8),
      scanner.step byte (some Byte.dot) = scanner.step byte none := by
    intro scanner byte
    have notSlash : (some Byte.dot = some Byte.slash) = False := eq_false (by decide)
    simp only [Scanner.step, opened, notSlash, reduceCtorEq]
  induction text generalizing scanner awaited with
  | nil => exact ⟨rfl, rfl⟩
  | cons byte rest ih =>
      have sameStep : scanner.step byte (rest.head?.or (some Byte.dot)) =
          scanner.step byte (rest.head?.or none) := by
        cases rest with
        | nil => exact step scanner byte
        | cons => rfl
      have sameAwait : scanner.await? awaited byte (rest.head?.or (some Byte.dot)) =
          scanner.await? awaited byte (rest.head?.or none) := by
        cases rest with
        | nil => exact congrArg (fun opened? => if scanner.cursor.depth ≠ 0 then some awaited else
            if scanner.region ≠ .code ∨ opened?.isSome then _ else _) (opened scanner byte)
        | cons => rfl
      constructor
      · rw [awaitAll?, awaitAll?, sameStep, sameAwait]
        congr 1
        funext next
        exact ih.1
      · rw [run_cons, run_cons, sameStep]
        exact (@ih _ awaited).2

theorem await?_comment {cursor : Cursor} {region : Region} (outside : cursor.depth = 0)
    (inComment : region ≠ .code) (awaited : Awaited) (byte : UInt8) (ahead : Option UInt8) :
    await? ⟨cursor, region⟩ awaited byte ahead = some awaited.pause := by
  rw [await?, if_neg (fun inside => inside outside), if_pos (.inl inComment)]

theorem awaitAll?_line {cursor : Cursor} (outside : cursor.depth = 0) {text : Bytes}
    (oneLine : Byte.lineFeed ∉ text) :
    awaitAll? ⟨cursor, .inside .line⟩ awaited.pause ahead (text ++ [Byte.lineFeed]) =
      some awaited.pause := by
  induction text with
  | nil =>
      rw [List.nil_append, awaitAll?, await?_comment outside (by decide), Awaited.pause_pause]
      rfl
  | cons byte text ih =>
      have notLineFeed : byte ≠ Byte.lineFeed := fun same => oneLine (by simp [same])
      rw [List.cons_append, awaitAll?, await?_comment outside (by decide), Awaited.pause_pause,
        Option.bind_some, step_line notLineFeed]
      exact ih fun member => oneLine (List.mem_cons_of_mem byte member)

theorem awaitAll?_block {cursor : Cursor} (outside : cursor.depth = 0) {text : Bytes}
    (isOpen : ¬ [Byte.asterisk, Byte.slash] <:+: text ++ [Byte.asterisk]) :
    awaitAll? ⟨cursor, .inside .block⟩ awaited.pause ahead (text ++ [Byte.asterisk, Byte.slash]) =
      some awaited.pause := by
  induction text with
  | nil =>
      have closes : step ⟨cursor, .inside .block⟩ Byte.asterisk ([Byte.slash].head?.or ahead) =
          (none, ⟨cursor, .closer⟩) := rfl
      rw [List.nil_append, awaitAll?, await?_comment outside (by decide), Awaited.pause_pause,
        Option.bind_some, closes, awaitAll?, await?_comment outside (by decide),
        Awaited.pause_pause]
      rfl
  | cons byte text ih =>
      rw [List.cons_append, awaitAll?, await?_comment outside (by decide), Awaited.pause_pause,
        Option.bind_some, step_block isOpen]
      exact ih fun inside => isOpen (inside.trans (List.suffix_cons byte _).isInfix)

theorem awaitAll?_opener {comment : Comment} {first second : UInt8}
    (opens : Comment.opened? first (some second) = some comment) (rest : Bytes) :
    (atRest 0).awaitAll? awaited ahead (first :: second :: rest) =
        awaitAll? ⟨⟨0, .none⟩, .inside comment⟩ awaited.pause ahead rest ∧
      (atRest 0).run ahead (first :: second :: rest) =
        run ⟨⟨0, .none⟩, .inside comment⟩ ahead rest := by
  have opened : (atRest 0).opened? first (some second) = some comment := opens
  have here : (atRest 0).await? awaited first (some second) = some awaited.pause := by
    rw [await?, if_neg (fun inside => inside rfl), if_pos (.inr (by rw [opened]; rfl))]
  have read : ((atRest 0).step first (some second)).2 = ⟨⟨0, .none⟩, .opener comment⟩ := by
    simp only [step, opened]
    rfl
  have isAhead : (second :: rest).head?.or ahead = some second := rfl
  have inOpener : Region.opener comment ≠ .code := fun same => by cases same
  constructor
  · rw [awaitAll?, isAhead, here, Option.bind_some, read, awaitAll?, await?_comment rfl inOpener,
      Awaited.pause_pause]
    rfl
  · rw [run_cons, isAhead, read]
    rfl

/-- In code outside of all parentheses every byte matters. -/
theorem await?_atRest {byte : UInt8} {ahead : Option UInt8}
    (noComment : Comment.opened? byte ahead = none) :
    (atRest 0).await? awaited byte ahead = awaited.behind? byte := by
  have opened : (atRest 0).opened? byte ahead = none := noComment
  rw [await?, if_neg (fun inside => inside rfl), if_neg]
  rintro (inComment | isSome)
  · exact inComment rfl
  · rw [opened] at isSome
    cases isSome

/-- What a reader at rest waits for behind a byte that means nothing to
scanners. -/
theorem awaitAll?_plain {byte : UInt8} (plain : isPlainByte byte = true) (rest : Bytes) :
    (atRest 0).awaitAll? awaited ahead (byte :: rest) =
      (awaited.behind? byte).bind fun next => (atRest 0).awaitAll? next ahead rest := by
  have notSlash : byte ≠ Byte.slash := by
    rintro rfl
    cases plain
  rw [awaitAll?, await?_atRest (if_neg notSlash), step_atRest_plain plain]

/-- A reader of a gap waits for the same as before, or a name has ended. -/
theorem awaitAll?_gap {gap : Bytes} (isGap : IsGap gap) (awaited : Awaited)
    (ahead : Option UInt8) :
    (atRest 0).awaitAll? awaited ahead gap =
      some (if gap = [] then awaited else awaited.pause) := by
  induction isGap generalizing awaited with
  | nil => rfl
  | @blank byte rest isBlank behind ih =>
      have here : awaited.behind? byte = some awaited.pause := if_pos isBlank
      rw [awaitAll?_plain (isPlainByte_of_isBlankByte isBlank), here, Option.bind_some, ih,
        if_neg (List.cons_ne_nil _ _), Awaited.pause_pause, ite_self]
  | @line text rest oneLine behind ih =>
      rw [(awaitAll?_opener rfl _).1, awaitAll?_append, awaitAll?_line rfl oneLine,
        Option.bind_some, (passes_line oneLine _).1]
      exact (ih awaited.pause).trans (by simp)
  | @block text rest isOpen behind ih =>
      rw [(awaitAll?_opener rfl _).1, awaitAll?_append, awaitAll?_block rfl isOpen,
        Option.bind_some, (passes_block isOpen _).1]
      exact (ih awaited.pause).trans (by simp)

/-- Between parentheses a reader waits for what it waits for behind them. -/
theorem awaitAll?_deepen {bytes : Bytes} (own : scanner.ClosesOwn ahead bytes) (extra : Nat) :
    (scanner.deepen (extra + 1)).awaitAll? awaited ahead bytes = some awaited := by
  induction bytes generalizing scanner with
  | nil => rfl
  | cons byte rest ih =>
      have inside : (scanner.deepen (extra + 1)).cursor.depth ≠ 0 := by
        rw [deepen_depth]
        exact Nat.succ_ne_zero _
      rw [awaitAll?, await?, if_pos inside, Option.bind_some, step_deepen own.1]
      exact ih own.2

theorem run_arguments {inside : Bytes} (enclosed : IsEnclosed inside) (ahead : Option UInt8) :
    (atRest 0).run ahead (Byte.openParen :: inside ++ [Byte.closeParen]) = atRest 0 := by
  have noLead : forall ahead, (atRest 0).run ahead [] = atRest 0 ∧ (atRest 0).Silent ahead [] :=
    fun _ => ⟨rfl, True.intro⟩
  exact (passes_call noLead enclosed ahead).1

/-- A reader that waits for a parenthesis comes to the end of its call. -/
theorem awaitAll?_arguments {inside : Bytes} (enclosed : IsEnclosed inside) (inName : Bool)
    (ahead : Option UInt8) :
    (atRest 0).awaitAll? (.opening inName) ahead (Byte.openParen :: inside ++ [Byte.closeParen]) =
      some .dot := by
  have opened : forall ahead, ((atRest 0).step Byte.openParen ahead).2 =
      Scanner.start.deepen 1 := fun _ => rfl
  have here : forall ahead, (atRest 0).await? (.opening inName) Byte.openParen ahead =
      some .dot := fun _ => by cases inName <;> rfl
  have isAhead : [Byte.closeParen].head?.or ahead = some Byte.closeParen := rfl
  rw [List.cons_append, awaitAll?, here, Option.bind_some, opened, awaitAll?_append, isAhead,
    awaitAll?_deepen enclosed.1 0, Option.bind_some, run_deepen enclosed.1, enclosed.2]
  rfl

theorem awaitAll?_name {name : Bytes} (nonempty : name ≠ [])
    (isName : ∀ byte ∈ name, isIdentifierByte byte = true) (ahead : Option UInt8) :
    (atRest 0).awaitAll? .name ahead name = some (.opening true) := by
  have reads : forall (awaited : Awaited) (byte : UInt8) (rest : Bytes),
      awaited = .name ∨ awaited = .opening true -> isIdentifierByte byte = true ->
      (atRest 0).awaitAll? awaited ahead (byte :: rest) =
        (atRest 0).awaitAll? (.opening true) ahead rest := by
    intro awaited byte rest waits identifier
    have notOpen : byte ≠ Byte.openParen := by
      rintro rfl
      cases identifier
    have notBlank := not_isBlankByte_of_isIdentifierByte identifier
    rw [awaitAll?_plain (isPlainByte_of_isIdentifierByte identifier)]
    rcases waits with rfl | rfl <;> simp [Awaited.behind?, identifier, notBlank, notOpen]
  have inName : forall {rest : Bytes}, (∀ byte ∈ rest, isIdentifierByte byte = true) ->
      (atRest 0).awaitAll? (.opening true) ahead rest = some (.opening true) := by
    intro rest all
    induction rest with
    | nil => rfl
    | cons byte rest ih =>
        rw [reads _ _ _ (.inr rfl) (all byte List.mem_cons_self)]
        exact ih fun other member => all other (List.mem_cons_of_mem byte member)
  cases name with
  | nil => exact absurd rfl nonempty
  | cons byte rest =>
      rw [reads _ _ _ (.inl rfl) (isName byte List.mem_cons_self)]
      exact inName fun other member => isName other (List.mem_cons_of_mem byte member)

/-- A reader of a call with its gaps comes to its end. -/
theorem awaitAll?_call {name inside call : Bytes} (nonempty : name ≠ [])
    (isName : ∀ byte ∈ name, isIdentifierByte byte = true) (enclosed : IsEnclosed inside)
    (isCall : IsCall name inside call) (ahead : Option UInt8) :
    (atRest 0).awaitAll? .dot ahead call = some .dot ∧ (atRest 0).run ahead call = atRest 0 := by
  rcases isCall with ⟨front, before, behind, isFront, isBefore, isBehind, rfl⟩
  have plainName : ∀ byte ∈ name, isPlainByte byte = true :=
    fun byte member => isPlainByte_of_isIdentifierByte (isName byte member)
  have split : front ++ Byte.dot :: before ++ name ++ behind ++ Byte.openParen :: inside ++
      [Byte.closeParen] = front ++ ([Byte.dot] ++ (before ++ (name ++ (behind ++
        (Byte.openParen :: inside ++ [Byte.closeParen]))))) := by
    simp
  have dot : forall ahead, (atRest 0).awaitAll? .dot ahead [Byte.dot] = some .name ∧
      (atRest 0).run ahead [Byte.dot] = atRest 0 := fun _ => ⟨rfl, rfl⟩
  have arguments := run_arguments enclosed
  have closes := awaitAll?_arguments enclosed
  rw [split]
  generalize Byte.openParen :: inside ++ [Byte.closeParen] = bytes at arguments closes ⊢
  constructor
  · simp only [awaitAll?_append, awaitAll?_gap isFront, isFront.run, (dot _).1, (dot _).2,
      awaitAll?_gap isBefore, isBefore.run, awaitAll?_name nonempty isName,
      run_atRest_plain plainName, awaitAll?_gap isBehind, isBehind.run, Option.bind_some,
      Awaited.pause, ite_self]
    split <;> exact closes _ _
  · simp only [run_append, isFront.run, (dot _).2, isBefore.run, run_atRest_plain plainName,
      isBehind.run, arguments]

end Scanner

theorem IsCalls.append {left right : Bytes} (first : IsCalls left) (second : IsCalls right) :
    IsCalls (left ++ right) := by
  induction first with
  | nil => exact second
  | call nonempty isName enclosed isCall behind ih =>
      rw [List.append_assoc]
      exact .call nonempty isName enclosed isCall ih

/-- A reader comes to the end of all calls.  Behind each of them it waits for
a dot, as it did in front. -/
theorem IsCalls.awaitAll? {calls : Bytes} (isCalls : IsCalls calls) (ahead : Option UInt8) :
    (Scanner.atRest 0).awaitAll? .dot ahead calls = some .dot ∧
      (Scanner.atRest 0).run ahead calls = Scanner.atRest 0 := by
  induction isCalls with
  | nil => exact ⟨rfl, rfl⟩
  | @call name inside call rest nonempty isName enclosed isCall behind ih =>
      rcases Scanner.awaitAll?_call nonempty isName enclosed isCall (rest.head?.or ahead) with
        ⟨reads, back⟩
      rw [Scanner.awaitAll?_append, Scanner.run_append, reads, back]
      exact ih

/-! ## What is read is made of gaps and calls -/

/-- What a text is behind which the reader waits for a dot outside of all
parentheses.  For each state the text begins with the rest of a call, and
calls follow it. -/
def Awaited.Fits : Awaited -> Bytes -> Prop
  | .dot, text => ∃ calls gap, IsCalls calls ∧ IsGap gap ∧ text = calls ++ gap
  | .name, text => ∃ before name behind inside calls gap, IsGap before ∧ name ≠ [] ∧
      (∀ byte ∈ name, isIdentifierByte byte = true) ∧ IsGap behind ∧ IsEnclosed inside ∧
      IsCalls calls ∧ IsGap gap ∧
      text = before ++ name ++ behind ++ Byte.openParen :: inside ++ Byte.closeParen :: calls ++ gap
  | .opening inName, text => ∃ name behind inside calls gap, (inName = false -> name = []) ∧
      (∀ byte ∈ name, isIdentifierByte byte = true) ∧ IsGap behind ∧ IsEnclosed inside ∧
      IsCalls calls ∧ IsGap gap ∧
      text = name ++ behind ++ Byte.openParen :: inside ++ Byte.closeParen :: calls ++ gap

namespace Awaited.Fits

variable {rest : Bytes}

theorem gap {awaited : Awaited} {gap : Bytes} (isGap : IsGap gap) (fits : awaited.pause.Fits rest) :
    awaited.Fits (gap ++ rest) := by
  cases awaited with
  | dot =>
      rcases fits with ⟨calls, last, isCalls, isLast, rfl⟩
      cases isCalls with
      | nil => exact ⟨[], gap ++ last, .nil, isGap.append isLast, rfl⟩
      | @call name inside call others nonempty isName enclosed isCall behind =>
          rcases isCall with ⟨front, before, after, isFront, isBefore, isAfter, rfl⟩
          have isCall : IsCall name inside (gap ++ front ++ Byte.dot :: before ++ name ++ after ++
              Byte.openParen :: inside ++ [Byte.closeParen]) :=
            ⟨gap ++ front, before, after, isGap.append isFront, isBefore, isAfter, rfl⟩
          exact ⟨_, last, .call nonempty isName enclosed isCall behind, isLast, by simp⟩
  | name =>
      rcases fits with ⟨before, name, behind, inside, calls, last, isBefore, nonempty, isName,
        isBehind, enclosed, isCalls, isLast, rfl⟩
      exact ⟨gap ++ before, name, behind, inside, calls, last, isGap.append isBefore, nonempty,
        isName, isBehind, enclosed, isCalls, isLast, by simp⟩
  | opening inName =>
      rcases fits with ⟨name, behind, inside, calls, last, noName, isName, isBehind, enclosed,
        isCalls, isLast, rfl⟩
      rw [noName rfl]
      exact ⟨[], gap ++ behind, inside, calls, last, fun _ => rfl, List.forall_mem_nil _,
        isGap.append isBehind, enclosed, isCalls, isLast, by simp⟩

theorem dot (fits : Awaited.name.Fits rest) : Awaited.dot.Fits (Byte.dot :: rest) := by
  rcases fits with ⟨before, name, behind, inside, calls, last, isBefore, nonempty, isName,
    isBehind, enclosed, isCalls, isLast, rfl⟩
  have isCall : IsCall name inside (Byte.dot :: before ++ name ++ behind ++
      Byte.openParen :: inside ++ [Byte.closeParen]) :=
    ⟨[], before, behind, .nil, isBefore, isBehind, rfl⟩
  exact ⟨_, last, .call nonempty isName enclosed isCall isCalls, isLast, by simp⟩

theorem identifier {awaited : Awaited} {byte : UInt8}
    (waits : awaited = .name ∨ awaited = .opening true) (isName : isIdentifierByte byte = true)
    (fits : (Awaited.opening true).Fits rest) : awaited.Fits (byte :: rest) := by
  rcases fits with ⟨name, behind, inside, calls, last, -, isRest, isBehind, enclosed, isCalls,
    isLast, rfl⟩
  have all : ∀ other ∈ byte :: name, isIdentifierByte other = true :=
    List.forall_mem_cons.mpr ⟨isName, isRest⟩
  rcases waits with rfl | rfl
  · exact ⟨[], byte :: name, behind, inside, calls, last, .nil, List.cons_ne_nil _ _, all, isBehind,
      enclosed, isCalls, isLast, by simp⟩
  · exact ⟨byte :: name, behind, inside, calls, last, (fun same => by cases same), all, isBehind,
      enclosed, isCalls, isLast, by simp⟩

theorem arguments {inName : Bool} {inside : Bytes} (enclosed : IsEnclosed inside)
    (fits : Awaited.dot.Fits rest) :
    (Awaited.opening inName).Fits (Byte.openParen :: inside ++ Byte.closeParen :: rest) := by
  rcases fits with ⟨calls, last, isCalls, isLast, rfl⟩
  exact ⟨[], [], inside, calls, last, fun _ => rfl, List.forall_mem_nil _, .nil, enclosed, isCalls,
    isLast, by simp⟩

end Awaited.Fits

theorem exists_arguments {text : Bytes}
    (back : (Scanner.atRest 1).run none text = Scanner.atRest 0) :
    ∃ inside rest, text = inside ++ Byte.closeParen :: rest ∧ IsEnclosed inside := by
  have notOwn : ¬ Scanner.start.ClosesOwn none text := by
    intro own
    have read := Scanner.run_deepen own 1
    rw [Scanner.start_eq_atRest, Scanner.deepen_atRest, back] at read
    have depth := congrArg (fun scanner => scanner.cursor.depth) read
    simp only [Scanner.deepen_depth] at depth
    exact absurd depth.symm (Nat.succ_ne_zero _)
  rcases Scanner.exists_unmatched notOwn with ⟨inside, rest, same, own, atRest⟩
  exact ⟨inside, rest, same, own, atRest⟩

/-- A comment to the end of its line ends in a text behind which none is open. -/
theorem exists_line {cursor behind : Cursor} {text : Bytes}
    (back : Scanner.run ⟨cursor, .inside .line⟩ none text = ⟨behind, .code⟩) :
    ∃ comment rest, text = comment ++ [Byte.lineFeed] ++ rest ∧ Byte.lineFeed ∉ comment := by
  have member : Byte.lineFeed ∈ text := by
    by_contra noLineFeed
    have stays : forall {text : Bytes}, Byte.lineFeed ∉ text ->
        Scanner.run ⟨cursor, .inside .line⟩ none text = ⟨cursor, .inside .line⟩ := by
      intro text
      induction text with
      | nil => exact fun _ => rfl
      | cons byte rest ih =>
          intro noLineFeed
          rw [List.mem_cons, not_or] at noLineFeed
          rw [Scanner.run_cons, Scanner.step_line (Ne.symm noLineFeed.1)]
          exact ih noLineFeed.2
    rw [stays noLineFeed] at back
    cases back
  rcases List.eq_append_cons_of_mem member with ⟨comment, rest, rfl, oneLine⟩
  exact ⟨comment, rest, by simp, oneLine⟩

/-- A comment to an asterisk and a slash ends in a text behind which none is
open. -/
theorem exists_block {cursor behind : Cursor} {text : Bytes}
    (back : Scanner.run ⟨cursor, .inside .block⟩ none text = ⟨behind, .code⟩) :
    ∃ comment rest, text = comment ++ [Byte.asterisk, Byte.slash] ++ rest ∧
      ¬ [Byte.asterisk, Byte.slash] <:+: comment ++ [Byte.asterisk] := by
  induction text with
  | nil => cases back
  | cons byte rest ih =>
      by_cases closes : byte = Byte.asterisk ∧ rest.head? = some Byte.slash
      · rcases closes with ⟨rfl, isSlash⟩
        rcases List.head?_eq_some_iff.mp isSlash with ⟨after, rfl⟩
        exact ⟨[], after, rfl, by decide⟩
      · have read : Scanner.step ⟨cursor, .inside .block⟩ byte rest.head? =
            (none, ⟨cursor, .inside .block⟩) := if_neg closes
        rw [Scanner.run_cons, Option.or_none, read] at back
        rcases ih back with ⟨comment, after, rfl, isOpen⟩
        refine ⟨byte :: comment, after, rfl, ?_⟩
        intro inside
        rcases List.infix_cons_iff.mp inside with isPrefix | inRest
        · rcases List.cons_prefix_cons.mp isPrefix with ⟨isAsterisk, begins⟩
          apply closes
          refine ⟨isAsterisk.symm, ?_⟩
          cases comment with
          | nil => exact absurd begins (by decide)
          | cons first comment =>
              rw [← (List.cons_prefix_cons.mp begins).1]
              rfl
        · exact isOpen inRest

/-- What a byte stands for that does not stop the reader. -/
theorem Awaited.Fits.cons {awaited next : Awaited} {byte : UInt8} {rest : Bytes}
    (plain : Scanner.isPlainByte byte = true) (isNext : awaited.behind? byte = some next)
    (fits : next.Fits rest) : awaited.Fits (byte :: rest) := by
  unfold behind? at isNext
  split at isNext
  · rename_i isBlank
    rw [← Option.some.inj isNext] at fits
    exact gap (.blank isBlank .nil) fits
  · split at isNext
    · split at isNext
      · rename_i isDot
        rw [← Option.some.inj isNext] at fits
        rw [isDot]
        exact fits.dot
      · cases isNext
    · split at isNext
      · rename_i isName
        rw [← Option.some.inj isNext] at fits
        exact fits.identifier (.inl rfl) isName
      · cases isNext
    · rename_i inName
      split at isNext
      · rename_i isOpen
        rw [isOpen] at plain
        cases plain
      · split at isNext
        · rename_i isName
          rw [← Option.some.inj isNext] at fits
          rw [Bool.and_eq_true] at isName
          exact fits.identifier (.inr (congrArg _ isName.1)) isName.2
        · cases isNext

namespace Scanner

variable {awaited : Awaited} {text : Bytes}

/-- A reader comes to the end of a comment that it is in front of. -/
theorem exists_gap {comment : Comment}
    (opens : Comment.opened? Byte.slash text.head? = some comment)
    (reads : (atRest 0).awaitAll? awaited none (Byte.slash :: text) = some .dot)
    (back : (atRest 0).run none (Byte.slash :: text) = atRest 0) :
    ∃ gap rest, Byte.slash :: text = gap ++ rest ∧ gap ≠ [] ∧ IsGap gap ∧
      (atRest 0).awaitAll? awaited.pause none rest = some .dot ∧
      (atRest 0).run none rest = atRest 0 := by
  cases text with
  | nil => cases opens
  | cons second text =>
      rcases awaitAll?_opener opens text with ⟨sameReading, sameRun⟩
      rw [sameReading] at reads
      rw [sameRun] at back
      cases comment with
      | line =>
          have isSlash : second = Byte.slash := by
            simpa [Comment.opened?, ite_eq_iff] using opens
          subst isSlash
          rcases exists_line back with ⟨comment, rest, rfl, oneLine⟩
          rw [awaitAll?_append, awaitAll?_line rfl oneLine, Option.bind_some,
            (passes_line oneLine _).1] at reads
          rw [run_append, (passes_line oneLine _).1] at back
          refine ⟨Byte.slash :: Byte.slash :: (comment ++ [Byte.lineFeed] ++ []), rest, by simp,
            List.cons_ne_nil _ _, .line oneLine .nil, reads, back⟩
      | block =>
          have isAsterisk : second = Byte.asterisk := by
            simp only [Comment.opened?, List.head?_cons, Option.some_inj, if_true] at opens
            split at opens
            · cases opens
            · simpa using opens
          subst isAsterisk
          rcases exists_block back with ⟨comment, rest, rfl, isOpen⟩
          rw [awaitAll?_append, awaitAll?_block rfl isOpen, Option.bind_some,
            (passes_block isOpen _).1] at reads
          rw [run_append, (passes_block isOpen _).1] at back
          refine ⟨Byte.slash :: Byte.asterisk :: (comment ++ [Byte.asterisk, Byte.slash] ++ []),
            rest, by simp, List.cons_ne_nil _ _, .block isOpen .nil, reads, back⟩

/-- A reader comes to the end of a call if it waits for its parentheses. -/
theorem exists_call (reads : (atRest 0).awaitAll? awaited none (Byte.openParen :: text) = some .dot)
    (back : (atRest 0).run none (Byte.openParen :: text) = atRest 0) :
    ∃ inName inside rest, awaited = .opening inName ∧
      text = inside ++ Byte.closeParen :: rest ∧ IsEnclosed inside ∧
      (atRest 0).awaitAll? .dot none rest = some .dot ∧ (atRest 0).run none rest = atRest 0 := by
  have waits : ∃ inName, awaited = .opening inName := by
    cases awaited with
    | dot => cases reads
    | name => cases reads
    | opening inName => exact ⟨inName, rfl⟩
  rcases waits with ⟨inName, rfl⟩
  rw [run_cons, step_atRest_open] at back
  rcases exists_arguments back with ⟨inside, rest, rfl, enclosed⟩
  have split : Byte.openParen :: (inside ++ Byte.closeParen :: rest) =
      (Byte.openParen :: inside ++ [Byte.closeParen]) ++ rest := by
    simp
  have closed : (atRest 1).run none (inside ++ Byte.closeParen :: rest) =
      (atRest 0).run none rest := by
    have isAhead : (Byte.closeParen :: rest).head?.or none = some Byte.closeParen := rfl
    rw [run_append, isAhead, enclosed.run_atRest, run_cons, step_atRest_close]
  rw [split, awaitAll?_append, awaitAll?_arguments enclosed, Option.bind_some,
    run_arguments enclosed] at reads
  exact ⟨inName, inside, rest, rfl, rfl, enclosed, reads, closed.symm.trans back⟩

/-- A reader stops in front of a quote, of a slash that opens no comment, and
of a parenthesis that it does not wait for. -/
theorem awaitAll?_special {byte : UInt8} (special : isPlainByte byte = false)
    (notOpen : byte ≠ Byte.openParen) (noComment : Comment.opened? byte text.head? = none) :
    (atRest 0).awaitAll? awaited none (byte :: text) = none := by
  have notBlank : isBlankByte byte = false := by
    by_contra blank
    rw [isPlainByte_of_isBlankByte (Bool.not_eq_false _ |>.mp blank)] at special
    cases special
  have notIdentifier : isIdentifierByte byte = false := by
    by_contra identifier
    rw [isPlainByte_of_isIdentifierByte (Bool.not_eq_false _ |>.mp identifier)] at special
    cases special
  have notDot : byte ≠ Byte.dot := by
    rintro rfl
    cases special
  have stops : awaited.behind? byte = none := by
    cases awaited <;> simp [Awaited.behind?, notBlank, notIdentifier, notDot, notOpen]
  rw [awaitAll?, Option.or_none, await?_atRest noComment, stops]
  rfl

end Scanner

/-- What is read to its end is made of gaps and calls.  The induction is on
the length of the text, since a comment or the parentheses of a call are taken
in one step. -/
theorem fits_of_awaitAll? {awaited : Awaited} {text : Bytes}
    (reads : (Scanner.atRest 0).awaitAll? awaited none text = some .dot)
    (back : (Scanner.atRest 0).run none text = Scanner.atRest 0) : awaited.Fits text := by
  induction isLength : text.length using Nat.strong_induction_on generalizing awaited text with
  | _ length ih =>
    subst isLength
    cases text with
    | nil =>
        rw [Option.some.inj reads]
        exact ⟨[], [], .nil, .nil, rfl⟩
    | cons byte rest =>
        cases plain : Scanner.isPlainByte byte with
        | true =>
            rw [Scanner.awaitAll?_plain plain] at reads
            rcases Option.bind_eq_some_iff.mp reads with ⟨next, isNext, readsRest⟩
            rw [Scanner.run_cons, Scanner.step_atRest_plain plain] at back
            exact .cons plain isNext (ih rest.length (Nat.lt_succ_self _) readsRest back rfl)
        | false =>
            by_cases isOpen : byte = Byte.openParen
            · subst isOpen
              rcases Scanner.exists_call reads back with
                ⟨inName, inside, after, rfl, rfl, enclosed, readsAfter, backAfter⟩
              have shorter : after.length <
                  (Byte.openParen :: (inside ++ Byte.closeParen :: after)).length := by
                simp only [List.length_cons, List.length_append]
                omega
              exact .arguments enclosed (ih _ shorter readsAfter backAfter rfl)
            · cases opens : Comment.opened? byte rest.head? with
              | none =>
                  rw [Scanner.awaitAll?_special plain isOpen opens] at reads
                  cases reads
              | some comment =>
                  have isSlash : byte = Byte.slash := by
                    by_contra notSlash
                    rw [Comment.opened?, if_neg notSlash] at opens
                    cases opens
                  subst isSlash
                  rcases Scanner.exists_gap opens reads back with
                    ⟨gap, after, same, nonempty, isGap, readsAfter, backAfter⟩
                  have shorter : after.length < (Byte.slash :: rest).length := by
                    have positive := List.length_pos_iff.mpr nonempty
                    rw [same, List.length_append]
                    omega
                  rw [same]
                  exact .gap isGap (ih _ shorter readsAfter backAfter rfl)

/-! ## Located chains -/

theorem IsGap.isEnclosed {gap : Bytes} (isGap : IsGap gap) : IsEnclosed gap :=
  ⟨(isGap.isQuiet.passes 0 _).2.closesOwn, isGap.run _⟩

theorem IsCall.dropWhile {name inside call : Bytes} (isCall : IsCall name inside call)
    {receiver : Bytes} (isName : ∀ byte ∈ receiver, isIdentifierByte byte = true) (rest : Bytes) :
    (receiver ++ (call ++ rest)).dropWhile isIdentifierByte = call ++ rest := by
  rw [List.dropWhile_append_of_pos isName]
  rcases isCall with ⟨front, before, behind, isFront, -, -, rfl⟩
  cases isFront with
  | nil => rfl
  | blank isBlank =>
      exact List.dropWhile_cons_of_neg (by simp [not_isIdentifierByte_of_isBlankByte isBlank])
  | line => rfl
  | block => rfl

theorem IsCallChain.readsAsCalls (identifiers : dialect.HasIdentifierWords) {text : Bytes}
    (isChain : IsCallChain dialect text) : ReadsAsCalls (text.dropWhile isIdentifierByte) := by
  rcases isChain with ⟨receiver, isReceiver, level, isLevel, noArguments, first, calls, nothing,
    last, isGap, isNothing, isFirst, isCalls, isLast, rfl⟩
  have isCall : forall {word : String} {gap call rest : Bytes}, isIdentifierWord word = true ->
      IsGap gap -> IsCall (Utf8.ofString word) gap call -> IsCalls rest ->
      IsCalls (call ++ rest) := by
    intro word gap call rest identifier isGap isCall behind
    rcases identifierWord_spec identifier with ⟨begin, others, nonempty, all⟩
    exact .call (nonempty ▸ List.cons_ne_nil begin others) all isGap.isEnclosed isCall behind
  have isEnd := isCall identifiers.terminalMethod isNothing isLast .nil
  have whole := isCall (identifiers.levelled isLevel) isGap isFirst (isCalls.append isEnd)
  rcases identifierWord_spec (identifiers.receiver isReceiver) with ⟨_, _, _, allReceiver⟩
  have split : Utf8.ofString receiver ++ first ++ calls ++ last =
      Utf8.ofString receiver ++ (first ++ (calls ++ (last ++ []))) := by
    simp
  rw [split, isFirst.dropWhile allReceiver]
  exact (whole.awaitAll? none).1

/-- A located chain is a receiver with the call of a level, and it ends with a
terminal call.  In front of that no parenthesis, literal or comment is open. -/
theorem exists_calls_around (identifiers : dialect.HasIdentifierWords)
    {before : Option UInt8} {offset : Nat} {text : Bytes} {span : Span}
    (isChain : chainAt? dialect before ⟨offset, text⟩ = some span)
    (unbroken : HasUnbrokenBraces span.text) :
    ∃ receiver ∈ dialect.receivers, ∃ level ∈ dialect.levels,
      ∃ noArguments first between nothing terminal, IsGap noArguments ∧ IsGap nothing ∧
        IsCall (Utf8.ofString (dialect.levelPrefix ++ level)) noArguments first ∧
        (forall gap, IsGap gap ->
          IsCall (Utf8.ofString dialect.terminalMethod) nothing (gap ++ Byte.dot :: terminal)) ∧
        (Scanner.atRest 0).run (some Byte.dot) between = Scanner.atRest 0 ∧
        span.text = Utf8.ofString receiver ++ (first ++ (between ++ Byte.dot :: terminal)) := by
  rcases chainAt?_spec identifiers isChain with ⟨-, initial, front, lead, argument, tail, after,
    -, spanText, isInitial, named, bare, -, outside, isTail, -, -⟩
  rcases isInitial with ⟨receiver, isReceiver, level, isLevel, behind, beforeName, last,
    noArguments, blankBehind, blankBefore, blankLast, blankInside, rfl⟩
  rcases isTail with ⟨middle, terminal, nothing, isTerminal, blankNothing, rfl, -, atRest⟩
  rcases isTerminal with ⟨beforeTerminal, behindTerminal, blankFront, blankBack, rfl⟩
  have enclosed : IsEnclosed argument := by
    apply bare.isEnclosed
    rw [spanText, List.append_assoc, List.cons_append] at unbroken
    exact unbroken.of_append_right.tail.of_append_left
  refine ⟨receiver, isReceiver, level, isLevel, noArguments,
    behind ++ Byte.dot :: beforeName ++ Utf8.ofString (dialect.levelPrefix ++ level) ++ last ++
      Byte.openParen :: noArguments ++ [Byte.closeParen],
    front ++ ((Byte.dot :: lead ++ Byte.openParen :: argument ++ [Byte.closeParen]) ++ middle),
    nothing, beforeTerminal ++ Utf8.ofString dialect.terminalMethod ++ behindTerminal ++
      Byte.openParen :: nothing ++ [Byte.closeParen],
    isGap_of_isBlank blankInside, isGap_of_isBlank blankNothing, ?_, ?_, ?_, ?_⟩
  · exact ⟨behind, beforeName, last, isGap_of_isBlank blankBehind, isGap_of_isBlank blankBefore,
      isGap_of_isBlank blankLast, rfl⟩
  · intro gap isGap
    exact ⟨gap, beforeTerminal, behindTerminal, isGap, isGap_of_isBlank blankFront,
      isGap_of_isBlank blankBack, by simp⟩
  · have isAhead : ((Byte.dot :: lead ++ Byte.openParen :: argument ++ [Byte.closeParen]) ++
        middle).head?.or (some Byte.dot) = some Byte.dot := rfl
    rw [← Scanner.start_eq_atRest, Scanner.run_append, isAhead, outside, Scanner.run_append,
      Scanner.run_call identifiers.messageMethod named enclosed, atRest, Scanner.start_eq_atRest]
  · rw [spanText, Utf8.ofString_append]
    simp

theorem isCallChain_of_readsAsCalls (identifiers : dialect.HasIdentifierWords)
    {before : Option UInt8} {offset : Nat} {text : Bytes} {span : Span}
    (isChain : chainAt? dialect before ⟨offset, text⟩ = some span)
    (unbroken : HasUnbrokenBraces span.text)
    (reads : ReadsAsCalls (span.text.dropWhile isIdentifierByte)) :
    IsCallChain dialect span.text := by
  rcases exists_calls_around identifiers isChain unbroken with ⟨receiver, isReceiver, level,
    isLevel, noArguments, first, between, nothing, terminal, isGap, isNothing, isFirst, isEnd,
    back, spanText⟩
  rcases identifierWord_spec (identifiers.receiver isReceiver) with ⟨_, _, _, allReceiver⟩
  rcases identifierWord_spec (identifiers.levelled isLevel) with ⟨begin, others, isWord, allLevel⟩
  rcases Scanner.awaitAll?_call (isWord ▸ List.cons_ne_nil begin others) allLevel isGap.isEnclosed
    isFirst ((between ++ Byte.dot :: terminal).head?.or none) with ⟨readsFirst, backFirst⟩
  have isAhead : (Byte.dot :: terminal).head?.or none = some Byte.dot := rfl
  rw [ReadsAsCalls, spanText, isFirst.dropWhile allReceiver, Scanner.start_eq_atRest,
    Scanner.awaitAll?_append, readsFirst, Option.bind_some, backFirst, Scanner.awaitAll?_append,
    isAhead, back] at reads
  rcases Option.bind_eq_some_iff.mp reads with ⟨awaited, readsBetween, readsTerminal⟩
  -- A reader goes on at the dot of the terminal call only if it waits for one.
  have waits : awaited = .dot := by
    rw [Scanner.awaitAll?_plain rfl] at readsTerminal
    cases awaited with
    | dot => rfl
    | name => cases readsTerminal
    | opening inName => cases inName <;> cases readsTerminal
  subst waits
  rcases Scanner.awaitAll?_dot between with ⟨sameReading, sameRun⟩
  rcases fits_of_awaitAll? (sameReading.symm.trans readsBetween) (sameRun.symm.trans back) with
    ⟨calls, gap, isCalls, isLast, rfl⟩
  exact ⟨receiver, isReceiver, level, isLevel, noArguments, first, calls, nothing,
    gap ++ Byte.dot :: terminal, isGap, isNothing, isFirst, isCalls, isEnd gap isLast,
    by simp [spanText]⟩

/-- A located chain is one chain, of a receiver, calls and a terminal call
with nothing but blanks and comments between them, exactly when a reader of
what stands outside of all parentheses finds only such things in it. -/
theorem isCallChain_iff_readsAsCalls (identifiers : dialect.HasIdentifierWords) (source : Bytes) :
    ∀ span ∈ locate dialect source, HasUnbrokenBraces span.text ->
      (IsCallChain dialect span.text ↔ ReadsAsCalls (span.text.dropWhile isIdentifierByte)) := by
  intro span member unbroken
  rcases (locates_locate identifiers source).exists_chainAt? span member with
    ⟨before, offset, text, isChain⟩
  exact ⟨fun isCallChain => isCallChain.readsAsCalls identifiers,
    isCallChain_of_readsAsCalls identifiers isChain unbroken⟩

/-- A chain with a comment between two of its calls, and with a quoted
parenthesis. -/
def chainWithComment : String :=
  "return log . atInfo( ) /* ; */ .setMessage(\"\x7b\x7d\").addArgument(f(\")\", b) + c).log();"

theorem isCallChain_of_chainWithComment :
    Dialect.HasIdentifierWords {} ∧ ∃ span ∈ locate {} (Utf8.ofString chainWithComment),
      HasUnbrokenBraces span.text ∧ IsCallChain {} span.text := by
  have found : ∃ span ∈ locate {} (Utf8.ofString chainWithComment),
      Byte.lineFeed ∉ span.text ∧ ReadsAsCalls (span.text.dropWhile isIdentifierByte) := by
    decide +kernel
  rcases found with ⟨span, member, oneLine, reads⟩
  have unbroken := hasUnbrokenBraces_of_not_mem oneLine
  exact ⟨Dialect.hasIdentifierWords_default, span, member, unbroken,
    (isCallChain_iff_readsAsCalls Dialect.hasIdentifierWords_default _ span member unbroken).mpr
      reads⟩

/-- An expression that has an initial call and no message, in front of an
operator and a chain. -/
def chainBehindOperator : String :=
  "log.atInfo() == log.atWarn().setMessage(\"\x7b\x7d\").log()"

/-- All of it is located as one chain.  The search behind the first initial
call passes over the operator, since that ends no expression, and finds the
message and the terminal call of the other chain. -/
theorem not_isCallChain_chainBehindOperator :
    ∃ span ∈ locate {} (Utf8.ofString chainBehindOperator),
      span.text = Utf8.ofString chainBehindOperator ∧ ¬ IsCallChain {} span.text := by
  have found : ∃ span ∈ locate {} (Utf8.ofString chainBehindOperator),
      span.text = Utf8.ofString chainBehindOperator ∧
        ¬ ReadsAsCalls (span.text.dropWhile isIdentifierByte) := by
    decide +kernel
  rcases found with ⟨span, member, whole, notRead⟩
  exact ⟨span, member, whole,
    fun isChain => notRead (isChain.readsAsCalls Dialect.hasIdentifierWords_default)⟩

end FluentLog
