import FluentLog.Proofs.Code.Scanning

namespace FluentLog
namespace Scanner

/-!
# The bytes that a scanner reports

A byte is reported where the scanner stands at rest in front of it.  The offsets of the
reported bytes grow, so a walk over two texts, one behind the other, reports the bytes of
the first and then those of the second.  A walk in steps reports the same bytes, up to its
bound.
-/

variable {scanner : Scanner} {offset : Nat}

theorem codeBytes_cons (byte : UInt8) (rest : Bytes) :
    scanner.codeBytes offset (byte :: rest) =
      ((scanner.step byte rest.head?).1.map (CodeByte.mk offset byte)).toList ++
        (scanner.step byte rest.head?).2.codeBytes (offset + 1) rest := by
  rw [codeBytes]
  split
  · rename_i depth next read
    rw [read]
    rfl
  · rename_i next read
    rw [read]
    rfl

/-- A byte that is reported stands behind a stretch that leaves the scanner at
rest. -/
theorem mem_codeBytes_iff {text : Bytes} {point : CodeByte} :
    point ∈ scanner.codeBytes offset text ↔
      ∃ front rest, text = front ++ point.byte :: rest ∧ point.offset = offset + front.length ∧
        ((scanner.run (some point.byte) front).step point.byte rest.head?).1 =
          some point.depth := by
  induction text generalizing scanner offset with
  | nil => simp [codeBytes]
  | cons byte rest ih =>
      rw [codeBytes_cons, List.mem_append, ih, Option.mem_toList, Option.map_eq_some_iff]
      constructor
      · rintro (⟨depth, reported, rfl⟩ | ⟨front, others, rfl, atOffset, reported⟩)
        · exact ⟨[], rest, rfl, rfl, reported⟩
        · refine ⟨byte :: front, others, rfl, ?_, ?_⟩
          · rw [atOffset, List.length_cons]
            omega
          · rw [List.head?_append, List.head?_cons] at reported
            exact reported
      · rintro ⟨front, others, same, atOffset, reported⟩
        cases front with
        | nil =>
            rcases List.cons.inj same with ⟨rfl, rfl⟩
            left
            refine ⟨point.depth, reported, ?_⟩
            rw [List.length_nil, Nat.add_zero] at atOffset
            rw [← atOffset]
        | cons first front =>
            rcases List.cons.inj same with ⟨rfl, rfl⟩
            right
            refine ⟨front, others, rfl, ?_, ?_⟩
            · rw [atOffset, List.length_cons]
              omega
            · have sameAhead : (front ++ point.byte :: others).head? =
                  front.head?.or (some point.byte) := by
                rw [List.head?_append, List.head?_cons]
              rw [Scanner.run_cons, ← sameAhead] at reported
              exact reported

theorem le_of_mem_codeBytes {text : Bytes} {point : CodeByte}
    (member : point ∈ scanner.codeBytes offset text) : offset ≤ point.offset := by
  rcases mem_codeBytes_iff.mp member with ⟨front, rest, -, atOffset, -⟩
  omega

theorem lt_of_mem_codeBytes {text : Bytes} {point : CodeByte}
    (member : point ∈ scanner.codeBytes offset text) : point.offset < offset + text.length := by
  rcases mem_codeBytes_iff.mp member with ⟨front, rest, rfl, atOffset, -⟩
  rw [atOffset, List.length_append, List.length_cons]
  omega

theorem pairwise_codeBytes (scanner : Scanner) (offset : Nat) (text : Bytes) :
    (scanner.codeBytes offset text).Pairwise fun earlier later => earlier.offset < later.offset := by
  induction text generalizing scanner offset with
  | nil => exact .nil
  | cons byte rest ih =>
      rw [codeBytes_cons]
      cases (scanner.step byte rest.head?).1 with
      | none => exact ih _ _
      | some depth => exact List.pairwise_cons.mpr ⟨fun _ => le_of_mem_codeBytes, ih _ _⟩

/-- The bytes that are reported in two texts, one behind the other, are bytes
of the first and those reported in the second. -/
theorem exists_codeBytes_append (scanner : Scanner) (offset : Nat) (front rest : Bytes) :
    ∃ points, scanner.codeBytes offset (front ++ rest) =
        points ++ (scanner.run rest.head? front).codeBytes (offset + front.length) rest ∧
      ∀ point ∈ points, point.byte ∈ front ∧ point.offset < offset + front.length := by
  induction front generalizing scanner offset with
  | nil => exact ⟨[], rfl, List.forall_mem_nil _⟩
  | cons byte front ih =>
      have sameOffset : offset + (byte :: front).length = offset + 1 + front.length := by
        rw [List.length_cons]
        omega
      rcases ih (scanner.step byte (front ++ rest).head?).2 (offset + 1) with
        ⟨points, same, inFront⟩
      refine ⟨((scanner.step byte (front ++ rest).head?).1.map (CodeByte.mk offset byte)).toList ++
        points, ?_, ?_⟩
      · rw [List.cons_append, codeBytes_cons, same, run_cons, ← List.head?_append, sameOffset,
          List.append_assoc]
      · intro point member
        rw [sameOffset]
        rcases List.mem_append.mp member with isHere | isBehind
        · rw [Option.mem_toList, Option.map_eq_some_iff] at isHere
          rcases isHere with ⟨depth, -, rfl⟩
          refine ⟨List.mem_cons_self, ?_⟩
          exact Nat.lt_of_lt_of_le (Nat.lt_succ_self offset) (Nat.le_add_right _ _)
        · exact ⟨List.mem_cons_of_mem byte (inFront point isBehind).1, (inFront point isBehind).2⟩

/-- From an offset on a scanner reports what it does when it comes to the text
there. -/
theorem filter_codeBytes_append (scanner : Scanner) (offset : Nat) (front rest : Bytes) :
    (scanner.codeBytes offset (front ++ rest)).filter (offset + front.length ≤ ·.offset) =
      (scanner.run rest.head? front).codeBytes (offset + front.length) rest := by
  rcases exists_codeBytes_append scanner offset front rest with ⟨points, same, inFront⟩
  have noneInFront : points.filter (offset + front.length ≤ ·.offset) = [] := by
    apply List.filter_eq_nil_iff.mpr
    intro point member
    rw [decide_eq_true_eq, Nat.not_le]
    exact (inFront point member).2
  have allBehind : ∀ point ∈ (scanner.run rest.head? front).codeBytes (offset + front.length) rest,
      decide (offset + front.length ≤ point.offset) = true :=
    fun point member => decide_eq_true (le_of_mem_codeBytes member)
  rw [same, List.filter_append, noneInFront, List.filter_eq_self.mpr allBehind, List.nil_append]

theorem codeBytes_add (distance : Nat) (scanner : Scanner) (offset : Nat) (text : Bytes) :
    scanner.codeBytes (distance + offset) text =
      (scanner.codeBytes offset text).map fun point =>
        { point with offset := distance + point.offset } := by
  induction text generalizing scanner offset with
  | nil => rfl
  | cons byte rest ih =>
      rw [codeBytes_cons, codeBytes_cons, Nat.add_assoc, ih, List.map_append]
      cases (scanner.step byte rest.head?).1 <;> rfl

end Scanner

/-! ## Walks in steps -/

namespace Walk

/-- What one step of a walk gives: nothing when no byte in front of the bound
is left, or the first of these bytes and a walk that reports the others. -/
theorem seek_spec (walk : Walk) (scanner : Scanner) (offset : Nat) (text : Bytes) :
    match walk.seek scanner offset text with
    | (none, _) => (scanner.codeBytes offset text).filter (·.offset < walk.bound) = []
    | (some point, behind) =>
        behind.bound = walk.bound ∧ behind.rest.length < text.length ∧
          (scanner.codeBytes offset text).filter (·.offset < walk.bound) = point ::
            (behind.scanner.codeBytes behind.offset behind.rest).filter (·.offset < walk.bound) := by
  induction text generalizing scanner offset with
  | nil => rfl
  | cons byte rest ih =>
      rw [seek]
      by_cases beyond : scanner.region = .code ∧ walk.bound ≤ offset
      · rw [if_pos beyond]
        apply List.filter_eq_nil_iff.mpr
        intro point member
        have behind := Scanner.le_of_mem_codeBytes member
        rw [decide_eq_true_eq]
        omega
      · rw [if_neg beyond, Scanner.codeBytes_cons]
        cases read : scanner.step byte rest.head? with
        | mk reported next =>
            cases reported with
            | none =>
                have later := ih next (offset + 1)
                simp only [Option.map_none, Option.toList_none, List.nil_append]
                split at later
                · assumption
                · exact ⟨later.1, Nat.lt_succ_of_lt later.2.1, later.2.2⟩
            | some depth =>
                have atRest := Scanner.eq_atRest_of_step (congrArg Prod.fst read)
                have inFront : offset < walk.bound := by
                  rw [atRest] at beyond
                  exact Nat.lt_of_not_le fun isBeyond => beyond ⟨rfl, isBeyond⟩
                refine ⟨rfl, Nat.lt_succ_self _, ?_⟩
                exact List.filter_cons_of_pos (decide_eq_true inFront)

theorem take_eq_filter_codeBytes {count : Nat} {walk : Walk} (enough : walk.rest.length ≤ count) :
    (walk.take count).1 =
      (walk.scanner.codeBytes walk.offset walk.rest).filter (·.offset < walk.bound) := by
  induction count generalizing walk with
  | zero =>
      rw [List.length_eq_zero_iff.mp (Nat.le_zero.mp enough)]
      rfl
  | succ count ih =>
      have spec := walk.seek_spec walk.scanner walk.offset walk.rest
      rw [take, next]
      split at spec
      · rename_i read
        rw [read, spec]
      · rename_i point behind read
        rcases spec with ⟨sameBound, shorter, reported⟩
        rw [read, reported, ← sameBound]
        exact congrArg (point :: ·) (ih (by omega))

theorem mem_remaining_iff {walk : Walk} {point : CodeByte} :
    point ∈ walk.remaining.1 ↔
      point ∈ walk.scanner.codeBytes walk.offset walk.rest ∧ point.offset < walk.bound := by
  rw [remaining, take_eq_filter_codeBytes (Nat.le_refl _), List.mem_filter, decide_eq_true_eq]

/-- A walk to the end of a text reports all that a scanner does.  So what is
proved of scanners, byte by byte, holds of walks. -/
theorem remaining_start (text : Bytes) (offset : Nat) :
    (start text offset).remaining.1 = Scanner.start.codeBytes offset (text.drop offset) := by
  rw [remaining, take_eq_filter_codeBytes (Nat.le_refl _)]
  apply List.filter_eq_self.mpr
  intro point member
  have within : point.offset < offset + (text.drop offset).length :=
    Scanner.lt_of_mem_codeBytes member
  have behind : offset ≤ point.offset := Scanner.le_of_mem_codeBytes member
  rw [List.length_drop] at within
  have inText : point.offset < text.length := by omega
  exact decide_eq_true inText

end Walk
end FluentLog
