import FluentLog.Files
import FluentLog.Proofs.Files.Tree

namespace FluentLog
namespace Tree

/-!
# What is written is read back

A file is only written where no directory is, so every directory of the tree is still there
when the file is.  So the path leads to where it led before the file was written, even if it
turns back on its way.
-/

variable {tree : Tree}

/-! ## Entries -/

theorem lookup_setEntry_self (name : String) (tree : Tree) (entries : List (String × Tree)) :
    (setEntry name tree entries).lookup name = some tree := by
  induction entries with
  | nil => simp [setEntry]
  | cons entry entries ih =>
      rcases entry with ⟨other, old⟩
      rw [setEntry]
      split
      · rw [List.lookup_cons, beq_self_eq_true]
      · rename_i different
        rw [List.lookup_cons, beq_false_of_ne (Ne.symm different), ih]

theorem lookup_setEntry_of_ne {name other : String} (different : other ≠ name) (tree : Tree)
    (entries : List (String × Tree)) :
    (setEntry name tree entries).lookup other = entries.lookup other := by
  induction entries with
  | nil => simp [setEntry, List.lookup_cons, beq_false_of_ne different]
  | cons entry entries ih =>
      rcases entry with ⟨first, old⟩
      rw [setEntry]
      split
      · rename_i isFirst
        rw [List.lookup_cons, List.lookup_cons, beq_false_of_ne different,
          beq_false_of_ne (isFirst ▸ different)]
      · rw [List.lookup_cons, List.lookup_cons, ih]

/-! ## Putting -/

theorem find_put (tree : Tree) (names : List String) (new : Tree) :
    (tree.put names new).find names = .ok new := by
  induction names generalizing tree with
  | nil => rw [put, find]
  | cons name names ih =>
      rw [put, find_cons, lookup_setEntry_self]
      exact ih _

/-- Directories stay if something is put where no directory is. -/
theorem exists_find_put {names way : List String}
    (free : ∀ entries, tree.find names ≠ .ok (.directory entries))
    {entries : List (String × Tree)} (isDirectory : tree.find way = .ok (.directory entries))
    (new : Tree) : ∃ entries, (tree.put names new).find way = .ok (.directory entries) := by
  induction way generalizing tree names with
  | nil =>
      rw [find] at isDirectory
      cases isDirectory
      cases names with
      | nil => exact absurd (by rw [find]) (free entries)
      | cons name names => exact ⟨_, by rw [put, find]⟩
  | cons next way ih =>
      cases tree with
      | file content => cases isDirectory
      | directory siblings =>
          cases names with
          | nil => exact absurd (by rw [find]) (free siblings)
          | cons name names =>
              rw [find_cons] at isDirectory
              cases isEntry : siblings.lookup next with
              | none =>
                  rw [isEntry] at isDirectory
                  cases isDirectory
              | some below =>
                  rw [isEntry] at isDirectory
                  rw [put, find_cons, Tree.entries]
                  by_cases same : next = name
                  · subst same
                    rw [lookup_setEntry_self, isEntry, Option.getD_some]
                    refine ih (fun entries => ?_) isDirectory
                    have freeBelow := free entries
                    rwa [find_cons, isEntry] at freeBelow
                  · rw [lookup_setEntry_of_ne same, isEntry]
                    exact ⟨entries, isDirectory⟩

/-- A fold that goes through goes through the same way if each step does. -/
theorem foldlM_ok_of_imp {State Item Error : Type} {step other : State -> Item -> Except Error State}
    (same : ∀ state item next, step state item = .ok next -> other state item = .ok next)
    {state last : State} {items : List Item} (isLast : items.foldlM step state = .ok last) :
    items.foldlM other state = .ok last := by
  induction items generalizing state with
  | nil => exact isLast
  | cons item items ih =>
      rw [List.foldlM_cons] at isLast ⊢
      cases isNext : step state item with
      | error error =>
          rw [isNext] at isLast
          cases isLast
      | ok next =>
          rw [isNext] at isLast
          rw [same state item next isNext]
          exact ih isLast

theorem resolve_put {names : List String}
    (free : ∀ entries, tree.find names ≠ .ok (.directory entries)) (new : Tree) {path : String}
    {others : List String} (leads : tree.resolve path = .ok others) :
    (tree.put names new).resolve path = .ok others := by
  have passes : ∀ {way passed : List String}, tree.passThrough way = .ok passed ->
      (tree.put names new).passThrough way = .ok passed := by
    intro way passed isPassed
    rw [passThrough] at isPassed
    cases found : tree.find way with
    | error fault =>
        rw [found] at isPassed
        cases isPassed
    | ok below =>
        cases below with
        | file content =>
            rw [found] at isPassed
            cases isPassed
        | directory entries =>
            rw [found] at isPassed
            rcases exists_find_put free found new with ⟨stillThere, isFound⟩
            rw [passThrough, isFound]
            exact isPassed
  have oneFurther : ∀ way part further,
      (if part = ".." then (tree.passThrough way).map fun _ => Path.step way part
        else .ok (Path.step way part)) = Except.ok further ->
      (if part = ".." then ((tree.put names new).passThrough way).map fun _ => Path.step way part
        else .ok (Path.step way part)) = Except.ok further := by
    intro way part further isFurther
    split at isFurther
    · rename_i turnsBack
      cases isPassed : tree.passThrough way with
      | error fault =>
          rw [isPassed] at isFurther
          cases isFurther
      | ok passed =>
          rw [isPassed] at isFurther
          rw [if_pos turnsBack, passes isPassed]
          exact isFurther
    · rename_i goesOn
      rwa [if_neg goesOn]
  rw [resolve] at leads ⊢
  split at leads
  · cases leads
  · rename_i nonempty
    rw [if_neg nonempty]
    exact foldlM_ok_of_imp oneFurther leads

/-! ## Writing -/

theorem exists_write_and_read {path : String} {old : Bytes} {other : Tree}
    (canWrite : tree.write path old = .ok other) (content : Bytes) :
    ∃ written, tree.write path content = .ok written ∧ written.read path = .ok content := by
  cases leads : tree.resolve path with
  | error fault =>
      rw [write, leads] at canWrite
      cases canWrite
  | ok names =>
      have writes : ∀ content, tree.write path content = .ok (tree.put names (.file content)) ∧
          Path.needsDirectory path = false ∧
          ∀ entries, tree.find names ≠ .ok (.directory entries) := by
        intro content
        rw [write, leads] at canWrite
        simp only at canWrite
        cases way : tree.passThrough names.dropLast with
        | error fault =>
            rw [way] at canWrite
            cases canWrite
        | ok passed =>
            rw [way] at canWrite
            have free : ∀ entries, tree.find names ≠ .ok (.directory entries) := by
              intro entries isDirectory
              rw [isDirectory] at canWrite
              cases canWrite
            have noDirectory : Path.needsDirectory path = false := by
              rw [Bool.eq_false_iff]
              intro needs
              split at canWrite <;> simp [needs] at canWrite
            refine ⟨?_, noDirectory, free⟩
            simp only [write, leads, way]
            split
            · rename_i isPassed
              cases isPassed
            · rename_i entries _ isDirectory
              exact absurd isDirectory (free entries)
            · rw [if_neg (by simp [noDirectory])]
            · rw [if_neg (by simp [noDirectory])]
      rcases writes content with ⟨isWritten, noDirectory, free⟩
      exact ⟨_, isWritten, read_eq_ok_iff.mpr
        ⟨noDirectory, names, resolve_put free _ leads, find_put tree names _⟩⟩

end Tree
end FluentLog
