import GoBindings.Proofs.Packages

/-!
# Registered package names

Packages register one after the other. Each gets its sanitized candidate, with the least number that
makes it different from all names before it if it has to have one.
-/

namespace GoBindings.PackageNames

open Schema Go

/-- Registers a candidate, for a file if there is one. -/
def registerFor (names : PackageNames) : String × Option FileId → String × PackageNames
  | (candidate, none) => names.register candidate
  | (candidate, some file) => names.registerFile candidate file

/-- The names of candidates that are registered in turn. -/
def registerAll (names : PackageNames) (calls : List (String × Option FileId)) :
    List String × PackageNames :=
  inTurn registerFor names calls

variable {names : PackageNames} {candidate : String} {file : Option FileId}

theorem registerFor_name :
    (names.registerFor (candidate, file)).1 = names.free (sanitize candidate) := by
  cases file <;> rfl

theorem inUse_registerFor (names : PackageNames) (call : String × Option FileId) :
    (names.registerFor call).2.inUse = [(names.registerFor call).1] ++ names.inUse := by
  obtain ⟨candidate, file⟩ := call
  cases file <;> rfl

theorem inUse_registerAll (names : PackageNames) (calls : List (String × Option FileId)) :
    (names.registerAll calls).2.inUse.Perm (names.inUse ++ (names.registerAll calls).1) := by
  have htaken := inTurn_taken (fun name => [name]) inUse_registerFor names calls
  rwa [List.flatMap_singleton'] at htaken

theorem free_cases (names : PackageNames) (base : String) :
    base ∉ names.inUse ∧ names.free base = base ∨
    base ∈ names.inUse ∧ ∃ n, names.free base = base ++ toString n ∧
      IsLeast {n | 1 ≤ n ∧ base ++ toString n ∉ names.inUse} n := by
  obtain ⟨n, heq, hfree, hleast⟩ := names.free_isLeast base
  have hnumbered {n : Nat} (hn : 1 ≤ n) : numbered base n = base ++ toString n :=
    if_neg (by omega)
  by_cases hbase : base ∈ names.inUse
  · have hn : 1 ≤ n := by
      refine Nat.one_le_iff_ne_zero.mpr ?_
      rintro rfl
      exact hfree hbase
    refine .inr ⟨hbase, n, heq.trans (hnumbered hn), ⟨hn, hnumbered hn ▸ hfree⟩, ?_⟩
    rintro k ⟨hk, hkfree⟩
    rw [← hnumbered hk] at hkfree
    exact hleast hkfree
  · obtain rfl : n = 0 := Nat.le_zero.mp (hleast hbase)
    exact .inl ⟨hbase, heq⟩

/-- The names given to any candidates in turn. -/
theorem registerAll_distinct (calls : List (String × Option FileId)) :
    (registerAll {} calls).1.length = calls.length ∧
    (∀ i candidate file, calls[i]? = some (candidate, file) →
      sanitize candidate ∉ (registerAll {} calls).1.take i ∧
        (registerAll {} calls).1[i]? = some (sanitize candidate) ∨
      sanitize candidate ∈ (registerAll {} calls).1.take i ∧ ∃ n,
        (registerAll {} calls).1[i]? = some (sanitize candidate ++ toString n) ∧
        IsLeast {n | 1 ≤ n ∧
          sanitize candidate ++ toString n ∉ (registerAll {} calls).1.take i} n) ∧
    (registerAll {} calls).1.Nodup ∧
    ∀ name ∈ (registerAll {} calls).1, ∀ c ∈ name.toList,
      Text.isLetter c = true ∨ Text.isDecimalDigit c = true ∨ c = '_' := by
  refine ⟨length_inTurn _ _, fun i candidate file hcall => ?_, ?_, fun name hname c hc => ?_⟩
  · -- The names in use when the candidate comes are those given before.
    have hused (name : String) : name ∈ (registerAll {} (calls.take i)).2.inUse ↔
        name ∈ (registerAll {} calls).1.take i := by
      rw [(inUse_registerAll {} (calls.take i)).mem_iff, registerAll, inTurn_take]
      rfl
    have hanswer : (registerAll {} calls).1[i]? =
        some ((registerAll {} (calls.take i)).2.free (sanitize candidate)) := by
      rw [← registerFor_name]
      exact getElem?_inTurn hcall
    rw [hanswer]
    simpa only [hused, Option.some.injEq] using
      free_cases (registerAll {} (calls.take i)).2 (sanitize candidate)
  · refine (inUse_registerAll {} calls).nodup_iff.mp ?_
    refine inTurn_nodup (fun name => [name]) inUse_registerFor ?_ List.nodup_nil
    rintro names ⟨candidate, file⟩ -
    refine ⟨List.nodup_singleton _, ?_⟩
    rw [List.forall_mem_singleton, registerFor_name]
    exact names.free_not_mem _
  · obtain ⟨names, ⟨candidate, file⟩, -, rfl⟩ := exists_of_mem_inTurn hname
    rw [registerFor_name] at hc
    simpa [isNameChar, or_assoc] using names.isNameChar_register candidate c hc

end GoBindings.PackageNames
