import GoBindings.MemberNames
import GoBindings.Proofs.FreeNames

/-!
# Names of members

The names that are handed out for the members of a type are all different, and no reserved name is
among them. A batch gets as few underscores as make all of its names free.
-/

namespace GoBindings.MemberNames

open List

variable {m : MemberNames} {name : String} {batch : List String}

private theorem le_foldl_max {ns : List Nat} {n : Nat} (bound : Nat) (h : n ∈ ns ∨ n ≤ bound) :
    n ≤ ns.foldl max bound := by
  induction ns generalizing bound with
  | nil => exact h.resolve_left (not_mem_nil)
  | cons n' ns ih =>
    refine ih (max bound n') ?_
    rcases h with h | h
    · rcases mem_cons.mp h with rfl | h
      · exact .inr (Nat.le_max_right bound n)
      · exact .inl h
    · exact .inr (Nat.le_trans h (Nat.le_max_left bound n'))

private theorem not_mem_used (h : m.searchBound ≤ name.length) : name ∉ m.used := by
  intro hused
  have hle : name.length ≤ (m.used.map String.length).foldl max 0 :=
    le_foldl_max 0 (.inl (mem_map_of_mem hused))
  rw [searchBound] at h
  omega

theorem underscores_isLeast (m : MemberNames) (batch : List String) :
    IsLeast {k | ∀ name ∈ suffixed k batch, name ∉ m.used} (m.underscores batch) := by
  have hfree : ∀ name ∈ suffixed m.searchBound batch, name ∉ m.used := by
    intro name hname
    obtain ⟨base, -, rfl⟩ := mem_map.mp hname
    refine not_mem_used ?_
    rw [String.length_append, Text.length_repeated]
    omega
  have hleast := leastFrom_isLeast
    (p := fun k => (suffixed k batch).all fun name => !m.isUsed name)
    (Nat.zero_le m.searchBound) (by omega : m.searchBound ≤ 0 + m.searchBound)
    (by simpa [isUsed] using hfree)
  rw [← underscores] at hleast
  simpa [isUsed] using hleast

theorem nodup_suffixed (h : batch.Nodup) (k : Nat) : (suffixed k batch).Nodup := by
  refine h.map fun a b hab => ?_
  exact (String.append_left_inj _).mp hab

/-- A batch is given names that are free, and different if its candidates are. -/
theorem allocate_free (m : MemberNames) (h : batch.Nodup) :
    (m.allocate batch).1.Nodup ∧ ∀ name ∈ (m.allocate batch).1, name ∉ m.used :=
  ⟨nodup_suffixed h _, (m.underscores_isLeast batch).1⟩

theorem used_allocate (m : MemberNames) (batch : List String) :
    (m.allocate batch).2.used = (m.allocate batch).1 ++ m.used := rfl

theorem nodup_used_allocate (hm : m.used.Nodup) (h : batch.Nodup) :
    (m.allocate batch).2.used.Nodup := by
  obtain ⟨hnew, hfree⟩ := m.allocate_free h
  exact hnew.append hm hfree

theorem allocate_singleton (m : MemberNames) (name : String) :
    m.allocate [name] = ([(m.allocateOne name).1], (m.allocateOne name).2) := rfl

theorem allocate_pair (m : MemberNames) (base : String) :
    m.allocate [base, "Get" ++ base] =
      ([(m.allocateField base).1.1, (m.allocateField base).1.2], (m.allocateField base).2) := rfl

/-- The names of batches that are allocated in turn. -/
def allocateAll (m : MemberNames) (batches : List (List String)) :
    List (List String) × MemberNames :=
  inTurn allocate m batches

theorem used_allocateAll (m : MemberNames) (batches : List (List String)) :
    (m.allocateAll batches).2.used.Perm (m.used ++ (m.allocateAll batches).1.flatten) := by
  rw [← flatMap_id]
  exact inTurn_taken id used_allocate m batches

/-- Every batch gets the fewest underscores that keep it apart from the reserved names and from the
names handed out before, and all of these names are different. -/
theorem allocateAll_distinct {batches : List (List String)} (h : ∀ batch ∈ batches, batch.Nodup) :
    (allocateAll {} batches).1.length = batches.length ∧
    (∀ i batch, batches[i]? = some batch → ∃ k,
      (allocateAll {} batches).1[i]? = some (batch.map (· ++ Text.repeated k '_')) ∧
      IsLeast {k | ∀ candidate ∈ batch, candidate ++ Text.repeated k '_' ∉
        reservedMembers ++ ((allocateAll {} batches).1.take i).flatten} k) ∧
    (reservedMembers ++ (allocateAll {} batches).1.flatten).Nodup := by
  refine ⟨length_inTurn _ _, fun i batch hbatch => ?_, ?_⟩
  · -- What is used when the batch comes is what was handed out for those before it.
    have hused (name : String) : name ∈ (allocateAll {} (batches.take i)).2.used ↔
        name ∈ reservedMembers ++ ((allocateAll {} batches).1.take i).flatten := by
      rw [(used_allocateAll {} (batches.take i)).mem_iff, allocateAll, inTurn_take]
      rfl
    have hleast := underscores_isLeast (allocateAll {} (batches.take i)).2 batch
    simp only [hused, suffixed, forall_mem_map] at hleast
    exact ⟨_, getElem?_inTurn hbatch, hleast⟩
  · refine (used_allocateAll {} batches).nodup_iff.mp ?_
    exact inTurn_nodup id used_allocate (fun m batch hbatch => m.allocate_free (h batch hbatch))
      (by decide)

/-- Fields that meet the getters of others, and reserved names. -/
def crowdedBatches : List (List String) :=
  [["Foo", "GetFoo"], ["GetBar"], ["Bar", "GetBar"], ["GetFoo", "GetGetFoo"], [], ["Reset"],
   ["Reset", "Reset_"], ["Foo_", "GetFoo_"]]

theorem allocateAll_distinct_crowded :
    (allocateAll {} crowdedBatches).1 =
      [["Foo", "GetFoo"], ["GetBar"], ["Bar_", "GetBar_"], ["GetFoo_", "GetGetFoo_"], [],
       ["Reset_"], ["Reset__", "Reset___"], ["Foo__", "GetFoo__"]] ∧
    (reservedMembers ++ (allocateAll {} crowdedBatches).1.flatten).Nodup := by
  have hbatches : ∀ batch ∈ crowdedBatches, batch.Nodup := by decide
  exact ⟨by decide +kernel, (allocateAll_distinct hbatches).2.2⟩

end GoBindings.MemberNames
