import GoBindings.Search
import GoBindings.Text.Pieces
import Mathlib.Data.List.Nodup
import Mathlib.Data.List.Perm.Subperm
import Mathlib.Order.Bounds.Defs

/-!
# Free names

A search that counts up finds the least number whose name is free. Names that are handed out in
turn, each of them free at its time, are all different.
-/

namespace GoBindings

open List

section Searches

variable {name : Nat → String}

theorem leastFrom_isLeast {p : Nat → Bool} {bound k j : Nat} (hk : k ≤ j) (hj : j ≤ k + bound)
    (h : p j = true) : IsLeast {n | k ≤ n ∧ p n = true} (leastFrom p bound k) := by
  induction bound generalizing k with
  | zero =>
    obtain rfl : j = k := by omega
    exact ⟨⟨Nat.le_refl _, h⟩, fun n hn => hn.1⟩
  | succ bound ih =>
    rw [leastFrom]
    split
    · rename_i hp
      exact ⟨⟨Nat.le_refl _, hp⟩, fun n hn => hn.1⟩
    · rename_i hp
      have hpast {n : Nat} (hn : k ≤ n) (hpn : p n = true) : k + 1 ≤ n := by
        have hne : n ≠ k := by rintro rfl; exact hp hpn
        omega
      obtain ⟨⟨hle, hfound⟩, hleast⟩ := ih (hpast hk h) (by omega)
      exact ⟨⟨by omega, hfound⟩, fun n hn => hleast ⟨hpast hn.1 hn.2, hn.2⟩⟩

theorem exists_free (hinj : Function.Injective name) (taken : List String) :
    ∃ n ≤ taken.length, name n ∉ taken := by
  by_contra hall
  push Not at hall
  have hnodup : ((range (taken.length + 1)).map name).Nodup :=
    Nodup.map hinj nodup_range
  have hsubset : (range (taken.length + 1)).map name ⊆ taken := by
    intro x hx
    obtain ⟨n, hn, rfl⟩ := mem_map.mp hx
    exact hall n (by have := mem_range.mp hn; omega)
  have hle := (hnodup.subperm hsubset).length_le
  simp only [length_map, length_range] at hle
  omega

/-- As many steps as there are taken names are enough to find the first free one. -/
theorem leastFrom_free (hinj : Function.Injective name) (taken : List String) :
    IsLeast {n | name n ∉ taken}
      (leastFrom (fun n => !taken.contains (name n)) taken.length 0) := by
  obtain ⟨n, hn, hfree⟩ := exists_free hinj taken
  have hleast := leastFrom_isLeast (p := fun n => !taken.contains (name n)) (Nat.zero_le n)
    (by omega : n ≤ 0 + taken.length) (by simpa using hfree)
  simpa using hleast

end Searches

section Underscores

theorem Text.repeated_add (m n : Nat) (c : Char) :
    repeated (m + n) c = repeated m c ++ repeated n c := by
  rw [repeated, replicate_add, String.ofList_append]
  rfl

theorem Text.length_repeated (n : Nat) (c : Char) : (repeated n c).length = n := by
  rw [repeated, String.length_ofList, length_replicate]

theorem underscored_injective (base : String) :
    Function.Injective fun k => base ++ Text.repeated k '_' := by
  intro m n h
  have hlength := congrArg String.length h
  simpa [Text.length_repeated] using hlength

end Underscores

section Turns

variable {σ α β : Type} {step : σ → α → β × σ} {taken : σ → List String}
variable {s : σ} {xs : List α}

/-- The answers to requests that are made in turn, and the state after the last of them. -/
def inTurn (step : σ → α → β × σ) (s : σ) : List α → List β × σ
  | [] => ([], s)
  | x :: xs =>
    let (y, s) := step s x
    let (ys, s) := inTurn step s xs
    (y :: ys, s)

theorem length_inTurn (s : σ) (xs : List α) : (inTurn step s xs).1.length = xs.length := by
  induction xs generalizing s with
  | nil => rfl
  | cons x xs ih => exact congrArg (· + 1) (ih (step s x).2)

theorem inTurn_take (s : σ) (xs : List α) (i : Nat) :
    (inTurn step s (xs.take i)).1 = (inTurn step s xs).1.take i := by
  induction xs generalizing s i with
  | nil => simp [inTurn]
  | cons x xs ih =>
    cases i with
    | zero => rfl
    | succ i => exact congrArg ((step s x).1 :: ·) (ih (step s x).2 i)

theorem getElem?_inTurn {i : Nat} {x : α} (hx : xs[i]? = some x) :
    (inTurn step s xs).1[i]? = some (step (inTurn step s (xs.take i)).2 x).1 := by
  induction xs generalizing s i with
  | nil => simp at hx
  | cons x' xs ih =>
    cases i with
    | zero =>
      obtain rfl : x' = x := by simpa using hx
      rfl
    | succ i => exact ih (by simpa using hx)

theorem exists_of_mem_inTurn {y : β} (hy : y ∈ (inTurn step s xs).1) :
    ∃ s, ∃ x ∈ xs, y = (step s x).1 := by
  obtain ⟨i, hi, rfl⟩ := mem_iff_getElem.mp hy
  have hlt : i < xs.length := length_inTurn s xs ▸ hi
  have hanswer : (inTurn step s xs).1[i]? = some (step (inTurn step s (xs.take i)).2 xs[i]).1 :=
    getElem?_inTurn (getElem?_eq_getElem hlt)
  exact ⟨_, xs[i], getElem_mem hlt, by simpa [getElem?_eq_getElem hi] using hanswer⟩

theorem inTurn_taken (names : β → List String)
    (hstep : ∀ s x, taken (step s x).2 = names (step s x).1 ++ taken s) (s : σ) (xs : List α) :
    (taken (inTurn step s xs).2).Perm (taken s ++ (inTurn step s xs).1.flatMap names) := by
  induction xs generalizing s with
  | nil => simp [inTurn]
  | cons x xs ih =>
    refine (ih (step s x).2).trans ?_
    rw [hstep, append_assoc]
    exact perm_append_comm_assoc _ _ _

/-- No name is handed out twice if every step hands out different names that are free. -/
theorem inTurn_nodup (names : β → List String)
    (hstep : ∀ s x, taken (step s x).2 = names (step s x).1 ++ taken s)
    (hfree : ∀ s, ∀ x ∈ xs, (names (step s x).1).Nodup ∧
      ∀ name ∈ names (step s x).1, name ∉ taken s) (hs : (taken s).Nodup) :
    (taken (inTurn step s xs).2).Nodup := by
  induction xs generalizing s with
  | nil => exact hs
  | cons x xs ih =>
    obtain ⟨hnew, hdisjoint⟩ := hfree s x (by simp)
    refine ih (fun s x hx => hfree s x (by simp [hx])) ?_
    rw [hstep]
    exact hnew.append hs hdisjoint

end Turns

end GoBindings
