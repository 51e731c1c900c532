import GoBindings.Text.Dict
import Mathlib.Data.List.Induction
import Mathlib.Data.String.Basic

/-!
# Entries of dictionaries
-/

namespace GoBindings.Dict

open List

variable {α : Type} {d : Dict α} {key k : String} {value v : α}
variable {entries : List (String × α)} {e : String × α}

private theorem mem_of_lookup (h : entries.lookup k = some v) : (k, v) ∈ entries := by
  obtain ⟨before, after, heq, -⟩ := lookup_eq_some_iff.mp h
  rw [heq]
  simp

theorem mem_of_get? (h : d.get? key = some value) : (key, value) ∈ d.entries := mem_of_lookup h

private theorem mem_insertEntry (h : e ∈ insertEntry key value entries) :
    e = (key, value) ∨ e ∈ entries := by
  induction entries with
  | nil => exact .inl (mem_singleton.mp h)
  | cons e' entries ih =>
    rw [insertEntry] at h
    split at h
    · rcases mem_cons.mp h with h | h
      · exact .inl h
      · exact .inr (mem_cons_of_mem _ h)
    · split at h
      · exact mem_cons.mp h
      · rcases mem_cons.mp h with h | h
        · exact .inr (h ▸ mem_cons_self)
        · rcases ih h with h | h
          · exact .inl h
          · exact .inr (mem_cons_of_mem _ h)

theorem mem_insert (h : e ∈ (d.insert key value).entries) :
    e = (key, value) ∨ e ∈ d.entries := mem_insertEntry h

private theorem lookup_cons_eq :
    (e :: entries).lookup k = if k = e.1 then some e.2 else entries.lookup k := by
  rw [lookup_cons]
  by_cases h : k = e.1
  · simp [h]
  · rw [beq_eq_false_iff_ne.mpr h, if_neg h]

theorem lookup_perm {entries' : List (String × α)} (h : entries.Perm entries')
    (hnodup : (entries.map Prod.fst).Nodup) (k : String) :
    entries.lookup k = entries'.lookup k := by
  induction h with
  | nil => rfl
  | cons e _ ih => rw [lookup_cons, lookup_cons, ih (nodup_cons.mp hnodup).2]
  | swap e e' entries =>
    have hne : e'.1 ≠ e.1 := fun heq => (nodup_cons.mp hnodup).1 (mem_cons.mpr (.inl heq))
    simp only [lookup_cons_eq]
    by_cases he : k = e.1
    · simp [he, Ne.symm hne]
    · simp [he]
  | trans h _ ih ih' => exact (ih hnodup).trans (ih' ((h.map Prod.fst).nodup_iff.mp hnodup))

theorem get?_insert : (d.insert key value).get? k = if k = key then some value else d.get? k := by
  rw [get?, get?, insert]
  generalize d.entries = entries
  induction entries with
  | nil => simp [insertEntry, lookup_cons_eq]
  | cons e entries ih =>
    obtain ⟨k', v⟩ := e
    rw [insertEntry]
    split
    · rename_i heq
      subst heq
      by_cases h : k = key <;> simp [lookup_cons_eq, h]
    split
    · simp [lookup_cons_eq]
    · rename_i hne _
      rw [lookup_cons_eq, lookup_cons_eq, ih]
      by_cases h : k = key
      · simp [h, hne]
      · simp [h]

theorem get?_foldl_insert : (entries.foldl (fun d e => d.insert e.1 e.2) d).get? k =
    (entries.reverse.lookup k).or (d.get? k) := by
  induction entries generalizing d with
  | nil => rfl
  | cons e entries ih =>
    rw [foldl_cons, ih, get?_insert, reverse_cons, lookup_append, lookup_cons_eq]
    by_cases h : k = e.1 <;> simp [h]

theorem get?_ofList : (ofList entries).get? k = entries.reverse.lookup k := by
  exact get?_foldl_insert.trans (Option.or_none ..)

theorem get?_ofList_append {later : List (String × α)} (h : ∀ e ∈ later, e.1 ≠ k) :
    (ofList (entries ++ later)).get? k = (ofList entries).get? k := by
  have hlater : later.reverse.lookup k = none := by
    rw [lookup_eq_none_iff]
    intro e he
    exact bne_iff_ne.mpr (Ne.symm (h e (mem_reverse.mp he)))
  rw [get?_ofList, get?_ofList, reverse_append, lookup_append, hlater, Option.none_or]

/-- Of the entries of a key the last counts, in an order that the entries follow. -/
theorem get?_ofList_iff {r : α → α → Prop} (h : entries.Pairwise fun e e' => r e.2 e'.2)
    (hasymm : ∀ a b, r a b → ¬ r b a) : (ofList entries).get? key = some value ↔
      (key, value) ∈ entries ∧ ∀ v, (key, v) ∈ entries → v = value ∨ r v value := by
  rw [get?_ofList]
  induction entries using reverseRecOn with
  | nil => simp
  | append_singleton entries e ih =>
    obtain ⟨k, last⟩ := e
    obtain ⟨hentries, -, hjoint⟩ := pairwise_append.mp h
    have hlast {v : α} (hv : (key, v) ∈ entries) : r v last := hjoint _ hv _ mem_cons_self
    rw [reverse_concat]
    by_cases hk : key = k
    · subst hk
      simp only [lookup_cons_self, Option.some.injEq, mem_append, mem_singleton, Prod.mk.injEq,
        true_and]
      constructor
      · rintro rfl
        exact ⟨.inr rfl, fun v hv => hv.symm.imp_right hlast⟩
      · rintro ⟨hvalue, hmax⟩
        refine (hmax last (.inr rfl)).resolve_right fun hr => ?_
        rcases hvalue with hvalue | rfl
        · exact hasymm _ _ hr (hlast hvalue)
        · exact hasymm _ _ hr hr
    · have hmem (v : α) : (key, v) ∈ entries ++ [(k, last)] ↔ (key, v) ∈ entries := by simp [hk]
      rw [lookup_cons, beq_eq_false_iff_ne.mpr hk]
      simp only [hmem]
      exact ih hentries

section Sorted

variable {d' : Dict α}

/-- The keys of the entries ascend. -/
def Sorted (d : Dict α) : Prop := d.entries.Pairwise fun e e' => e.1 < e'.1

theorem Sorted.insert (h : d.Sorted) (key : String) (value : α) : (d.insert key value).Sorted := by
  rw [Sorted] at h ⊢
  rw [Dict.insert]
  generalize d.entries = entries at h
  induction entries with
  | nil => exact pairwise_singleton ..
  | cons e entries ih =>
    obtain ⟨hfirst, hrest⟩ := pairwise_cons.mp h
    rw [insertEntry]
    split
    · rename_i heq
      exact pairwise_cons.mpr ⟨fun e' he' => heq ▸ hfirst e' he', hrest⟩
    split
    · rename_i hlt
      refine pairwise_cons.mpr ⟨forall_mem_cons.mpr ⟨hlt, fun e' he' => ?_⟩, h⟩
      exact hlt.trans (hfirst e' he')
    · rename_i hne hnot
      refine pairwise_cons.mpr ⟨fun e' he' => ?_, ih hrest⟩
      rcases mem_insertEntry he' with rfl | he'
      · exact lt_of_le_of_ne (not_lt.mp hnot) (Ne.symm hne)
      · exact hfirst e' he'

theorem sorted_ofList (entries : List (String × α)) : (ofList entries).Sorted := by
  have hfold {d : Dict α} (h : d.Sorted) :
      (entries.foldl (fun d e => d.insert e.1 e.2) d).Sorted := by
    induction entries generalizing d with
    | nil => exact h
    | cons e entries ih => exact ih (h.insert e.1 e.2)
  exact hfold .nil

theorem Sorted.mem_iff (h : d.Sorted) : (k, v) ∈ d.entries ↔ d.get? k = some v := by
  refine ⟨fun hmem => ?_, mem_of_get?⟩
  rw [Sorted] at h
  rw [get?]
  generalize d.entries = entries at h hmem
  induction entries with
  | nil => cases hmem
  | cons e entries ih =>
    obtain ⟨hfirst, hrest⟩ := pairwise_cons.mp h
    rw [lookup_cons_eq]
    rcases mem_cons.mp hmem with rfl | hmem
    · exact if_pos rfl
    · rw [if_neg (ne_of_gt (hfirst _ hmem)), ih hrest hmem]

theorem mem_ofList (h : e ∈ (ofList entries).entries) : e ∈ entries := by
  have hget := (sorted_ofList entries).mem_iff.mp h
  rw [get?_ofList] at hget
  exact mem_reverse.mp (mem_of_lookup hget)

theorem Sorted.nodup (h : d.Sorted) : d.entries.Nodup :=
  h.imp fun hlt heq => absurd (congrArg Prod.fst heq) (ne_of_lt hlt)

theorem Sorted.ext (h : d.Sorted) (h' : d'.Sorted) (hget : ∀ k, d.get? k = d'.get? k) : d = d' := by
  have hperm : d.entries.Perm d'.entries := by
    refine (perm_ext_iff_of_nodup h.nodup h'.nodup).mpr fun e => ?_
    rw [h.mem_iff, h'.mem_iff, hget]
  have hentries := hperm.eq_of_pairwise (fun e e' _ _ hlt hgt => absurd hgt (lt_asymm hlt)) h h'
  exact congrArg mk hentries

end Sorted

end GoBindings.Dict
