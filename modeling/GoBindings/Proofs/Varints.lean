import GoBindings.Proofs.WireValues
import Mathlib.Algebra.BigOperators.Fin

/-!
# Varints are exact and minimal

A varint ends with the first byte below 128, which has to be among the next ten, and stands for the
sum of its groups. No number can be written in fewer bytes than it is.
-/

namespace GoBindings.Wire

namespace Varint

/-- The sum of the groups of some bytes. -/
def groupSum (bs : List UInt8) : Nat := ∑ k : Fin bs.length, bs[k].toNat % 128 * 128 ^ k.val

/-- The bytes of a number: the last of them is below 128, and no other. -/
inductive IsVarint : List UInt8 → Prop
  | last {b : UInt8} (hb : b.toNat < 128) : IsVarint [b]
  | more {b : UInt8} {bs : List UInt8} (hb : 128 ≤ b.toNat) (hbs : IsVarint bs) :
      IsVarint (b :: bs)

section Groups

variable {limit v count : Nat} {bs : List UInt8}

theorem groupSum_cons (b : UInt8) (bs : List UInt8) :
    groupSum (b :: bs) = b.toNat % 128 + 128 * groupSum bs := by
  rw [groupSum, groupSum, Finset.mul_sum]
  change ∑ k : Fin (bs.length + 1), _ = _
  rw [Fin.sum_univ_succ]
  congr 1
  · simp
  · apply Finset.sum_congr rfl
    intro k _
    rw [Fin.val_succ, pow_succ, ← mul_assoc, mul_comm 128]
    rfl

theorem groupSum_lt (bs : List UInt8) : groupSum bs < 128 ^ bs.length := by
  induction bs with
  | nil => simp [groupSum]
  | cons b bs ih =>
    rw [groupSum_cons, List.length_cons]
    omega

theorem isVarint_of_decodeNat? (h : decodeNat? limit bs = some (v, count)) :
    ∃ first rest, bs = first ++ rest ∧ IsVarint first ∧ first.length ≤ limit ∧
      v = groupSum first ∧ count = first.length := by
  induction limit generalizing v count bs with
  | zero => cases h
  | succ limit ih =>
    cases bs with
    | nil => cases h
    | cons b bs =>
      rw [decodeNat?] at h
      by_cases hb : b.toNat < 128
      · rw [if_pos hb] at h
        cases h
        have hsum : groupSum [b] = b.toNat := by
          rw [groupSum_cons, Nat.mod_eq_of_lt hb]
          rfl
        exact ⟨[b], bs, rfl, .last hb, by simp, hsum.symm, rfl⟩
      · rw [if_neg hb] at h
        obtain ⟨⟨w, k⟩, hw, heq⟩ := Option.map_eq_some_iff.mp h
        cases heq
        obtain ⟨first, rest, rfl, hfirst, hlength, rfl, rfl⟩ := ih hw
        have hlow : b.toNat - 128 = b.toNat % 128 := by
          have := b.toNat_lt
          omega
        refine ⟨b :: first, rest, rfl, .more (by omega) hfirst, Nat.succ_le_succ hlength, ?_, rfl⟩
        rw [groupSum_cons, hlow]

theorem IsVarint.decodeNat? (h : IsVarint bs) (rest : List UInt8) (hlength : bs.length ≤ limit) :
    decodeNat? limit (bs ++ rest) = some (groupSum bs, bs.length) := by
  induction h generalizing limit with
  | @last b hb =>
    obtain ⟨limit, rfl⟩ := Nat.exists_eq_add_one.mpr hlength
    rw [List.singleton_append, Varint.decodeNat?, if_pos hb, groupSum_cons, Nat.mod_eq_of_lt hb]
    rfl
  | @more b bs hb hbs ih =>
    obtain ⟨limit, rfl⟩ := Nat.exists_eq_add_one.mpr (Nat.lt_of_lt_of_le (Nat.succ_pos _) hlength)
    have hlow : b.toNat - 128 = b.toNat % 128 := by
      have := b.toNat_lt
      omega
    rw [List.cons_append, Varint.decodeNat?, if_neg (Nat.not_lt.mpr hb),
      ih (Nat.le_of_succ_le_succ hlength), groupSum_cons, hlow]
    rfl

theorem isSome_decodeNat?_iff :
    (decodeNat? limit bs).isSome ↔ ∃ n < limit, ∃ b ∈ bs[n]?, b.toNat < 128 := by
  induction limit generalizing bs with
  | zero => simp [decodeNat?]
  | succ limit ih =>
    cases bs with
    | nil => simp [decodeNat?]
    | cons b bs =>
      rw [decodeNat?]
      by_cases hb : b.toNat < 128
      · rw [if_pos hb]
        exact iff_of_true rfl ⟨0, Nat.succ_pos _, b, rfl, hb⟩
      · rw [if_neg hb, Option.isSome_map, ih]
        constructor
        · rintro ⟨n, hn, last⟩
          exact ⟨n + 1, Nat.succ_lt_succ hn, last⟩
        · rintro ⟨n, hn, last, hlast, hlt⟩
          cases n with
          | zero =>
            obtain rfl : b = last := Option.some.inj hlast
            exact absurd hlt hb
          | succ n => exact ⟨n, Nat.lt_of_succ_lt_succ hn, last, hlast, hlt⟩

/-- A number that is read as a word takes at least the bytes that the word is written in. -/
theorem size_le_of_groupSum {w : UInt64} (h : IsVarint bs) (hw : w.toNat = groupSum bs % 2 ^ 64) :
    size w ≤ bs.length := by
  have hlt : w.toNat < 128 ^ bs.length := by
    rw [hw]
    exact Nat.lt_of_le_of_lt (Nat.mod_le ..) (groupSum_lt bs)
  rw [← length_encode, encode_eq]
  cases h with
  | last | more => exact length_encodeNat_le hlt

end Groups

end Varint

namespace Cursor

variable {c d : Cursor} {v : UInt64}

/-- A word is read exactly if the bytes begin with those of a number of at most ten groups. -/
theorem varint_eq_ok_iff : c.varint = (.ok v, d) ↔
    ∃ first rest, c.rest = first ++ rest ∧ Varint.IsVarint first ∧ first.length ≤ 10 ∧
      v.toNat = Varint.groupSum first % 2 ^ 64 ∧ d = c.advance first.length := by
  have hvalue {n : Nat} : v = n.toUInt64 ↔ v.toNat = n % 2 ^ 64 := by
    rw [← UInt64.toNat_inj]
    exact Iff.of_eq (congrArg (v.toNat = ·) UInt64.toNat_ofNat')
  rw [varint, Varint.decode?_eq]
  constructor
  · intro h
    cases hn : Varint.decodeNat? Varint.maxSize c.rest with
    | none =>
      rw [hn] at h
      cases congrArg Prod.fst h
    | some r =>
      rw [hn] at h
      obtain ⟨first, rest, hrest, hfirst, hlength, hsum, hcount⟩ :=
        Varint.isVarint_of_decodeNat? hn
      cases congrArg Prod.fst h
      obtain rfl : c.advance r.2 = d := congrArg Prod.snd h
      exact ⟨first, rest, hrest, hfirst, hlength, hvalue.mp (hsum ▸ rfl), hcount ▸ rfl⟩
  · rintro ⟨first, rest, hrest, hfirst, hlength, hsum, rfl⟩
    rw [hrest, Varint.maxSize, hfirst.decodeNat? rest hlength, hvalue.mpr hsum]
    rfl

theorem exists_varint_ok_iff : (∃ v d, c.varint = (.ok v, d)) ↔
    ∃ n < 10, ∃ b ∈ c.data[c.index + n]?, b.toNat < 128 := by
  have hplace (n : Nat) : c.data[c.index + n]? = c.rest[n]? := by rw [rest, List.getElem?_drop]
  simp only [hplace]
  refine Iff.trans ?_ (@Varint.isSome_decodeNat?_iff Varint.maxSize _)
  rw [varint, Varint.decode?_eq]
  cases Varint.decodeNat? Varint.maxSize c.rest <;> simp

/-- Varints are exact and minimal. -/
theorem varint_exact :
    (∀ c : Cursor, (∃ v d, c.varint = (.ok v, d)) ↔
      ∃ n < 10, ∃ b ∈ c.data[c.index + n]?, b.toNat < 128) ∧
    (∀ (c d : Cursor) (v : UInt64), c.varint = (.ok v, d) ↔
      ∃ first rest, c.rest = first ++ rest ∧ Varint.IsVarint first ∧ first.length ≤ 10 ∧
        v.toNat = Varint.groupSum first % 2 ^ 64 ∧ d = c.advance first.length) ∧
    ∀ v : UInt64, ∃ bs : List UInt8, (∀ buffer : Buffer, buffer.varint v = buffer.bytes bs) ∧
      bs.length = Varint.size v ∧ 1 ≤ bs.length ∧ bs.length ≤ 10 ∧
      (∀ before rest, (between before (bs ++ rest)).varint = (.ok v, between (before ++ bs) rest)) ∧
      ∀ before shorter rest, shorter.length < bs.length →
        (between before (shorter ++ rest)).varint ≠ (.ok v, between (before ++ shorter) rest) := by
  refine ⟨fun c => exists_varint_ok_iff, fun c d v => varint_eq_ok_iff, fun v => ?_⟩
  refine ⟨Varint.encode v, fun _ => rfl, Varint.length_encode v, ?_, ?_, ?_, ?_⟩
  · rw [Varint.length_encode, Varint.size]
    split <;> omega
  · rw [Varint.length_encode]
    exact Varint.size_le v
  · intro before rest
    exact varint_between before v rest
  · intro before shorter rest hshorter h
    obtain ⟨first, -, -, hfirst, -, hsum, hindex⟩ := varint_eq_ok_iff.mp h
    have hsize := Varint.size_le_of_groupSum hfirst hsum
    have hlength : before.length + shorter.length = before.length + first.length := by
      simpa [between, advance] using congrArg Cursor.index hindex
    rw [Varint.length_encode] at hshorter
    omega

end Cursor

end GoBindings.Wire
