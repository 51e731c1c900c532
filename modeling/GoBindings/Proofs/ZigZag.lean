import GoBindings.Proofs.WireValues

/-!
# ZigZag is exact

Folding a signed number is doubling it, the negative ones landing on the odd numbers in between. So
a number of small magnitude is written in few bytes.
-/

namespace GoBindings.Wire.ZigZag

section Fold

variable {w : Nat}

private theorem toNat_fold (x : BitVec (w + 1)) :
    (((x <<< 1) ^^^ x.sshiftRight w).toNat : Int) =
      if 0 ≤ x.toInt then 2 * x.toInt else -2 * x.toInt - 1 := by
  have hmax := x.isLt
  have hpow : 2 ^ (w + 1) = 2 * 2 ^ w := by rw [pow_succ, mul_comm]
  have hdouble : (x <<< 1).toNat = 2 * x.toNat % 2 ^ (w + 1) := by
    rw [BitVec.toNat_shiftLeft, Nat.shiftLeft_eq, pow_one, mul_comm]
  have hsign := BitVec.msb_eq_decide x
  rw [sshiftRight_sign, BitVec.toInt_eq_msb_cond]
  cases hmsb : x.msb with
  | false =>
    have hsmall : x.toNat < 2 ^ w := by simpa [hmsb] using hsign
    simp only [Bool.false_eq_true, if_false]
    rw [BitVec.xor_zero, hdouble, Nat.mod_eq_of_lt (by omega)]
    omega
  | true =>
    -- Doubling drops the top bit: what gets complemented is twice the excess over `2 ^ w`.
    have hlarge : 2 ^ w ≤ x.toNat := by simpa [hmsb] using hsign
    rw [if_pos rfl, if_pos rfl, BitVec.xor_allOnes, BitVec.toNat_not, hdouble,
      Nat.mod_eq_sub_mod (by omega), Nat.mod_eq_of_lt (by omega)]
    omega

private theorem fold_unfold (u : BitVec (w + 1)) {x : BitVec (w + 1)}
    (hx : x = (u >>> 1) ^^^ -(u &&& 1#(w + 1))) : (x <<< 1) ^^^ x.sshiftRight w = u := by
  have hmsb : x.msb = u.getLsbD 0 := by
    rw [hx, neg_lowest, BitVec.msb_xor]
    cases u.getLsbD 0 <;> simp [BitVec.msb_allOnes]
  rw [sshiftRight_sign, hmsb, hx, neg_lowest]
  ext i hi
  cases i with
  | zero => cases h : u.getLsbD 0 <;> simp_all
  | succ i => cases u.getLsbD 0 <;> simp [Nat.add_comm 1 i, BitVec.getLsbD_eq_getElem, hi]

end Fold

theorem encode32_decode32 (u : UInt32) : encode32 (decode32 u) = u := by
  have h := fold_unfold u.toBitVec (x := (decode32 u).toBitVec) (by simp [decode32])
  apply UInt32.toBitVec_inj.mp
  simpa [encode32] using h

theorem encode64_decode64 (u : UInt64) : encode64 (decode64 u) = u := by
  have h := fold_unfold u.toBitVec (x := (decode64 u).toBitVec) (by simp [decode64])
  apply UInt64.toBitVec_inj.mp
  simpa [encode64] using h

theorem toNat_encode32 (v : Int32) : ((encode32 v).toNat : Int) =
    if 0 ≤ v.toInt then 2 * v.toInt else -2 * v.toInt - 1 := by
  have h : (encode32 v).toBitVec = (v.toBitVec <<< 1) ^^^ v.toBitVec.sshiftRight 31 := by
    simp [encode32]
  rw [← UInt32.toNat_toBitVec, h]
  exact toNat_fold v.toBitVec

theorem toNat_encode64 (v : Int64) : ((encode64 v).toNat : Int) =
    if 0 ≤ v.toInt then 2 * v.toInt else -2 * v.toInt - 1 := by
  have h : (encode64 v).toBitVec = (v.toBitVec <<< 1) ^^^ v.toBitVec.sshiftRight 63 := by
    simp [encode64]
  rw [← UInt64.toNat_toBitVec, h]
  exact toNat_fold v.toBitVec

theorem length_encode_encode64_le {k : Nat} {v : Int64} (hk : 1 ≤ k)
    (hmin : -2 ^ (7 * k - 1) ≤ v.toInt) (hmax : v.toInt < 2 ^ (7 * k - 1)) :
    (Varint.encode (encode64 v)).length ≤ k := by
  obtain ⟨limit, rfl⟩ := Nat.exists_eq_add_of_le' hk
  have hpow : 128 ^ (limit + 1) = 2 * 2 ^ (7 * (limit + 1) - 1) := by
    rw [← pow_succ', show 7 * (limit + 1) - 1 + 1 = 7 * (limit + 1) by omega, pow_mul]
    rfl
  have hvalue : ((encode64 v).toNat : Int) < 2 * 2 ^ (7 * (limit + 1) - 1) := by
    rw [toNat_encode64]
    split <;> omega
  rw [Varint.encode_eq]
  apply Varint.length_encodeNat_le
  rw [hpow]
  exact_mod_cast hvalue

/-- ZigZag is doubling, loses nothing either way, and keeps small numbers short. -/
theorem zigzag_exact :
    (∀ v : Int32, ((encode32 v).toNat : Int) =
      if 0 ≤ v.toInt then 2 * v.toInt else -2 * v.toInt - 1) ∧
    (∀ v : Int64, ((encode64 v).toNat : Int) =
      if 0 ≤ v.toInt then 2 * v.toInt else -2 * v.toInt - 1) ∧
    (∀ v, decode32 (encode32 v) = v) ∧ (∀ u, encode32 (decode32 u) = u) ∧
    (∀ v, decode64 (encode64 v) = v) ∧ (∀ u, encode64 (decode64 u) = u) ∧
    ∀ (k : Nat) (v : Int64), 1 ≤ k → -2 ^ (7 * k - 1) ≤ v.toInt → v.toInt < 2 ^ (7 * k - 1) →
      ∃ bs : List UInt8, (∀ buffer : Buffer, buffer.zigzag64 v = buffer.bytes bs) ∧
        bs.length ≤ k := by
  refine ⟨toNat_encode32, toNat_encode64, decode32_encode32, encode32_decode32, decode64_encode64,
    encode64_decode64, ?_⟩
  intro k v hk hmin hmax
  exact ⟨Varint.encode (encode64 v), fun _ => rfl, length_encode_encode64_le hk hmin hmax⟩

end GoBindings.Wire.ZigZag
