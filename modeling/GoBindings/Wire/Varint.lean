/-!
# Varints

A number in groups of seven bits, least significant first, one group to a byte. Every byte but
the last has its high bit set. Words are written and read bit by bit; numbers of any size are
written and read by division.
-/

namespace GoBindings.Wire.Varint

theorem toNat_shiftRight_seven (v : UInt64) : (v >>> 7).toNat = v.toNat / 128 := by
  rw [UInt64.toNat_shiftRight, Nat.shiftRight_eq_div_pow]
  rfl

private theorem toNat_shiftRight_lt {v : UInt64} (h : ¬ v < 128) : (v >>> 7).toNat < v.toNat := by
  have hbig : 128 ≤ v.toNat := UInt64.le_iff_toNat_le.mp (UInt64.not_lt.mp h)
  rw [toNat_shiftRight_seven]
  omega

def encode (v : UInt64) : List UInt8 :=
  if v < 128 then [v.toUInt8] else (v.toUInt8 &&& 127 ||| 128) :: encode (v >>> 7)
termination_by v.toNat
decreasing_by exact toNat_shiftRight_lt ‹_›

def size (v : UInt64) : Nat := if v < 128 then 1 else 1 + size (v >>> 7)
termination_by v.toNat
decreasing_by exact toNat_shiftRight_lt ‹_›

/-- Puts the groups at the start of the bytes into `word`, the first of them at bit `shift`. Bits
beyond the word are lost, and no group may start there. With the word comes the count of bytes. -/
def decodeFrom? (shift : Nat) (word : UInt64) : List UInt8 → Option (UInt64 × Nat)
  | [] => none
  | b :: bs =>
    if 64 ≤ shift then none
    else
      let word := word ||| (b &&& 127).toUInt64 <<< shift.toUInt64
      if b &&& 128 = 0 then some (word, 1)
      else (decodeFrom? (shift + 7) word bs).map fun (v, count) => (v, count + 1)

def decode? (bs : List UInt8) : Option (UInt64 × Nat) := decodeFrom? 0 0 bs

/-- The longest varint of a word has ten bytes. -/
def maxSize : Nat := 10

def encodeNat (n : Nat) : List UInt8 :=
  if n < 128 then [n.toUInt8] else (n % 128 + 128).toUInt8 :: encodeNat (n / 128)
termination_by n
decreasing_by omega

/-- The number at the start of the bytes and the count of its bytes, which is at most `limit`. -/
def decodeNat? : (limit : Nat) → List UInt8 → Option (Nat × Nat)
  | 0, _ => none
  | _ + 1, [] => none
  | limit + 1, b :: bs =>
    if b.toNat < 128 then some (b.toNat, 1)
    else (decodeNat? limit bs).map fun (v, count) => (b.toNat - 128 + 128 * v, count + 1)

theorem decodeNat?_pos {limit v count : Nat} {bs : List UInt8}
    (h : decodeNat? limit bs = some (v, count)) : 0 < count ∧ count ≤ bs.length := by
  induction limit generalizing v count bs with
  | zero => simp [decodeNat?] at h
  | succ limit ih =>
    cases bs with
    | nil => simp [decodeNat?] at h
    | cons b bs =>
      rw [decodeNat?] at h
      split at h
      · simp only [Option.some.injEq, Prod.mk.injEq] at h
        simp [← h.2]
      · obtain ⟨⟨w, k⟩, hw, he⟩ := Option.map_eq_some_iff.1 h
        have := ih hw
        simp only [Prod.mk.injEq] at he
        simp only [List.length_cons]
        omega

private theorem decodeFrom?_pos {shift count : Nat} {word v : UInt64} {bs : List UInt8}
    (h : decodeFrom? shift word bs = some (v, count)) : 0 < count ∧ count ≤ bs.length := by
  induction bs generalizing shift word v count with
  | nil => simp [decodeFrom?] at h
  | cons b bs ih =>
    simp only [decodeFrom?] at h
    split at h
    · simp at h
    · split at h
      · simp only [Option.some.injEq, Prod.mk.injEq] at h
        simp [← h.2]
      · obtain ⟨⟨w, k⟩, hw, he⟩ := Option.map_eq_some_iff.1 h
        have := ih hw
        simp only [Prod.mk.injEq] at he
        simp only [List.length_cons]
        omega

theorem decode?_pos {v : UInt64} {count : Nat} {bs : List UInt8}
    (h : decode? bs = some (v, count)) : 0 < count ∧ count ≤ bs.length := decodeFrom?_pos h

end GoBindings.Wire.Varint
