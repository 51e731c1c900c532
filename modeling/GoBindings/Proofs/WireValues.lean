import GoBindings.Wire.Buffer
import GoBindings.Wire.Cursor
import Mathlib.Algebra.Group.Nat.Defs
import Mathlib.Data.List.Basic
import Mathlib.Data.Nat.Bitwise

/-!
# What is written is read back

Every encoding is followed by anything at all: a reader consumes what its writer produced and leaves
the rest.
-/

namespace GoBindings.Wire

open Cursor List

namespace Varint

variable {word : UInt64} {k limit n : Nat}

private theorem toNat_group (v : UInt64) :
    (v.toUInt8 &&& 127 ||| 128).toNat = v.toNat % 128 + 128 := by
  have hlow : v.toUInt8.toNat &&& 127 = v.toNat % 128 := by
    rw [UInt64.toNat_toUInt8, show 127 = 2 ^ 7 - 1 from rfl, Nat.and_two_pow_sub_one_eq_mod]
    omega
  have hhigh := Nat.two_pow_add_eq_or_of_lt (i := 7) (show v.toNat % 128 < 2 ^ 7 by omega) 1
  rw [UInt8.toNat_or, UInt8.toNat_and]
  change (v.toUInt8.toNat &&& 127) ||| 128 = _
  rw [hlow, Nat.or_comm, Nat.add_comm]
  exact hhigh.symm

theorem encode_eq (v : UInt64) : encode v = encodeNat v.toNat := by
  fun_induction encode v with
  | case1 v h =>
    have hsmall : v.toNat < 128 := h
    rw [encodeNat, if_pos hsmall]
    rfl
  | case2 v h ih =>
    have hbig : ¬ v.toNat < 128 := h
    have hbyte : v.toUInt8 &&& 127 ||| 128 = (v.toNat % 128 + 128).toUInt8 := by
      apply UInt8.toNat_inj.mp
      rw [toNat_group]
      exact (Nat.mod_eq_of_lt (by omega)).symm
    rw [encodeNat, if_neg hbig, ih, hbyte, toNat_shiftRight_seven]

theorem length_encode (v : UInt64) : (encode v).length = size v := by
  fun_induction encode v with
  | case1 v h => rw [size, if_pos h, length_singleton]
  | case2 v h ih => rw [size, if_neg h, length_cons, ih, Nat.add_comm]

theorem length_encodeNat_le (h : n < 128 ^ (limit + 1)) : (encodeNat n).length ≤ limit + 1 := by
  induction limit generalizing n with
  | zero => simp [encodeNat, show n < 128 by simpa using h]
  | succ limit ih =>
    rw [encodeNat]
    split
    · simp
    · have hhigh : n / 128 < 128 ^ (limit + 1) := (Nat.div_lt_iff_lt_mul (by decide)).mpr h
      have := ih hhigh
      rw [length_cons]
      omega

theorem size_le (v : UInt64) : size v ≤ maxSize := by
  rw [← length_encode, encode_eq]
  exact length_encodeNat_le (Nat.lt_of_lt_of_le v.toNat_lt (by decide))

theorem decodeNat?_encodeNat (rest : List UInt8) (h : n < 128 ^ (limit + 1)) :
    decodeNat? (limit + 1) (encodeNat n ++ rest) = some (n, (encodeNat n).length) := by
  induction limit generalizing n with
  | zero =>
    have hn : n < 128 := by simpa using h
    rw [encodeNat, if_pos hn]
    simp [decodeNat?, Nat.mod_eq_of_lt (show n < 256 by omega), hn]
  | succ limit ih =>
    rw [encodeNat]
    by_cases hn : n < 128
    · simp [decodeNat?, hn, Nat.mod_eq_of_lt (show n < 256 by omega)]
    · have hbyte : (n % 128 + 128).toUInt8.toNat = n % 128 + 128 := by
        simp only [UInt8.toNat_ofNat', Nat.toUInt8_eq]
        omega
      have hhigh : n / 128 < 128 ^ (limit + 1) := by
        rw [Nat.div_lt_iff_lt_mul (by decide)]
        exact h
      rw [if_neg hn, cons_append, decodeNat?, hbyte, if_neg (by omega), ih hhigh]
      simp only [Option.map_some, Option.some.injEq, Prod.mk.injEq, length_cons, and_true]
      omega

private theorem and_128_eq_zero_iff (b : UInt8) : b &&& 128 = 0 ↔ b.toNat < 128 := by
  have hmax := b.toNat_lt
  have hbit : b.toNat &&& 128 = (b.toNat.testBit 7).toNat * 128 := Nat.and_two_pow b.toNat 7
  have htop : b.toNat.testBit 7 = decide (128 ≤ b.toNat) := by
    rw [Nat.testBit_eq_decide_div_mod_eq]
    apply decide_eq_decide.mpr
    omega
  rw [← UInt8.toNat_inj, UInt8.toNat_and]
  change b.toNat &&& 128 = 0 ↔ _
  rw [hbit, htop]
  by_cases h : 128 ≤ b.toNat
  · simp [h]
  · simp [h, Nat.not_le.mp h]

private theorem toNat_or_group (b : UInt8) (hk : k < maxSize) (hword : word.toNat < 128 ^ k) :
    (word ||| (b &&& 127).toUInt64 <<< (7 * k).toUInt64).toNat =
      (word.toNat + 128 ^ k * (b.toNat % 128)) % 2 ^ 64 := by
  have hplace : (7 * k).toUInt64.toNat % 64 = 7 * k := by
    rw [maxSize] at hk
    simp only [Nat.toUInt64_eq, UInt64.toNat_ofNat']
    omega
  have hgroup : (b &&& 127).toUInt64.toNat = b.toNat % 128 := by
    rw [UInt8.toNat_toUInt64, UInt8.toNat_and]
    exact Nat.and_two_pow_sub_one_eq_mod b.toNat 7
  have hpow : 128 ^ k = 2 ^ (7 * k) := by rw [Nat.pow_mul]
  rw [hpow] at hword ⊢
  rw [UInt64.toNat_or, UInt64.toNat_shiftLeft, hplace, hgroup,
    ← Nat.mod_eq_of_lt word.toNat_lt, ← Nat.or_mod_two_pow, Nat.or_comm, Nat.shiftLeft_eq,
    Nat.mul_comm, Nat.mod_eq_of_lt word.toNat_lt, ← Nat.two_pow_add_eq_or_of_lt hword,
    Nat.add_comm]

private theorem decodeFrom?_eq (bs : List UInt8) (hk : k ≤ maxSize) (hword : word.toNat < 128 ^ k) :
    decodeFrom? (7 * k) word bs = (decodeNat? (maxSize - k) bs).map
      fun r => ((word.toNat + 128 ^ k * r.1).toUInt64, r.2) := by
  induction bs generalizing k word with
  | nil => cases h : maxSize - k <;> rfl
  | cons b bs ih =>
    simp only [decodeFrom?]
    by_cases hlast : k = maxSize
    · subst hlast
      rfl
    have hshift : ¬ 64 ≤ 7 * k := by rw [maxSize] at hk hlast; omega
    have hlimit : maxSize - k = maxSize - (k + 1) + 1 := by omega
    have hjoin := toNat_or_group b (by omega) hword
    rw [if_neg hshift, hlimit, decodeNat?]
    by_cases hb : b.toNat < 128
    · rw [if_pos ((and_128_eq_zero_iff b).mpr hb), if_pos hb, Option.map_some]
      congr 2
      apply UInt64.toNat_inj.mp
      rw [hjoin, Nat.mod_eq_of_lt hb]
      exact UInt64.toNat_ofNat'.symm
    · have hbyte : b.toNat % 128 = b.toNat - 128 := by
        have := b.toNat_lt
        omega
      have hnext : (word ||| (b &&& 127).toUInt64 <<< (7 * k).toUInt64).toNat < 128 ^ (k + 1) := by
        rw [hjoin, Nat.pow_succ]
        refine Nat.lt_of_le_of_lt (Nat.mod_le ..) ?_
        have : 128 ^ k * (b.toNat % 128) ≤ 128 ^ k * 127 := Nat.mul_le_mul_left _ (by omega)
        omega
      have hbit : ¬ b &&& 128 = 0 := fun h => hb ((and_128_eq_zero_iff b).mp h)
      rw [if_neg hbit, if_neg hb, show 7 * k + 7 = 7 * (k + 1) from rfl, ih (by omega) hnext,
        Option.map_map, Option.map_map]
      congr 1
      funext r
      obtain ⟨v, count⟩ := r
      simp only [Function.comp_apply, Prod.mk.injEq, and_true]
      apply UInt64.toNat_inj.mp
      simp only [Nat.toUInt64_eq, UInt64.toNat_ofNat']
      rw [hjoin, hbyte, Nat.mod_add_mod, Nat.pow_succ, Nat.mul_add, Nat.mul_assoc, Nat.add_assoc]

theorem decode?_eq (bs : List UInt8) :
    decode? bs = (decodeNat? maxSize bs).map fun (v, count) => (v.toUInt64, count) := by
  have h := decodeFrom?_eq (k := 0) bs (Nat.zero_le _) (show (0 : UInt64).toNat < 1 by decide)
  rw [decode?]
  simpa using h

theorem decode?_encode (v : UInt64) (rest : List UInt8) :
    decode? (encode v ++ rest) = some (v, size v) := by
  have hv : v.toNat < 128 ^ (9 + 1) := Nat.lt_of_lt_of_le v.toNat_lt (by decide)
  rw [decode?_eq, ← length_encode, encode_eq, maxSize, decodeNat?_encodeNat rest hv]
  simp

end Varint

namespace Fixed

@[simp] theorem length_encodeNat (width n : Nat) : (encodeNat width n).length = width := by
  induction width generalizing n with
  | zero => rfl
  | succ width ih => simp [encodeNat, ih]

theorem decodeNat_encodeNat (width n : Nat) : decodeNat (encodeNat width n) = n % 256 ^ width := by
  induction width generalizing n with
  | zero => simp [encodeNat, decodeNat, Nat.mod_one]
  | succ width ih =>
    have hbyte : n.toUInt8.toNat = n % 256 := UInt8.toNat_ofNat'
    rw [encodeNat, decodeNat, ih, hbyte, Nat.pow_succ', Nat.mod_mul]

theorem decode32_encode32 (v : UInt32) : decode32 (encode32 v) = v := by
  simp [decode32, encode32, decodeNat_encodeNat]

theorem decode64_encode64 (v : UInt64) : decode64 (encode64 v) = v := by
  simp [decode64, encode64, decodeNat_encodeNat]

end Fixed

namespace ZigZag

variable {w : Nat}

theorem sshiftRight_sign (x : BitVec (w + 1)) :
    x.sshiftRight w = if x.msb then BitVec.allOnes (w + 1) else 0#(w + 1) := by
  ext i hi
  simp [BitVec.getElem_sshiftRight, BitVec.msb_eq_getLsbD_last]
  split <;> split <;> simp_all

theorem neg_lowest (u : BitVec (w + 1)) :
    -(u &&& 1#(w + 1)) = if u.getLsbD 0 then BitVec.allOnes (w + 1) else 0#(w + 1) := by
  have hlow : u &&& 1#(w + 1) = if u.getLsbD 0 then 1#(w + 1) else 0#(w + 1) := by
    cases hbit : u.getLsbD 0 with
    | false | true =>
      ext i hi
      cases i with
      | zero => simpa using hbit
      | succ i => simp
  rw [hlow]
  split
  · exact BitVec.neg_one_eq_allOnes
  · exact BitVec.neg_zero _

private theorem unfold_fold (x : BitVec (w + 1)) {u : BitVec (w + 1)}
    (hu : u = (x <<< 1) ^^^ x.sshiftRight w) : (u >>> 1) ^^^ -(u &&& 1#(w + 1)) = x := by
  have hsign : x.msb = x.getLsbD w := BitVec.msb_eq_getLsbD_last x
  have hlow : u.getLsbD 0 = x.msb := by
    rw [hu, sshiftRight_sign]
    cases x.msb <;> simp
  rw [neg_lowest, hlow, hu, sshiftRight_sign]
  ext i hi
  by_cases hlast : i = w
  · subst hlast
    cases h : x.msb <;> simp_all [BitVec.getLsbD_eq_getElem]
  · have hnext : 1 + i < w + 1 := by omega
    cases x.msb <;> simp [hnext, BitVec.getLsbD_eq_getElem]

theorem decode32_encode32 (v : Int32) : decode32 (encode32 v) = v := by
  have h := unfold_fold v.toBitVec (u := (encode32 v).toBitVec) (by simp [encode32])
  apply Int32.toBitVec_inj.mp
  simpa [decode32] using h

theorem decode64_encode64 (v : Int64) : decode64 (encode64 v) = v := by
  have h := unfold_fold v.toBitVec (u := (encode64 v).toBitVec) (by simp [encode64])
  apply Int64.toBitVec_inj.mp
  simpa [decode64] using h

end ZigZag

section Keys

variable {number : Int32}

/-- The numbers that fields have. -/
def IsFieldNumber (number : Int32) : Prop := 1 ≤ number.toInt ∧ number.toInt ≤ maxFieldNumber

instance (number : Int32) : Decidable (IsFieldNumber number) := inferInstanceAs (Decidable (_ ∧ _))

theorem IsFieldNumber.toNat_spec (h : IsFieldNumber number) :
    number.toInt = number.toInt.toNat ∧ 0 < number.toInt.toNat ∧
      number.toInt.toNat ≤ maxFieldNumber := by
  have := h.1
  have := h.2
  omega

theorem WireType.code_lt (wire : WireType) : wire.code < 8 := by cases wire <;> decide

@[simp] theorem WireType.ofCode?_code (wire : WireType) : ofCode? wire.code = some wire := by
  cases wire <;> rfl

private theorem toNat_toUInt32 (h : IsFieldNumber number) :
    number.toUInt32.toNat = number.toInt.toNat := by
  have hbits : number.toInt = _ := BitVec.toInt_eq_toNat_cond number.toBitVec
  have hpattern : number.toUInt32.toNat = number.toBitVec.toNat := rfl
  have hlt := number.toBitVec.isLt
  have hpos := h.1
  split at hbits <;> omega

theorem toNat_makeKey_eq (number : Int32) (wire : WireType) :
    (makeKey number wire).toNat = number.toUInt32.toNat * 8 + wire.code := by
  have hmax := number.toUInt32.toNat_lt
  have hcode : wire.code.toUInt64.toNat = wire.code :=
    UInt64.toNat_ofNat_of_lt (Nat.lt_trans wire.code_lt (by decide))
  have hshift : number.toUInt32.toNat <<< (UInt64.toNat 3 % 64) % 2 ^ 64 =
      number.toUInt32.toNat <<< 3 := by
    refine Nat.mod_eq_of_lt ?_
    rw [show UInt64.toNat 3 % 64 = 3 by decide, Nat.shiftLeft_eq]
    omega
  rw [makeKey, UInt64.toNat_or, UInt64.toNat_shiftLeft, UInt32.toNat_toUInt64, hcode, hshift,
    ← Nat.shiftLeft_add_eq_or_of_lt wire.code_lt, Nat.shiftLeft_eq]

theorem toNat_makeKey (h : IsFieldNumber number) (wire : WireType) :
    (makeKey number wire).toNat = number.toInt.toNat * 8 + wire.code := by
  rw [toNat_makeKey_eq, toNat_toUInt32 h]

theorem splitKey?_makeKey (h : IsFieldNumber number) (wire : WireType) :
    splitKey? (makeKey number wire) = some (number, wire) := by
  have hwire := wire.code_lt
  obtain ⟨hint, hpos, hmax⟩ := h.toNat_spec
  have hnumber : Int32.ofNat number.toInt.toNat = number := by
    rw [← Int32.ofInt_eq_ofNat, ← hint, Int32.ofInt_toInt]
  rw [splitKey?, toNat_makeKey h]
  have hcode : (number.toInt.toNat * 8 + wire.code) % 8 = wire.code := by omega
  have hdiv : (number.toInt.toNat * 8 + wire.code) / 8 = number.toInt.toNat := by omega
  simp only [hcode, hdiv, WireType.ofCode?_code, hnumber]
  rw [if_neg (by omega)]

theorem splitKey?_makeKey_none (h : ¬ IsFieldNumber number) (wire : WireType) :
    splitKey? (makeKey number wire) = none := by
  have hwire := wire.code_lt
  have hbits : number.toInt = _ := BitVec.toInt_eq_toNat_cond number.toBitVec
  have hpattern : number.toUInt32.toNat = number.toBitVec.toNat := rfl
  have hlt := number.toBitVec.isLt
  have hrange : number.toUInt32.toNat = 0 ∨ maxFieldNumber < number.toUInt32.toNat := by
    rw [IsFieldNumber] at h
    simp only [maxFieldNumber] at h ⊢
    split at hbits <;> omega
  have hcode : (number.toUInt32.toNat * 8 + wire.code) % 8 = wire.code := by omega
  have hdiv : (number.toUInt32.toNat * 8 + wire.code) / 8 = number.toUInt32.toNat := by omega
  rw [splitKey?, toNat_makeKey_eq]
  simp only [hcode, hdiv, WireType.ofCode?_code]
  rw [if_pos hrange]

end Keys

theorem Buffer.lengthDelimited_eq (buffer : Buffer) (bs : List UInt8) :
    buffer.lengthDelimited bs = buffer.bytes (Varint.encode bs.length.toUInt64 ++ bs) := by
  simp [Buffer.lengthDelimited, Buffer.varint, Buffer.bytes]

namespace Cursor

variable {before rest : List UInt8}
variable {bs : List UInt8}

/-- A cursor with bytes before it and bytes after it. -/
def between (before after : List UInt8) : Cursor := ⟨before ++ after, before.length⟩

@[simp] theorem rest_between (before after : List UInt8) : (between before after).rest = after := by
  simp [between, rest]

theorem advance_between (before bs rest : List UInt8) :
    (between before (bs ++ rest)).advance bs.length = between (before ++ bs) rest := by
  simp [between, advance]

theorem bytes_between (h : (before ++ bs ++ rest).length < UInt64.size) :
    (between before (bs ++ rest)).bytes bs.length = (.ok bs, between (before ++ bs) rest) := by
  simp only [length_append] at h
  rw [bytes, rest_between, advance_between, take_left]
  simp only [between, length_append]
  rw [if_neg (by omega), if_neg (by omega)]

theorem byte_between (before : List UInt8) (v : UInt8) (rest : List UInt8) :
    (between before ([v] ++ rest)).byte = (.ok v, between (before ++ [v]) rest) := by
  rw [byte, rest_between]
  exact congrArg (Prod.mk _) (advance_between before [v] rest)

theorem varint_between (before : List UInt8) (v : UInt64) (rest : List UInt8) :
    (between before (Varint.encode v ++ rest)).varint =
      (.ok v, between (before ++ Varint.encode v) rest) := by
  simp only [varint, rest_between, Varint.decode?_encode, ← Varint.length_encode, advance_between]

theorem fixed32_between (v : UInt32)
    (h : (before ++ Fixed.encode32 v ++ rest).length < UInt64.size) :
    (between before (Fixed.encode32 v ++ rest)).fixed32 =
      (.ok v, between (before ++ Fixed.encode32 v) rest) := by
  have hread := bytes_between h
  rw [Fixed.encode32, Fixed.length_encodeNat, ← Fixed.encode32] at hread
  rw [fixed32, hread]
  simp [Result.map, Except.map, Fixed.decode32_encode32]

theorem fixed64_between (v : UInt64)
    (h : (before ++ Fixed.encode64 v ++ rest).length < UInt64.size) :
    (between before (Fixed.encode64 v ++ rest)).fixed64 =
      (.ok v, between (before ++ Fixed.encode64 v) rest) := by
  have hread := bytes_between h
  rw [Fixed.encode64, Fixed.length_encodeNat, ← Fixed.encode64] at hread
  rw [fixed64, hread]
  simp [Result.map, Except.map, Fixed.decode64_encode64]

theorem zigzag32_between (before : List UInt8) (v : Int32) (rest : List UInt8) :
    (between before (Varint.encode (ZigZag.encode32 v).toUInt64 ++ rest)).zigzag32 =
      (.ok v, between (before ++ Varint.encode (ZigZag.encode32 v).toUInt64) rest) := by
  rw [zigzag32, varint_between]
  simp [Result.map, Except.map, ZigZag.decode32_encode32]

theorem zigzag64_between (before : List UInt8) (v : Int64) (rest : List UInt8) :
    (between before (Varint.encode (ZigZag.encode64 v) ++ rest)).zigzag64 =
      (.ok v, between (before ++ Varint.encode (ZigZag.encode64 v)) rest) := by
  rw [zigzag64, varint_between]
  simp [Result.map, Except.map, ZigZag.decode64_encode64]

theorem key_between {number : Int32} (hnumber : IsFieldNumber number) (before : List UInt8)
    (wire : WireType) (rest : List UInt8) :
    (between before (Varint.encode (makeKey number wire) ++ rest)).key =
      (.ok (number, wire), between (before ++ Varint.encode (makeKey number wire)) rest) := by
  simp only [key, varint_between, splitKey?_makeKey hnumber]

theorem lengthDelimited_between
    (h : (before ++ (Varint.encode bs.length.toUInt64 ++ bs) ++ rest).length < UInt64.size) :
    (between before (Varint.encode bs.length.toUInt64 ++ bs ++ rest)).lengthDelimited =
      (.ok bs, between (before ++ (Varint.encode bs.length.toUInt64 ++ bs)) rest) := by
  have hlength : bs.length.toUInt64.toNat = bs.length := by
    refine UInt64.toNat_ofNat_of_lt (Nat.lt_of_le_of_lt ?_ h)
    simp only [length_append]
    omega
  have hroom : (before ++ Varint.encode bs.length.toUInt64 ++ bs ++ rest).length < UInt64.size := by
    simpa using h
  rw [append_assoc, lengthDelimited, varint_between]
  simp only [hlength, bytes_between hroom, append_assoc]

end Cursor

end GoBindings.Wire
