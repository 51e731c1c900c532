import GoBindings.Text.Utf8
import Mathlib.Data.List.Basic

/-!
# Text is read back from its bytes

Every character is written as a first byte, which tells how many follow it, and bytes that carry six
bits each. Reading takes exactly these bytes, whatever stands after them.
-/

namespace GoBindings.Text.Utf8

open List

section Characters

variable {bits count q : Nat}

private theorem toNat_byte {n : Nat} (h : n < 256) : (UInt8.ofNat n).toNat = n :=
  UInt8.toNat_ofNat_of_lt' h

private theorem readTail_cons {d : Nat} {low high : UInt8} (hd : d < 64)
    (hlow : low.toNat ≤ d + 128) (hhigh : d + 128 ≤ high.toNat) (bs : List UInt8) :
    readTail bits low high (count + 1) (UInt8.ofNat (d + 128) :: bs) =
      readTail (bits * 64 + d) 0x80 0xBF count bs := by
  have hbyte : (UInt8.ofNat (d + 128)).toNat = d + 128 := toNat_byte (by omega)
  rw [readTail, if_pos, hbyte, Nat.add_sub_cancel]
  simp only [UInt8.le_iff_toNat_le, hbyte]
  exact ⟨hlow, hhigh⟩

private theorem readTail_six {d : Nat} (hd : d < 64) (bs : List UInt8) :
    readTail bits 0x80 0xBF (count + 1) (UInt8.ofNat (d + 128) :: bs) =
      readTail (bits * 64 + d) 0x80 0xBF count bs := by
  apply readTail_cons hd
  · show 128 ≤ d + 128
    omega
  · show d + 128 ≤ 191
    omega

private theorem next_of_lead {b : UInt8} {low high : UInt8} (hb : ¬ b < 0x80)
    (hlead : Lead.of? b = some ⟨bits, count, low, high⟩) (bs : List UInt8) :
    next b bs = readTail bits low high count bs := by
  rw [next, if_neg hb, hlead]

private theorem not_lt_lead {n : Nat} (hlow : 128 ≤ n) (h : n < 256) : ¬ UInt8.ofNat n < 0x80 := by
  rw [UInt8.lt_iff_toNat_lt, toNat_byte h]
  exact Nat.not_lt.mpr hlow

private theorem lead_two (hlow : 2 ≤ q) (h : q < 32) :
    Lead.of? (UInt8.ofNat (q + 192)) = some ⟨q, 1, 0x80, 0xBF⟩ := by
  have hall : ∀ q < 32, 2 ≤ q → Lead.of? (UInt8.ofNat (q + 192)) = some ⟨q, 1, 0x80, 0xBF⟩ := by
    decide
  exact hall q h hlow

private theorem lead_three (h : q < 16) : ∃ low high : UInt8,
    Lead.of? (UInt8.ofNat (q + 224)) = some ⟨q, 2, low, high⟩ ∧
      ∀ d < 64, (q = 0 → 32 ≤ d) → (q = 13 → d < 32) →
        low.toNat ≤ d + 128 ∧ d + 128 ≤ high.toNat := by
  by_cases hzero : q = 0
  · subst hzero
    refine ⟨0xA0, 0xBF, rfl, fun d hd hlow _ => ?_⟩
    exact ⟨show 160 ≤ d + 128 by omega, show d + 128 ≤ 191 by omega⟩
  by_cases hsurrogate : q = 13
  · subst hsurrogate
    refine ⟨0x80, 0x9F, rfl, fun d hd _ hhigh => ?_⟩
    exact ⟨show 128 ≤ d + 128 by omega, show d + 128 ≤ 159 by omega⟩
  · refine ⟨0x80, 0xBF, ?_, fun d hd _ _ =>
      ⟨show 128 ≤ d + 128 by omega, show d + 128 ≤ 191 by omega⟩⟩
    have hall : ∀ q < 16, q ≠ 0 → q ≠ 13 →
        Lead.of? (UInt8.ofNat (q + 224)) = some ⟨q, 2, 0x80, 0xBF⟩ := by decide
    exact hall q h hzero hsurrogate

private theorem lead_four (h : q < 5) : ∃ low high : UInt8,
    Lead.of? (UInt8.ofNat (q + 240)) = some ⟨q, 3, low, high⟩ ∧
      ∀ d < 64, (q = 0 → 16 ≤ d) → (q = 4 → d < 16) →
        low.toNat ≤ d + 128 ∧ d + 128 ≤ high.toNat := by
  by_cases hzero : q = 0
  · subst hzero
    refine ⟨0x90, 0xBF, rfl, fun d hd hlow _ => ?_⟩
    exact ⟨show 144 ≤ d + 128 by omega, show d + 128 ≤ 191 by omega⟩
  by_cases hlast : q = 4
  · subst hlast
    refine ⟨0x80, 0x8F, rfl, fun d hd _ hhigh => ?_⟩
    exact ⟨show 128 ≤ d + 128 by omega, show d + 128 ≤ 143 by omega⟩
  · refine ⟨0x80, 0xBF, ?_, fun d hd _ _ =>
      ⟨show 128 ≤ d + 128 by omega, show d + 128 ≤ 191 by omega⟩⟩
    have hq : q = 1 ∨ q = 2 ∨ q = 3 := by omega
    rcases hq with rfl | rfl | rfl <;> rfl

theorem next_encodeChar (c : Char) (rest : List UInt8) : ∃ b bs,
    String.utf8EncodeChar c = b :: bs ∧ next b (bs ++ rest) = (some c, rest) := by
  have hchar : Char.ofNat c.val.toNat = c := c.ofNat_toNat
  have hvalid : c.val.toNat < 55296 ∨ 57343 < c.val.toNat ∧ c.val.toNat < 1114112 := c.valid
  rw [String.utf8EncodeChar]
  generalize c.val.toNat = v at hchar hvalid ⊢
  by_cases hone : v ≤ 127
  · refine ⟨_, _, if_pos hone, ?_⟩
    have hbyte : (UInt8.ofNat v).toNat = v := toNat_byte (by omega)
    have hlt : UInt8.ofNat v < 0x80 := by
      rw [UInt8.lt_iff_toNat_lt, hbyte]
      exact Nat.lt_succ_of_le hone
    rw [next, if_pos hlt, hbyte, hchar, nil_append]
  rw [if_neg hone]
  by_cases htwo : v ≤ 2047
  · refine ⟨_, _, if_pos htwo, ?_⟩
    have hq : v / 64 % 32 < 32 := by omega
    have hbits : v / 64 % 32 * 64 + v % 64 = v := by omega
    rw [next_of_lead (not_lt_lead (by omega) (by omega)) (lead_two (by omega) hq),
      cons_append, readTail_six (by omega), hbits, readTail, hchar, nil_append]
  rw [if_neg htwo]
  by_cases hthree : v ≤ 65535
  · refine ⟨_, _, if_pos hthree, ?_⟩
    obtain ⟨low, high, hlead, hrange⟩ := lead_three (q := v / 4096 % 16) (by omega)
    obtain ⟨hlow, hhigh⟩ := hrange (v / 64 % 64) (by omega) (by omega) (by omega)
    have hbits : (v / 4096 % 16 * 64 + v / 64 % 64) * 64 + v % 64 = v := by omega
    rw [next_of_lead (not_lt_lead (by omega) (by omega)) hlead, cons_append,
      readTail_cons (by omega) hlow hhigh, cons_append, readTail_six (by omega), hbits,
      readTail, hchar, nil_append]
  · refine ⟨_, _, if_neg hthree, ?_⟩
    obtain ⟨low, high, hlead, hrange⟩ := lead_four (q := v / 262144 % 8) (by omega)
    obtain ⟨hlow, hhigh⟩ := hrange (v / 4096 % 64) (by omega) (by omega) (by omega)
    have hbits : ((v / 262144 % 8 * 64 + v / 4096 % 64) * 64 + v / 64 % 64) * 64 + v % 64 = v := by
      omega
    rw [next_of_lead (not_lt_lead (by omega) (by omega)) hlead, cons_append,
      readTail_cons (by omega) hlow hhigh, cons_append, readTail_six (by omega),
      cons_append, readTail_six (by omega), hbits, readTail, hchar, nil_append]

end Characters

theorem parts_encode (s : String) : parts (encode s) = s.toList.map some := by
  rw [encode]
  induction s.toList with
  | nil => simp [parts]
  | cons c cs ih =>
    obtain ⟨b, bs, hbytes, hnext⟩ := next_encodeChar c (cs.flatMap String.utf8EncodeChar)
    rw [flatMap_cons, hbytes, cons_append, parts, hnext, ih, map_cons]

theorem decodeLossy_encode (s : String) : decodeLossy (encode s) = s := by
  have hchars : (s.toList.map some).map (·.getD '\uFFFD') = s.toList := by
    rw [map_map]
    exact map_id _
  rw [decodeLossy, parts_encode, hchars, String.ofList_toList]

theorem decode?_encode (s : String) : decode? (encode s) = some s := by
  have hall : (s.toList.map some).mapM id = some s.toList := by
    induction s.toList with
    | nil => rfl
    | cons c cs ih => simp [ih]
  rw [decode?, parts_encode, hall, Option.map_some, String.ofList_toList]

end GoBindings.Text.Utf8
