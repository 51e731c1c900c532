import GoBindings.Text.Utf8
import GoBindings.Wire.Fixed
import GoBindings.Wire.Kind
import GoBindings.Wire.Varint
import GoBindings.Wire.ZigZag

/-!
# Reading

A cursor stands at an index of its data. Every read gives a value or a fault, and the cursor
after it; a varint that cannot be read stays consumed as far as it was looked at, a run of bytes
that is not there does not move the cursor.
-/

namespace GoBindings.Wire

inductive Fault where
  /-- The bytes do not hold what was asked for. -/
  | malformed
  /-- The end of the bytes asked for has no 64-bit index. -/
  | overflow
  deriving DecidableEq, Repr

structure Cursor where
  data : List UInt8
  index : Nat := 0
  deriving DecidableEq, Repr

namespace Cursor

abbrev Result (α : Type) := Except Fault α × Cursor

def rest (c : Cursor) : List UInt8 := c.data.drop c.index

def isEmpty (c : Cursor) : Bool := c.data.length ≤ c.index

def remaining (c : Cursor) : Nat := c.data.length - c.index

def advance (c : Cursor) (n : Nat) : Cursor := { c with index := c.index + n }

def Result.map {α β : Type} (f : α → β) (r : Result α) : Result β := (r.1.map f, r.2)

def byte (c : Cursor) : Result UInt8 :=
  match c.rest with
  | [] => (.error .malformed, c)
  | b :: _ => (.ok b, c.advance 1)

def bytes (c : Cursor) (n : Nat) : Result (List UInt8) :=
  if UInt64.size ≤ c.index + n then (.error .overflow, c)
  else if c.data.length < c.index + n then (.error .malformed, c)
  else (.ok (c.rest.take n), c.advance n)

def varint (c : Cursor) : Result UInt64 :=
  match Varint.decode? c.rest with
  | some (v, count) => (.ok v, c.advance count)
  | none => (.error .malformed, c.advance (min Varint.maxSize c.remaining))

def fixed32 (c : Cursor) : Result UInt32 := (c.bytes 4).map Fixed.decode32

def fixed64 (c : Cursor) : Result UInt64 := (c.bytes 8).map Fixed.decode64

/-- A signed number from the low 32 bits of a varint. -/
def zigzag32 (c : Cursor) : Result Int32 := c.varint.map fun v => ZigZag.decode32 v.toUInt32

def zigzag64 (c : Cursor) : Result Int64 := c.varint.map ZigZag.decode64

/-- The number and wire type that a key stands for. -/
def splitKey? (key : UInt64) : Option (Int32 × WireType) :=
  let number := key.toNat / 8
  match WireType.ofCode? (key.toNat % 8) with
  | none => none
  | some wire =>
    if number = 0 ∨ maxFieldNumber < number then none else some (Int32.ofNat number, wire)

def key (c : Cursor) : Result (Int32 × WireType) :=
  match c.varint with
  | (.error e, c) => (.error e, c)
  | (.ok v, c) =>
    match splitKey? v with
    | none => (.error .malformed, c)
    | some k => (.ok k, c)

def lengthDelimited (c : Cursor) : Result (List UInt8) :=
  match c.varint with
  | (.error e, c) => (.error e, c)
  | (.ok n, c) => c.bytes n.toNat

def text (c : Cursor) : Result String := c.lengthDelimited.map Text.Utf8.decodeLossy

theorem remaining_varint_lt {c d : Cursor} {v : UInt64} (h : c.varint = (.ok v, d)) :
    d.remaining < c.remaining := by
  rw [varint] at h
  split at h
  · next w count hw =>
    have hpos := Varint.decode?_pos hw
    simp only [Prod.mk.injEq] at h
    rw [rest, List.length_drop] at hpos
    rw [← h.2, remaining, remaining, advance]
    simp only
    omega
  · simp at h

theorem remaining_key_lt {c d : Cursor} {k : Int32 × WireType} (h : c.key = (.ok k, d)) :
    d.remaining < c.remaining := by
  rw [key] at h
  split at h
  · simp at h
  · next v e hv =>
    have hlt := remaining_varint_lt hv
    split at h
    · simp at h
    · simp only [Prod.mk.injEq] at h
      exact h.2 ▸ hlt

theorem remaining_bytes_le (c : Cursor) (n : Nat) : (c.bytes n).2.remaining ≤ c.remaining := by
  rw [bytes]
  split
  · exact Nat.le_refl _
  · split
    · exact Nat.le_refl _
    · simp only [remaining, advance]
      omega

theorem remaining_varint_le (c : Cursor) : c.varint.2.remaining ≤ c.remaining := by
  rw [varint]
  split <;> simp only [remaining, advance] <;> omega

theorem remaining_lengthDelimited_le (c : Cursor) :
    c.lengthDelimited.2.remaining ≤ c.remaining := by
  have hv := remaining_varint_le c
  rw [lengthDelimited]
  split
  · next e d h => simpa [h] using hv
  · next n d h =>
    rw [h] at hv
    exact Nat.le_trans (remaining_bytes_le ..) hv

end Cursor

end GoBindings.Wire
