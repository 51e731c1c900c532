/-!
# Fixed-width numbers

Numbers of a fixed width are written with their least significant byte first.
-/

namespace GoBindings.Wire.Fixed

def encodeNat : (width n : Nat) → List UInt8
  | 0, _ => []
  | width + 1, n => n.toUInt8 :: encodeNat width (n / 256)

def decodeNat : List UInt8 → Nat
  | [] => 0
  | b :: bs => b.toNat + 256 * decodeNat bs

def encode32 (v : UInt32) : List UInt8 := encodeNat 4 v.toNat

def encode64 (v : UInt64) : List UInt8 := encodeNat 8 v.toNat

def decode32 (bs : List UInt8) : UInt32 := (decodeNat bs).toUInt32

def decode64 (bs : List UInt8) : UInt64 := (decodeNat bs).toUInt64

end GoBindings.Wire.Fixed
