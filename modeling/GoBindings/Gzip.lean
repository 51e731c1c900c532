import GoBindings.Wire.Fixed

/-!
# Gzip

Bytes are wrapped in the gzip format as stored blocks, which hold them as they are.
-/

namespace GoBindings.Gzip

/-- Divides by the polynomial of the check sum, lowest bit first, one bit. -/
def crcStep (c : UInt32) : UInt32 :=
  if c &&& 1 = 1 then (c >>> 1) ^^^ 0xEDB88320 else c >>> 1

def crcByte (c : UInt32) (b : UInt8) : UInt32 := Nat.repeat crcStep 8 (c ^^^ b.toUInt32)

def crc (bs : List UInt8) : UInt32 := (bs.foldl crcByte 0xFFFFFFFF) ^^^ 0xFFFFFFFF

/-- The mark of the format, the method, no flags and no time, the best level, no system. -/
def header : List UInt8 := [0x1f, 0x8b, 8, 0, 0, 0, 0, 0, 2, 0xff]

def blockSize : Nat := 65535

/-- The length comes twice, the second time with all bits inverted. -/
def block (isLast : Bool) (bs : List UInt8) : List UInt8 :=
  (if isLast then 1 else 0) ::
    (Wire.Fixed.encodeNat 2 bs.length ++ Wire.Fixed.encodeNat 2 (blockSize - bs.length) ++ bs)

def blocks (bs : List UInt8) : List UInt8 :=
  if bs.length ≤ blockSize then block true bs
  else block false (bs.take blockSize) ++ blocks (bs.drop blockSize)
termination_by bs.length
decreasing_by simp only [List.length_drop, blockSize] at *; omega

def compress (bs : List UInt8) : List UInt8 :=
  header ++ blocks bs ++ Wire.Fixed.encode32 (crc bs) ++
    Wire.Fixed.encode32 bs.length.toUInt32

/-- The bytes in the blocks, and what follows the last one. -/
def readBlocks? (bs : List UInt8) : Option (List UInt8 × List UInt8) :=
  match bs with
  | [] => none
  | flag :: rest =>
    let length := Wire.Fixed.decodeNat (rest.take 2)
    let inverted := Wire.Fixed.decodeNat ((rest.drop 2).take 2)
    let after := rest.drop 4
    if rest.length < 4 + length ∨ length + inverted ≠ blockSize then none
    else if flag = 1 then some (after.take length, after.drop length)
    else if flag = 0 then
      (readBlocks? (after.drop length)).map fun (content, rest) =>
        (after.take length ++ content, rest)
    else none
termination_by bs.length
decreasing_by simp only [List.length_drop, List.length_cons]; omega

/-- The wrapped bytes, if the check sum and the length are theirs. -/
def decompress? (bs : List UInt8) : Option (List UInt8) :=
  if bs.take header.length = header then
    match readBlocks? (bs.drop header.length) with
    | some (content, trailer) =>
      if trailer = Wire.Fixed.encode32 (crc content) ++
          Wire.Fixed.encode32 content.length.toUInt32 then some content
      else none
    | none => none
  else none

end GoBindings.Gzip
