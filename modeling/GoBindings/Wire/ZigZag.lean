/-!
# ZigZag

Signed numbers are mapped to unsigned ones with the sign in the lowest bit, so that numbers of
small magnitude stay small.
-/

namespace GoBindings.Wire.ZigZag

def encode32 (v : Int32) : UInt32 := ((v <<< 1) ^^^ (v >>> 31)).toUInt32

def encode64 (v : Int64) : UInt64 := ((v <<< 1) ^^^ (v >>> 63)).toUInt64

def decode32 (v : UInt32) : Int32 := (v >>> 1).toInt32 ^^^ -(v &&& 1).toInt32

def decode64 (v : UInt64) : Int64 := (v >>> 1).toInt64 ^^^ -(v &&& 1).toInt64

end GoBindings.Wire.ZigZag
