/-!
# Wire types

A field on the wire starts with a key that announces how its payload is delimited.
-/

namespace GoBindings.Wire

inductive WireType where
  | varint
  | fixed64
  | bytes
  | startGroup
  | endGroup
  | fixed32
  deriving DecidableEq, Repr, Inhabited

namespace WireType

def code : WireType → Nat
  | varint => 0
  | fixed64 => 1
  | bytes => 2
  | startGroup => 3
  | endGroup => 4
  | fixed32 => 5

def ofCode? : Nat → Option WireType
  | 0 => some varint
  | 1 => some fixed64
  | 2 => some bytes
  | 3 => some startGroup
  | 4 => some endGroup
  | 5 => some fixed32
  | _ => none

/-- The constant of the Go runtime package with this wire type. -/
def goConstant : WireType → String
  | varint => "WireVarint"
  | fixed64 => "WireFixed64"
  | bytes => "WireBytes"
  | startGroup => "WireStartGroup"
  | endGroup => "WireEndGroup"
  | fixed32 => "WireFixed32"

end WireType

/-- The largest field number that a key can carry. -/
def maxFieldNumber : Nat := 0x1fffffff

/-- The key of a field: its number, then the three bits of the wire type. -/
def makeKey (number : Int32) (wire : WireType) : UInt64 :=
  (number.toUInt32.toUInt64 <<< 3) ||| wire.code.toUInt64

end GoBindings.Wire
