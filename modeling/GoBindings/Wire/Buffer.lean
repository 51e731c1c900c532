import GoBindings.Text.Utf8
import GoBindings.Wire.Fixed
import GoBindings.Wire.Kind
import GoBindings.Wire.Varint
import GoBindings.Wire.ZigZag

/-!
# Writing

A buffer grows at its end by one encoded value at a time.
-/

namespace GoBindings.Wire

structure Buffer where
  data : List UInt8 := []
  deriving DecidableEq, Repr, Inhabited

namespace Buffer

def length (b : Buffer) : Nat := b.data.length

def isEmpty (b : Buffer) : Bool := b.data.isEmpty

def bytes (b : Buffer) (bs : List UInt8) : Buffer := ⟨b.data ++ bs⟩

def byte (b : Buffer) (v : UInt8) : Buffer := b.bytes [v]

def varint (b : Buffer) (v : UInt64) : Buffer := b.bytes (Varint.encode v)

def fixed32 (b : Buffer) (v : UInt32) : Buffer := b.bytes (Fixed.encode32 v)

def fixed64 (b : Buffer) (v : UInt64) : Buffer := b.bytes (Fixed.encode64 v)

def zigzag32 (b : Buffer) (v : Int32) : Buffer := b.varint (ZigZag.encode32 v).toUInt64

def zigzag64 (b : Buffer) (v : Int64) : Buffer := b.varint (ZigZag.encode64 v)

def key (b : Buffer) (number : Int32) (wire : WireType) : Buffer := b.varint (makeKey number wire)

def lengthDelimited (b : Buffer) (bs : List UInt8) : Buffer :=
  (b.varint bs.length.toUInt64).bytes bs

def text (b : Buffer) (s : String) : Buffer := b.lengthDelimited (Text.Utf8.encode s)

end Buffer

end GoBindings.Wire
