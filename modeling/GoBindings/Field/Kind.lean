import GoBindings.Descriptor.Basic
import GoBindings.Error
import GoBindings.Go.TypeExpr
import GoBindings.Wire.Kind

/-!
# Kinds of fields
-/

namespace GoBindings

open Wire (WireType)

inductive FieldKind where
  | double
  | float
  | int64
  | uint64
  | int32
  | fixed64
  | fixed32
  | bool
  | string
  | group
  | message
  | bytes
  | uint32
  | enum
  | sfixed32
  | sfixed64
  | sint32
  | sint64
  deriving DecidableEq, Repr, Inhabited

/-- How a field is encoded, in the words of struct tags. -/
inductive WireKind where
  | varint
  | fixed32
  | fixed64
  | zigzag32
  | zigzag64
  | bytes
  | group
  deriving DecidableEq, Repr, Inhabited

namespace WireKind

def text : WireKind → String
  | varint => "varint"
  | fixed32 => "fixed32"
  | fixed64 => "fixed64"
  | zigzag32 => "zigzag32"
  | zigzag64 => "zigzag64"
  | bytes => "bytes"
  | group => "group"

/-- The wire type that such a field starts with. -/
def wireType : WireKind → WireType
  | varint | zigzag32 | zigzag64 => .varint
  | fixed32 => .fixed32
  | fixed64 => .fixed64
  | bytes => .bytes
  | group => .startGroup

end WireKind

namespace FieldKind

def all : List FieldKind :=
  [double, float, int64, uint64, int32, fixed64, fixed32, bool, string, group, message, bytes,
   uint32, enum, sfixed32, sfixed64, sint32, sint64]

/-- Kinds are numbered from one. -/
def ofNumber? (n : Int32) : Option FieldKind := if 1 ≤ n then all[n.toInt.toNat - 1]? else none

/-- Whether a single value is held by a pointer, so that no value differs from zero. -/
def needsPointer : FieldKind → Bool
  | group | message | bytes => false
  | _ => true

/-- Whether repeated values may be packed. -/
def isPackable : FieldKind → Bool
  | string | bytes | group | message => false
  | _ => true

/-- The Go type and encoding of a kind that names no other type. -/
def scalar? : FieldKind → Option (Go.TypeExpr × WireKind)
  | double => some (.name "float64", .fixed64)
  | float => some (.name "float32", .fixed32)
  | int64 => some (.name "int64", .varint)
  | uint64 => some (.name "uint64", .varint)
  | int32 => some (.name "int32", .varint)
  | fixed64 => some (.name "uint64", .fixed64)
  | fixed32 => some (.name "uint32", .fixed32)
  | bool => some (.name "bool", .varint)
  | string => some (.name "string", .bytes)
  | bytes => some (.bytes, .bytes)
  | uint32 => some (.name "uint32", .varint)
  | sfixed32 => some (.name "int32", .fixed32)
  | sfixed64 => some (.name "int64", .fixed64)
  | sint32 => some (.name "int32", .zigzag32)
  | sint64 => some (.name "int64", .zigzag64)
  | group | message | enum => none

end FieldKind

inductive Label where
  | optional
  | required
  | repeated
  deriving DecidableEq, Repr, Inhabited

/-- The word for a label in struct tags. -/
def Label.text : Label → String
  | optional => "opt"
  | required => "req"
  | repeated => "rep"

namespace Descriptor.Field

variable (f : Descriptor.Field)

def nameText : String := f.name.getD ""

def typeNameText : String := f.typeName.getD ""

def numberValue : Int32 := f.number.getD 0

def fieldKind : Except Error FieldKind :=
  match FieldKind.ofNumber? (f.kind.getD 0) with
  | some kind => .ok kind
  | none => .error (.unknownFieldKind f.nameText (f.kind.getD 0))

def label? : Option Label :=
  match f.label with
  | some 1 => some .optional
  | some 2 => some .required
  | some 3 => some .repeated
  | _ => none

def isRepeated : Bool := f.label? = some .repeated

end Descriptor.Field

end GoBindings
