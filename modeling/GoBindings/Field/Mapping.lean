import GoBindings.Field.Kind
import GoBindings.Setup

/-!
# Go types of fields

Repeated fields are slices. Single values in messages of the third dialect, and members of a
union, are held by value; all others by a pointer, if their type has no nil of its own.
-/

namespace GoBindings

open Schema

structure FieldType where
  type : Go.TypeExpr
  wire : WireKind
  deriving DecidableEq, Repr, Inhabited

/-- The foreign package that the type refers to. -/
def FieldType.package? (t : FieldType) : Option String := t.type.packages.head?

namespace Setup

variable (s : Setup)

def elementType (file : FileId) (field : Descriptor.Field) (kind : FieldKind) :
    Except Error FieldType :=
  match kind.scalar? with
  | some (type, wire) => .ok ⟨type, wire⟩
  | none => do
    let name ← s.goName (← s.resolve field.typeNameText file)
    match kind with
    | .group => return ⟨.pointer name, .group⟩
    | .message => return ⟨.pointer name, .bytes⟩
    | _ => return ⟨name, .varint⟩

/-- Whether a field of a message is held by value. -/
def heldByValue (message : Option MessageId) (field : Descriptor.Field) : Bool :=
  match message with
  | none => false
  | some id => (s.schema.message id).proto3 || field.oneofIndex.isSome

def fieldType (file : FileId) (message : Option MessageId) (field : Descriptor.Field) :
    Except Error FieldType := do
  let kind ← field.fieldKind
  let t ← s.elementType file field kind
  if field.isRepeated then return { t with type := .slice t.type }
  else if s.heldByValue message field then return t
  else if kind.needsPointer then return { t with type := .pointer t.type }
  else return t

end Setup

end GoBindings
