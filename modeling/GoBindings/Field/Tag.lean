import GoBindings.Field.Kind
import GoBindings.Setup

/-!
# Struct tags of fields

A tag tells the runtime how a field is encoded. Its items stand between commas; the default, which
may hold commas itself, is the last.
-/

namespace GoBindings

open Schema

structure Tag where
  wire : WireKind
  number : Int32
  label : Option Label
  packed : Bool
  name : String
  json : Option String
  /-- Whether the field is a byte string of the third dialect. -/
  proto3Bytes : Bool
  enumName : Option String
  oneof : Bool
  defaultText : Option String
  deriving DecidableEq, Repr, Inhabited

namespace Tag

/-- An item with a key, or nothing. -/
def item (key : String) : Option String → String
  | some value => "," ++ key ++ "=" ++ value
  | none => ""

def flag (name : String) (set : Bool) : String := if set then "," ++ name else ""

def text (t : Tag) : String :=
  t.wire.text ++ "," ++ toString t.number.toInt ++ "," ++ (t.label.map Label.text).getD "" ++
    flag "packed" t.packed ++ item "name" (some t.name) ++ item "json" t.json ++
    flag "proto3" t.proto3Bytes ++ item "enum" t.enumName ++ flag "oneof" t.oneof ++
    item "def" t.defaultText

def quoted (t : Tag) : String := Text.quote t.text

end Tag

/-- A schema name in its package. -/
def inPackage (package name : String) : String :=
  if package = "" then name else package ++ "." ++ name

namespace Setup

variable (s : Setup)

/-- The default of a field as the runtime reads it: truth values and enum values are numbers. -/
def tagDefault (file : FileId) (field : Descriptor.Field) (kind : FieldKind) :
    Except Error (Option String) :=
  match field.defaultValue with
  | none => .ok none
  | some value =>
    match kind with
    | .bool => .ok (some (if value = "true" then "1" else "0"))
    | .enum => do
      let (_, e) ← s.underlyingEnum field.typeNameText file
      match e.numberOf? value with
      | some n => return some (toString n.toInt)
      | none => throw (.unresolvedEnumDefault (Go.camelCaseScope e.typeName) value)
    | _ => .ok (some value)

def tagEnum (file : FileId) (field : Descriptor.Field) (kind : FieldKind) :
    Except Error (Option String) :=
  match kind with
  | .enum => do
    let (_, e) ← s.underlyingEnum field.typeNameText file
    return some (inPackage (s.schema.file e.file).package (Go.camelCaseScope e.typeName))
  | _ => .ok none

/-- Repeated numbers are packed if the field says so, or says nothing in the third dialect. -/
def isPacked (m : MessageNode) (field : Descriptor.Field) (kind : FieldKind) : Bool :=
  match field.options.bind (·.packed) with
  | some packed => packed
  | none => m.proto3 && field.isRepeated && kind.isPackable

/-- The name of a field; a group goes by the last part of its type name. -/
def tagName (field : Descriptor.Field) (kind : FieldKind) : String :=
  match kind with
  | .group => String.ofList (Text.afterLast '.' field.typeNameText.toList)
  | _ => field.nameText

def tagJson (field : Descriptor.Field) (name : String) : Option String :=
  field.jsonName.filter fun json => json ≠ "" && json ≠ name

def fieldTag (file : FileId) (message : MessageId) (field : Descriptor.Field) (wire : WireKind) :
    Except Error Tag := do
  let kind ← field.fieldKind
  let defaultText ← s.tagDefault file field kind
  let enumName ← s.tagEnum file field kind
  let m := s.schema.message message
  let name := tagName field kind
  return {
    wire, number := field.numberValue, label := field.label?, packed := isPacked m field kind, name,
    json := tagJson field name, proto3Bytes := m.proto3 && kind = .bytes, enumName,
    oneof := field.oneofIndex.isSome, defaultText }

end Setup

end GoBindings
