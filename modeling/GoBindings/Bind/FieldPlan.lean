import GoBindings.Bind.Part
import GoBindings.Field.Mapping
import GoBindings.Field.Tag
import GoBindings.MemberNames

/-!
# Plans of fields

All that is decided about the fields of a message before any of it is declared: names, types,
tags, the unions they belong to, and the maps they stand for.
-/

namespace GoBindings

open Schema Go

structure MapPlan where
  key : TypeExpr
  value : TypeExpr
  /-- The message or enum that the values are. -/
  target : Option Object
  deriving DecidableEq, Repr, Inhabited

structure UnionPlan where
  name : String
  interface : String
  schemaName : String
  deriving DecidableEq, Repr, Inhabited

structure FieldPlan where
  field : Descriptor.Field
  kind : FieldKind
  name : String
  getter : String
  fieldType : FieldType
  /-- The declared type, a map for map fields. -/
  type : TypeExpr
  tag : Tag
  structTag : StructTag
  map : Option MapPlan
  /-- The place of the oneof that the field is a member of. -/
  oneof : Option Nat
  /-- The struct that wraps the field as a member of a union. -/
  wrapper : String
  uses : List String
  deriving Inhabited

structure MessagePlan where
  names : MemberNames := {}
  /-- The unions of the oneofs, for those with a member. -/
  unions : List (Option UnionPlan)
  fields : List FieldPlan := []

namespace Binder

variable (b : Binder)

def unionAt (unions : List (Option UnionPlan)) (i : Nat) : Except Error UnionPlan :=
  match unions[i]?.join with
  | some union => .ok union
  | none => .error (.oneofWithoutMembers i)

def declaredUnions (unions : List (Option UnionPlan)) : List UnionPlan := unions.filterMap id

/-- A struct type for a member of a union, with underscores if a nested type has its name. -/
def wrapperName (m : MessageNode) (type name : String) : String :=
  let nested := m.nested.map fun id => camelCaseScope (b.schema.message id).typeName
  let enums := m.enums.map fun id => camelCaseScope (b.schema.enum id).typeName
  let taken := nested ++ enums
  let candidate (k : Nat) := type ++ "_" ++ name ++ Text.repeated k '_'
  candidate (leastFrom (fun k => !taken.contains (candidate k)) taken.length 0)

/-- Makes sure that the oneof of a field has its union, whose name is taken by the first member. -/
def planUnion (m : MessageNode) (type : String) (field : Descriptor.Field) (plan : MessagePlan) :
    Except Error (Option Nat × MessagePlan) :=
  match field.oneofIndex with
  | none => .ok (none, plan)
  | some i =>
    let i := position i
    match plan.unions[i]?, m.proto.oneofs[i]? with
    | some (some _), _ => .ok (some i, plan)
    | some none, some oneof =>
      let schemaName := oneof.name.getD ""
      let (name, names) := plan.names.allocateOne (camelCase schemaName)
      let union : UnionPlan := ⟨name, "is" ++ type ++ "_" ++ name, schemaName⟩
      .ok (some i, { plan with names, unions := plan.unions.set i (some union) })
    | _, _ => .error (.unknownOneof field.nameText i)

/-- The value type of a map and the object it names. Only messages stay pointers. -/
def mapValue (field : Descriptor.Field) (kind : FieldKind) (type : TypeExpr) :
    Except Error (TypeExpr × Option Object) :=
  match kind with
  | .message => do
    return (type, some (b.schema.underlying (← b.setup.resolve field.typeNameText b.file)))
  | .enum => do
    return (type.unstarred,
      some (b.schema.underlying (← b.setup.resolve field.typeNameText b.file)))
  | _ => .ok (type.unstarred, none)

/-- The map that a field of an entry message stands for, and the tags of its key and value. -/
def planEntry (entry : MessageId) (keyField valueField : Descriptor.Field) :
    Except Error (MapPlan × List (String × String) × List String) := do
  let keyType ← b.setup.fieldType b.file (some entry) keyField
  let valueType ← b.setup.fieldType b.file (some entry) valueField
  let keyTag ← b.setup.fieldTag b.file entry keyField keyType.wire
  let valueTag ← b.setup.fieldTag b.file entry valueField valueType.wire
  let valueKind ← valueField.fieldKind
  let (value, target) ← b.mapValue valueField valueKind valueType.type
  return (⟨keyType.type.unstarred, value, target⟩,
    [("protobuf_key", keyTag.quoted), ("protobuf_val", valueTag.quoted)],
    keyType.package?.toList ++ valueType.package?.toList)

/-- The map that a message field stands for, if its type is an entry with two fields. -/
def planMap (field : Descriptor.Field) (kind : FieldKind) :
    Except Error (Option (MapPlan × List (String × String) × List String)) :=
  match kind with
  | .message => do
    match ← b.setup.resolve field.typeNameText b.file with
    | .message entry =>
      let m := b.schema.message entry
      match m.isMapEntry, m.proto.fields with
      | true, [key, value] => return some (← b.planEntry entry key value)
      | _, _ => return none
    | _ => return none
  | _ => .ok none

def planField (id : MessageId) (m : MessageNode) (type : String) (plan : MessagePlan)
    (field : Descriptor.Field) : Except Error MessagePlan := do
  let kind ← field.fieldKind
  let ((name, getter), names) := plan.names.allocateField (camelCase field.nameText)
  let fieldType ← b.setup.fieldType b.file (some id) field
  let tag ← b.setup.fieldTag b.file id field fieldType.wire
  let (oneof, plan) ← planUnion m type field { plan with names }
  let map ← b.planMap field kind
  let mapParts := (map.map (·.2.1)).getD []
  let fieldPlan : FieldPlan :=
    { field, kind, name, getter, fieldType,
      type := match map with
        | some (m, _) => .map m.key m.value
        | none => fieldType.type
      tag
      structTag := ⟨[("protobuf", tag.quoted),
        ("json", Text.quote (field.nameText ++ ",omitempty"))] ++ mapParts⟩
      map := map.map (·.1)
      oneof
      wrapper := if oneof.isSome then b.wrapperName m type name else ""
      uses := fieldType.package?.toList ++ (map.map (·.2.2)).getD [] }
  return { plan with fields := plan.fields ++ [fieldPlan] }

def planMessage (id : MessageId) : Except Error MessagePlan :=
  let m := b.schema.message id
  m.proto.fields.foldlM (b.planField id m (camelCaseScope m.typeName))
    { unions := m.proto.oneofs.map fun _ => none }

end Binder

end GoBindings
