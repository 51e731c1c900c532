import GoBindings.Bind.Part
import GoBindings.Field.Tag

/-!
# Enums

An enum is a Go type with a constant for each value and maps between names and numbers. A number
with several names goes by the first of them.
-/

namespace GoBindings.Binder

open Schema Go

variable (b : Binder)

def constantEntries (node : EnumNode) (type : String) (i : Nat) :
    List Descriptor.EnumValue → List ConstEntry
  | [] => []
  | v :: vs =>
    (b.commentAt (node.path ++ [2, i])).map ConstEntry.comment ++
      .constant (node.constantPrefix ++ v.name.getD "") type (v.number.getD 0) ::
      constantEntries node type (i + 1) vs

/-- The entries from numbers to names. One whose number was seen before is only a comment. -/
def nameEntries (seen : List Int32) : List Descriptor.EnumValue → List Entry
  | [] => []
  | v :: vs =>
    let n := v.number.getD 0
    let name := v.name.getD ""
    if seen.contains n then
      .comment (" Duplicate value: " ++ toString n.toInt ++ ": " ++ Text.quote name ++ ",") ::
        nameEntries seen vs
    else .keyed (.int n.toInt) (.quoted name) :: nameEntries (n :: seen) vs

def numberEntries (values : List Descriptor.EnumValue) : List Entry :=
  values.map fun v => .keyed (.quoted (v.name.getD "")) (.int (v.number.getD 0).toInt)

def enumPointerFunc (type : String) : Func :=
  { receiver := some ⟨some "x", false, type⟩
    name := "Enum"
    results := .one (.type (.pointer (.name type)))
    body := .block
      [.define "p" (.call (.name "new") [.type (.name type)]),
       .set (.star (.name "p")) (.name "x"),
       .ret (.name "p")] }

def enumStringFunc (type : String) : Func :=
  { receiver := some ⟨some "x", false, type⟩
    name := "String"
    results := .one (.type (.name "string"))
    body := .block
      [.ret (.call (.qualified b.proto "EnumName")
        [.name (type ++ "_name"), .call (.name "int32") [.name "x"]])] }

def enumUnmarshalFunc (type : String) : Func :=
  { receiver := some ⟨some "x", true, type⟩
    name := "UnmarshalJSON"
    params := [⟨["data"], .bytes⟩]
    results := .one (.type (.name "error"))
    body := .block
      [.simple (.assign [.name "value", .name "err"] ":="
        [.call (.qualified b.proto "UnmarshalJSONEnum")
          [.name (type ++ "_value"), .name "data", .quoted type]]),
       .ifThen none (.notNil (.name "err")) [.ret (.name "err")],
       .set (.star (.name "x")) (.call (.name type) [.name "value"]),
       .ret .nil] }

def registerEnum (node : EnumNode) : Simple :=
  let type := camelCaseScope node.typeName
  .eval (.call (.qualified b.proto "RegisterEnum")
    [.quoted (inPackage b.node.package type), .name (type ++ "_name"), .name (type ++ "_value")])

def enumDecls (node : EnumNode) : List Decl :=
  let type := camelCaseScope node.typeName
  let values := node.proto.values
  let pointerMethods := if node.proto3 then [] else [Decl.func (enumPointerFunc type)]
  let unmarshalMethods := if node.proto3 then [] else [Decl.func (b.enumUnmarshalFunc type)]
  let wellKnown :=
    if (b.schema.file node.file).package = wellKnownPackage && node.name = "NullValue" then
      [Decl.func (wellKnownFunc ⟨none, false, type⟩ node.name)]
    else []
  (b.commentAt node.path).map Decl.comment ++
    [.typeDef type (.name "int32"),
     .constants (b.constantEntries node type 0 values),
     .table (type ++ "_name") false (.map (.name "int32") (.name "string")) (nameEntries [] values),
     .table (type ++ "_value") false (.map (.name "string") (.name "int32"))
       (numberEntries values)] ++
    pointerMethods ++ [.func (b.enumStringFunc type)] ++ unmarshalMethods ++
    [.func (b.descriptorFunc ⟨none, false, type⟩ "EnumDescriptor" node.path)] ++ wellKnown ++
    [.blank]

def enumSymbols (node : EnumNode) : List Symbol :=
  let type := camelCaseScope node.typeName
  .enum type node.proto3 :: node.proto.values.map fun v =>
    .value .const (node.constantPrefix ++ v.name.getD "") (some type)

def enumPart (id : EnumId) : Part :=
  let node := b.schema.enum id
  { decls := b.enumDecls node
    uses := [b.proto]
    exports := (enumSymbols node).map fun x => (.enum id, x) }

end GoBindings.Binder
