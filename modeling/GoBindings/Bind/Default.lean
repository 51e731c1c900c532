import GoBindings.Bind.FieldPlan

/-!
# Defaults

A field with a default has a constant for it, or a variable where Go has no such constants.
-/

namespace GoBindings

open Schema Go

structure DefaultPlan where
  sort : ValueSort
  name : String
  type : TypeExpr
  value : Expr
  uses : List String

namespace Binder

variable (b : Binder)

/-- A constant of an enum, as named from this package, and the package it is in. -/
def enumConstant (object : Object) (node : EnumNode) (value : String) :
    Except Error (Expr × List String) := do
  let package ← b.setup.packages.of (b.schema.fileOf object)
  let name := node.constantPrefix ++ value
  return if package = b.setup.packageName then (.name name, [])
    else (.qualified package name, [package])

/-- The values of floating-point fields that are words in the schema. -/
def specialFloat? (value : String) : Option Expr :=
  if value = "inf" then some (.call (.qualified b.math "Inf") [.number "1"])
  else if value = "-inf" then some (.call (.qualified b.math "Inf") [.number "-1"])
  else if value = "nan" then some (.call (.qualified b.math "NaN") [])
  else none

/-- The declaration for a default that is not empty. A field that calls itself an enum without
being one has none. -/
def planDefault (type : String) (p : FieldPlan) : Except Error (Option DefaultPlan) := do
  let value := p.field.defaultValue.getD ""
  let name := "Default_" ++ type ++ "_" ++ camelCase p.field.nameText
  let t := p.fieldType.type.unstarred
  let plan (sort : ValueSort) (value : Expr) (uses : List String) : Option DefaultPlan :=
    some ⟨sort, name, t, value, uses⟩
  if value = "" then return none
  else if t.text = "bool" then return plan .const (.name value) []
  else if t.text = "string" then return plan .const (.quoted value) []
  else if t.text = "[]byte" then
    return plan .var (.call (.type .bytes) [.quoted value]) []
  else match b.specialFloat? value with
    | some special =>
      let special := if p.kind = .float then .call (.name "float32") [special] else special
      return plan .var special [b.math]
    | none =>
      if p.kind = .enum then
        let object ← b.setup.resolve p.field.typeNameText b.file
        match b.schema.underlying object with
        | .enum id =>
          let (constant, uses) ← b.enumConstant object (b.schema.enum id) value
          return plan .const constant uses
        | _ => return none
      else return plan .const (if p.kind = .bool then .name value else .number value) []

def DefaultPlan.decl (d : DefaultPlan) : Decl := .value d.sort d.name (some d.type) d.value none

def defaultPart (id : MessageId) (d : DefaultPlan) : Part :=
  { decls := [DefaultPlan.decl d]
    uses := d.uses
    exports := [(.message id, .value d.sort d.name none)] }

end Binder

end GoBindings
