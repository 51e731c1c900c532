import GoBindings.Bind.Default

/-!
# Getters

Every field has a getter, which works on a nil message too: it gives the field, or the default.
-/

namespace GoBindings.Binder

open Schema Go

variable (b : Binder)

/-- Whether a getter gives what the pointer of the field points to. -/
def getterDerefs (p : FieldPlan) : Bool := p.kind.needsPointer && p.type.isStarred

def getterType (p : FieldPlan) : TypeExpr := if getterDerefs p then p.type.unstarred else p.type

/-- What importers have to know to pass a getter on; groups never are passed on. -/
def getterShape? (p : FieldPlan) : Except Error (Option GetterShape) :=
  match p.kind, p.map with
  | .group, _ => .ok none
  | _, some map =>
    match map.target with
    | some target => .ok (some (.map map.key target map.value.isStarred))
    | none => .ok (some (.plain (getterType p)))
  | .message, none | .enum, none => do
    let object ← b.setup.resolve p.field.typeNameText b.file
    return some (.named (b.schema.underlying object) (getterType p).hasStarredElem
      p.field.isRepeated)
  | _, none => .ok (some (.plain (getterType p)))

def enumZero (field : Descriptor.Field) : Except Error (Stmt × List String) := do
  let object ← b.setup.resolve field.typeNameText b.file
  let node ← b.setup.asEnum object
  match node.proto.values with
  | first :: _ =>
    let (constant, uses) ← b.enumConstant object node (first.name.getD "")
    return (.ret constant, uses)
  | [] => return (.noted (.ret [.number "0"]) " empty enum", [])

def getterFallback (p : FieldPlan) (d : Option DefaultPlan) :
    Except Error (Stmt × List String) :=
  match d, p.kind with
  | some d, .bytes =>
    .ok (.ret (.call (.name "append")
      [.call (.type .bytes) [.nil], .spread (.name d.name)]), [])
  | some d, _ => .ok (.ret (.name d.name), [])
  | none, .bool => .ok (.ret (.name "false"), [])
  | none, .string => .ok (.ret (.quoted ""), [])
  | none, .group | none, .message | none, .bytes => .ok (.ret .nil, [])
  | none, .enum => b.enumZero p.field
  | none, _ => .ok (.ret (.number "0"), [])

/-- Whether nil stands for a field that is not set. -/
def nilDefault (p : FieldPlan) (d : Option DefaultPlan) : Bool :=
  (match p.kind with
    | .bytes => d.isNone
    | .group | .message => true
    | _ => false) || p.field.isRepeated

def getterBody (m : MessageNode) (unions : List (Option UnionPlan)) (p : FieldPlan)
    (d : Option DefaultPlan) : Except Error (List Stmt × List String) := do
  let member := Expr.select (.name "m") p.name
  match p.oneof with
  | none =>
    if nilDefault p d then
      return ([.ifThen none (.notNil (.name "m")) [.ret member], .ret .nil], [])
    else
      let isSet := if m.proto3 then Expr.notNil (.name "m")
        else .binary (.notNil (.name "m")) "&&" (.notNil member)
      let value := if getterDerefs p then .star member else member
      let (fallback, uses) ← b.getterFallback p d
      return ([.ifThen none isSet [.ret value], fallback], uses)
  | some i =>
    let union ← unionAt unions i
    let (fallback, uses) ← b.getterFallback p d
    let unwrap := Simple.assign [.name "x", .name "ok"] ":="
      [.assert (.method (.name "m") ("Get" ++ union.name) []) (.pointer (.name p.wrapper))]
    return ([.ifThen (some unwrap) (.name "ok") [.ret (.select (.name "x") p.name)], fallback],
      uses)

def getterPart (m : MessageNode) (type : String) (unions : List (Option UnionPlan))
    (p : FieldPlan) (d : Option DefaultPlan) : Except Error (Part × Option GetterSymbol) := do
  let shape ← b.getterShape? p
  let (body, uses) ← b.getterBody m unions p d
  let getter : Func :=
    { receiver := some ⟨some "m", true, type⟩
      name := p.getter
      results := .one (.type (getterType p))
      body := .block body }
  return ({ decls := [.func getter, .blank], uses }, shape.map fun shape => ⟨p.getter, shape⟩)

end GoBindings.Binder
