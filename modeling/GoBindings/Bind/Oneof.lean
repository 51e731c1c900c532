import GoBindings.Bind.FieldPlan
import GoBindings.Wire.Varint

/-!
# Unions

The members of a oneof are wrapped in structs that share an interface. The runtime cannot encode
them by itself, so a message with unions has functions that write, read and measure them.
-/

namespace GoBindings.Binder

open Schema Go

variable (b : Binder)

def membersOf (fields : List FieldPlan) (i : Nat) : List FieldPlan :=
  fields.filter fun p => p.oneof = some i

def numberedUnions (unions : List (Option UnionPlan)) : List (UnionPlan × Nat) :=
  (unions.zipIdx).filterMap fun (union, i) => union.map fun union => (union, i)

def wrapperDecl (p : FieldPlan) : Decl :=
  .wrapper p.wrapper p.name p.type ⟨[("protobuf", p.tag.quoted)]⟩

/-- The method that makes a wrapper a member of its union. -/
def markerDecl (unions : List (Option UnionPlan)) (p : FieldPlan) : Except Error (List Decl) :=
  match p.oneof with
  | none => .ok []
  | some i => do
    let union ← unionAt unions i
    let marker : Func :=
      { receiver := some ⟨none, true, p.wrapper⟩, name := union.interface, body := .empty }
    return [.func marker]

def unionGetter (type : String) (union : UnionPlan) : Func :=
  { receiver := some ⟨some "m", true, type⟩
    name := "Get" ++ union.name
    results := .one (.type (.name union.interface))
    body := .block
      [.ifLine (.notNil (.name "m")) (.ret [.select (.name "m") union.name]), .ret .nil] }

def unionTypes (type : String) (plan : MessagePlan) : Except Error (List Decl) := do
  let unions := declaredUnions plan.unions
  let members := plan.fields.filter (·.oneof.isSome)
  let markers ← plan.fields.mapM (markerDecl plan.unions)
  return (unions.map fun u => .interface u.interface u.interface) ++ [.blank] ++
    members.map wrapperDecl ++ [.blank] ++ markers.flatten ++ [.blank] ++
    (unions.map fun u => .func (unionGetter type u)) ++ [.blank]

/-- The parameters and results of the functions for unions, given the name of the buffer. -/
def writerType (buffer : String) : FuncType :=
  { params := [⟨["msg"], .qualified b.proto "Message"⟩,
      ⟨[buffer], .pointer (.qualified b.proto "Buffer")⟩]
    results := .one (.name "error") }

def readerType (buffer : String) : FuncType :=
  { params := [⟨["msg"], .qualified b.proto "Message"⟩, ⟨["tag", "wire"], .name "int"⟩,
      ⟨[buffer], .pointer (.qualified b.proto "Buffer")⟩]
    results := .many [.name "bool", .name "error"] }

def sizerType (results : Results TypeExpr) : FuncType :=
  { params := [⟨["msg"], .qualified b.proto "Message"⟩], results }

def writerName (type : String) : String := "_" ++ type ++ "_OneofMarshaler"

def readerName (type : String) : String := "_" ++ type ++ "_OneofUnmarshaler"

def sizerName (type : String) : String := "_" ++ type ++ "_OneofSizer"

def funcOf (name : String) (t : FuncType) (body : List Stmt) : Func :=
  let results := match t.results with
    | .none => .none
    | .one r => .one (.type r)
    | .many rs => .many (rs.map .type)
    | .named n r => .named n (.type r)
  { name, params := t.params, results, body := .block body }

def unionFuncResults (writer reader sizer : FuncType) : Results ResultType :=
  .many [.func writer, .func reader, .func sizer, .type (.slice .anything)]

/-- The method that gives the functions for unions and the types of their members. -/
def unionFuncs (type : String) (sizer : FuncType) (members : List FieldPlan) : Func :=
  { receiver := some ⟨none, true, type⟩
    name := "XXX_OneofFuncs"
    results := unionFuncResults (b.writerType "b") (b.readerType "b") sizer
    body := .block
      [.retList [.name (writerName type), .name (readerName type), .name (sizerName type)]
        (.slice .anything) (members.map fun p => .nilPointer p.wrapper)] }

def bindMessage (type : String) : Stmt :=
  .define "m" (.assert (.name "msg") (.pointer (.name type)))

def onBuffer (method : String) (args : List Expr) : Expr := .method (.name "b") method args

def conversion (type : String) (value : Expr) : Expr := .call (.name type) [value]

def writeKey (number : Int32) (wire : Wire.WireType) : Stmt :=
  .eval (onBuffer "EncodeVarint"
    [.binary (.tight (.int number.toInt) "<<" (.number "3")) "|"
      (.qualified b.proto wire.goConstant)])

def guardError (call : Expr) : Stmt :=
  .ifThen (some (.define "err" call)) (.notNil (.name "err")) [.ret (.name "err")]

/-- Writes the value of a member after its key. -/
def writeValue (kind : FieldKind) (number : Int32) (value : Expr) : List Stmt :=
  match kind with
  | .double => [.eval (onBuffer "EncodeFixed64" [.call (.qualified b.math "Float64bits") [value]])]
  | .float =>
    [.eval (onBuffer "EncodeFixed32"
      [conversion "uint64" (.call (.qualified b.math "Float32bits") [value])])]
  | .int64 | .uint64 | .int32 | .uint32 | .enum =>
    [.eval (onBuffer "EncodeVarint" [conversion "uint64" value])]
  | .fixed64 | .sfixed64 => [.eval (onBuffer "EncodeFixed64" [conversion "uint64" value])]
  | .fixed32 | .sfixed32 => [.eval (onBuffer "EncodeFixed32" [conversion "uint64" value])]
  | .bool =>
    [.define "t" (conversion "uint64" (.number "0")),
     .ifThen none value [.set (.name "t") (.number "1")],
     .eval (onBuffer "EncodeVarint" [.name "t"])]
  | .string => [.eval (onBuffer "EncodeStringBytes" [value])]
  | .group =>
    [guardError (onBuffer "Marshal" [value]), b.writeKey number .endGroup]
  | .message => [guardError (onBuffer "EncodeMessage" [value])]
  | .bytes => [.eval (onBuffer "EncodeRawBytes" [value])]
  | .sint32 => [.eval (onBuffer "EncodeZigzag32" [conversion "uint64" value])]
  | .sint64 => [.eval (onBuffer "EncodeZigzag64" [conversion "uint64" value])]

def writeCase (p : FieldPlan) : Case :=
  .on (.type (.pointer (.name p.wrapper)))
    (b.writeKey p.field.numberValue p.fieldType.wire.wireType ::
      b.writeValue p.kind p.field.numberValue (.select (.name "x") p.name))

/-- A switch over the members of a union, with a statement for a member that is none of them. -/
def unionSwitch (union : UnionPlan) (cases : List Case) (unknown : Stmt) : List Stmt :=
  [.comment (" " ++ union.schemaName),
   .typeSwitch "x" (.select (.name "m") union.name)
     (cases ++ [.on .nil [], .otherwise [unknown]])]

def writerFunc (type : String) (plan : MessagePlan) : Func :=
  let switches := (numberedUnions plan.unions).flatMap fun (union, i) =>
    unionSwitch union ((membersOf plan.fields i).map b.writeCase)
      (.ret (.call (.qualified b.fmt "Errorf")
        [.literal ("\"" ++ type ++ "." ++ union.name ++ " has unexpected type %T\""), .name "x"]))
  funcOf (writerName type) (b.writerType "b") (bindMessage type :: switches ++ [.ret .nil])

/-- The call that reads a member that is no message, and the value made of its result. -/
def readValue (kind : FieldKind) (type : TypeExpr) : Expr × Expr :=
  let x := Expr.name "x"
  match kind with
  | .double => (onBuffer "DecodeFixed64" [], .call (.qualified b.math "Float64frombits") [x])
  | .float =>
    (onBuffer "DecodeFixed32" [],
      .call (.qualified b.math "Float32frombits") [conversion "uint32" x])
  | .int64 => (onBuffer "DecodeVarint" [], conversion "int64" x)
  | .uint64 => (onBuffer "DecodeVarint" [], x)
  | .int32 => (onBuffer "DecodeVarint" [], conversion "int32" x)
  | .uint32 => (onBuffer "DecodeVarint" [], conversion "uint32" x)
  | .fixed64 => (onBuffer "DecodeFixed64" [], x)
  | .fixed32 => (onBuffer "DecodeFixed32" [], conversion "uint32" x)
  | .sfixed64 => (onBuffer "DecodeFixed64" [], conversion "int64" x)
  | .sfixed32 => (onBuffer "DecodeFixed32" [], conversion "int32" x)
  | .bool => (onBuffer "DecodeVarint" [], .binary x "!=" (.number "0"))
  | .string => (onBuffer "DecodeStringBytes" [], x)
  | .bytes => (onBuffer "DecodeRawBytes" [.name "true"], x)
  | .sint32 => (onBuffer "DecodeZigzag32" [], conversion "int32" x)
  | .sint64 => (onBuffer "DecodeZigzag64" [], conversion "int64" x)
  | .enum | .group | .message => (onBuffer "DecodeVarint" [], .call (.type type) [x])

def setUnion (union : UnionPlan) (p : FieldPlan) (value : Expr) : Stmt :=
  .set (.select (.name "m") union.name) (.address (.composite (.name p.wrapper) [value]))

def readMember (union : UnionPlan) (p : FieldPlan) : List Stmt :=
  let readMessage (method : String) : List Stmt :=
    [.define "msg" (.call (.name "new") [.type p.type.unstarred]),
     .define "err" (onBuffer method [.name "msg"]),
     setUnion union p (.name "msg")]
  match p.kind with
  | .group => readMessage "DecodeGroup"
  | .message => readMessage "DecodeMessage"
  | kind =>
    let (call, value) := b.readValue kind p.type
    [.simple (.assign [.name "x", .name "err"] ":=" [call]), setUnion union p value]

def readCase (unions : List (Option UnionPlan)) (p : FieldPlan) : Except Error (List Case) :=
  match p.oneof with
  | none => .ok []
  | some i => do
    let union ← unionAt unions i
    let wire := p.fieldType.wire.wireType.goConstant
    return [.onNoted (.int p.field.numberValue.toInt)
      (" " ++ union.schemaName ++ "." ++ p.field.nameText)
      (.ifThen none (.binary (.name "wire") "!=" (.qualified b.proto wire))
        [.simple (.ret [.name "true", .qualified b.proto "ErrInternalBadWireType"])] ::
        b.readMember union p ++ [.simple (.ret [.name "true", .name "err"])])]

def readerFunc (type : String) (plan : MessagePlan) : Except Error Func := do
  let cases ← plan.fields.mapM (b.readCase plan.unions)
  return funcOf (readerName type) (b.readerType "b")
    [bindMessage type,
     .switchOn (.name "tag")
      (cases.flatten ++ [.otherwise [.simple (.ret [.name "false", .nil])]])]

def addSize (value : Expr) : Simple := .assign [.name "n"] "+=" [value]

/-- Adds the size of the key of a field, which is known. -/
def addKeySize (number : Int32) (wire : Wire.WireType) : Stmt :=
  .noted (addSize (.nat (Wire.Varint.size (Wire.makeKey number wire)))) " tag and wire"

def varintSize (value : Expr) : Stmt :=
  .simple (addSize (.call (.qualified b.proto "SizeVarint") [conversion "uint64" value]))

/-- Statements that come before the sizes of a member, and those that add the size of its value
after that of its key. -/
def sizeValue (kind : FieldKind) (value : Expr) : List Stmt × List Stmt :=
  let fixed (n : String) : List Stmt × List Stmt := ([], [.simple (addSize (.number n))])
  let shifted (type signed : String) (bits : String) : Expr :=
    .call (.name type) [.paren (.binary (conversion signed value) ">>" (.number bits))]
  match kind with
  | .double | .fixed64 | .sfixed64 => fixed "8"
  | .float | .fixed32 | .sfixed32 => fixed "4"
  | .bool => fixed "1"
  | .int64 | .uint64 | .int32 | .uint32 | .enum => ([], [b.varintSize value])
  | .string | .bytes =>
    let length := Expr.call (.name "len") [value]
    ([], [b.varintSize length, .simple (addSize length)])
  | .group => ([], [.simple (addSize (.call (.qualified b.proto "Size") [value]))])
  | .message =>
    ([.define "s" (.call (.qualified b.proto "Size") [value])],
      [b.varintSize (.name "s"), .simple (addSize (.name "s"))])
  | .sint32 =>
    ([], [b.varintSize (.binary
      (.paren (.binary (conversion "uint32" value) "<<" (.number "1"))) "^"
      (shifted "uint32" "int32" "31"))])
  | .sint64 =>
    ([], [b.varintSize (.binary
      (conversion "uint64" (.binary value "<<" (.number "1"))) "^"
      (shifted "uint64" "int64" "63"))])

def sizeCase (p : FieldPlan) : Case :=
  let number := p.field.numberValue
  let (before, after) := b.sizeValue p.kind (.select (.name "x") p.name)
  let close := if p.kind = .group then [addKeySize number .endGroup] else []
  .on (.type (.pointer (.name p.wrapper)))
    (before ++ addKeySize number p.fieldType.wire.wireType :: (after ++ close))

def sizerFunc (type : String) (plan : MessagePlan) : Func :=
  let switches := (numberedUnions plan.unions).flatMap fun (union, i) =>
    unionSwitch union ((membersOf plan.fields i).map b.sizeCase)
      (.eval (.call (.name "panic") [.call (.qualified b.fmt "Sprintf")
        [.literal "\"proto: unexpected type %T in oneof\"", .name "x"]]))
  funcOf (sizerName type) (b.sizerType (.named "n" (.name "int")))
    (bindMessage type :: switches ++ [.ret (.name "n")])

def unionUses (plan : MessagePlan) : List String :=
  let floats := plan.fields.any fun p => p.oneof.isSome && (p.kind = .double || p.kind = .float)
  [b.proto] ++ (if (declaredUnions plan.unions).isEmpty then [] else [b.fmt]) ++
    (if floats then [b.math] else [])

def unionPart (type : String) (plan : MessagePlan) : Except Error Part := do
  let sizer := b.sizerType (.named "n" (.name "int"))
  let reader ← b.readerFunc type plan
  return {
    decls :=
      [.comment " XXX_OneofFuncs is for the internal use of the proto package.",
       .func (b.unionFuncs type sizer (plan.fields.filter (·.oneof.isSome))), .blank,
       .func (b.writerFunc type plan), .blank, .func reader, .blank,
       .func (b.sizerFunc type plan), .blank]
    uses := b.unionUses plan }

end GoBindings.Binder
