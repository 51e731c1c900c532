import GoBindings.Bind.Extension
import GoBindings.Bind.Getter
import GoBindings.Bind.Oneof

/-!
# Messages

A message is a struct with the methods that the runtime asks for, constants for its defaults, and
getters.
-/

namespace GoBindings.Binder

open Schema Go

variable (b : Binder)

def wellKnownMessages : List String :=
  ["Any", "Duration", "Empty", "Struct", "Timestamp", "Value", "ListValue", "DoubleValue",
   "FloatValue", "Int64Value", "UInt64Value", "Int32Value", "UInt32Value", "BoolValue",
   "StringValue", "BytesValue"]

/-- A tag that keeps a field out of JSON. -/
def noJson : StructTag := ⟨[("json", Text.quote "-")]⟩

def unionMembers (m : MessageNode) (plan : MessagePlan) (union : UnionPlan) (i : Nat) :
    List Member :=
  let comments := (b.commentAt (m.path ++ [8, i])).map Member.comment
  (if comments.isEmpty then [] else comments ++ [.comment ""]) ++
    .comment (" Types that are valid to be assigned to " ++ union.name ++ ":") ::
    (membersOf plan.fields i).map (fun p => .comment ("\t*" ++ p.wrapper)) ++
    [.union union.name union.interface ⟨[("protobuf_oneof", Text.quote union.schemaName)]⟩]

/-- The fields of the struct, from the field at place `i` on. A union stands at the place of its
first member. -/
def fieldMembers (m : MessageNode) (plan : MessagePlan) (seen : List Nat) (i : Nat) :
    List FieldPlan → Except Error (List Member)
  | [] => .ok []
  | p :: ps =>
    match p.oneof with
    | none => do
      let comments := (b.commentAt (m.path ++ [2, i])).map Member.comment
      let rest ← fieldMembers m plan seen (i + 1) ps
      return comments ++ .field p.name p.type p.structTag :: rest
    | some oi =>
      if seen.contains oi then fieldMembers m plan seen (i + 1) ps
      else do
        let union ← unionAt plan.unions oi
        let rest ← fieldMembers m plan (oi :: seen) (i + 1) ps
        return b.unionMembers m plan union oi ++ rest

def structDecl (m : MessageNode) (type : String) (plan : MessagePlan) : Except Error Decl := do
  let members ← b.fieldMembers m plan [] 0 plan.fields
  let extensions := if m.proto.extensionRanges.isEmpty then []
    else [Member.embedded (.qualified b.proto "XXX_InternalExtensions") noJson]
  let unrecognized := if m.proto3 then [] else [Member.unrecognized "XXX_unrecognized" noJson]
  return .struct type (members ++ extensions ++ unrecognized)

def messageFuncs (m : MessageNode) (type : String) : List Func :=
  let receiver : Receiver := ⟨some "m", true, type⟩
  let anonymous : Receiver := ⟨none, true, type⟩
  [{ receiver := some receiver, name := "Reset",
     body := .line (.set (.star (.name "m")) (.composite (.name type) [])) },
   { receiver := some receiver, name := "String", results := .one (.type (.name "string")),
     body := .line (.ret [.call (.qualified b.proto "CompactTextString") [.name "m"]]) },
   { receiver := some anonymous, name := "ProtoMessage", body := .empty },
   b.descriptorFunc anonymous "Descriptor" m.path] ++
  if (b.schema.file m.file).package = wellKnownPackage && wellKnownMessages.contains m.name then
    [wellKnownFunc anonymous m.name]
  else []

/-- The methods that encode a message set. -/
def messageSetDecls (type : String) : List Decl :=
  let extensions := Expr.address (.select (.name "m") "XXX_InternalExtensions")
  let writer (name call : String) : Decl := .func
    { receiver := some ⟨some "m", true, type⟩, name
      results := .many [.type .bytes, .type (.name "error")]
      body := .block [.ret (.call (.qualified b.proto call) [extensions])] }
  let reader (name call : String) : Decl := .func
    { receiver := some ⟨some "m", true, type⟩, name
      params := [⟨["buf"], .bytes⟩]
      results := .one (.type (.name "error"))
      body := .block [.ret (.call (.qualified b.proto call) [.name "buf", extensions])] }
  let assertion (interface : String) : Decl :=
    .value .var "_" (some (.qualified b.proto interface)) (.nilPointer type) none
  [.blank,
   writer "Marshal" "MarshalMessageSet",
   reader "Unmarshal" "UnmarshalMessageSet",
   writer "MarshalJSON" "MarshalMessageSetJSON",
   reader "UnmarshalJSON" "UnmarshalMessageSetJSON",
   .comment (" ensure " ++ type ++ " satisfies proto.Marshaler and proto.Unmarshaler"),
   assertion "Marshaler", assertion "Unmarshaler"]

/-- The ranges of extension numbers, with both ends included. -/
def rangeDecls (m : MessageNode) (type : String) : List Decl :=
  let ranges := m.proto.extensionRanges.map fun r =>
    Entry.group [.int (r.start.getD 0).toInt, .int (r.stop.getD 0 - 1).toInt]
  let elem := TypeExpr.qualified b.proto "ExtensionRange"
  [.blank,
   .table ("extRange_" ++ type) false (.slice elem) ranges,
   .func
    { receiver := some ⟨none, true, type⟩, name := "ExtensionRangeArray"
      results := .one (.type (.slice elem))
      body := .block [.ret (.name ("extRange_" ++ type))] }]

/-- A message set is one only if it has extensions. -/
def isMessageSet (m : MessageNode) : Bool :=
  !m.proto.extensionRanges.isEmpty && m.isMessageSet

def extensionDecls (m : MessageNode) (type : String) : List Decl :=
  if m.proto.extensionRanges.isEmpty then []
  else (if isMessageSet m then b.messageSetDecls type else []) ++ b.rangeDecls m type

def registerMessage (m : MessageNode) (type : String) : Simple :=
  .eval (.call (.qualified b.proto "RegisterType")
    [.nilPointer type,
     .quoted (inPackage (b.schema.file m.file).package (Text.join "." m.typeName))])

/-- The symbol of a message; the message of a group has none. -/
def messageExports (id : MessageId) (m : MessageNode) (type : String)
    (getters : List GetterSymbol) : Exports :=
  if m.group then []
  else [(.message id, .message
    { name := type, hasExtensions := !m.proto.extensionRanges.isEmpty
      isMessageSet := isMessageSet m, hasOneof := !m.proto.oneofs.isEmpty, getters })]

def messagePart (id : MessageId) : Except Error Part := do
  let m := b.schema.message id
  let type := camelCaseScope m.typeName
  let plan ← b.planMessage id
  let struct ← b.structDecl m type plan
  let defaults ← plan.fields.mapM (b.planDefault type)
  let hasOneofs := !m.proto.oneofs.isEmpty
  let unionTypes ← if hasOneofs then unionTypes type plan else pure []
  let getters ← (plan.fields.zip defaults).mapM fun (p, d) => b.getterPart m type plan.unions p d
  let unionFuncs ← if hasOneofs then b.unionPart type plan else pure {}
  let extensions ← m.extensions.mapM b.extensionPart
  let head : Part :=
    { decls := (b.commentAt m.path).map Decl.comment ++ [struct] ++
        (b.messageFuncs m type).map Decl.func ++ b.extensionDecls m type
      uses := b.proto :: plan.fields.flatMap (·.uses) }
  let constants := Part.concat (defaults.flatMap fun d => d.toList.map (defaultPart id))
  return head ++ constants ++ { decls := .blank :: unionTypes } ++
    Part.concat (getters.map (·.1)) ++
    { exports := messageExports id m type (getters.filterMap (·.2)) } ++ unionFuncs ++
    Part.concat extensions ++ { inits := [b.registerMessage m type] }

end GoBindings.Binder
