import GoBindings.Bind.Oneof

/-!
# Forwarding

A file that imports another one publicly declares the types, constants and variables of the other
once more in its own package. Methods are passed on by conversion to the other type.
-/

namespace GoBindings.Binder

open Schema Go

variable (b : Binder)

/-- `x` converted to the type that it stands for in the other package. -/
def toRemote (remote : TypeExpr) (x : String) : Expr := .convert remote (.name x)

def pointerToRemote (remote : TypeExpr) : Expr := toRemote (.pointer remote) "m"

/-- A method on one line that returns the value. -/
def returning (receiver : Receiver) (name : String) (params : List Param)
    (results : Results ResultType) (value : Expr) : Decl :=
  .func { receiver := some receiver, name, params, results, body := .line (.ret [value]) }

def enumForward (name : String) (proto3 : Bool) (package : String) : List Decl :=
  let remote := TypeExpr.qualified package name
  let receiver : Receiver := ⟨some "x", false, name⟩
  let table (suffix : String) : Decl :=
    .value .var (name ++ suffix) none (.qualified package (name ++ suffix)) none
  [.typeDef name remote, table "_name", table "_value",
   returning receiver "String" [] (.one (.type (.name "string")))
    (.method (toRemote remote "x") "String" [])] ++
  if proto3 then []
  else
    [returning receiver "Enum" [] (.one (.type (.pointer (.name name))))
      (.convert (.pointer (.name name)) (.method (toRemote remote "x") "Enum" [])),
     returning ⟨some "x", true, name⟩ "UnmarshalJSON" [⟨["data"], .bytes⟩]
      (.one (.type (.name "error")))
      (.method (toRemote (.pointer remote) "x") "UnmarshalJSON" [.name "data"])]

/-- A constant or variable with the value it has in the other package. -/
def valueForward (sort : ValueSort) (name : String) (cast : Option String) (package : String) :
    Decl :=
  let value := Expr.qualified package name
  .value sort name none (match cast with
    | some type => .call (.name type) [value]
    | none => value) none

def extensionForwards (name : String) (isMessageSet : Bool) (remote : TypeExpr) : List Decl :=
  let receiver : Receiver := ⟨some "m", true, name⟩
  [returning ⟨none, true, name⟩ "ExtensionRangeArray" []
    (.one (.type (.slice (.qualified b.proto "ExtensionRange"))))
    (.method (.convert (.pointer remote) .nil) "ExtensionRangeArray" [])] ++
  if isMessageSet then
    [returning receiver "Marshal" [] (.many [.type .bytes, .type (.name "error")])
      (.method (pointerToRemote remote) "Marshal" []),
     returning receiver "Unmarshal" [⟨["buf"], .bytes⟩] (.one (.type (.name "error")))
      (.method (pointerToRemote remote) "Unmarshal" [.name "buf"])]
  else []

/-- A function for unions that calls the function of the other type, which is the value that
`names` binds. -/
def unionForward (type : String) (remote : TypeExpr) (name : String) (t : FuncType)
    (names : List String) (call : Expr) : Decl :=
  .func (funcOf name t
    [bindMessage type,
     .define "m0" (pointerToRemote remote),
     .simple (.assign (names.map Expr.name) ":=" [.method (.name "m0") "XXX_OneofFuncs" []]),
     .ret call])

/-- The functions for unions of a type passed on. The buffer is not called `b`, since that may be
the name of the other package. -/
def unionForwards (type : String) (remote : TypeExpr) : List Decl :=
  let writer := b.writerType "buf"
  let reader := b.readerType "buf"
  let sizer := b.sizerType (.one (.name "int"))
  let funcs : Func :=
    { receiver := some ⟨some "m", true, type⟩
      name := "XXX_OneofFuncs"
      results := unionFuncResults writer reader sizer
      body := .block [.simple (.ret [.name (writerName type), .name (readerName type),
        .name (sizerName type), .nil])] }
  [.func funcs,
   unionForward type remote (writerName type) writer ["enc", "_", "_", "_"]
    (.call (.name "enc") [.name "m0", .name "buf"]),
   unionForward type remote (readerName type) reader ["_", "dec", "_", "_"]
    (.call (.name "dec") [.name "m0", .name "tag", .name "wire", .name "buf"]),
   unionForward type remote (sizerName type) sizer ["_", "_", "size", "_"]
    (.call (.name "size") [.name "m0"])]

/-- The name by which this file can write a type of another one: its own re-export, the type
itself, a re-export that it imports, or the type of a file that is then imported as well. -/
def localName (target : Object) : Except Error (TypeExpr × Part) :=
  match b.schema.reexportIn? target b.file with
  | some own => do return (← b.setup.goName (.reexport own), {})
  | none =>
    let owner := b.schema.fileOf target
    let (object, indirect) :=
      if b.schema.isDirect owner b.file then (target, [])
      else match b.schema.reexportOf? target b.file with
        | some reexport => (reexport, [])
        | none => (target, [owner])
    do
      let name ← b.setup.goName object
      return (name, { uses := name.packages, indirect })

/-- A getter whose result is copied element by element, since containers of different types do
not convert. -/
def copyingGetter (receiver : Receiver) (name : String) (type : TypeExpr) (value : Expr)
    (index elem : String) (convert : Expr → Expr) : Func :=
  { receiver := some receiver, name, results := .one (.type type)
    body := .block
      [.define "o" value,
       .ifThen none (.binary (.name "o") "==" .nil) [.ret .nil],
       .define "s" (.call (.name "make") [.type type, .call (.name "len") [.name "o"]]),
       .forRange index elem (.name "o")
        [.set (.index (.name "s") (.name index)) (convert (.name elem))],
       .ret (.name "s")] }

def getterForward (type : String) (remote : TypeExpr) (getter : GetterSymbol) :
    Except Error Part :=
  let receiver : Receiver := ⟨some "m", true, type⟩
  let value := Expr.method (pointerToRemote remote) getter.name []
  let elemType (name : TypeExpr) (pointer : Bool) : TypeExpr :=
    if pointer then .pointer name else name
  let convert (name : TypeExpr) (pointer : Bool) (x : Expr) : Expr :=
    if pointer then .convert (.pointer name) x else .call (.type name) [x]
  match getter.shape with
  | .plain t => .ok { decls := [returning receiver getter.name [] (.one (.type t)) value] }
  | .named target pointer repeated => do
    let (name, part) ← b.localName target
    let t := elemType name pointer
    let decl := if repeated then
        .func (copyingGetter receiver getter.name (.slice t) value "i" "x" (convert name pointer))
      else returning receiver getter.name [] (.one (.type t)) (convert name pointer value)
    return part ++ { decls := [decl] }
  | .map key target pointer => do
    let (name, part) ← b.localName target
    let t := TypeExpr.map key (elemType name pointer)
    return part ++
      { decls := [.func (copyingGetter receiver getter.name t value "k" "v"
          (convert name pointer))] }

def messageForward (m : MessageSymbol) (package : String) : Except Error Part := do
  let remote := TypeExpr.qualified package m.name
  let receiver : Receiver := ⟨some "m", true, m.name⟩
  let reset : Func :=
    { receiver := some receiver, name := "Reset",
      body := .line (.eval (.method (pointerToRemote remote) "Reset" [])) }
  let marker : Func :=
    { receiver := some ⟨none, true, m.name⟩, name := "ProtoMessage", body := .empty }
  let getters ← m.getters.mapM (b.getterForward m.name remote)
  return {
    decls :=
      [.typeDef m.name remote, .func reset,
       returning receiver "String" [] (.one (.type (.name "string")))
        (.method (pointerToRemote remote) "String" []),
       .func marker] ++
      (if m.hasExtensions then b.extensionForwards m.name m.isMessageSet remote else []) ++
      (if m.hasOneof then b.unionForwards m.name remote else [])
    uses := if m.hasExtensions || m.hasOneof then [b.proto] else [] } ++ Part.concat getters

def symbolForward (package : String) : Symbol → Except Error Part
  | .message m => b.messageForward m package
  | .enum name proto3 => .ok { decls := enumForward name proto3 package }
  | .value sort name cast => .ok { decls := [valueForward sort name cast package] }

/-- All that is declared for an object passed on. A file that is generated along declares its
objects in the same package. -/
def forwardPart (id : ReexportId) : Except Error Part := do
  let target := (b.schema.reexport id).target
  let owner := b.schema.fileOf target
  let name := (b.schema.typeName target).getLast?.getD ""
  let fileName := (b.schema.file owner).name
  if b.setup.isGenerated owner then
    return { decls :=
      [.comment (" Ignoring public import of " ++ name ++ " from " ++ fileName), .blank] }
  else
    let package ← b.setup.packages.of owner
    let symbols ← (b.exports.of target).mapM (b.symbolForward package)
    let head : Part :=
      { decls := [.comment (" " ++ name ++ " from public import " ++ fileName)]
        uses := [package] }
    return head ++ Part.concat symbols ++ { decls := [.blank] }

end GoBindings.Binder
