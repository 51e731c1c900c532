import GoBindings.Error
import GoBindings.Schema.FileName

/-!
# Building a schema

Files are added one after the other, then linked: imports by their names, and what a file passes
on by its public imports.
-/

namespace GoBindings.Schema

structure Context where
  file : FileId
  package : String
  proto3 : Bool

/-- A name as other declarations write it: a dot, the package, and the scope. -/
def qualifiedName (package : String) (typeName : List String) : String :=
  if package = "" then "." ++ Text.join "." typeName
  else "." ++ package ++ "." ++ Text.join "." typeName

def groupKind : Int32 := 10

def hasGroup (m : Descriptor.Message) (qualified : String) : Bool :=
  m.fields.any fun f => f.kind = some groupKind && f.typeName.getD "" = qualified

abbrev MessageEntry := MessageId × MessageNode

/-- The entry of a message, apart from what is nested in it. -/
def MessageNode.of (c : Context) (parent : Option MessageEntry) (index : Nat)
    (m : Descriptor.Message) : MessageNode :=
  let name := m.name.getD ""
  match parent with
  | none =>
    { proto := m, file := c.file, parent := none, typeName := [name], index,
      path := [4, index], group := false, proto3 := c.proto3 }
  | some (id, outer) =>
    let typeName := outer.typeName ++ [name]
    { proto := m, file := c.file, parent := some id, typeName, index,
      path := outer.path ++ [3, index],
      group := hasGroup outer.proto (qualifiedName c.package typeName), proto3 := c.proto3 }

mutual

/-- The entries of a message and of those nested in it, numbered from `next`. -/
def messageNodes (c : Context) (parent : Option MessageEntry) (next index : Nat) :
    Descriptor.Message → List MessageEntry
  | ⟨name, fields, nested, enums, extensionRanges, extensions, options, oneofs, reservedRanges,
      reservedNames⟩ =>
    let node := MessageNode.of c parent index ⟨name, fields, nested, enums, extensionRanges,
      extensions, options, oneofs, reservedRanges, reservedNames⟩
    (⟨next⟩, node) :: messageListNodes c (some (⟨next⟩, node)) (next + 1) 0 nested

/-- The entries of messages that stand next to each other, the first at place `index`. -/
def messageListNodes (c : Context) (parent : Option MessageEntry)
    (next index : Nat) : List Descriptor.Message → List MessageEntry
  | [] => []
  | m :: ms =>
    let nodes := messageNodes c parent next index m
    nodes ++ messageListNodes c parent (next + nodes.length) (index + 1) ms

end

def enumNodes (c : Context) (parent : Option MessageEntry) (index : Nat) :
    List Descriptor.Enum → List EnumNode
  | [] => []
  | e :: es =>
    let name := e.name.getD ""
    let node : EnumNode := match parent with
      | none =>
        { proto := e, file := c.file, parent := none, typeName := [name], index,
          path := [5, index], proto3 := c.proto3 }
      | some (id, m) =>
        { proto := e, file := c.file, parent := some id, typeName := m.typeName ++ [name], index,
          path := m.path ++ [4, index], proto3 := c.proto3 }
    node :: enumNodes c parent (index + 1) es

def extensionNodes (c : Context) (parent : Option MessageEntry)
    (fields : List Descriptor.Field) : List ExtensionNode :=
  fields.map fun field =>
    let scope := match parent with
      | none => []
      | some (_, m) => m.typeName
    { field, file := c.file, parent := parent.map (·.1), typeName := scope ++ [field.name.getD ""] }

/-- Gives each message its extensions, which are numbered from `next` in the order of messages. -/
def withExtensions (next : Nat) :
    List MessageEntry → List MessageEntry
  | [] => []
  | (id, m) :: rest =>
    let count := m.proto.extensions.length
    (id, { m with extensions := (List.range' next count).map ExtensionId.mk }) ::
      withExtensions (next + count) rest

def nestedIn (all : List MessageEntry) (id : MessageId) : List MessageId :=
  (all.filter fun m => m.2.parent = some id).map (·.1)

def enumsIn (all : List (EnumId × EnumNode)) (id : MessageId) : List EnumId :=
  (all.filter fun e => e.2.parent = some id).map (·.1)

/-- Gives a message the messages and enums nested in it, which are as many as it declares. -/
def withNested (messages : List MessageEntry) (enums : List (EnumId × EnumNode))
    (entry : MessageEntry) : Except Error MessageNode :=
  let (id, m) := entry
  let nested := nestedIn messages id
  let nestedEnums := enumsIn enums id
  if nested.length ≠ m.proto.nested.length then .error (.nestingMismatch "message" m.name)
  else if nestedEnums.length ≠ m.proto.enums.length then .error (.nestingMismatch "enum" m.name)
  else .ok { m with nested, enums := nestedEnums }

/-- The comments before declarations; of two at one path the last holds. -/
def commentsOf (f : Descriptor.File) : Dict String :=
  let locations := (f.sourceInfo.map (·.locations)).getD []
  Dict.ofList (locations.filterMap fun l =>
    l.leadingComments.map fun text => (Text.join "," (l.path.map fun n => toString n.toInt), text))

def addFile (s : Schema) (f : Descriptor.File) : Except Error Schema := do
  let c : Context :=
    { file := ⟨s.files.length⟩, package := f.package.getD "",
      proto3 := f.syntaxName.getD "" = "proto3" }
  let messages := withExtensions s.extensions.length
    (messageListNodes c none s.messages.length 0 f.messages)
  let enums := enumNodes c none 0 f.enums ++
    messages.flatMap fun m => enumNodes c (some m) 0 m.2.proto.enums
  let enums := enums.mapIdx fun i e => (EnumId.mk (s.enums.length + i), e)
  let nodes ← messages.mapM (withNested messages enums)
  let nestedExtensions := messages.flatMap fun m => extensionNodes c (some m) m.2.proto.extensions
  let extensions := extensionNodes c none f.extensions
  let node : FileNode :=
    { proto := f, messages := messages.map (·.1), enums := enums.map (·.1),
      extensions := (List.range' (s.extensions.length + nestedExtensions.length)
        extensions.length).map ExtensionId.mk,
      comments := commentsOf f, proto3 := c.proto3 }
  return {
    files := s.files ++ [node]
    messages := s.messages ++ nodes
    enums := s.enums ++ enums.map (·.2)
    extensions := s.extensions ++ nestedExtensions ++ extensions
    reexports := s.reexports
    byName := s.byName.insert (f.name.getD "") c.file }

def fileNamed (s : Schema) (name : String) : Except Error FileId :=
  match s.byName.get? name with
  | some id => .ok id
  | none => .error (.fileNotFound name)

/-- What a public import of a file passes on: its messages other than map entries, its enums and
its own extensions. -/
def publicObjects (s : Schema) (id : FileId) : List Object :=
  let f := s.file id
  ((f.messages.filter fun m => !(s.message m).isMapEntry).map Object.message) ++
    f.enums.map Object.enum ++ f.extensions.map Object.extension

def publicDependency (f : FileNode) (dependencies : List FileId) (i : Int32) :
    Except Error FileId :=
  match entryAt? dependencies i with
  | some id => .ok id
  | none => .error (.publicDependencyOutOfRange i f.name)

def linkFile (s : Schema) (id : FileId) : Except Error Schema := do
  let f := s.file id
  let dependencies ← f.proto.dependencies.mapM s.fileNamed
  let publicFiles ← f.proto.publicDependencies.mapM (publicDependency f dependencies)
  let targets := publicFiles.flatMap s.publicObjects
  let f := { f with
    dependencies,
    reexports := (List.range' s.reexports.length targets.length).map ReexportId.mk }
  return { s with
    files := s.files.set id.index f
    reexports := s.reexports ++ targets.map fun target => ⟨id, target⟩ }

def ofFiles (files : List Descriptor.File) : Except Error Schema := do
  let s ← files.foldlM addFile {}
  s.fileIds.foldlM linkFile s

end GoBindings.Schema
