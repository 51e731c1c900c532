import GoBindings.Descriptor.Basic
import GoBindings.Go.Identifier
import GoBindings.Schema.Object
import GoBindings.Text.Dict

/-!
# Schemas

All declarations of all files of a request, each in the list of its sort and known by its place
there. Declarations point to each other by these places.
-/

namespace GoBindings

namespace Schema

structure FileNode where
  proto : Descriptor.File
  /-- The files imported, in the order of `proto.dependencies`. -/
  dependencies : List FileId := []
  /-- All messages, each before those nested in it. -/
  messages : List MessageId
  /-- The enums of the file itself, then those of its messages. -/
  enums : List EnumId
  extensions : List ExtensionId
  /-- What the file passes on of its public imports. -/
  reexports : List ReexportId := []
  /-- The comments before a declaration, by the text of its source path. -/
  comments : Dict String
  /-- The place among the generated files, zero for all others. -/
  index : Nat := 0
  proto3 : Bool
  deriving Inhabited

structure MessageNode where
  proto : Descriptor.Message
  file : FileId
  parent : Option MessageId
  nested : List MessageId := []
  enums : List EnumId := []
  extensions : List ExtensionId := []
  /-- The names of the messages around it, outermost first, and its own. -/
  typeName : List String
  index : Nat
  /-- The field numbers and places that lead from the file to the message. -/
  path : List Nat
  /-- Whether the parent has a group field of this type. -/
  group : Bool
  proto3 : Bool
  deriving Inhabited

structure EnumNode where
  proto : Descriptor.Enum
  file : FileId
  parent : Option MessageId
  typeName : List String
  index : Nat
  path : List Nat
  proto3 : Bool
  deriving Inhabited

structure ExtensionNode where
  field : Descriptor.Field
  file : FileId
  parent : Option MessageId
  typeName : List String
  deriving Inhabited

structure Reexport where
  file : FileId
  target : Object
  deriving DecidableEq, Inhabited

end Schema

open Schema

structure Schema where
  files : List FileNode := []
  messages : List MessageNode := []
  enums : List EnumNode := []
  extensions : List ExtensionNode := []
  reexports : List Reexport := []
  /-- The last file of each name. -/
  byName : Dict FileId := {}
  deriving Inhabited

namespace Schema

/-- The text of a source path, with commas. -/
def pathText (path : List Nat) : String := Text.join "," (path.map toString)

/-- A position given as a signed number; no list has one for a negative number. -/
def position (i : Int32) : Nat := i.toInt64.toUInt64.toNat

/-- The entry at a position given as a signed number; there is none at a negative one. -/
def entryAt? {α : Type} (l : List α) (i : Int32) : Option α :=
  if i < 0 then none else l[i.toNatClampNeg]?

variable (s : Schema)

def file (id : FileId) : FileNode := s.files.getD id.index default

def message (id : MessageId) : MessageNode := s.messages.getD id.index default

def enum (id : EnumId) : EnumNode := s.enums.getD id.index default

def extension (id : ExtensionId) : ExtensionNode := s.extensions.getD id.index default

def reexport (id : ReexportId) : Reexport := s.reexports.getD id.index default

def fileIds : List FileId := (List.range s.files.length).map FileId.mk

def hasObject : Object → Bool
  | .message id => id.index < s.messages.length
  | .enum id => id.index < s.enums.length
  | .extension id => id.index < s.extensions.length
  | .reexport id => id.index < s.reexports.length

/-- The file that declares the object, or passes it on. -/
def fileOf : Object → FileId
  | .message id => (s.message id).file
  | .enum id => (s.enum id).file
  | .extension id => (s.extension id).file
  | .reexport id => (s.reexport id).file

/-- What a re-export passes on; any other object stands for itself. -/
def underlying : Object → Object
  | .reexport id => (s.reexport id).target
  | object => object

/-- The name of a declaration with its scope, without the schema package. -/
def declaredName : Object → List String
  | .message id => (s.message id).typeName
  | .enum id => (s.enum id).typeName
  | .extension id => (s.extension id).typeName
  | .reexport _ => []

/-- The name of an object with its scope; a re-export is called like its target. -/
def typeName (object : Object) : List String := s.declaredName (s.underlying object)

namespace MessageNode

def name (m : MessageNode) : String := m.proto.name.getD ""

def isMapEntry (m : MessageNode) : Bool := (m.proto.options.bind (·.mapEntry)).getD false

def isMessageSet (m : MessageNode) : Bool :=
  (m.proto.options.bind (·.messageSetWireFormat)).getD false

end MessageNode

namespace EnumNode

def name (e : EnumNode) : String := e.proto.name.getD ""

/-- What the constants of the enum start with: its own name at the top level, else the names of
the messages around it. -/
def constantPrefix (e : EnumNode) : String :=
  match e.parent with
  | none => Go.camelCase e.name ++ "_"
  | some _ => Go.camelCaseScope e.typeName.dropLast ++ "_"

def numberOf? (e : EnumNode) (name : String) : Option Int32 :=
  (e.proto.values.find? fun v => v.name.getD "" = name).map fun v => v.number.getD 0

end EnumNode

def ExtensionNode.varName (x : ExtensionNode) : String :=
  "E_" ++ Text.join "_" (x.typeName.map Go.camelCase)

end Schema

end GoBindings
