import GoBindings.Json
import GoBindings.Setup

/-!
# Summaries

An overview of a request: the package, the parameters, and what every file declares.
-/

namespace GoBindings

open Schema

structure FileSummary where
  name : String
  schemaPackage : String
  proto3 : Bool
  generated : Bool
  goPackage : String
  /-- The generated file, empty if there is none. -/
  output : String
  dependencies : List String
  publicDependencies : List String
  messages : List String
  enums : List String
  extensions : List String
  deriving DecidableEq, Repr, Inhabited

structure Summary where
  packageName : String
  parameters : Parameters
  files : List FileSummary

namespace Setup

variable (s : Setup)

def fileSummary (id : FileId) : Except Error FileSummary := do
  let f := s.schema.file id
  let generated := s.isGenerated id
  let goPackage ← s.packages.of id
  let dotted (typeName : List String) : String := Text.join "." typeName
  return {
    name := f.name
    schemaPackage := f.package
    proto3 := f.proto3
    generated
    goPackage
    output := if generated then f.goFileName else ""
    dependencies := f.proto.dependencies
    publicDependencies :=
      f.proto.publicDependencies.filterMap (entryAt? f.proto.dependencies)
    messages := f.messages.map fun id => dotted (s.schema.message id).typeName
    enums := f.enums.map fun id => dotted (s.schema.enum id).typeName
    extensions := f.extensions.map fun id => dotted (s.schema.extension id).typeName }

def summary : Except Error Summary := do
  return {
    packageName := s.packageName
    parameters := s.parameters
    files := ← s.schema.fileIds.mapM s.fileSummary }

end Setup

def Dict.toJson (d : Dict String) : Json := .object (d.entries.map fun (k, v) => (k, .text v))

def Parameters.toJson (p : Parameters) : Json :=
  .object
    [("raw", p.raw.toJson),
     ("import_prefix", .text p.importPrefix),
     ("import_path", .text p.importPath),
     ("import_map", p.importMap.toJson),
     ("plugins", match p.plugins with
        | some names => .texts names
        | none => .null)]

def FileSummary.toJson (f : FileSummary) : Json :=
  .object
    [("name", .text f.name),
     ("proto_package", .text f.schemaPackage),
     ("syntax", .text (if f.proto3 then "proto3" else "proto2")),
     ("generated", .bool f.generated),
     ("go_package", .text f.goPackage),
     ("output", .text f.output),
     ("dependencies", .texts f.dependencies),
     ("public", .texts f.publicDependencies),
     ("messages", .texts f.messages),
     ("enums", .texts f.enums),
     ("extensions", .texts f.extensions)]

def Summary.toJson (s : Summary) : Json :=
  .object
    [("package_name", .text s.packageName),
     ("parameters", s.parameters.toJson),
     ("files", .list (s.files.map FileSummary.toJson))]

end GoBindings
