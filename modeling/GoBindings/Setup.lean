import GoBindings.Go.TypeExpr
import GoBindings.Gzip
import GoBindings.PackageAssignment
import GoBindings.Schema.Resolve

/-!
# Setting up a run

All that follows from a request before any code is generated.
-/

namespace GoBindings

open Schema

structure Setup where
  schema : Schema
  parameters : Parameters
  packages : PackageNames
  types : TypeTable
  packageName : String
  /-- The files to generate, in the order of the request. -/
  generated : List FileId
  /-- How the descriptors in generated files are compressed. -/
  compress : List UInt8 → List UInt8 := Gzip.compress
  deriving Inhabited

namespace Setup

/-- Numbers the generated files from `index`; of a file named twice the last number holds. -/
def numberFiles (files : List FileNode) (index : Nat) : List FileId → List FileNode
  | [] => files
  | id :: ids =>
    numberFiles (files.modify id.index fun f => { f with index }) (index + 1) ids

def ofRequest (r : Descriptor.Request) (compress : List UInt8 → List UInt8 := Gzip.compress) :
    Except Error Setup := do
  if r.filesToGenerate.isEmpty then throw .noFilesToGenerate
  let parameters := Parameters.parse (r.parameter.getD "")
  let schema ← Schema.ofFiles r.files
  let generated ← r.filesToGenerate.mapM schema.fileNamed
  let schema := { schema with files := numberFiles schema.files 0 generated }
  let (packages, packageName) ← assignPackageNames schema generated parameters
  return { schema, parameters, packages, types := schema.typeTable, packageName, generated,
           compress }

variable (s : Setup)

def isGenerated (file : FileId) : Bool := s.generated.contains file

def resolve (typeName : String) (file : FileId) : Except Error Object :=
  s.schema.resolve s.types typeName file

/-- The Go name of an object: bare in the generated package, else with its package. -/
def goName (object : Object) : Except Error Go.TypeExpr := do
  let package ← s.packages.of (s.schema.fileOf object)
  let name := Go.camelCaseScope (s.schema.typeName object)
  return if package = s.packageName then .name name else .qualified package name

def asEnum (object : Object) : Except Error EnumNode :=
  match s.schema.underlying object with
  | .enum id => .ok (s.schema.enum id)
  | other => .error (.notAnEnum (Go.camelCaseScope (s.schema.typeName other)))

/-- The object that a type name stands for, which is an enum or passes one on, and the enum. -/
def underlyingEnum (typeName : String) (file : FileId) : Except Error (Object × EnumNode) := do
  let object ← s.resolve typeName file
  return (object, ← s.asEnum object)

def protoPackage : String := s.packages.supportName "proto"

def fmtPackage : String := s.packages.supportName "fmt"

def mathPackage : String := s.packages.supportName "math"

end Setup

end GoBindings
