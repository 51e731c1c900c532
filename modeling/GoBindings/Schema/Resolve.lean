import GoBindings.Schema.Build

/-!
# Resolving type names

A type is written with its qualified name. Seen from a file that neither declares nor imports it,
it goes by the re-export of a file that is imported.
-/

namespace GoBindings.Schema

/-- Messages and enums by their qualified names. -/
abbrev TypeTable := Dict Object

/-- What stands before the names of a package in the table of types. -/
def dottedPackage (package : String) : String :=
  let dotted := "." ++ package
  if dotted = "." then dotted else dotted ++ "."

def tableName (package : String) (typeName : List String) : String :=
  dottedPackage package ++ Text.join "." typeName

/-- The table has the names that other declarations write. -/
theorem tableName_eq (package : String) (typeName : List String) :
    tableName package typeName = qualifiedName package typeName := by
  have hdot : "." ++ package = "." ↔ package = "" := by
    rw [← String.toList_inj, ← String.toList_inj]
    simp
  by_cases h : package = "" <;> simp [tableName, dottedPackage, qualifiedName, hdot, h]

/-- The names that a file declares, enums before messages. -/
def typesOf (s : Schema) (f : FileNode) : List (String × Object) :=
  (f.enums.map fun id => (tableName f.package (s.enum id).typeName, .enum id)) ++
    f.messages.map fun id => (tableName f.package (s.message id).typeName, .message id)

/-- Of declarations with one name the last holds. -/
def typeTable (s : Schema) : TypeTable := Dict.ofList (s.files.flatMap s.typesOf)

/-- Whether the declarations of `owner` can be named in `current` as they are. -/
def isDirect (s : Schema) (owner current : FileId) : Bool :=
  owner = current || (s.file current).dependencies.contains owner

def reexportIn? (s : Schema) (object : Object) (file : FileId) : Option ReexportId :=
  (s.file file).reexports.find? fun id => (s.reexport id).target = object

/-- The first re-export of an object among the files that `current` imports. -/
def reexportOf? (s : Schema) (object : Object) (current : FileId) : Option Object :=
  ((s.file current).dependencies.findSome? (s.reexportIn? object)).map Object.reexport

/-- The object by which `current` names a declaration: itself, a re-export that it imports, or
itself again if there is none. -/
def visible (s : Schema) (object : Object) (current : FileId) : Object :=
  if s.isDirect (s.fileOf object) current then object
  else (s.reexportOf? object current).getD object

/-- The object that a type name written in `current` stands for. -/
def resolve (s : Schema) (types : TypeTable) (typeName : String) (current : FileId) :
    Except Error Object :=
  match types.get? typeName with
  | some object => .ok (s.visible object current)
  | none => .error (.unknownObject typeName)

end GoBindings.Schema
