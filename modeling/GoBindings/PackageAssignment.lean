import GoBindings.PackageNames
import GoBindings.Parameters
import GoBindings.Schema.FileName

/-!
# Assigning package names

The generated files share one package. Its name is the one that they ask for by a parameter or an
option, on which they have to agree; else the one of the import path parameter; else the one
implied by their schema package or file name, on which they have to agree as well.
-/

namespace GoBindings

open Schema (FileId)

/-- The package name that a generated file asks for, and whether explicitly. An import path given
for the file by a parameter comes before the option of the file. -/
def declaredPackage (s : Schema) (p : Parameters) (id : FileId) : String × Bool :=
  let f := s.file id
  match p.importMap.get? f.name with
  | some path =>
    if Path.lastElement path = "" then f.packageName else (Path.lastElement path, true)
  | none => f.packageName

/-- Goes on with the explicit name found so far, which the next file must not contradict. -/
def explicitPackage (found : Option String) : String × Bool → Except Error (Option String)
  | (_, false) => .ok found
  | (name, true) =>
    match found with
    | none => .ok (some name)
    | some expected =>
      if name = expected then .ok found else .error (.inconsistentPackageNames name expected)

/-- All names are the expected one. -/
def checkAgree (expected : String) (names : List String) : Except Error Unit :=
  match names.find? (· ≠ expected) with
  | some found => .error (.inconsistentPackageNames found expected)
  | none => .ok ()

/-- The name of the generated package before it is made an identifier, given what the files ask
for. -/
def choosePackage (p : Parameters) (first : String × Bool) (rest : List (String × Bool)) :
    Except Error String := do
  match ← (first :: rest).foldlM explicitPackage none with
  | some name => return name
  | none =>
    match packageOfImportPath? p.importPath with
    | some name => return name
    | none =>
      checkAgree first.1 ((first :: rest).map (·.1))
      return first.1

/-- The name that a file outside of the generated package starts from. -/
def dependencyCandidate (f : Schema.FileNode) : String :=
  if f.package = "" then Path.baseName f.name else f.package

/-- Names a file: generated files share the package, every other file has one of its own. -/
def nameFile (s : Schema) (generated : List FileId) (package : String) (names : PackageNames)
    (id : FileId) : PackageNames :=
  if generated.contains id then names.assign id package
  else (names.registerFile (dependencyCandidate (s.file id)) id).2

def assignPackageNames (s : Schema) (generated : List FileId) (p : Parameters) :
    Except Error (PackageNames × String) := do
  match generated with
  | [] => throw .noFilesToGenerate
  | first :: rest =>
    let declared := declaredPackage s p
    let candidate ← choosePackage p (declared first) (rest.map declared)
    let (package, names) := ({} : PackageNames).registerFile candidate first
    let names := supportPackages.foldl PackageNames.registerSupport names
    return (s.fileIds.foldl (nameFile s generated package) names, package)

end GoBindings
