import GoBindings.Path
import GoBindings.Schema.Basic

/-!
# Names derived from a file

The Go package that a file asks for, and the name of the file generated from it.
-/

namespace GoBindings.Schema.FileNode

variable (f : FileNode)

def name : String := f.proto.name.getD ""

def package : String := f.proto.package.getD ""

/-- The variable that holds the compressed descriptor. -/
def varName : String := "fileDescriptor" ++ toString f.index

/-- The import path, if any, and the package name that the option of the file gives. A text with a
slash is an import path that ends with the name, or has the name after a semicolon. -/
def packageOption? : Option (Option String × String) :=
  match f.proto.options.bind (·.goPackage) with
  | none => none
  | some pkg =>
    if pkg = "" then none
    else match Text.cutLast? '/' pkg.toList with
      | none => some (none, pkg)
      | some (_, last) =>
        match Text.cutFirst? ';' pkg.toList with
        | some (path, name) => some (some (String.ofList path), String.ofList name)
        | none => some (some pkg, String.ofList last)

def packageName : String × Bool :=
  match f.packageOption? with
  | some (_, name) => (name, true)
  | none => (if f.package = "" then Path.baseName f.name else f.package, false)

def stem : String :=
  match Text.dropEnd? ".proto".toList f.name.toList with
  | some stem => String.ofList stem
  | none =>
    match Text.dropEnd? ".protodevel".toList f.name.toList with
    | some stem => String.ofList stem
    | none => f.name

def dropSlashes (path : String) : String :=
  String.ofList ((path.toList.reverse.dropWhile (· = '/')).reverse)

/-- The name of the generated file, which stands under the import path of the option. -/
def goFileName : String :=
  let name := f.stem ++ ".pb.go"
  match f.packageOption? with
  | some (some path, _) =>
    if path = "" then name else dropSlashes path ++ "/" ++ Path.lastElement name
  | _ => name

def isWeakDependency (i : Nat) : Bool := f.proto.weakDependencies.any fun j => position j = i

def isPublicDependency (i : Nat) : Bool := f.proto.publicDependencies.any fun j => position j = i

end GoBindings.Schema.FileNode
