import GoBindings.Bind.Part

/-!
# The head of a generated file

The package clause and the imports, which depend on all that follows them.
-/

namespace GoBindings.Binder

open Schema Go

variable (b : Binder)

/-- A line of the comment on the package, which must not end the comment. -/
def docLine (line : String) : String :=
  String.ofList (Text.replaceAll ['*', '/'] ['*', ' ', '/'] line.toList)

def topLevelMessages (file : FileId) : List String :=
  ((b.schema.file file).messages.filter fun id => (b.schema.message id).parent.isNone).map
    fun id => camelCaseScope (b.schema.message id).typeName

/-- The comment on the package, which stands in the first file of the run. -/
def packageDoc : List String :=
  let doc := match b.node.comments.get? (pathText [2]) with
    | some text => (textLines text).map docLine ++ [""]
    | none => []
  let files := b.setup.generated.map fun id => "\t" ++ (b.schema.file id).name
  let messages := (b.setup.generated.flatMap b.topLevelMessages).map ("\t" ++ ·)
  ["/*", "Package " ++ b.setup.packageName ++ " is a generated protocol buffer package.", ""] ++
    doc ++ "It is generated from these files:" :: files ++
    "" :: "It has these top-level messages:" :: messages ++ ["*/"]

def headerDecls : List Decl :=
  [.comment " Code generated by protoc-gen-go. DO NOT EDIT.",
   .comment (" source: " ++ b.node.name), .blank] ++
  (if b.node.index = 0 then [.blockComment b.packageDoc] else []) ++
  [.package b.setup.packageName, .blank]

def importPath (name : String) (dependency : FileId) : String :=
  b.setup.parameters.importPrefix ++
    (b.setup.parameters.importMap.get? name).getD
      (Path.dirName (b.schema.file dependency).goFileName)

/-- The imports of the support packages in use. Paths of one element are those of the standard
library, which have no place of their own. -/
def supportImports (isUsed : String → Bool) : List ImportEntry :=
  supportPackages.filterMap fun name =>
    let package := b.setup.packages.supportName name
    if isUsed package then
      (b.setup.packages.supportImportPath? package).map fun path =>
        if path.toList.contains '/' then .named package (b.setup.parameters.importPrefix ++ path)
        else .named package path
    else none

/-- The import of the dependency at place `i`. One that is not referred to is still linked in. -/
def dependencyImport (isUsed : String → Bool) (i : Nat) (name : String) (dependency : FileId) :
    Except Error (List ImportEntry) := do
  let package ← b.setup.packages.of dependency
  let path := b.importPath name dependency
  return if package = b.setup.packageName then []
    else if b.node.isWeakDependency i then [.weak package path]
    else [.named (if isUsed package then package else "_") path]

def dependencyImports (isUsed : String → Bool) : Except Error (List ImportEntry) := do
  let dependencies := (b.node.proto.dependencies.zip b.node.dependencies).zipIdx
  return (← dependencies.mapM fun ((name, id), i) => b.dependencyImport isUsed i name id).flatten

def indirectImport (file : FileId) : Except Error (List ImportEntry) := do
  let package ← b.setup.packages.of file
  return if package = b.setup.packageName || b.node.dependencies.contains file then []
    else [.named package (b.importPath (b.schema.file file).name file)]

def indirectImports (indirect : List FileId) : Except Error (List ImportEntry) := do
  let files := b.schema.fileIds.filter indirect.contains
  return (← files.mapM b.indirectImport).flatten

def importDecls (isUsed : String → Bool) (indirect : List FileId) : Except Error (List Decl) := do
  let dependencies ← b.dependencyImports isUsed
  let others ← b.indirectImports indirect
  let entries := b.supportImports isUsed ++ dependencies ++ others
  return if entries.isEmpty then [] else [.imports entries]

end GoBindings.Binder
