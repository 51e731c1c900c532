import GoBindings.Bind.Embedded
import GoBindings.Bind.Enum
import GoBindings.Bind.Forward
import GoBindings.Bind.Header
import GoBindings.Bind.Message
import GoBindings.Go.Layout
import GoBindings.Plugin

/-!
# Files

A generated file is the head, the imports of the plugins, and the body, laid out as Go source.
-/

namespace GoBindings

open Schema Go

namespace Printer

def lines (p : Printer) (ls : List Line) : Printer :=
  if p.enabled then
    { p with body := p.body ++ String.join (ls.map fun l => lineText (p.depth + l.depth) l.text) }
  else p

def decls (p : Printer) (ds : List Decl) : Printer := p.lines (ds.flatMap Decl.lines)

end Printer

namespace Binder

variable (b : Binder)

/-- Makes sure that the file is compiled against a runtime that knows its form. -/
def versionPart : Part :=
  if b.node.index = 0 then
    { decls :=
        [.comment " This is a compile-time assertion to ensure that this generated file",
         .comment " is compatible with the proto package it is being compiled against.",
         .comment " A compilation error at this line likely means your copy of the",
         .comment " proto package needs to be updated.",
         .value .const "_" none (.qualified b.proto "ProtoPackageIsVersion2")
          (some " please upgrade the proto package"),
         .blank]
      uses := [b.proto] }
  else {}

/-- The messages of the file that are declared; the entries of maps are not. -/
def declaredMessages : List MessageId :=
  b.node.messages.filter fun id => !(b.schema.message id).isMapEntry

def declarations : Except Error Part := do
  let forwards ← b.node.reexports.mapM b.forwardPart
  let enums := b.node.enums.map b.enumPart
  let messages ← b.declaredMessages.mapM b.messagePart
  let extensions ← b.node.extensions.mapM b.extensionPart
  return b.versionPart ++ Part.concat forwards ++ Part.concat enums ++ Part.concat messages ++
    Part.concat extensions

def allExtensions : List ExtensionId :=
  (b.node.messages.flatMap fun id => (b.schema.message id).extensions) ++ b.node.extensions

/-- The function that registers all declarations with the runtime, after the statements that the
declarations ask for. -/
def initPart (inits : List Simple) : Part :=
  let registrations := (b.node.enums.map fun id => b.registerEnum (b.schema.enum id)) ++
    b.allExtensions.map fun id => b.registerExtension (b.schema.extension id)
  let all := inits ++ registrations
  { decls := if all.isEmpty then []
      else [.func { name := "init", body := .block (all.map Stmt.simple) }]
    uses := if registrations.isEmpty then [] else [b.proto] }

def bodyPrinter (part : Part) : Printer :=
  let part := part ++ b.initPart part.inits
  (({ enabled := b.setup.isGenerated b.file } : Printer).usePackages part.uses).decls part.decls

def source (body extra : Printer) (indirect : List FileId) : Except Error String := do
  let isUsed (package : String) : Bool := body.isUsed package || extra.isUsed package
  let imports ← b.importDecls isUsed indirect
  let head : Printer := { enabled := true }
  return (head.decls (b.headerDecls ++ imports)).body ++ extra.body ++ "\n" ++ body.body

def layOut (source : String) : Except Error String :=
  match Go.format source with
  | .ok text => .ok text
  | .error bad => .error (.badSource bad)

/-- The text of the file, if it is generated, and its exports. -/
def run {σ : Type} (plugins : List (Plugin σ)) : Run σ (Option String × Exports) := do
  let part ← b.declarations
  let body ← plugins.foldlM (fun p plugin => plugin.generate b p) (b.bodyPrinter part)
  if body.enabled then
    let body := (body.usePackage b.proto).decls b.embeddedDecls
    let extra ← plugins.foldlM (fun p plugin => plugin.generateImports b p) { enabled := true }
    let source ← b.source body extra part.indirect
    let text ← layOut source
    return (some text, part.exports)
  else return (none, part.exports)

end Binder

end GoBindings
