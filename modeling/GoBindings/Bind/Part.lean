import GoBindings.Bind.Symbol
import GoBindings.Setup

/-!
# Parts of a generated file

Each declaration of the schema contributes Go declarations, the packages these refer to,
statements of the `init` function, and exported symbols.
-/

namespace GoBindings

open Schema

structure Part where
  decls : List Go.Decl := []
  uses : List String := []
  inits : List Go.Simple := []
  exports : Exports := []
  /-- Files whose packages are named without being imported by the schema. -/
  indirect : List FileId := []

namespace Part

def append (a b : Part) : Part :=
  ⟨a.decls ++ b.decls, a.uses ++ b.uses, a.inits ++ b.inits, a.exports ++ b.exports,
    a.indirect ++ b.indirect⟩

instance : Append Part := ⟨append⟩

def concat : List Part → Part
  | [] => {}
  | p :: ps => p ++ concat ps

end Part

/-- The file that is being generated, or only walked for its exports, and what the files before
it export. -/
structure Binder where
  setup : Setup
  file : FileId
  exports : Exports := []

namespace Binder

variable (b : Binder)

def schema : Schema := b.setup.schema

def node : FileNode := b.schema.file b.file

def proto : String := b.setup.protoPackage

def fmt : String := b.setup.fmtPackage

def math : String := b.setup.mathPackage

def dropNewline (cs : List Char) : List Char := (Text.dropEnd? ['\n'] cs).getD cs

/-- The lines of a comment text, each without the blank at its beginning. -/
def textLines (text : String) : List String :=
  (Text.splitOn '\n' (dropNewline text.toList)).map fun line =>
    String.ofList ((Text.dropStart? [' '] line).getD line)

/-- The comment before a declaration, as the texts after the slashes of its lines. -/
def commentAt (path : List Nat) : List String :=
  match b.node.comments.get? (pathText path) with
  | some text => (textLines text).map (" " ++ ·)
  | none => []

/-- The places along a source path, without the field numbers between them. -/
def places : List Nat → List Nat
  | _ :: place :: path => place :: places path
  | _ => []

/-- The function that tells where a declaration stands in the descriptor of its file. -/
def descriptorFunc (receiver : Go.Receiver) (name : String) (path : List Nat) : Go.Func :=
  { receiver := some receiver
    name
    results := .many [.type .bytes, .type (.slice (.name "int"))]
    body := .line (.ret [.name b.node.varName,
      .composite (.slice (.name "int")) ((places path).map Go.Expr.nat)]) }

/-- The method by which a type says that it is known to the runtime. -/
def wellKnownFunc (receiver : Go.Receiver) (name : String) : Go.Func :=
  { receiver := some receiver
    name := "XXX_WellKnownType"
    results := .one (.type (.name "string"))
    body := .line (.ret [.quoted name]) }

/-- The schema package with the types known to the runtime. -/
def wellKnownPackage : String := "google.protobuf"

end Binder

end GoBindings
