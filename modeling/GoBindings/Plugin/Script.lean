import GoBindings.Plugin

/-!
# Scripted plugins

A script prints given lines and keeps a log of the calls made to it.
-/

namespace GoBindings

namespace Script

inductive Step where
  | line (text : String)
  | blank
  | indent
  | outdent
  | usePackage (name : String)
  /-- Refers to a support package by its own name. -/
  | useSupport (name : String)
  deriving DecidableEq, Repr, Inhabited

/-- The two calls that a plugin gets for a file. -/
inductive Call where
  | body
  | imports
  deriving DecidableEq, Repr, Inhabited

def Call.name : Call → String
  | body => "body"
  | imports => "imports"

/-- The places in a line for names that only a run knows, with the names. -/
def fill (b : Binder) (text : String) : String :=
  let replace (mark name : String) (cs : List Char) := Text.replaceAll mark.toList name.toList cs
  String.ofList (replace "$FMT" b.fmt (replace "$PKG" b.setup.packageName
    (replace "$FILE" b.node.name text.toList)))

def Step.run (b : Binder) (p : Printer) : Step → Printer
  | line text => p.line (fill b text)
  | blank => p.blank
  | indent => p.indent
  | outdent => p.outdent
  | usePackage name => p.usePackage name
  | useSupport name => p.usePackage (b.setup.packages.supportName name)

end Script

structure Script where
  name : String
  body : List Script.Step := []
  imports : List Script.Step := []
  /-- The one file that the script is for. -/
  only : Option String := none
  /-- The call that fails after its steps. -/
  fail : Option Script.Call := none
  deriving Repr, Inhabited

namespace Script

def steps (s : Script) : Call → List Step
  | .body => s.body
  | .imports => s.imports

def appliesTo (s : Script) (file : String) : Bool :=
  match s.only with
  | some name => name = file
  | none => true

def play (s : Script) (call : Call) (b : Binder) (p : Printer) : Except Error Printer :=
  if s.appliesTo b.node.name then
    if s.fail = some call then .error (.plugin (s.name ++ " failed in " ++ call.name))
    else .ok ((s.steps call).foldl (Step.run b) p)
  else .ok p

def log (entry : String) : StateM (List String) Unit := modify (· ++ [entry])

def toPlugin (s : Script) : Plugin (List String) where
  name := s.name
  init setup := log (s.name ++ " init " ++ setup.packageName)
  generate b p := do
    log (s.name ++ " body " ++ b.node.name ++ (if p.enabled then " true" else " false"))
    s.play .body b p
  generateImports b p := do
    log (s.name ++ " imports " ++ b.node.name)
    s.play .imports b p

end Script

end GoBindings
