import GoBindings.Bind.File

/-!
# The generator

A generator goes through all files of a request in order. Files that are not generated are walked
too, for the exports that files after them pass on. Exports are kept from run to run.
-/

namespace GoBindings

open Schema

structure GeneratedFile where
  name : String
  content : String
  deriving DecidableEq, Repr, Inhabited

structure Generator (σ : Type) where
  setup : Setup
  exports : Exports := []
  plugins : List (Plugin σ) := []

namespace Generator

variable {σ : Type}

def ofRequest (r : Descriptor.Request) : Except Error (Generator σ) := do
  return { setup := ← Setup.ofRequest r }

def register (g : Generator σ) (plugin : Plugin σ) : Generator σ :=
  { g with plugins := g.plugins ++ [plugin] }

/-- Goes through files in order. The exports of those before a failure are kept. -/
def bindFiles (setup : Setup) (plugins : List (Plugin σ)) (exports : Exports) :
    List FileId → StateM σ (Except Error (List GeneratedFile) × Exports)
  | [] => return (.ok [], exports)
  | file :: files => do
    match ← (Binder.mk setup file exports).run plugins with
    | .error error => return (.error error, exports)
    | .ok (content, new) =>
      let (rest, exports) ← bindFiles setup plugins (exports ++ new) files
      let this := content.toList.map fun text => ⟨(setup.schema.file file).goFileName, text⟩
      return (rest.map (this ++ ·), exports)

/-- Generates all files. Plugins that are not enabled are dropped, and all of them if the run
fails. -/
def generateAll (g : Generator σ) :
    StateM σ (Except Error (List GeneratedFile) × Generator σ) := do
  let plugins := g.plugins.filter fun p => g.setup.parameters.pluginEnabled p.name
  plugins.forM fun p => p.init g.setup
  let (result, exports) ← bindFiles g.setup plugins g.exports g.setup.schema.fileIds
  let plugins := match result with
    | .ok _ => plugins
    | .error _ => []
  return (result, { g with exports, plugins })

end Generator

def generateWith {σ : Type} (plugins : List (Plugin σ)) (r : Descriptor.Request) :
    Run σ (List GeneratedFile) := do
  let g : Generator σ ← Generator.ofRequest r
  let (result, _) ← (plugins.foldl Generator.register g).generateAll
  result

end GoBindings
