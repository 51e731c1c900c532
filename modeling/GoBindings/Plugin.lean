import GoBindings.Bind.Part
import GoBindings.Printer

/-!
# Plugins

A plugin appends declarations and imports to generated files. It runs only if the parameter of the
request enables its name. Plugins share a state, which they keep also when one of them fails.
-/

namespace GoBindings

/-- A computation that may fail and leaves a state in any case. -/
abbrev Run (σ : Type) := ExceptT Error (StateM σ)

structure Plugin (σ : Type) where
  name : String
  /-- Called once in every run, before any file. -/
  init : Setup → StateM σ Unit := fun _ => pure ()
  generate : Binder → Printer → Run σ Printer
  generateImports : Binder → Printer → Run σ Printer := fun _ p => pure p

end GoBindings
