import GoBindings.Plugin.Script
import GoBindings.Proofs.Runs

/-!
# Runs with plugins

A plugin is given a printer and adds to it. What it prints is its own business; it neither takes
back what is printed nor turns the printer on or off.
-/

namespace GoBindings

open Schema Go

section Printers

/-- One printer is made from another one by printing and by referring to packages. -/
inductive Printer.Extends (p : Printer) : Printer → Prop
  | refl : p.Extends p
  | line {q} (h : p.Extends q) (text : String) : p.Extends (q.line text)
  | indent {q} (h : p.Extends q) : p.Extends q.indent
  | outdent {q} (h : p.Extends q) : p.Extends q.outdent
  | usePackage {q} (h : p.Extends q) (package : String) : p.Extends (q.usePackage package)

namespace Printer.Extends

variable {p q q' : Printer}

theorem trans (h : p.Extends q) (h' : q.Extends q') : p.Extends q' := by
  induction h' with
  | refl => exact h
  | line _ text ih => exact ih.line text
  | indent _ ih => exact ih.indent
  | outdent _ ih => exact ih.outdent
  | usePackage _ package ih => exact ih.usePackage package

private theorem line_eq (p : Printer) (text : String) :
    ∃ body, p.line text = { p with body := body } := by
  rw [Printer.line]
  split
  · exact ⟨_, rfl⟩
  · exact ⟨p.body, rfl⟩

theorem enabled_eq (h : p.Extends q) : q.enabled = p.enabled := by
  induction h with
  | refl => rfl
  | @line q _ text ih =>
    obtain ⟨body, hbody⟩ := line_eq q text
    rw [hbody]
    exact ih
  | indent _ ih | outdent _ ih | usePackage _ _ ih => exact ih

theorem isUsed (h : p.Extends q) {package : String} (hused : p.isUsed package = true) :
    q.isUsed package = true := by
  induction h with
  | refl => exact hused
  | @line q _ text ih =>
    obtain ⟨body, hbody⟩ := line_eq q text
    rw [hbody]
    exact ih
  | indent _ ih | outdent _ ih => exact ih
  | usePackage _ other ih => simp [isUsed_usePackage, ih]

end Printer.Extends

end Printers

section Plugins

variable {σ : Type}

/-- The plugin adds to the printers that it is given. -/
structure Plugin.Appends (plugin : Plugin σ) : Prop where
  generate : ∀ b p q state, (plugin.generate b p state).1 = .ok q → p.Extends q
  generateImports : ∀ b p q state, (plugin.generateImports b p state).1 = .ok q → p.Extends q

private theorem Script.Step.run_extends (b : Binder) (p : Printer) (step : Script.Step) :
    p.Extends (step.run b p) := by
  cases step with
  | line text | blank => exact .line .refl _
  | indent => exact .indent .refl
  | outdent => exact .outdent .refl
  | usePackage name | useSupport name => exact .usePackage .refl _

private theorem Script.play_extends (s : Script) (call : Script.Call) (b : Binder) {p q : Printer}
    (h : s.play call b p = .ok q) : p.Extends q := by
  rw [play] at h
  split at h
  · split at h
    · cases h
    · obtain rfl := Except.ok.inj h
      induction s.steps call generalizing p with
      | nil => exact .refl
      | cons step steps ih => exact (Step.run_extends b p step).trans (ih rfl)
  · obtain rfl := Except.ok.inj h
    exact .refl

theorem Script.toPlugin_appends (s : Script) : s.toPlugin.Appends := by
  have hplay {call : Call} {b : Binder} {p q : Printer} {entry : String} {state : List String}
      (h : ((do log entry; s.play call b p : Run (List String) Printer) state).1 = .ok q) :
      p.Extends q := by
    refine s.play_extends call b ?_
    rw [← h]
    cases s.play call b p <;> rfl
  exact ⟨fun _ _ _ _ h => hplay h, fun _ _ _ _ h => hplay h⟩

end Plugins

namespace Binder

variable (b : Binder)

/-- The text of a generated file with an import block for the packages in use. -/
def textWith (isUsed : String → Bool) (part : Part) (body extra : Printer) :
    Except Error String := do
  let imports ← b.importDecls isUsed part.indirect
  let head : Printer := { enabled := true }
  layOut ((head.decls (b.headerDecls ++ imports)).body ++ extra.body ++ "\n" ++
    ((body.usePackage b.proto).decls b.embeddedDecls).body)

theorem finish_eq (part : Part) (body extra : Printer) :
    b.finish part body extra = b.textWith (fun package => decide (package = b.proto) ||
      body.isUsed package || extra.isUsed package) part body extra := by
  have hused (package : String) : ((body.usePackage b.proto).decls b.embeddedDecls).isUsed package =
      (decide (package = b.proto) || body.isUsed package) := by
    rw [Printer.isUsed_decls, Printer.isUsed_usePackage]
  simp only [finish, source, textWith, hused]
  cases b.importDecls (fun package => decide (package = b.proto) || body.isUsed package ||
    extra.isUsed package) part.indirect <;> rfl

theorem bodyPrinter_isUsed (part : Part) (package : String) :
    (b.bodyPrinter part).isUsed package =
      decide (package ∈ (part ++ b.initPart part.inits).uses) := by
  have hnone (enabled : Bool) : Printer.isUsed { enabled := enabled } package = false := rfl
  rw [bodyPrinter, Printer.isUsed_decls, Printer.isUsed_usePackages, hnone, Bool.or_false]

end Binder

namespace Generator

variable {σ : Type}

theorem generateAll_eq (g : Generator σ) (state : σ) {enabled : List (Plugin σ)}
    (henabled : g.plugins.filter (fun p => g.setup.parameters.pluginEnabled p.name) = enabled)
    {result : Except Error (List GeneratedFile) × Exports} {state' : σ}
    (h : bindFiles g.setup enabled g.exports g.setup.schema.fileIds
      (enabled.forM (fun p => p.init g.setup) state).2 = (result, state')) :
    (g.generateAll state).1.1 = result.1 ∧ (g.generateAll state).2 = state' := by
  have hrun : ((g.generateAll state).1.1, (g.generateAll state).2) =
      ((bindFiles g.setup enabled g.exports g.setup.schema.fileIds
        (enabled.forM (fun p => p.init g.setup) state).2).1.1,
        (bindFiles g.setup enabled g.exports g.setup.schema.fileIds
        (enabled.forM (fun p => p.init g.setup) state).2).2) := by
    rw [← henabled]
    rfl
  rw [h] at hrun
  exact Prod.mk.inj hrun

end Generator

end GoBindings
