import GoBindings.Generator
import GoBindings.Proofs.Files

/-!
# Runs without plugins

Where no plugin adds anything, each file is generated from its declarations and from what the files
before it export.
-/

namespace GoBindings

open Schema Go List

variable {σ : Type} {b : Binder} {out : List GeneratedFile}

theorem Run.bind_apply {α β : Type} (x : Run σ α) (f : α → Run σ β) (state : σ) :
    (x >>= f) state = match x state with
      | (.ok a, state) => f a state
      | (.error e, state) => (.error e, state) := by
  have hbind : (x >>= f) state = ExceptT.bindCont f (x state).1 (x state).2 := rfl
  rw [hbind]
  rcases x state with ⟨_ | a, state⟩ <;> rfl

theorem Run.lift_bind_apply {α β : Type} (x : Except Error α) (f : α → Run σ β) (state : σ) :
    (liftM x >>= f : Run σ β) state = match x with
      | .ok a => f a state
      | .error e => (.error e, state) := by
  cases x <;> rfl

namespace Binder

/-- The text of a file, if it is generated, and its exports. -/
def outcome (b : Binder) : Except Error (Option String × Exports) := do
  let part ← b.declarations
  if b.setup.isGenerated b.file then
    return (some (← layOut (← b.assembled)), part.exports)
  else return (none, part.exports)

def output (b : Binder) : Except Error (List GeneratedFile) :=
  b.outcome.map fun o => o.1.toList.map fun text => ⟨b.node.goFileName, text⟩

theorem bodyPrinter_enabled (b : Binder) (part : Part) :
    (b.bodyPrinter part).enabled = b.setup.isGenerated b.file := by
  obtain ⟨dict, hdict⟩ := Printer.usePackages_eq { enabled := b.setup.isGenerated b.file }
    (part ++ b.initPart part.inits).uses
  rw [bodyPrinter, hdict, Printer.decls, Printer.lines]
  split <;> rfl

section Run

variable (b : Binder) (plugins : List (Plugin σ)) (state : σ)

/-- The text of a generated file, once the plugins have added to its body and its imports. -/
def finish (part : Part) (body extra : Printer) : Except Error String := do
  layOut (← b.source ((body.usePackage b.proto).decls b.embeddedDecls) extra part.indirect)

/-- The rest of a run once the body is printed: plugins add imports, and the file is finished. -/
def imported (part : Part) (body : Printer) : Except Error (Option String × Exports) × σ :=
  match plugins.foldlM (fun p plugin => plugin.generateImports b p) { enabled := true } state with
  | (.error e, state) => (.error e, state)
  | (.ok extra, state) =>
    ((b.finish part body extra).map fun text => (some text, part.exports), state)

/-- A file is declared, then every plugin adds to it, and a generated file is finished. -/
theorem run_eq : b.run plugins state = match b.declarations with
    | .error e => (.error e, state)
    | .ok part =>
      match plugins.foldlM (fun p plugin => plugin.generate b p) (b.bodyPrinter part) state with
      | (.error e, state) => (.error e, state)
      | (.ok body, state) =>
        if body.enabled then b.imported plugins state part body
        else (.ok (none, part.exports), state) := by
  rw [run, Run.lift_bind_apply]
  cases b.declarations with
  | error e => rfl
  | ok part =>
    simp only [Run.bind_apply]
    rcases plugins.foldlM (fun p plugin => plugin.generate b p) (b.bodyPrinter part) state with
      ⟨_ | body, state⟩
    · rfl
    · simp only
      split
      · rw [Run.bind_apply, imported]
        rcases plugins.foldlM (fun p plugin => plugin.generateImports b p) { enabled := true }
          state with ⟨_ | extra, state⟩
        · rfl
        · simp only [Run.lift_bind_apply, finish]
          cases b.source ((body.usePackage b.proto).decls b.embeddedDecls) extra
            part.indirect with
          | error e => rfl
          | ok source =>
            simp only
            show _ = ((layOut source).map fun text => (some text, part.exports), state)
            cases layOut source <;> rfl
      · rfl

variable {b plugins state} in
/-- A run that succeeds exports what the file declares, and its text is finished over a body that
is printed. -/
theorem run_eq_ok {content : Option String} {new : Exports}
    (h : (b.run plugins state).1 = .ok (content, new)) :
    ∃ part, b.declarations = .ok part ∧ new = part.exports ∧ ∀ text ∈ content, ∃ body extra,
      body.enabled = true ∧ b.finish part body extra = .ok text := by
  rw [run_eq] at h
  split at h
  · cases h
  rename_i part hpart
  refine ⟨part, hpart, ?_⟩
  split at h
  · cases h
  split at h
  · rename_i body _ _ henabled
    rw [imported] at h
    split at h
    · cases h
    rename_i extra _ _
    obtain ⟨text, htext, hpair⟩ := map_eq_ok.mp h
    cases hpair
    exact ⟨rfl, by simpa using ⟨body, henabled, extra, htext⟩⟩
  · cases h
    exact ⟨rfl, nofun⟩

theorem run_nil : b.run [] state = (b.outcome, state) := by
  rw [run_eq, outcome, assembled]
  cases b.declarations with
  | error e => rfl
  | ok part =>
    simp only [ok_bind]
    change (if (b.bodyPrinter part).enabled then _ else _) = _
    rw [bodyPrinter_enabled]
    split
    · change ((b.finish part (b.bodyPrinter part) { enabled := true }).map _, state) = _
      rw [finish]
      cases b.source (((b.bodyPrinter part).usePackage b.proto).decls b.embeddedDecls)
          { enabled := true } part.indirect with
      | error e => rfl
      | ok source => cases hlayout : layOut source <;> simp only [ok_bind] <;> rfl
    · rfl

end Run

theorem outcome_eq_ok {content : Option String} {new : Exports} (h : b.outcome = .ok
    (content, new)) :
    ∃ part, b.declarations = .ok part ∧ new = part.exports ∧
      ((b.setup.isGenerated b.file = false ∧ content = none) ∨
        b.setup.isGenerated b.file = true ∧ ∃ source text, b.assembled = .ok source ∧
          layOut source = .ok text ∧ content = some text) := by
  rw [outcome, bind_eq_ok] at h
  obtain ⟨part, hpart, h⟩ := h
  refine ⟨part, hpart, ?_⟩
  split at h
  · rename_i hgenerated
    simp only [steps_eq_ok] at h
    obtain ⟨source, hsource, text, htext, rfl, rfl⟩ := h
    exact ⟨rfl, .inr ⟨hgenerated, source, text, hsource, htext, rfl⟩⟩
  · rename_i hgenerated
    cases h
    exact ⟨rfl, .inl ⟨by simpa using hgenerated, rfl⟩⟩

theorem layOut_eq_ok {source text : String} :
    layOut source = .ok text ↔ format source = .ok text := by
  rw [layOut]
  split <;> simp_all

theorem output_eq_ok (hgenerated : b.setup.isGenerated b.file = true) : b.output = .ok out ↔
      ∃ part imports text, b.declarations = .ok part ∧
        b.importDecls (fun package => decide (package ∈ b.bodyUses part)) part.indirect =
          .ok imports ∧
        format (Printer.linesText (b.sourceLines part imports)) = .ok text ∧
        out = [⟨b.node.goFileName, text⟩] := by
  simp only [output, map_eq_ok, outcome, hgenerated, if_true, steps_eq_ok,
    assembled_eq_ok hgenerated, layOut_eq_ok]
  constructor
  · rintro ⟨-, ⟨part, hpart, source, ⟨part', imports, hpart', himports, rfl⟩, text, htext, rfl⟩,
      rfl⟩
    exact ⟨part', imports, text, hpart', himports, htext, rfl⟩
  · rintro ⟨part, imports, text, hpart, himports, htext, rfl⟩
    exact ⟨_, ⟨part, hpart, _, ⟨part, imports, hpart, himports, rfl⟩, text, htext, rfl⟩, rfl⟩

theorem output_skipped (hskipped : b.setup.isGenerated b.file = false) :
    b.output = .ok out ↔ (∃ part, b.declarations = .ok part) ∧ out = [] := by
  simp only [output, map_eq_ok, outcome, hskipped, Bool.false_eq_true, if_false, bind_eq_ok,
    pure_eq_ok]
  constructor
  · rintro ⟨-, ⟨part, hpart, rfl⟩, rfl⟩
    exact ⟨⟨part, hpart⟩, rfl⟩
  · rintro ⟨⟨part, hpart⟩, rfl⟩
    exact ⟨_, ⟨part, hpart, rfl⟩, rfl⟩

end Binder

/-- The files that a run goes through, each with what the files before it export. A file that
cannot be declared is the last of them. -/
def Setup.binders (s : Setup) (exports : Exports) : List FileId → List Binder
  | [] => []
  | file :: files =>
    ⟨s, file, exports⟩ ::
      match (Binder.mk s file exports).declarations with
      | .ok part => s.binders (exports ++ part.exports) files
      | .error _ => []

section Binders

variable {s : Setup} {b : Binder} {files : List FileId} {exports : Exports}

theorem Setup.binders_invariant {P : Exports → Prop} (hb : b ∈ s.binders exports files)
    (hP : P exports) (hstep : ∀ file exports part, P exports →
      (Binder.mk s file exports).declarations = .ok part → P (exports ++ part.exports)) :
    b.setup = s ∧ b.file ∈ files ∧ P b.exports := by
  induction files generalizing exports with
  | nil => cases hb
  | cons file files ih =>
    rcases mem_cons.mp hb with rfl | hb
    · exact ⟨rfl, by simp, hP⟩
    · split at hb
      · rename_i part hpart
        obtain ⟨hsetup, hfile, hexports⟩ := ih hb (hstep file exports part hP hpart)
        exact ⟨hsetup, by simp [hfile], hexports⟩
      · cases hb

theorem Setup.exists_binder {outs : List (List GeneratedFile)}
    (h : (s.binders exports files).mapM Binder.output = .ok outs) :
    (∀ b ∈ s.binders exports files, ∃ part, b.declarations = .ok part) ∧
      ∀ file ∈ files, ∃ before, ⟨s, file, before⟩ ∈ s.binders exports files := by
  induction files generalizing exports outs with
  | nil => exact ⟨by simp [binders], by simp⟩
  | cons file files ih =>
    rw [binders, mapM_cons] at h
    simp only [steps_eq_ok] at h
    obtain ⟨out, hout, outs, houts, rfl⟩ := h
    obtain ⟨part, hpart⟩ : ∃ part, (Binder.mk s file exports).declarations = .ok part := by
      rw [Binder.output, map_eq_ok] at hout
      obtain ⟨_, hout, -⟩ := hout
      obtain ⟨part, hpart, -⟩ := Binder.outcome_eq_ok hout
      exact ⟨part, hpart⟩
    simp only [hpart] at houts
    obtain ⟨hdeclared, hfiles⟩ := ih houts
    simp only [binders, hpart, forall_mem_cons]
    exact ⟨⟨⟨part, rfl⟩, hdeclared⟩, ⟨exports, mem_cons_self⟩,
      fun file hfile => (hfiles file hfile).imp fun _ => mem_cons_of_mem _⟩

theorem Generator.bindFiles_cons {plugins : List (Plugin σ)} (exports : Exports) (file : FileId)
    (files : List FileId) (state : σ) :
    bindFiles s plugins exports (file :: files) state =
      match (Binder.mk s file exports).run plugins state with
      | (.error e, state) => ((.error e, exports), state)
      | (.ok (content, new), state) =>
        let rest := bindFiles s plugins (exports ++ new) files state
        ((rest.1.1.map (content.toList.map (⟨(s.schema.file file).goFileName, ·⟩) ++ ·), rest.1.2),
          rest.2) := by
  have hbind {α β : Type} (x : StateM σ α) (f : α → StateM σ β) :
      (x >>= f) state = f (x state).1 (x state).2 := rfl
  rw [bindFiles, hbind]
  rcases (Binder.mk s file exports).run plugins state with ⟨_ | ⟨content, new⟩, state⟩ <;> rfl

theorem Generator.bindFiles_cons_eq_ok {plugins : List (Plugin σ)} {exports' : Exports}
    {file : FileId} {state : σ}
    (h : (bindFiles s plugins exports (file :: files) state).1 = (.ok out, exports')) :
    ∃ (content : Option String) (part : Part) (rest : List GeneratedFile) (state' : σ),
      (Binder.mk s file exports).declarations = .ok part ∧
      (∀ text ∈ content, ∃ body extra, body.enabled = true ∧
        (Binder.mk s file exports).finish part body extra = .ok text) ∧
      (bindFiles s plugins (exports ++ part.exports) files state').1 = (.ok rest, exports') ∧
      out = content.toList.map (⟨(s.schema.file file).goFileName, ·⟩) ++ rest := by
  rw [bindFiles_cons] at h
  split at h
  · cases h
  rename_i content new state' hrun
  obtain ⟨part, hpart, rfl, htext⟩ := Binder.run_eq_ok (congrArg Prod.fst hrun)
  obtain ⟨hresult, rfl⟩ := Prod.mk.inj h
  obtain ⟨rest, hrest, rfl⟩ := map_eq_ok.mp hresult
  exact ⟨content, part, rest, state', hpart, htext, Prod.ext hrest rfl, rfl⟩

/-- A run goes through its files one after the other, up to the first that fails. -/
theorem Generator.bindFiles_nil (s : Setup) (exports : Exports) (files : List FileId) (state : σ) :
    ∃ exports', bindFiles s [] exports files state =
      ((((s.binders exports files).mapM Binder.output).map flatten, exports'), state) := by
  induction files generalizing exports with
  | nil => exact ⟨exports, rfl⟩
  | cons file files ih =>
    rw [Setup.binders, mapM_cons, Binder.output, bindFiles_cons, Binder.run_nil]
    cases hout : (Binder.mk s file exports).outcome with
    | error e => exact ⟨exports, rfl⟩
    | ok out =>
      obtain ⟨content, new⟩ := out
      obtain ⟨part, hpart, rfl, -⟩ := Binder.outcome_eq_ok hout
      obtain ⟨exports', hrest⟩ := ih (exports ++ part.exports)
      refine ⟨exports', ?_⟩
      simp only [hrest, hpart]
      cases (s.binders (exports ++ part.exports) files).mapM Binder.output <;> rfl

theorem Generator.generateAll_nil {g : Generator σ} (hg : g.plugins = []) (state : σ) :
    ∃ exports', g.generateAll state =
      ((((g.setup.binders g.exports g.setup.schema.fileIds).mapM Binder.output).map flatten,
        { g with exports := exports' }), state) := by
  obtain ⟨exports', hfiles⟩ := bindFiles_nil g.setup g.exports g.setup.schema.fileIds state
  have hinit : ([] : List (Plugin σ)).forM (fun p => p.init g.setup) state = ((), state) := rfl
  refine ⟨exports', ?_⟩
  simp only [generateAll, hg, filter_nil, bind, StateT.bind, hinit, hfiles]
  cases (g.setup.binders g.exports g.setup.schema.fileIds).mapM Binder.output <;> rfl

end Binders

theorem generateWith_nil (r : Descriptor.Request) (state : σ) :
    (generateWith [] r state).1 = do
      let s ← Setup.ofRequest r
      return (← (s.binders [] s.schema.fileIds).mapM Binder.output).flatten := by
  rw [generateWith, Generator.ofRequest]
  cases Setup.ofRequest r with
  | error e => rfl
  | ok s =>
    obtain ⟨exports, hall⟩ :=
      Generator.generateAll_nil (g := ({ setup := s } : Generator σ)) rfl state
    have hlift {α β : Type} (x : StateM σ α) (f : α → Run σ β) :
        (ExceptT.lift x >>= f : Run σ β) state = f (x state).1 (x state).2 := rfl
    show ((ExceptT.lift ({ setup := s } : Generator σ).generateAll >>= fun a => liftM a.1 :
      Run σ (List GeneratedFile)) state).1 = _
    rw [hlift, hall]
    show _ = (s.binders [] s.schema.fileIds).mapM Binder.output >>= fun files =>
      pure files.flatten
    cases (s.binders [] s.schema.fileIds).mapM Binder.output <;> rfl

theorem Binder.exists_of_generateWith {r : Descriptor.Request} {s : Setup} {state : σ}
    (h : (generateWith [] r state).1 = .ok out) (hs : Setup.ofRequest r = .ok s)
    (hb : b ∈ s.binders [] s.schema.fileIds) (hgenerated : b.setup.isGenerated b.file = true) :
    ∃ source text, b.assembled = .ok source ∧ format source = .ok text ∧
      ⟨b.node.goFileName, text⟩ ∈ out := by
  rw [generateWith_nil, hs] at h
  simp only [steps_eq_ok, Except.ok.injEq] at h
  obtain ⟨_, rfl, lists, hlists, rfl⟩ := h
  obtain ⟨list, hlist, hout⟩ := exists_of_mem_forall₂ (mapM_eq_ok hlists) hb
  obtain ⟨part, imports, text, hpart, himports, hformat, rfl⟩ :=
    (Binder.output_eq_ok hgenerated).mp hout
  have hsource := (Binder.assembled_eq_ok hgenerated).mpr ⟨part, imports, hpart, himports, rfl⟩
  exact ⟨_, text, hsource, hformat, mem_flatten.mpr ⟨_, hlist, by simp⟩⟩

end GoBindings
