import GoBindings.Proofs.Hooks
import GoBindings.Proofs.SafeRequests

/-!
# The calls of a run

Plugins can be watched: each notes its calls in the state and does otherwise what it did. A run
calls the enabled plugins in a fixed order, up to the first call that fails.
-/

namespace GoBindings

open List Schema Go Generator

variable {file : FileId}

/-- A call of a plugin, which is given by its place among those registered. -/
inductive Call where
  | init (place : Nat)
  | generate (place : Nat) (file : FileId)
  | generateImports (place : Nat) (file : FileId)
  deriving DecidableEq, Repr

def Call.file? : Call → Option FileId
  | init _ => none
  | generate _ file | generateImports _ file => some file

/-- A call that was made, with the printer that it handed back or the error that it ended with. -/
structure Event where
  call : Call
  outcome : Option (Except Error Printer)

namespace Event

def FailsWith (event : Event) (e : Error) : Prop := event.outcome = some (.error e)

/-- The package is in use in the printer handed back. -/
def Uses (event : Event) (package : String) : Prop :=
  ∃ p, event.outcome = some (.ok p) ∧ p.isUsed package = true

end Event

section Watching

variable {σ : Type}

/-- Makes a call and notes it. -/
def Run.watched (call : Call) (x : Run σ Printer) : Run (σ × List Event) Printer :=
  fun (state, events) =>
    let (outcome, state) := x state
    (outcome, state, events ++ [⟨call, some outcome⟩])

def Plugin.watched (plugin : Plugin σ) (place : Nat) : Plugin (σ × List Event) where
  name := plugin.name
  init setup := fun (state, events) =>
    ((), (plugin.init setup state).2, events ++ [⟨.init place, none⟩])
  generate b p := Run.watched (.generate place b.file) (plugin.generate b p)
  generateImports b p := Run.watched (.generateImports place b.file) (plugin.generateImports b p)

/-- The generator with all its plugins watched. -/
def Generator.watched (g : Generator σ) : Generator (σ × List Event) where
  setup := g.setup
  exports := g.exports
  plugins := g.plugins.zipIdx.map fun p => p.1.watched p.2

/-- What a run calls, one after the other. -/
def Generator.events (g : Generator σ) (state : σ) : List Event :=
  (g.watched.generateAll (state, [])).2.2

end Watching

def Setup.fileCalls (s : Setup) (places : List Nat) (file : FileId) : List Call :=
  places.map (.generate · file) ++
    if s.isGenerated file then places.map (.generateImports · file) else []

/-- The calls of a run that does not fail. -/
def Setup.calls (s : Setup) (places : List Nat) : List Call :=
  places.map .init ++ s.schema.fileIds.flatMap (s.fileCalls places)

/-- The places of the enabled plugins. -/
def Generator.places {σ : Type} (g : Generator σ) : List Nat :=
  (g.plugins.zipIdx.filter fun p => g.setup.parameters.pluginEnabled p.1.name).map (·.2)

/-- The events are the calls in order, up to the first that fails, and the result is its error. All
calls are made if there is no error. -/
structure Traced {α : Type} (calls : List Call) (events : List Event) (result : Except Error α) :
    Prop where
  inOrder : events.map (·.call) <+: calls
  complete : ∀ a, result = .ok a → events.map (·.call) = calls
  failed : ∀ event ∈ events, ∀ e, event.FailsWith e →
    events.getLast? = some event ∧ result = .error e

namespace Traced

variable {α β : Type} {calls calls' : List Call} {events events' : List Event}
  {result : Except Error α}

theorem nil (result : Except Error α) : Traced [] [] result :=
  ⟨prefix_refl [], fun _ _ => rfl, by simp⟩

theorem stopped (calls : List Call) (e : Error) : Traced calls [] (.error e : Except Error α) :=
  ⟨by simp, nofun, by simp⟩

theorem single (call : Call) (result : Except Error Printer) :
    Traced [call] [⟨call, some result⟩] result := by
  refine ⟨prefix_refl _, fun _ _ => rfl, ?_⟩
  rintro event hevent e he
  obtain rfl := mem_singleton.mp hevent
  exact ⟨rfl, Option.some.inj he⟩

theorem append {a : α} {result : Except Error β} (h : Traced calls events (.ok a))
    (h' : Traced calls' events' result) : Traced (calls ++ calls') (events ++ events') result := by
  have hcalls := h.complete a rfl
  refine ⟨?_, fun b hb => ?_, fun event hevent e he => ?_⟩
  · rw [map_append, hcalls]
    exact (prefix_append_right_inj _).mpr h'.inOrder
  · rw [map_append, hcalls, h'.complete b hb]
  · rcases mem_append.mp hevent with hevent | hevent
    · cases (h.failed event hevent e he).2
    · obtain ⟨hlast, hresult⟩ := h'.failed event hevent e he
      rw [getLast?_append, hlast]
      exact ⟨rfl, hresult⟩

theorem error {e : Error} (h : Traced calls events (.error e : Except Error α))
    (hcalls : calls <+: calls') : Traced calls' events (.error e : Except Error β) := by
  refine ⟨h.inOrder.trans hcalls, nofun, fun event hevent e' he => ?_⟩
  obtain ⟨hlast, hresult⟩ := h.failed event hevent e' he
  exact ⟨hlast, congrArg _ (Except.error.inj hresult)⟩

theorem finish {a : α} (h : Traced calls events (.ok a)) (result : Except Error β) :
    Traced calls events result := by
  simpa using h.append (nil result)

theorem map (h : Traced calls events result) (f : α → β) : Traced calls events (result.map f) := by
  cases result with
  | error e => exact h.error (prefix_refl _)
  | ok a => exact h.finish _

theorem call_mem (h : Traced calls events result) {event : Event} (hevent : event ∈ events) :
    event.call ∈ calls :=
  h.inOrder.subset (mem_map_of_mem hevent)

theorem file? {γ : Type} {l : List γ} {call : γ → Call} (h : Traced (l.map call) events result)
    (hcall : ∀ c, (call c).file? = some file) : ∀ event ∈ events, event.call.file? = some file := by
  intro event hevent
  obtain ⟨c, -, hc⟩ := mem_map.mp (h.call_mem hevent)
  rw [← hc, hcall]

end Traced

section Files

variable {σ : Type} {plugins : List (Plugin σ × Nat)}
variable {b : Binder}

private theorem foldlM_watched (hook : Plugin σ → Printer → Run σ Printer) (call : Nat → Call)
    (hhook : ∀ plugin ∈ plugins, ∀ p q state, (hook plugin.1 p state).1 = .ok q → p.Extends q)
    (p : Printer) (state : σ) (events : List Event) :
    ∃ new result state',
      plugins.foldlM (fun p plugin => hook plugin.1 p) p state = (result, state') ∧
      plugins.foldlM (fun p plugin => Run.watched (call plugin.2) (hook plugin.1 p)) p
        (state, events) = (result, state', events ++ new) ∧
      Traced (plugins.map fun plugin => call plugin.2) new result ∧
      (∀ e, result = .error e → ∃ event ∈ new, event.FailsWith e) ∧
      ∀ q, result = .ok q → p.Extends q ∧ ∀ package, q.isUsed package = true ↔
        p.isUsed package = true ∨ ∃ event ∈ new, event.Uses package := by
  induction plugins generalizing p state events with
  | nil =>
    refine ⟨[], .ok p, state, rfl, by rw [append_nil]; rfl, .nil _, nofun, ?_⟩
    rintro q hq
    cases hq
    exact ⟨.refl, by simp⟩
  | cons plugin plugins ih =>
    rw [forall_mem_cons] at hhook
    rcases hrun : hook plugin.1 p state with ⟨e | p', state'⟩
    · refine ⟨[⟨call plugin.2, some (.error e)⟩], .error e, state', ?_, ?_,
        (Traced.single (call plugin.2) (.error e)).error ⟨_, rfl⟩, fun e' he => ?_, nofun⟩
      · rw [foldlM_cons, Run.bind_apply, hrun]
      · rw [foldlM_cons, Run.bind_apply, Run.watched, hrun]
      · exact ⟨_, mem_singleton_self _, congrArg some he⟩
    · have hextends := hhook.1 p p' state (by rw [hrun])
      obtain ⟨new, result, state'', hplain, hwatched, htraced, herror, hok⟩ :=
        ih hhook.2 p' state' (events ++ [⟨call plugin.2, some (.ok p')⟩])
      refine ⟨⟨call plugin.2, some (.ok p')⟩ :: new, result, state'', ?_, ?_,
        (Traced.single (call plugin.2) (.ok p')).append htraced, fun e he => ?_, fun q hq => ?_⟩
      · rw [foldlM_cons, Run.bind_apply, hrun]
        exact hplain
      · rw [foldlM_cons, Run.bind_apply, Run.watched, hrun]
        simpa using hwatched
      · obtain ⟨event, hevent, hfails⟩ := herror e he
        exact ⟨event, mem_cons_of_mem _ hevent, hfails⟩
      · obtain ⟨hlater, huses⟩ := hok q hq
        refine ⟨hextends.trans hlater, fun package => ?_⟩
        have hfirst : p'.isUsed package = true ↔ p.isUsed package = true ∨
            Event.Uses ⟨call plugin.2, some (.ok p')⟩ package := by
          refine ⟨fun hused => .inr ⟨p', rfl, hused⟩, ?_⟩
          rintro (hused | ⟨q', hq', hused⟩)
          · exact hextends.isUsed hused
          · rwa [Except.ok.inj (Option.some.inj hq')]
        rw [huses package, hfirst, or_assoc]
        simp only [exists_mem_cons_iff]

/-- The text of a file whose import block is computed with exactly the packages in use that the
declarations and the calls for the file refer to. -/
def Binder.Finished (b : Binder) (events : List Event) (text : Except Error String) : Prop :=
  ∃ part isUsed body extra, b.declarations = .ok part ∧
    (∀ package, isUsed package = true ↔ package ∈ b.bodyUses part ∨
      ∃ event ∈ events, event.call.file? = some b.file ∧ event.Uses package) ∧
    body.enabled = true ∧ text = b.textWith isUsed part body extra

theorem Binder.Finished.of_subset {events events' : List Event} {text : Except Error String}
    (h : b.Finished events text) (hsubset : events ⊆ events')
    (hevents : ∀ event ∈ events', event.call.file? = some b.file → event ∈ events) :
    b.Finished events' text := by
  obtain ⟨part, isUsed, body, extra, hpart, huses, htext⟩ := h
  refine ⟨part, isUsed, body, extra, hpart, fun package => (huses package).trans ?_, htext⟩
  refine or_congr_right ⟨?_, ?_⟩
  · rintro ⟨event, hevent, hcall⟩
    exact ⟨event, hsubset hevent, hcall⟩
  · rintro ⟨event, hevent, hcall⟩
    exact ⟨event, hevents event hevent hcall.1, hcall⟩

private theorem Binder.imported_watched {part : Part} {body : Printer}
    (happends : ∀ plugin ∈ plugins, plugin.1.Appends) (hpart : b.declarations = .ok part)
    (henabled : body.enabled = true) {seen : List Event}
    (hfile : ∀ event ∈ seen, event.call.file? = some b.file)
    (hseen : ∀ package, body.isUsed package = true ↔
      (b.bodyPrinter part).isUsed package = true ∨ ∃ event ∈ seen, event.Uses package) (state : σ)
    (events : List Event) :
    ∃ new result state', b.imported (plugins.map (·.1)) state part body = (result, state') ∧
      b.imported (plugins.map fun plugin => plugin.1.watched plugin.2) (state, events) part body =
        (result, state', events ++ new) ∧
      Traced (plugins.map fun plugin => .generateImports plugin.2 b.file) new result ∧
      (∀ e, result = .error e →
        (∃ event ∈ new, event.FailsWith e) ∨ b.Finished (seen ++ new) (.error e)) ∧
      ∀ content exports, result = .ok (content, exports) →
        ∃ text, content = some text ∧ b.Finished (seen ++ new) (.ok text) := by
  obtain ⟨new, result, state', hplain, hwatched, htraced, herror, hok⟩ :=
    foldlM_watched (fun plugin => plugin.generateImports b) (.generateImports · b.file)
      (fun plugin hmem => (happends plugin hmem).generateImports b) { enabled := true } state events
  replace hwatched : plugins.foldlM
    (fun p plugin => (plugin.1.watched plugin.2).generateImports b p) { enabled := true }
    (state, events) = (result, state', events ++ new) := hwatched
  simp only [imported, foldlM_map, hplain, hwatched]
  cases result with
  | error e =>
    refine ⟨new, .error e, state', rfl, rfl, htraced.error (prefix_refl _), ?_, ?_⟩
    · exact fun e' he => .inl (herror e' (congrArg _ (Except.error.inj he)))
    · intro content exports hresult
      cases hresult
  | ok extra =>
    have hnew := htraced.file? fun _ => rfl
    have hfinished : b.Finished (seen ++ new) (b.finish part body extra) := by
      refine ⟨part, _, body, extra, hpart, fun package => ?_, henabled,
        b.finish_eq part body extra⟩
      have hevents : (∃ event ∈ seen ++ new, event.call.file? = some b.file ∧
          event.Uses package) ↔
          (∃ event ∈ seen, event.Uses package) ∨ ∃ event ∈ new, event.Uses package := by
        simp only [← exists_or, ← or_and_right, ← mem_append]
        refine exists_congr fun event => and_congr_right fun hevent => and_iff_right ?_
        exact (mem_append.mp hevent).elim (hfile event) (hnew event)
      have hnone : Printer.isUsed { enabled := true } package = false := rfl
      rw [Bool.or_eq_true, Bool.or_eq_true, hseen, (hok extra rfl).2, hnone, bodyPrinter_isUsed,
        hevents]
      simp [bodyUses, or_assoc]
    refine ⟨new, _, state', rfl, rfl, htraced.finish _, fun e he => ?_, ?_⟩
    · cases htext : b.finish part body extra with
      | error e' =>
        rw [htext] at he hfinished
        obtain rfl := Except.error.inj he
        exact .inr hfinished
      | ok text =>
        rw [htext] at he
        cases he
    · rintro content exports hout
      obtain ⟨text, htext, hpair⟩ := map_eq_ok.mp hout
      cases hpair
      exact ⟨text, rfl, htext ▸ hfinished⟩

private theorem Binder.run_watched (b : Binder)
    (happends : ∀ plugin ∈ plugins, plugin.1.Appends) (state : σ) (events : List Event) :
    ∃ new result state', b.run (plugins.map (·.1)) state = (result, state') ∧
      b.run (plugins.map fun plugin => plugin.1.watched plugin.2) (state, events) =
        (result, state', events ++ new) ∧
      Traced (b.setup.fileCalls (plugins.map (·.2)) b.file) new result ∧
      (∀ e, result = .error e → (∃ event ∈ new, event.FailsWith e) ∨ b.declarations = .error e ∨
        b.setup.isGenerated b.file = true ∧ b.Finished new (.error e)) ∧
      ∀ content exports, result = .ok (content, exports) →
        (b.setup.isGenerated b.file = false ∧ content = none) ∨
          b.setup.isGenerated b.file = true ∧ ∃ text, content = some text ∧
            b.Finished new (.ok text) := by
  have hcalls : b.setup.fileCalls (plugins.map (·.2)) b.file =
      (plugins.map fun plugin => .generate plugin.2 b.file) ++
        if b.setup.isGenerated b.file then
          plugins.map fun plugin => .generateImports plugin.2 b.file
        else [] := by
    rw [Setup.fileCalls, map_map, map_map]
    rfl
  rw [run_eq, run_eq, hcalls]
  cases hpart : b.declarations with
  | error e =>
    refine ⟨[], .error e, state, rfl, by rw [append_nil], .stopped _ e, ?_, nofun⟩
    exact fun e' he => .inr (.inl (congrArg _ (Except.error.inj he)))
  | ok part =>
    obtain ⟨new, result, state', hplain, hwatched, htraced, herror, hok⟩ :=
      foldlM_watched (fun plugin => plugin.generate b) (.generate · b.file)
        (fun plugin hmem => (happends plugin hmem).generate b) (b.bodyPrinter part) state events
    replace hwatched : plugins.foldlM (fun p plugin => (plugin.1.watched plugin.2).generate b p)
      (b.bodyPrinter part) (state, events) = (result, state', events ++ new) := hwatched
    simp only [foldlM_map, hplain, hwatched]
    cases result with
    | error e =>
      refine ⟨new, .error e, state', rfl, rfl, htraced.error (prefix_append _ _),
        fun e' he => ?_, nofun⟩
      exact .inl (herror e' (congrArg _ (Except.error.inj he)))
    | ok body =>
      obtain ⟨hbody, huses⟩ := hok body rfl
      have henabled : body.enabled = b.setup.isGenerated b.file := by
        rw [hbody.enabled_eq, bodyPrinter_enabled]
      simp only [henabled]
      split
      · rename_i hgenerated
        obtain ⟨new', result, state'', hplain, hwatched, htraced', herror, hok⟩ :=
          imported_watched happends hpart (henabled.trans hgenerated)
            (htraced.file? fun _ => rfl) huses state' (events ++ new)
        rw [append_assoc] at hwatched
        refine ⟨new ++ new', result, state'', hplain, hwatched, htraced.append htraced',
          fun e he => ?_, fun content exports hout => ?_⟩
        · rcases herror e he with ⟨event, hevent, hfails⟩ | hfinished
          · exact .inl ⟨event, mem_append_right _ hevent, hfails⟩
          · exact .inr (.inr ⟨hgenerated, hfinished⟩)
        · exact .inr ⟨hgenerated, hok content exports hout⟩
      · rename_i hskipped
        refine ⟨new, .ok (none, part.exports), state', rfl, rfl, ?_, nofun, ?_⟩
        · rw [append_nil]
          exact htraced.finish _
        · rintro content exports hout
          cases hout
          exact .inl ⟨by simpa using hskipped, rfl⟩

end Files

/-- How a run that made calls for files ends. Each generated file is finished, or the error is that
of a call, that of a file which cannot be declared, or that of a file which cannot be finished. -/
def Setup.Ends (s : Setup) (files : List FileId) (events : List Event) :
    Except Error (List GeneratedFile) → Prop
  | .ok out => Forall₂ (fun file f => f.name = (s.schema.file file).goFileName ∧
      ∃ exports, (Binder.mk s file exports).Finished events (.ok f.content))
      (files.filter s.isGenerated) out
  | .error e => (∃ event ∈ events, event.FailsWith e) ∨ ∃ file ∈ files, ∃ exports,
      (Binder.mk s file exports).declarations = .error e ∨
        s.isGenerated file = true ∧ (Binder.mk s file exports).Finished events (.error e)

section Runs

variable {σ : Type} {plugins : List (Plugin σ × Nat)} {s : Setup}
variable {files : List FileId}

private theorem Setup.file?_of_mem_fileCalls {places : List Nat} {call : Call}
    (h : call ∈ s.fileCalls places file) : call.file? = some file := by
  rw [fileCalls, mem_append] at h
  rcases h with h | h
  · obtain ⟨place, -, rfl⟩ := mem_map.mp h
    rfl
  · split at h
    · obtain ⟨place, -, rfl⟩ := mem_map.mp h
      rfl
    · cases h

private theorem Setup.Ends.of_subset {events events' : List Event}
    {result : Except Error (List GeneratedFile)} (h : s.Ends files events' result)
    (hsubset : events' ⊆ events)
    (hevents : ∀ event ∈ events, ∀ file ∈ files, event.call.file? = some file → event ∈ events') :
    s.Ends files events result := by
  cases result with
  | error e =>
    rcases h with ⟨event, hevent, hfails⟩ | ⟨file, hfile, exports, hcause⟩
    · exact .inl ⟨event, hsubset hevent, hfails⟩
    · refine .inr ⟨file, hfile, exports, hcause.imp_right (And.imp_right fun hfinished => ?_)⟩
      exact hfinished.of_subset hsubset fun event hevent => hevents event hevent file hfile
  | ok out =>
    have hmem : ∀ file ∈ files.filter s.isGenerated, file ∈ files :=
      fun file hfile => (mem_filter.mp hfile).1
    refine ((forall₂_and_left _ _).mpr ⟨hmem, h⟩).imp ?_
    rintro file f ⟨hfile, hname, exports, hfinished⟩
    exact ⟨hname, exports,
      hfinished.of_subset hsubset fun event hevent => hevents event hevent file hfile⟩

theorem Generator.bindFiles_watched (happends : ∀ plugin ∈ plugins, plugin.1.Appends)
    (hnodup : files.Nodup) (exports : Exports) (state : σ) (events : List Event) :
    ∃ new result state', bindFiles s (plugins.map (·.1)) exports files state = (result, state') ∧
      bindFiles s (plugins.map fun plugin => plugin.1.watched plugin.2) exports files
        (state, events) = (result, state', events ++ new) ∧
      Traced (files.flatMap (s.fileCalls (plugins.map (·.2)))) new result.1 ∧
      s.Ends files new result.1 := by
  induction files generalizing exports state events with
  | nil =>
    exact ⟨[], (.ok [], exports), state, rfl, by rw [append_nil]; rfl, .nil _, .nil⟩
  | cons file files ih =>
    rw [nodup_cons] at hnodup
    obtain ⟨new, result, state', hplain, hwatched, htraced, herror, hok⟩ :=
      (Binder.mk s file exports).run_watched happends state events
    rw [bindFiles_cons, bindFiles_cons, hplain, hwatched]
    cases result with
    | error e =>
      refine ⟨new, (.error e, exports), state', rfl, rfl,
        htraced.error (prefix_append _ _), ?_⟩
      rcases herror e rfl with hfails | hcause
      · exact .inl hfails
      · exact .inr ⟨file, mem_cons_self, exports, hcause⟩
    | ok out =>
      obtain ⟨content, more⟩ := out
      obtain ⟨new', result, state'', hplain, hwatched, htraced', hends⟩ :=
        ih hnodup.2 (exports ++ more) state' (events ++ new)
      have hnew : ∀ event ∈ new, event.call.file? = some file := fun event hevent =>
        Setup.file?_of_mem_fileCalls (htraced.call_mem hevent)
      have hnew' : ∀ event ∈ new', ∃ file ∈ files, event.call.file? = some file := by
        intro event hevent
        obtain ⟨file, hfile, hcall⟩ := mem_flatMap.mp (htraced'.call_mem hevent)
        exact ⟨file, hfile, Setup.file?_of_mem_fileCalls hcall⟩
      simp only [hplain, hwatched]
      refine ⟨new ++ new', (result.1.map _, result.2), state'', rfl,
        by rw [append_assoc], htraced.append (htraced'.map _), ?_⟩
      replace hends : s.Ends files (new ++ new') result.1 := by
        refine hends.of_subset (subset_append_right _ _) ?_
        intro event hevent file' hfile' hcall
        refine (mem_append.mp hevent).resolve_left fun hmem => hnodup.1 ?_
        rwa [Option.some.inj ((hnew event hmem).symm.trans hcall)]
      cases hresult : result.1 with
      | error e =>
        rw [hresult] at hends
        exact hends.imp_right fun ⟨file', hfile', hcause⟩ =>
          ⟨file', mem_cons_of_mem file hfile', hcause⟩
      | ok out =>
        rw [hresult] at hends
        show Forall₂ _ ((file :: files).filter s.isGenerated) _
        rcases hok content more rfl with ⟨hskipped, rfl⟩ | ⟨hgenerated, text, rfl, hfinished⟩
        · rw [filter_cons_of_neg (by simp [hskipped])]
          exact hends
        · rw [filter_cons_of_pos hgenerated]
          refine .cons ⟨rfl, exports, hfinished.of_subset (subset_append_left _ _)
            fun event hevent hcall => ?_⟩ hends
          refine (mem_append.mp hevent).resolve_right fun hmem => hnodup.1 ?_
          obtain ⟨file', hfile', hcall'⟩ := hnew' event hmem
          have heq : file = file' := Option.some.inj (hcall.symm.trans hcall')
          rwa [heq]

private theorem forM_watched (state : σ) (events : List Event) :
    (plugins.map fun plugin => plugin.1.watched plugin.2).forM (fun plugin => plugin.init s)
      (state, events) = ((), ((plugins.map (·.1)).forM (fun plugin => plugin.init s) state).2,
        events ++ (plugins.map (·.2)).map fun place => ⟨.init place, none⟩) := by
  induction plugins generalizing state events with
  | nil => rw [map_nil, map_nil, map_nil, map_nil, append_nil]; rfl
  | cons plugin plugins ih =>
    have hstep := ih (plugin.1.init s state).2 (events ++ [⟨.init plugin.2, none⟩])
    rw [append_assoc] at hstep
    exact hstep

variable (g : Generator σ)

/-- The enabled plugins, with their places. -/
private def Generator.enabled : List (Plugin σ × Nat) :=
  g.plugins.zipIdx.filter fun p => g.setup.parameters.pluginEnabled p.1.name

private theorem Generator.map_enabled : g.enabled.map (·.1) =
    g.plugins.filter fun p => g.setup.parameters.pluginEnabled p.name := by
  have hfst : g.plugins.zipIdx.map (·.1) = g.plugins := zipIdx_map_fst 0 g.plugins
  conv_rhs => rw [← hfst, filter_map]
  rfl

private theorem Generator.map_watched_enabled :
    g.enabled.map (fun p => p.1.watched p.2) =
      g.watched.plugins.filter fun p => g.setup.parameters.pluginEnabled p.name := by
  rw [watched, filter_map]
  rfl

/-- A run is watched without a change, and it makes its calls in order. -/
theorem Generator.generateAll_watched {g : Generator σ} (happends : ∀ plugin ∈ g.plugins,
    g.setup.parameters.pluginEnabled plugin.name = true → plugin.Appends) (state : σ) :
    (g.watched.generateAll (state, [])).1.1 = (g.generateAll state).1.1 ∧
      (g.watched.generateAll (state, [])).2.1 = (g.generateAll state).2 ∧
      Traced (g.setup.calls g.places) (g.events state) (g.generateAll state).1.1 ∧
      g.setup.Ends g.setup.schema.fileIds (g.events state) (g.generateAll state).1.1 := by
  have happends : ∀ plugin ∈ g.enabled, plugin.1.Appends := by
    intro plugin hplugin
    obtain ⟨hmem, hname⟩ := mem_filter.mp hplugin
    exact happends plugin.1 (fst_mem_of_mem_zipIdx hmem) hname
  have hnodup : g.setup.schema.fileIds.Nodup :=
    nodup_range.map fun i j h => congrArg FileId.index h
  obtain ⟨new, result, state', hplain, hwatched, htraced, hends⟩ :=
    bindFiles_watched happends hnodup g.exports
      ((g.enabled.map (·.1)).forM (fun plugin => plugin.init g.setup) state).2
      (g.places.map fun place => ⟨.init place, none⟩)
  obtain ⟨hresult, hstate⟩ := g.generateAll_eq state g.map_enabled.symm hplain
  have hinits : Traced (g.places.map .init) (g.places.map fun place => ⟨.init place, none⟩)
      (.ok () : Except Error Unit) := by
    have hcalls : (g.places.map fun place => (⟨.init place, none⟩ : Event)).map (·.call) =
        g.places.map .init := by
      rw [map_map]
      rfl
    exact ⟨hcalls ▸ prefix_refl _, fun _ _ => hcalls, by simp [Event.FailsWith]⟩
  obtain ⟨hresult', hstate'⟩ := g.watched.generateAll_eq (state, []) g.map_watched_enabled.symm
    (by rw [forM_watched]; exact hwatched)
  rw [events, hresult', hresult, hstate', hstate]
  refine ⟨rfl, rfl, hinits.append htraced, ?_⟩
  refine hends.of_subset (subset_append_right _ _) ?_
  intro event hevent file hfile hcall
  refine (mem_append.mp hevent).resolve_left fun hmem => ?_
  obtain ⟨place, -, rfl⟩ := mem_map.mp hmem
  cases hcall

private theorem Generator.generateAll_filter (state : σ) :
    generateAll { g with plugins := g.plugins.filter fun p =>
      g.setup.parameters.pluginEnabled p.name } state = g.generateAll state := by
  have hfilter : (g.plugins.filter fun p => g.setup.parameters.pluginEnabled p.name).filter
      (fun p => g.setup.parameters.pluginEnabled p.name) =
        g.plugins.filter fun p => g.setup.parameters.pluginEnabled p.name := by
    simp
  rw [generateAll, generateAll, hfilter]

end Runs

/-- A run calls the enabled plugins only, in the order in which they were registered: all of them
before any file, and then for each file. It ends with the first call that fails, and the import
block of each file knows all packages that calls refer to. -/
theorem generateAll_protocol {σ : Type} (g : Generator σ) (happends : ∀ plugin ∈ g.plugins,
    g.setup.parameters.pluginEnabled plugin.name = true → plugin.Appends) (state : σ) :
    generateAll { g with plugins := g.plugins.filter fun p =>
        g.setup.parameters.pluginEnabled p.name } state = g.generateAll state ∧
      (g.watched.generateAll (state, [])).1.1 = (g.generateAll state).1.1 ∧
      (g.watched.generateAll (state, [])).2.1 = (g.generateAll state).2 ∧
      Traced (g.setup.calls g.places) (g.events state) (g.generateAll state).1.1 ∧
      g.setup.Ends g.setup.schema.fileIds (g.events state) (g.generateAll state).1.1 :=
  ⟨g.generateAll_filter state, generateAll_watched happends state⟩

def greetedRequest : Descriptor.Request where
  filesToGenerate := ["b.proto"]
  parameter := some "plugins=late+hello"
  files :=
    [{ name := some "a.proto", package := some "p" },
     { name := some "b.proto", package := some "p", dependencies := ["a.proto"] }]

/-- Of three plugins the first is not enabled, and the last fails when it is to add imports. -/
def greeted : Generator (List String) where
  setup := (Setup.ofRequest greetedRequest).toOption.getD default
  plugins := [({ name := "quiet" } : Script).toPlugin,
    ({ name := "hello"
       body := [.useSupport "fmt", .line "var _ = $FMT.Sprint"] } : Script).toPlugin,
    ({ name := "late", fail := some .imports } : Script).toPlugin]

theorem generateAll_protocol_scripts : (greeted.generateAll []).1.1.isOk = false ∧
    Traced [.init 1, .init 2, .generate 1 ⟨0⟩, .generate 2 ⟨0⟩, .generate 1 ⟨1⟩, .generate 2 ⟨1⟩,
      .generateImports 1 ⟨1⟩, .generateImports 2 ⟨1⟩] (greeted.events [])
      (greeted.generateAll []).1.1 := by
  have happends : ∀ plugin ∈ greeted.plugins, plugin.Appends := by
    simp only [greeted, forall_mem_cons, not_mem_nil]
    exact ⟨Script.toPlugin_appends _, Script.toPlugin_appends _, Script.toPlugin_appends _, by simp⟩
  have hcalls : greeted.setup.calls greeted.places = [.init 1, .init 2, .generate 1 ⟨0⟩,
      .generate 2 ⟨0⟩, .generate 1 ⟨1⟩, .generate 2 ⟨1⟩, .generateImports 1 ⟨1⟩,
      .generateImports 2 ⟨1⟩] := by
    decide +kernel
  rw [← hcalls]
  exact ⟨by decide +kernel,
    (generateAll_protocol greeted (fun plugin hmem _ => happends plugin hmem) []).2.2.2.1⟩

/-- One plugin, which adds no imports. -/
def hosting (generate : Binder → Printer → Run Unit Printer) : Generator Unit where
  setup := setupOf greetedRequest
  plugins := [{ name := "hello", generate }]

/-- The plugin puts a printer that is turned off in the place of the one that it is given. -/
def silencing : Generator Unit := hosting fun _ _ => pure { enabled := false }

def failing : Generator Unit := hosting fun _ _ => throw (.plugin "late")

/-- A run can succeed without all of its calls: a plugin turns a file off, or an earlier run has
failed, after which no plugin is left. -/
theorem generateAll_protocol_broken :
    silencing.setup.calls silencing.places =
      [.init 0, .generate 0 ⟨0⟩, .generate 0 ⟨1⟩, .generateImports 0 ⟨1⟩] ∧
    (silencing.generateAll ()).1.1.isOk = true ∧
    (silencing.events ()).map (·.call) = [.init 0, .generate 0 ⟨0⟩, .generate 0 ⟨1⟩] ∧
    failing.places = [0] ∧ (failing.generateAll ()).1.1.isOk = false ∧
    ((failing.generateAll ()).1.2.generateAll ()).1.1.isOk = true ∧
    (failing.generateAll ()).1.2.events () = [] := by
  have hchecked : greetedRequest.Checked := by decide +kernel
  obtain ⟨g, g', out, hg, -, hout⟩ := exists_of_checked hchecked
  have hexports : (failing.generateAll ()).1.2.exports = [] := by decide +kernel
  have hplugins : (failing.generateAll ()).1.2.plugins = [] :=
    List.isEmpty_iff.mp (by decide +kernel)
  have hleft : (failing.generateAll ()).1.2 = g := by
    rw [Generator.ofRequest, hchecked.setup] at hg
    rw [← Except.ok.inj hg, ← hexports, ← hplugins]
    rfl
  obtain ⟨exports, hnone⟩ := generateAll_nil (g := (failing.generateAll ()).1.2.watched)
    (by rw [watched, hplugins]; rfl) ((), [])
  refine ⟨by decide +kernel, by decide +kernel, by decide +kernel, by decide +kernel,
    by decide +kernel, ?_, ?_⟩
  · rw [hleft, hout]
    rfl
  · rw [events, hnone]

end GoBindings
