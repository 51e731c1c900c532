import GoBindings.Proofs.Alike
import GoBindings.Proofs.References

/-!
# Exported symbols across runs

What a run records for the objects of its files depends on the files only, not on which of them are
generated, on the parameters or on the plugins. A run that generates a file declares in it all that
the symbols of its objects stand for, so what another run passes on is there.
-/

namespace GoBindings

open List Schema Go Descriptor Setup

variable {exports : Exports}

/-- What a declaration provides. -/
def Go.Decl.provides : Decl → List Reference
  | .blank | .comment _ | .blockComment _ | .package _ | .imports _ => []
  | .value sort name _ _ _ => [.value sort name]
  | .constants entries => entries.filterMap fun
    | .comment _ => none
    | .constant name _ _ => some (.value .const name)
  | .typeDef name _ | .interface name _ => [.type name]
  | .struct name _ | .wrapper name _ _ _ => [.struct name, .type name]
  | .table name _ _ _ => [.value .var name]
  | .func f => match f.receiver with
    | some receiver => [.method receiver.type f.name]
    | none => [.func f.name]

/-- The objects of exports are of one file, and all that their symbols refer to is declared. -/
def Exports.ProvidedBy (s : Schema) (file : FileId) (decls : List Decl) (exports : Exports) :
    Prop :=
  ∀ e ∈ exports, s.fileOf e.1 = file ∧ e.2.references ⊆ decls.flatMap Decl.provides

theorem Exports.ProvidedBy.mono {s : Schema} {file : FileId} {decls decls' : List Decl}
    (h : exports.ProvidedBy s file decls) (hdecls : decls ⊆ decls') :
    exports.ProvidedBy s file decls' := by
  intro e he
  obtain ⟨hfile, hrefs⟩ := h e he
  refine ⟨hfile, fun x hx => ?_⟩
  obtain ⟨d, hd, hprovides⟩ := mem_flatMap.mp (hrefs hx)
  exact mem_flatMap.mpr ⟨d, hdecls hd, hprovides⟩

namespace Binder

variable {part : Part} {type : String}
variable {m : MessageNode} {id : MessageId}

/-- A part that declares what it exports. -/
def Provides (b : Binder) (p : Part) : Prop := p.exports.ProvidedBy b.schema b.file p.decls

variable {P : Field → Prop} {b : Binder} {files : List File}

theorem Provides.append {p q : Part} (hp : b.Provides p) (hq : b.Provides q) :
    b.Provides (p ++ q) := by
  refine forall_mem_append.mpr ⟨hp.mono ?_, hq.mono ?_⟩
  · exact subset_append_left _ _
  · exact subset_append_right _ _

theorem Provides.additive : Part.Additive b.Provides := ⟨forall_mem_nil _, .append⟩

theorem provides_of_exports {p : Part} (h : p.exports = []) : b.Provides p := by
  rw [Provides, h]
  exact forall_mem_nil _

theorem mem_constantEntries {node : EnumNode} {values : List EnumValue}
    {v : EnumValue} (hv : v ∈ values) (i : Nat) :
    .constant (node.constantPrefix ++ v.name.getD "") type (v.number.getD 0) ∈
      b.constantEntries node type i values := by
  induction values generalizing i with
  | nil => cases hv
  | cons w values ih =>
    rw [constantEntries, mem_append, mem_cons]
    rcases mem_cons.mp hv with rfl | hv
    · exact .inr (.inl rfl)
    · exact .inr (.inr (ih hv (i + 1)))

theorem enumPart_provides {id : EnumId} (hfile : (b.schema.enum id).file = b.file) :
    b.Provides (b.enumPart id) := by
  simp only [Provides, Exports.ProvidedBy, enumPart, enumSymbols, forall_mem_cons, forall_mem_map]
  refine ⟨⟨hfile, ?_⟩, fun v hv => ⟨hfile, ?_⟩⟩
  · cases hproto3 : (b.schema.enum id).proto3 <;>
      simp [Symbol.references, enumDecls, hproto3, Decl.provides, enumStringFunc, enumPointerFunc,
        enumUnmarshalFunc]
  · have hconstant : Reference.value .const ((b.schema.enum id).constantPrefix ++ v.name.getD "") ∈
        (Decl.constants (b.constantEntries (b.schema.enum id)
          (camelCaseScope (b.schema.enum id).typeName) 0
          (b.schema.enum id).proto.values)).provides :=
      mem_filterMap.mpr ⟨_, mem_constantEntries hv 0, rfl⟩
    refine cons_subset.mpr ⟨mem_flatMap.mpr ⟨_, ?_, hconstant⟩, nil_subset _⟩
    simp [enumDecls]

theorem extensionPart_provides {id : ExtensionId} (hfile : (b.schema.extension id).file = b.file)
    (h : b.extensionPart id = .ok part) : b.Provides part := by
  simp only [extensionPart, steps_eq_ok] at h
  obtain ⟨-, -, -, -, -, -, -, -, -, -, rfl⟩ := h
  simp only [Provides, Exports.ProvidedBy, forall_mem_singleton]
  exact ⟨hfile, by simp [Symbol.references, extensionDecl, Decl.provides]⟩

private theorem getterPart_provides {unions : List (Option UnionPlan)} {p : FieldPlan}
    {d : Option DefaultPlan} {symbol : Option GetterSymbol}
    (h : b.getterPart m type unions p d = .ok (part, symbol)) :
    ∀ g ∈ symbol, .method type g.name ∈ part.decls.flatMap Decl.provides := by
  intro g hg
  rw [((getterPart_eq_ok h).2 g hg).1]
  simp only [getterPart, steps_eq_ok] at h
  obtain ⟨shape, -, ⟨body, uses⟩, -, h⟩ := h
  cases h
  simp [Decl.provides]

private theorem unionPart_provides {plan : MessagePlan} (h : b.unionPart type plan = .ok part) :
    .method type "XXX_OneofFuncs" ∈ part.decls.flatMap Decl.provides := by
  simp only [unionPart, steps_eq_ok] at h
  obtain ⟨reader, -, rfl⟩ := h
  simp [Decl.provides, unionFuncs]

private theorem extensionDecls_provides (type : String)
    (hranges : m.proto.extensionRanges.isEmpty = false) :
    .method type "ExtensionRangeArray" ∈ (b.extensionDecls m type).flatMap Decl.provides ∧
      (isMessageSet m = true →
        .method type "Marshal" ∈ (b.extensionDecls m type).flatMap Decl.provides ∧
        .method type "Unmarshal" ∈ (b.extensionDecls m type).flatMap Decl.provides) := by
  have hranges : ¬ m.proto.extensionRanges.isEmpty = true := by simp [hranges]
  rw [extensionDecls, if_neg hranges]
  refine ⟨by simp [rangeDecls, Decl.provides], fun hset => ?_⟩
  simp [hset, messageSetDecls, Decl.provides]

private theorem messageExports_provided (e : MessageSource b id part)
    (hfile : (b.schema.message id).file = b.file) :
    (messageExports id (b.schema.message id) (b.messageType id)
      (e.getters.filterMap (·.2))).ProvidedBy b.schema b.file part.decls := by
  have hprovides {x : Reference} (ds : List Decl) (hds : ds ⊆ part.decls)
      (hx : x ∈ ds.flatMap Decl.provides) : x ∈ part.decls.flatMap Decl.provides := by
    obtain ⟨d, hd, hx⟩ := mem_flatMap.mp hx
    exact mem_flatMap.mpr ⟨d, hds hd, hx⟩
  have hstruct := e.hstruct
  simp only [structDecl, steps_eq_ok] at hstruct
  obtain ⟨members, -, hstruct⟩ := hstruct
  have hranges (h : (!(b.schema.message id).proto.extensionRanges.isEmpty) = true) :=
    extensionDecls_provides (b := b) (b.messageType id)
      (by simpa using h)
  have hextensions : b.extensionDecls (b.schema.message id) (b.messageType id) ⊆ part.decls := by
    intro d hd
    simp [e.decls_eq, hd]
  have hfuncs : (b.messageFuncs (b.schema.message id)
      (b.messageType id)).map Decl.func ⊆ part.decls := by
    intro d hd
    rw [e.decls_eq]
    simp only [mem_append, hd, true_or, or_true]
  simp only [Exports.ProvidedBy, messageExports, forall_mem_ite, forall_mem_singleton]
  refine ⟨by simp, fun _ => ⟨hfile, ?_⟩⟩
  simp only [Symbol.references, append_subset, cons_subset, nil_subset, and_true]
  have hmem : [e.struct] ⊆ part.decls := by simp [e.decls_eq]
  refine ⟨⟨⟨⟨⟨?_, ?_, ?_, ?_⟩, ?_⟩, ?_⟩, ?_⟩, ?_⟩
  · exact hprovides _ hmem (by simp [← hstruct, Decl.provides])
  · exact hprovides _ hmem (by simp [← hstruct, Decl.provides])
  · exact hprovides _ hfuncs (by simp [messageFuncs, Decl.provides])
  · exact hprovides _ hfuncs (by simp [messageFuncs, Decl.provides])
  · intro x hx
    obtain ⟨g, hg, rfl⟩ := mem_map.mp hx
    obtain ⟨⟨getter, symbol⟩, hgetter, hg⟩ := mem_filterMap.mp hg
    obtain ⟨⟨p, d⟩, -, hpart⟩ := exists_of_mem_mapM e.hgetters hgetter
    refine hprovides getter.decls (fun d hd => ?_) (getterPart_provides hpart g hg)
    have hconcat : d ∈ (Part.concat (e.getters.map (·.1))).decls := by
      rw [Part.decls_concat]
      exact mem_flatMap.mpr ⟨getter, mem_map.mpr ⟨_, hgetter, rfl⟩, hd⟩
    simp [e.decls_eq, hconcat]
  · split
    · rename_i h
      exact cons_subset.mpr ⟨hprovides _ hextensions (hranges h).1, nil_subset _⟩
    · exact nil_subset _
  · split
    · rename_i h
      have hboth := h
      rw [isMessageSet, Bool.and_eq_true] at hboth
      obtain ⟨hwriter, hreader⟩ := (hranges hboth.1).2 h
      exact cons_subset.mpr ⟨hprovides _ hextensions hwriter,
        cons_subset.mpr ⟨hprovides _ hextensions hreader, nil_subset _⟩⟩
    · exact nil_subset _
  · split
    · rename_i h
      rcases e.hfuncs with ⟨hempty, -⟩ | ⟨-, hfuncs⟩
      · simp [hempty] at h
      · refine cons_subset.mpr ⟨hprovides e.funcs.decls (fun d hd => ?_)
          (unionPart_provides hfuncs), nil_subset _⟩
        simp [e.decls_eq, hd]
    · exact nil_subset _

theorem messagePart_provides (hs : b.setup.SoundWith P files)
    (hid : id.index < b.schema.messages.length) (hfile : (b.schema.message id).file = b.file)
    (h : b.messagePart id = .ok part) : b.Provides part := by
  have hmessage := hs.schema.message_sound hid
  obtain ⟨e⟩ := messagePart_eq_ok h
  rw [Provides, e.exports_eq]
  refine forall_mem_append.mpr ⟨forall_mem_append.mpr
    ⟨?_, messageExports_provided e hfile⟩, ?_⟩
  · intro x hx
    obtain ⟨default, hdefault, hx⟩ := mem_flatMap.mp hx
    obtain ⟨d, hd, rfl⟩ := mem_map.mp hx
    have hdecl : DefaultPlan.decl d ∈
        (Part.concat (e.defaults.flatMap fun d => d.toList.map (defaultPart id))).decls := by
      rw [Part.decls_concat]
      exact mem_flatMap.mpr ⟨defaultPart id d, mem_flatMap.mpr
        ⟨default, hdefault, mem_map_of_mem hd⟩, mem_singleton_self _⟩
    refine ⟨hfile, cons_subset.mpr ⟨mem_flatMap.mpr ⟨DefaultPlan.decl d, ?_, ?_⟩,
      nil_subset _⟩⟩
    · simp [e.decls_eq, hdecl]
    · simp [DefaultPlan.decl, Decl.provides]
  · have hextensions : b.Provides (Part.concat e.extensions) := by
      refine Provides.additive.concat_mapM e.hextensions fun x hx p hp => ?_
      exact extensionPart_provides ((hmessage.extensions x hx).2.trans hfile) hp
    rw [← Part.exports_concat]
    refine hextensions.mono fun d hd => ?_
    simp [e.decls_eq, hd]

theorem declarations_provides (hs : b.setup.SoundWith P files) (h : b.declarations = .ok part) :
    b.Provides part := by
  have howns := hs.schema.owns_file b.file
  refine declarations_induct Provides.additive
    (provides_of_exports FileSource.passive_version.exports) (fun id _ p hp => ?_)
    (fun id hid => ?_) (fun id hid p hp => ?_) (fun id hid p hp => ?_) h
  · exact provides_of_exports (forwardPart_passive hp).exports
  · exact enumPart_provides (howns.enums id hid).2
  · obtain ⟨hlt, hfile⟩ := howns.messages id (mem_filter.mp hid).1
    exact messagePart_provides hs hlt hfile hp
  · exact extensionPart_provides (howns.extensions id hid).2 hp

end Binder

section Records

variable {σ : Type} {s : Setup}
variable {state state' : σ} {plugins : List (Plugin σ)} {out : List GeneratedFile}

variable {exports' : Exports} {files : List FileId}

/-- Adds what a file exports. -/
def Setup.record (s : Setup) (exports : Exports) (file : FileId) : Except Error Exports := do
  return exports ++ (← (Binder.mk s file exports).declarations).exports

theorem Generator.bindFiles_record
    (h : (bindFiles s plugins exports files state).1 = (.ok out, exports')) :
    files.foldlM s.record exports = .ok exports' := by
  induction files generalizing exports state out with
  | nil => exact congrArg Except.ok (Prod.mk.inj h).2
  | cons file files ih =>
    obtain ⟨content, part, rest, state', hpart, -, hrest, -⟩ := bindFiles_cons_eq_ok h
    rw [foldlM_cons, record, hpart]
    exact ih hrest

/-- What is exported before a file is among what is exported in the end. -/
theorem Setup.exports_subset_of_record (h : files.foldlM s.record exports = .ok exports') :
    exports ⊆ exports' ∧ ∀ b ∈ s.binders exports files, b.exports ⊆ exports' := by
  induction files generalizing exports with
  | nil =>
    cases h
    exact ⟨Subset.refl _, nofun⟩
  | cons file files ih =>
    simp only [foldlM_cons, record, steps_eq_ok] at h
    obtain ⟨-, ⟨part, hpart, rfl⟩, h⟩ := h
    obtain ⟨hexports, hrest⟩ := ih h
    have hstart := Subset.trans (subset_append_left exports part.exports) hexports
    rw [binders, hpart]
    exact ⟨hstart, forall_mem_cons.mpr ⟨hstart, hrest⟩⟩

theorem Setup.exists_of_record (h : files.foldlM s.record exports = .ok exports')
    {e : Object × Symbol} (he : e ∈ exports') :
    e ∈ exports ∨
      ∃ b ∈ s.binders exports files, ∃ part, b.declarations = .ok part ∧ e ∈ part.exports := by
  induction files generalizing exports with
  | nil =>
    cases h
    exact .inl he
  | cons file files ih =>
    simp only [foldlM_cons, record, steps_eq_ok] at h
    obtain ⟨-, ⟨part, hpart, rfl⟩, h⟩ := h
    rw [binders, hpart]
    rcases ih h with he | ⟨b, hb, hpart⟩
    · rcases mem_append.mp he with he | he
      · exact .inl he
      · exact .inr ⟨_, mem_cons_self, part, hpart, he⟩
    · exact .inr ⟨b, mem_cons_of_mem _ hb, hpart⟩

theorem Generator.foldl_register (plugins : List (Plugin σ)) (g : Generator σ) :
    (plugins.foldl register g).setup = g.setup ∧
      (plugins.foldl register g).exports = g.exports := by
  induction plugins generalizing g with
  | nil => exact ⟨rfl, rfl⟩
  | cons p plugins ih => exact ih (g.register p)

/-- The symbols that a run records for the objects of all files. -/
def recordedSymbols (plugins : List (Plugin σ)) (r : Request) (state : σ) : Exports :=
  match (Generator.ofRequest r : Except Error (Generator σ)) with
  | .ok g => ((plugins.foldl Generator.register g).generateAll state).1.2.exports
  | .error _ => []

theorem recordedSymbols_eq {r : Request}
    (h : (generateWith plugins r state).1 = .ok out) :
    ∃ s, ofRequest r = .ok s ∧
      s.schema.fileIds.foldlM s.record [] = .ok (recordedSymbols plugins r state) := by
  have hall (g : Generator σ) : ∃ plugins mid, (g.generateAll state).1.1 =
        (Generator.bindFiles g.setup plugins g.exports g.setup.schema.fileIds mid).1.1 ∧
      (g.generateAll state).1.2.exports =
        (Generator.bindFiles g.setup plugins g.exports g.setup.schema.fileIds mid).1.2 :=
    ⟨_, _, rfl, rfl⟩
  cases hs : ofRequest r with
  | error e =>
    rw [generateWith, Generator.ofRequest, hs] at h
    cases h
  | ok s =>
    refine ⟨s, rfl, ?_⟩
    have hg : (Generator.ofRequest r : Except Error (Generator σ)) = .ok { setup := s } := by
      rw [Generator.ofRequest, hs]
      rfl
    obtain ⟨plugins', mid, hresult, hexports⟩ :=
      hall (plugins.foldl Generator.register { setup := s })
    obtain ⟨hsetup, hnone⟩ := Generator.foldl_register plugins { setup := s }
    rw [hsetup, hnone] at hresult hexports
    rw [generateWith, hg] at h
    have hout := hresult.symm.trans h
    simp only [recordedSymbols, hg, hexports]
    exact Generator.bindFiles_record (Prod.ext hout rfl)

/-- What runs record for the same files is the same. -/
theorem recordedSymbols_alike {σ' : Type} {P : Field → Prop}
    {plugins' : List (Plugin σ')} {r r' : Request} {state' : σ'}
    {out' : List GeneratedFile} (hfiles : r'.files = r.files)
    (hplain : ∀ f ∈ r.files, f.PlainWith P) (hmaps : ∀ f ∈ r.files, f.MapsPlain)
    (h : (generateWith plugins r state).1 = .ok out)
    (h' : (generateWith plugins' r' state').1 = .ok out') :
    recordedSymbols plugins r state = recordedSymbols plugins' r' state' := by
  obtain ⟨s, hs, hrecord⟩ := recordedSymbols_eq h
  obtain ⟨s', hs', hrecord'⟩ := recordedSymbols_eq h'
  have halike := alike_of_files hfiles hs hs'
  have hsound := ofRequest_sound hs hplain
  have hsound' : s'.SoundWith P r.files := hfiles ▸ ofRequest_sound hs' (hfiles ▸ hplain)
  rw [halike.fileIds] at hrecord'
  refine foldlM_related hrecord hrecord' rfl fun exports exports' file next next' _ he hn hn' => ?_
  simp only [record, steps_eq_ok] at hn hn'
  obtain ⟨part, hpart, rfl⟩ := hn
  obtain ⟨part', hpart', rfl⟩ := hn'
  have hbinders : (Binder.mk s file exports).Alike (Binder.mk s' file exports') := ⟨halike, rfl⟩
  rw [he, Binder.declarations_alike hbinders hsound hsound' hmaps hpart hpart']

/-- The body of a file, as a run prints it, declares what is referred to. -/
def Setup.BodyProvides (s : Setup) (file : FileId) (refs : List Reference) : Prop :=
  ∃ b ∈ s.binders [] s.schema.fileIds, ∃ part, b.file = file ∧ b.declarations = .ok part ∧
    (b.bodyPrinter part).body =
      Printer.linesText ((part ++ b.initPart part.inits).decls.flatMap Decl.lines) ∧
    refs ⊆ (part ++ b.initPart part.inits).decls.flatMap Decl.provides

theorem recordedSymbols_provided {P : Field → Prop} {r : Request} (hs : ofRequest r = .ok s)
    (hplain : ∀ f ∈ r.files, f.PlainWith P) (h : (generateWith plugins r state).1 = .ok out)
    {object : Object} (hgenerated : s.isGenerated (s.schema.fileOf object) = true) {x : Symbol}
    (hx : x ∈ (recordedSymbols plugins r state).of object) :
    s.BodyProvides (s.schema.fileOf object) x.references := by
  have hsound := ofRequest_sound hs hplain
  obtain ⟨s', hs', hrecord⟩ := recordedSymbols_eq h
  cases hs.symm.trans hs'
  obtain ⟨e, hmem, rfl⟩ := mem_map.mp hx
  obtain ⟨he, hobject⟩ := mem_filter.mp hmem
  obtain rfl : e.1 = object := of_decide_eq_true hobject
  rcases exists_of_record hrecord he with he | ⟨b, hb, part, hpart, he⟩
  · cases he
  obtain ⟨rfl, -, -⟩ := binders_invariant (P := fun _ => True) hb trivial
    fun _ _ _ _ _ => trivial
  obtain ⟨hfile, hrefs⟩ := Binder.declarations_provides hsound hpart e he
  rw [show b.setup.schema.fileOf e.1 = b.file from hfile] at hgenerated ⊢
  refine ⟨b, hb, part, rfl, hpart, (b.bodyPrinter_body part hgenerated).2.2, ?_⟩
  rw [Part.decls_append, flatMap_append]
  exact fun x hx => mem_append_left _ (hrefs hx)

/-- All that a forwarding block refers to is warranted by a symbol of what it passes on. -/
theorem Binder.forwardPart_warranted {b : Binder} {id : ReexportId} {part : Part}
    {package : String} (h : b.forwardPart id = .ok part)
    (hpackage : b.setup.packages.of (b.schema.fileOf (b.schema.reexport id).target) = .ok package)
    {x : Mention} (hx : x ∈ part.decls.flatMap Decl.mentions) :
    ∃ symbol ∈ b.exports.of (b.schema.reexport id).target, x ∈ b.warranted package symbol := by
  simp only [forwardPart] at h
  split at h
  · cases pure_eq_ok.mp h
    simp at hx
  · simp only [hpackage, steps_eq_ok] at h
    obtain ⟨package', hpackage', symbols, hsymbols, rfl⟩ := h
    cases hpackage'
    obtain ⟨d, hd, hx⟩ := mem_flatMap.mp hx
    simp only [Part.decls_append, Part.decls_concat, mem_append, mem_flatMap, mem_singleton] at hd
    rcases hd with (rfl | ⟨p, hp, hd⟩) | rfl
    · cases hx
    · obtain ⟨symbol, hsymbol, hp⟩ := exists_of_mem_mapM hsymbols hp
      exact ⟨symbol, hsymbol, symbolForward_warranted hp (mem_flatMap.mpr ⟨d, hd, hx⟩)⟩
    · cases hx

/-- The symbols that a run records do not depend on what it generates, and the body of a generated
file declares all that the symbols of its objects stand for. So it declares what a forwarding block
of another run refers to in its package, but for the types that getters return, which have symbols
of their own. -/
theorem generate_symbols_linkable {plugins : List (Plugin σ)} {r : Request} {state : σ}
    {out : List GeneratedFile}
    (hplain : ∀ f ∈ r.files, f.PlainWith fun field => isIdentifier field.nameText = true)
    (hmaps : ∀ f ∈ r.files, f.MapsPlain) (h : (generateWith plugins r state).1 = .ok out) :
    (∀ {σ' : Type} (plugins' : List (Plugin σ')) (r' : Request) (state' : σ')
      (out' : List GeneratedFile), r'.files = r.files →
      (generateWith plugins' r' state').1 = .ok out' → (∀ object,
        (recordedSymbols plugins' r' state').of object =
          (recordedSymbols plugins r state).of object) ∧
      ∀ s s', ofRequest r = .ok s → ofRequest r' = .ok s' →
        ∀ b ∈ s'.binders [] s'.schema.fileIds, ∀ id part, b.forwardPart id = .ok part →
        s.isGenerated (s.schema.fileOf (b.schema.reexport id).target) = true → ∀ package,
        s'.packages.of (s'.schema.fileOf (b.schema.reexport id).target) = .ok package →
        ∀ x ∈ part.decls.flatMap Decl.mentions, x.1 = package →
          s.BodyProvides (s.schema.fileOf (b.schema.reexport id).target) [x.2] ∨
          ∃ symbol ∈ b.exports.of (b.schema.reexport id).target,
            x ∈ (b.symbolTypes symbol).flatMap TypeExpr.mentions) ∧
    ∀ s, ofRequest r = .ok s → ∀ object, s.isGenerated (s.schema.fileOf object) = true →
      ∀ symbol ∈ (recordedSymbols plugins r state).of object,
        s.BodyProvides (s.schema.fileOf object) symbol.references := by
  refine ⟨fun plugins' r' state' out' hfiles h' => ?_,
    fun s hs object => recordedSymbols_provided hs hplain h⟩
  have hsame := recordedSymbols_alike hfiles hplain hmaps h h'
  refine ⟨fun object => by rw [hsame], ?_⟩
  intro s s' hs hs' b hb id part hpart hgenerated package hpackage x hx hremote
  have hsound : s'.SoundWith _ r.files := hfiles ▸ ofRequest_sound hs' (hfiles ▸ hplain)
  obtain ⟨s'', hs'', hrecord⟩ := recordedSymbols_eq h'
  cases hs'.symm.trans hs''
  have hexports := (exports_subset_of_record hrecord).2 b hb
  obtain ⟨rfl, -, -⟩ := binders_invariant (P := fun _ => True) hb trivial
    fun _ _ _ _ _ => trivial
  obtain ⟨symbol, hsymbol, hx⟩ := Binder.forwardPart_warranted hpart hpackage hx
  rcases mem_append.mp hx with hx | hx
  · left
    rcases mem_append.mp hx with hx | hx
    · obtain ⟨ref, href, rfl⟩ := mem_map.mp hx
      have hrecorded : symbol ∈
          (recordedSymbols plugins r state).of (b.schema.reexport id).target := by
        rw [hsame]
        exact map_subset _ (filter_subset _ hexports) hsymbol
      obtain ⟨owner, howner, body, hfile, hbody, hprinted, hrefs⟩ :=
        recordedSymbols_provided hs hplain h hgenerated hrecorded
      exact ⟨owner, howner, body, hfile, hbody, hprinted, by simpa using hrefs href⟩
    · -- The support package is none of a file.
      obtain ⟨name, -, rfl⟩ := mem_map.mp hx
      exact absurd (hremote ▸ hpackage)
        (hsound.packages.support_ne (hsound.support "proto" (by decide)))
  · exact .inr ⟨symbol, hsymbol, hx⟩

end Records

section Linked

/-- A message with unions, a default and extensions, an enum, and a file that passes both on. -/
def linkedRequest (generated parameter : String) : Request where
  filesToGenerate := [generated]
  parameter := some parameter
  files :=
    [{ name := some "a.proto", package := some "a"
       messages := [{
         name := some "M"
         fields :=
           [{ name := some "f", number := some 1, label := some 1, kind := some 5,
              defaultValue := some "7" },
            { name := some "e", number := some 2, label := some 1, kind := some 14,
              typeName := some ".a.E" },
            { name := some "u", number := some 3, label := some 1, kind := some 9,
              oneofIndex := some 0 }]
         oneofs := [{ name := some "choice" }]
         extensionRanges := [{ start := some 100, stop := some 200 }] }]
       enums := [{ name := some "E", values := [{ name := some "E_ZERO", number := some 0 }] }] },
     { name := some "b.proto", package := some "b", dependencies := ["a.proto"],
       publicDependencies := [0] }]

private theorem linkedRequest_checked :
    (linkedRequest "a.proto" "").Checked ∧
      (linkedRequest "b.proto" "import_prefix=p/").Checked := by
  decide +kernel

private theorem linkedRequest_plain : ∀ f ∈ (linkedRequest "a.proto" "").files,
    (f.PlainWith fun field => isIdentifier field.nameText = true) ∧
      ∀ m ∈ f.allMessages, (m.options.bind (·.mapEntry)).getD false = false := by
  decide +kernel

/-- What a run that generates `b.proto` refers to where it passes `M` on, a run that generates
`a.proto` declares. -/
theorem generate_symbols_linkable_public :
    (∃ out, (generateWith [] (linkedRequest "a.proto" "") ()).1 = .ok out) ∧
    (∃ out, (generateWith [] (linkedRequest "b.proto" "import_prefix=p/") ()).1 = .ok out) ∧
    (recordedSymbols [] (linkedRequest "b.proto" "import_prefix=p/") ()).of (.message ⟨0⟩) =
      (recordedSymbols [] (linkedRequest "a.proto" "") ()).of (.message ⟨0⟩) ∧
    ∃ b ∈ (setupOf (linkedRequest "b.proto" "import_prefix=p/")).binders []
      (setupOf (linkedRequest "b.proto" "import_prefix=p/")).schema.fileIds, ∃ part,
      b.forwardPart ⟨0⟩ = .ok part ∧
      ("a", .method "M" "XXX_OneofFuncs") ∈ part.decls.flatMap Decl.mentions ∧
      (setupOf (linkedRequest "a.proto" "")).BodyProvides ⟨0⟩ [.method "M" "XXX_OneofFuncs"] := by
  obtain ⟨hchecked, hchecked'⟩ := linkedRequest_checked
  obtain ⟨out, hout⟩ := generate_of_checked hchecked
  obtain ⟨out', hout'⟩ := generate_of_checked hchecked'
  obtain ⟨hlinked, -⟩ := generate_symbols_linkable (fun f hf => (linkedRequest_plain f hf).1)
    (fun f hf => .of_forall (linkedRequest_plain f hf).2) hout
  obtain ⟨hsymbols, hforwards⟩ :=
    hlinked [] (linkedRequest "b.proto" "import_prefix=p/") () out' rfl hout'
  have hevaluated : ∃ b ∈ (setupOf (linkedRequest "b.proto" "import_prefix=p/")).binders []
      (setupOf (linkedRequest "b.proto" "import_prefix=p/")).schema.fileIds,
      (b.forwardPart ⟨0⟩).isOk = true ∧ (b.schema.reexport ⟨0⟩).target = .message ⟨0⟩ ∧
      ("a", .method "M" "XXX_OneofFuncs") ∈
        ((b.forwardPart ⟨0⟩).toOption.getD {}).decls.flatMap Decl.mentions ∧
      ∀ symbol ∈ b.exports.of (.message ⟨0⟩), ("a", .method "M" "XXX_OneofFuncs") ∉
        (b.symbolTypes symbol).flatMap TypeExpr.mentions := by
    decide +kernel
  obtain ⟨b, hb, hok, htarget, hmention, htypes⟩ := hevaluated
  have hpart := eq_ok_of_isOk {} hok
  refine ⟨⟨out, hout⟩, ⟨out', hout'⟩, hsymbols _, b, hb, _, hpart, hmention, ?_⟩
  have hfile : (setupOf (linkedRequest "a.proto" "")).schema.fileOf (.message ⟨0⟩) = ⟨0⟩ ∧
      (setupOf (linkedRequest "a.proto" "")).isGenerated ⟨0⟩ = true := by
    decide +kernel
  have hpackage : (setupOf (linkedRequest "b.proto" "import_prefix=p/")).packages.of
      ((setupOf (linkedRequest "b.proto" "import_prefix=p/")).schema.fileOf (.message ⟨0⟩)) =
        .ok "a" := by
    decide +kernel
  have hprovided := hforwards _ _ hchecked.setup hchecked'.setup b hb _ _ hpart
  rw [htarget, hfile.1] at hprovided
  have hprovided := hprovided hfile.2 "a" hpackage _ hmention rfl
  exact hprovided.resolve_right fun ⟨symbol, hsymbol, hmem⟩ => htypes symbol hsymbol hmem

end Linked

end GoBindings
