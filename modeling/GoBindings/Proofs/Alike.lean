import GoBindings.Proofs.GetterTypes

/-!
# Runs over the same files

What a run generates, and the names it gives to packages, do not change what its files export.
-/

namespace GoBindings

open List Schema Go Descriptor Setup

section Related

variable {ε α α' β β' : Type}
variable {xs : List α} {ys : List β} {xs' : List α'} {ys' : List β'} {R : α → α' → Prop}
  {S : β → β' → Prop}

theorem foldlM_related {f : β → α → Except ε β} {g : β' → α → Except ε β'} {R : β → β' → Prop}
    {b c : β} {b' c' : β'} (h : xs.foldlM f b = .ok c) (h' : xs.foldlM g b' = .ok c') (hb : R b b')
    (hstep : ∀ b b' a c c', a ∈ xs → R b b' → f b a = .ok c → g b' a = .ok c' → R c c') :
    R c c' := by
  induction xs generalizing b b' with
  | nil =>
    rw [foldlM_nil, pure_eq_ok] at h h'
    exact h ▸ h' ▸ hb
  | cons x xs ih =>
    rw [foldlM_cons, bind_eq_ok] at h h'
    obtain ⟨d, hd, h⟩ := h
    obtain ⟨d', hd', h'⟩ := h'
    exact ih h h' (hstep b b' x d d' (by simp) hb hd hd')
      fun b b' a c c' ha => hstep b b' a c c' (by simp [ha])

theorem mapM_related {f : α → Except ε β} {g : α' → Except ε β'} (hx : Forall₂ R xs xs')
    (h : xs.mapM f = .ok ys) (h' : xs'.mapM g = .ok ys')
    (hstep : ∀ x x' y y', R x x' → f x = .ok y → g x' = .ok y' → S y y') :
    Forall₂ S ys ys' := by
  induction hx generalizing ys ys' with
  | nil =>
    rw [mapM_nil, pure_eq_ok] at h h'
    exact h ▸ h' ▸ .nil
  | cons hxx _ ih =>
    simp only [mapM_cons, steps_eq_ok] at h h'
    obtain ⟨y, hy, zs, hzs, rfl⟩ := h
    obtain ⟨y', hy', zs', hzs', rfl⟩ := h'
    exact .cons (hstep _ _ _ _ hxx hy hy') (ih hzs hzs')

theorem flatMap_related {γ : Type} {f : α → List γ} {g : β → List γ}
    (h : Forall₂ (fun x y => f x = g y) xs ys) : xs.flatMap f = ys.flatMap g := by
  induction h with
  | nil => rfl
  | cons hxy _ ih => rw [flatMap_cons, flatMap_cons, hxy, ih]

theorem forall₂_zip_zip (hx : Forall₂ R xs xs') (hy : Forall₂ S ys ys') :
    Forall₂ (fun a b => R a.1 b.1 ∧ S a.2 b.2) (xs.zip ys) (xs'.zip ys') := by
  induction hx generalizing ys ys' with
  | nil => exact .nil
  | cons hxx _ ih =>
    cases hy with
    | nil => exact .nil
    | cons hyy hy => exact .cons ⟨hxx, hyy⟩ (ih hy)

end Related

/-- A file without its place among the generated ones. -/
def Schema.FileNode.unnumbered (f : FileNode) : FileNode := { f with index := 0 }

/-- Setups over the same files. What they generate may differ, and so may the names of packages. -/
structure Setup.Alike (s s' : Setup) : Prop where
  messages : s.schema.messages = s'.schema.messages
  enums : s.schema.enums = s'.schema.enums
  extensions : s.schema.extensions = s'.schema.extensions
  reexports : s.schema.reexports = s'.schema.reexports
  files : s.schema.files.map FileNode.unnumbered = s'.schema.files.map FileNode.unnumbered
  types : s.types = s'.types

namespace Setup

theorem alike_of_files {r r' : Request} {s s' : Setup} (hfiles : r'.files = r.files)
    (h : ofRequest r = .ok s) (h' : ofRequest r' = .ok s') : s.Alike s' := by
  obtain ⟨schema, hschema, -, heq, -, htypes, -⟩ := ofRequest_eq_ok h
  obtain ⟨schema', hschema', -, heq', -, htypes', -⟩ := ofRequest_eq_ok h'
  obtain rfl : schema = schema' := by
    rw [hfiles, hschema] at hschema'
    exact Except.ok.inj hschema'
  have hmap {α : Type} {g : FileNode → α} (hg : ∀ f index, g { f with index } = g f) :
      s.schema.files.map g = s'.schema.files.map g := by
    rw [heq, heq']
    exact (map_numberFiles hg _ _ _).trans (map_numberFiles hg _ _ _).symm
  refine ⟨by rw [heq, heq'], by rw [heq, heq'], by rw [heq, heq'], by rw [heq, heq'],
    hmap fun _ _ => rfl, ?_⟩
  have htypesOf : s'.schema.typesOf = s.schema.typesOf := by
    rw [heq, heq']
    rfl
  rw [htypes, htypes', typeTable, typeTable, htypesOf, flatMap_def, flatMap_def,
    hmap fun _ _ => rfl]

namespace Alike

variable {s s' : Setup} (h : s.Alike s')

include h

theorem symm : s'.Alike s :=
  ⟨h.messages.symm, h.enums.symm, h.extensions.symm, h.reexports.symm, h.files.symm, h.types.symm⟩

theorem message (id : MessageId) : s'.schema.message id = s.schema.message id := by
  rw [Schema.message, Schema.message, h.messages]

theorem enum (id : EnumId) : s'.schema.enum id = s.schema.enum id := by
  rw [Schema.enum, Schema.enum, h.enums]

theorem extension (id : ExtensionId) : s'.schema.extension id = s.schema.extension id := by
  rw [Schema.extension, Schema.extension, h.extensions]

theorem reexport (id : ReexportId) : s'.schema.reexport id = s.schema.reexport id := by
  rw [Schema.reexport, Schema.reexport, h.reexports]

theorem file {α : Type} (g : FileNode → α) (hg : ∀ f, g f.unnumbered = g f) (id : FileId) :
    g (s'.schema.file id) = g (s.schema.file id) := by
  have hget := congrArg (fun fs => fs[id.index]?) h.files
  simp only [getElem?_map] at hget
  rw [← hg (s.schema.file id), Schema.file, Schema.file]
  cases hf : s.schema.files[id.index]? <;> cases hf' : s'.schema.files[id.index]? <;>
    simp_all

theorem fileIds : s'.schema.fileIds = s.schema.fileIds := by
  have hlength := congrArg length h.files
  simp only [length_map] at hlength
  rw [Schema.fileIds, Schema.fileIds, hlength]

theorem fileOf (object : Object) : s'.schema.fileOf object = s.schema.fileOf object := by
  cases object with
  | message id => exact congrArg MessageNode.file (h.message id)
  | enum id => exact congrArg EnumNode.file (h.enum id)
  | extension id => exact congrArg ExtensionNode.file (h.extension id)
  | reexport id => exact congrArg Reexport.file (h.reexport id)

theorem underlying (object : Object) :
    s'.schema.underlying object = s.schema.underlying object := by
  cases object with
  | reexport id => exact congrArg Reexport.target (h.reexport id)
  | _ => rfl

theorem visible (object : Object) (current : FileId) :
    s'.schema.visible object current = s.schema.visible object current := by
  have hdependencies (id : FileId) :
      (s'.schema.file id).dependencies = (s.schema.file id).dependencies :=
    h.file FileNode.dependencies (fun _ => rfl) id
  have hreexports (id : FileId) : (s'.schema.file id).reexports = (s.schema.file id).reexports :=
    h.file FileNode.reexports (fun _ => rfl) id
  have hreexportIn : s'.schema.reexportIn? object = s.schema.reexportIn? object := by
    funext id
    simp only [reexportIn?, hreexports, h.reexport]
  rw [Schema.visible, Schema.visible, isDirect, isDirect, reexportOf?,
    reexportOf?, h.fileOf, hdependencies, hreexportIn]

theorem resolve (name : String) (current : FileId) :
    s'.resolve name current = s.resolve name current := by
  simp only [Setup.resolve, Schema.resolve, h.types, h.visible]

end Alike

end Setup

/-- Plans of the same field, whose getters have the same name. -/
structure FieldPlan.Alike (p p' : FieldPlan) : Prop where
  field : p.field = p'.field
  getter : p.getter = p'.getter

theorem FieldPlan.Alike.kind {b b' : Binder} {id : MessageId} {p p' : FieldPlan} (h : p.Alike p')
    (hp : p.Made b id) (hp' : p'.Made b' id) : p.kind = p'.kind :=
  Except.ok.inj (hp.kind.symm.trans (h.field ▸ hp'.kind))

structure MessagePlan.Alike (plan plan' : MessagePlan) : Prop where
  names : plan.names = plan'.names
  unions : plan.unions = plan'.unions
  fields : Forall₂ FieldPlan.Alike plan.fields plan'.fields

namespace Binder

variable {name : String}

/-- A file in two runs over the same files. -/
structure Alike (b b' : Binder) : Prop where
  setup : b.setup.Alike b'.setup
  file : b.file = b'.file

variable {P : Field → Prop} {b b' : Binder} {files : List File}
  {field : Field} {kind : FieldKind}

theorem Alike.symm (h : b.Alike b') : b'.Alike b := ⟨h.setup.symm, h.file.symm⟩

theorem Alike.resolve (h : b.Alike b') (name : String) :
    b'.setup.resolve name b'.file = b.setup.resolve name b.file := by
  rw [h.setup.resolve, h.file]

theorem Alike.resolve_eq (h : b.Alike b') {object object' : Object}
    (ho : b.setup.resolve name b.file = .ok object)
    (ho' : b'.setup.resolve name b'.file = .ok object') : object = object' := by
  rw [h.resolve, ho] at ho'
  exact Except.ok.inj ho'

theorem Alike.underlying_eq (h : b.Alike b') {object object' : Object}
    (ho : b.setup.resolve name b.file = .ok object)
    (ho' : b'.setup.resolve name b'.file = .ok object') :
    b.schema.underlying object = b'.schema.underlying object' := by
  obtain rfl := h.resolve_eq ho ho'
  exact (h.setup.underlying object).symm

theorem Alike.fieldType (h : b.Alike b') (hkind : field.fieldKind = .ok kind)
    (hscalar : kind.scalar? ≠ none) {message : Option MessageId} {t t' : FieldType}
    (ht : b.setup.fieldType b.file message field = .ok t)
    (ht' : b'.setup.fieldType b'.file message field = .ok t') : t = t' := by
  have hheld : b'.setup.heldByValue message field = b.setup.heldByValue message field := by
    cases message with
    | none => rfl
    | some id => rw [heldByValue, heldByValue, h.setup.message]
  obtain ⟨scalar, hscalar⟩ := Option.ne_none_iff_exists'.mp hscalar
  simp only [Setup.fieldType, elementType, hkind, bind_eq_ok, Except.ok.injEq,
    exists_eq_left', hscalar, hheld] at ht ht'
  exact Except.ok.inj (ht.symm.trans ht')

section

variable (h : b.Alike b') (hs : b.setup.SoundWith P files) (hs' : b'.setup.SoundWith P files)
variable {id : MessageId} {p p' : FieldPlan} {part part' : Part}

variable {type : String}

include h hs hs'

omit h hs hs' in
theorem planUnion_fields (m : MessageNode) (type : String) (field : Field)
    (plan : MessagePlan) (fields : List FieldPlan) : planUnion m type field { plan with fields } =
      (planUnion m type field plan).map fun x => (x.1, { x.2 with fields }) := by
  unfold planUnion
  cases field.oneofIndex with
  | none => rfl
  | some i =>
    simp only
    split <;> rfl

omit h hs hs' in
theorem planField_alike {m : MessageNode} {plan plan' next next' : MessagePlan}
    (hplan : plan.Alike plan') (hn : b.planField id m type plan field = .ok next)
    (hn' : b'.planField id m type plan' field = .ok next') : next.Alike next' := by
  obtain ⟨hnames, hunions, hfields⟩ := hplan
  simp only [planField, steps_eq_ok, ← hnames] at hn hn'
  obtain ⟨kind, -, fieldType, -, tag, -, ⟨oneof, plan₁⟩, hunion, map, -, rfl⟩ := hn
  obtain ⟨kind', -, fieldType', -, tag', -, ⟨oneof', plan₁'⟩, hunion', map', -, rfl⟩ := hn'
  obtain ⟨rfl, rfl⟩ : oneof' = oneof ∧ plan₁' = { plan₁ with fields := plan'.fields } := by
    have hfrom := planUnion_fields m type field
      { plan with names := (plan.names.allocateField (camelCase field.nameText)).2 } plan'.fields
    rw [← hunions] at hunion'
    rw [hunion, hunion'] at hfrom
    exact Prod.mk.inj (Except.ok.inj hfrom)
  refine ⟨rfl, rfl, ?_⟩
  rw [(planUnion_eq_ok hunion).1]
  exact rel_append hfields (.cons ⟨rfl, rfl⟩ .nil)

omit hs hs' in
theorem planMessage_alike {plan plan' : MessagePlan} (hp : b.planMessage id = .ok plan)
    (hp' : b'.planMessage id = .ok plan') : plan.Alike plan' := by
  have hmessage : b'.schema.message id = b.schema.message id := h.setup.message id
  rw [planMessage, hmessage] at hp'
  refine foldlM_related hp hp' ⟨rfl, rfl, .nil⟩ fun plan plan' field next next' _ hplan hn hn' => ?_
  exact planField_alike hplan hn hn'

/-- Whether the type of a default is called like a scalar without capital letters. -/
theorem default_text_alike (hp : p.Made b id) (hp' : p'.Made b' id) (halike : p.Alike p')
    {text : String} (htext : text ∈ ["bool", "string", "[]byte"]) :
    p'.fieldType.type.unstarred.text = text ↔ p.fieldType.type.unstarred.text = text := by
  cases hscalar : p.kind.scalar? with
  | none =>
    have hne {b : Binder} {p : FieldPlan} (hs : b.setup.SoundWith P files) (hp : p.Made b id)
        (hscalar : p.kind.scalar? = none) : p.fieldType.type.unstarred.text ≠ text := by
      rintro rfl
      exact fieldType_text hp.fieldType hp.kind hscalar (fun object hobject =>
        (hs.schema.declared_name (resolve_declares hs hobject)).isName) htext
    exact iff_of_false (hne hs' hp' (halike.kind hp hp' ▸ hscalar)) (hne hs hp hscalar)
  | some scalar =>
    rw [h.fieldType hp.kind (by simp [hscalar]) hp.fieldType (halike.field ▸ hp'.fieldType)]

omit h hs hs' in
theorem isSome_specialFloat? (b b' : Binder) (value : String) :
    (b'.specialFloat? value).isSome = (b.specialFloat? value).isSome := by
  unfold specialFloat?
  split
  · rfl
  · split
    · rfl
    · split <;> rfl

theorem planDefault_alike (hp : p.Made b id) (hp' : p'.Made b' id) (halike : p.Alike p')
    {d d' : Option DefaultPlan} (hd : b.planDefault type p = .ok d)
    (hd' : b'.planDefault type p' = .ok d') :
    d.map (fun d => (d.sort, d.name)) = d'.map fun d => (d.sort, d.name) := by
  have htext {text : String} (h' : text ∈ ["bool", "string", "[]byte"]) :=
    default_text_alike h hs hs' hp hp' halike h'
  have hplan {sort : ValueSort} {name : String} {t t' : TypeExpr} {value value' : Expr}
      {uses uses' : List String}
      (hd : pure (some ⟨sort, name, t, value, uses⟩) = (.ok d : Except Error _))
      (hd' : pure (some ⟨sort, name, t', value', uses'⟩) = (.ok d' : Except Error _)) :
      d.map (fun d => (d.sort, d.name)) = d'.map fun d => (d.sort, d.name) := by
    rw [← pure_eq_ok.mp hd, ← pure_eq_ok.mp hd']
    rfl
  simp only [planDefault, ← halike.field, ← halike.kind hp hp', htext (.head _),
    htext (.tail _ (.head _)), htext (.tail _ (.tail _ (.head _)))] at hd hd'
  by_cases hempty : p.field.defaultValue.getD "" = ""
  · rw [if_pos hempty, pure_eq_ok] at hd hd'
    rw [← hd, ← hd']
  rw [if_neg hempty] at hd hd'
  by_cases hbool : p.fieldType.type.unstarred.text = "bool"
  · rw [if_pos hbool] at hd hd'
    exact hplan hd hd'
  rw [if_neg hbool] at hd hd'
  by_cases hstring : p.fieldType.type.unstarred.text = "string"
  · rw [if_pos hstring] at hd hd'
    exact hplan hd hd'
  rw [if_neg hstring] at hd hd'
  by_cases hbytes : p.fieldType.type.unstarred.text = "[]byte"
  · rw [if_pos hbytes] at hd hd'
    exact hplan hd hd'
  rw [if_neg hbytes] at hd hd'
  have hwords := isSome_specialFloat? b b' (p.field.defaultValue.getD "")
  cases hfloat : b.specialFloat? (p.field.defaultValue.getD "") with
  | some special =>
    obtain ⟨special', hfloat'⟩ := Option.isSome_iff_exists.mp
      (hwords.trans (by rw [hfloat]; rfl))
    simp only [hfloat, hfloat'] at hd hd'
    exact hplan hd hd'
  | none =>
    have hfloat' : b'.specialFloat? (p.field.defaultValue.getD "") = none := by
      simpa [hfloat] using hwords
    simp only [hfloat, hfloat'] at hd hd'
    by_cases henum : p.kind = .enum
    · rw [if_pos henum, bind_eq_ok] at hd hd'
      obtain ⟨object, ho, hd⟩ := hd
      obtain ⟨object', ho', hd'⟩ := hd'
      obtain rfl := h.resolve_eq ho ho'
      rw [schema, h.setup.underlying] at hd'
      rw [schema] at hd
      cases hobject : b.setup.schema.underlying object with
      | enum id =>
        simp only [hobject, bind_eq_ok] at hd hd'
        obtain ⟨⟨constant, uses⟩, -, hd⟩ := hd
        obtain ⟨⟨constant', uses'⟩, -, hd'⟩ := hd'
        exact hplan hd hd'
      | _ =>
        simp only [hobject, pure_eq_ok] at hd hd'
        rw [← hd, ← hd']
    · rw [if_neg henum] at hd hd'
      exact hplan hd hd'

omit hs hs' in
theorem planMap_ne_none {map : MapPlan} (e : map.Source b field) :
    b'.planMap field .message ≠ .ok none := by
  have hmessage : b'.schema.message e.entry = b.schema.message e.entry := h.setup.message e.entry
  intro hnone
  simp only [planMap, h.resolve, e.resolves, bind_eq_ok, Except.ok.injEq, exists_eq_left', hmessage,
    e.isMapEntry, e.fields, pure_eq_ok] at hnone
  obtain ⟨plan, -, hsome⟩ := hnone
  cases hsome

theorem mapPlan_alike (hmaps : ∀ f ∈ files, f.MapsPlain) {map map' : MapPlan}
    (e : map.Source b field) (e' : map'.Source b' field) :
    map.key = map'.key ∧ map.target = map'.target ∧ map.value.isStarred = map'.value.isStarred ∧
      (map.target = none → map.value = map'.value) := by
  have hentry : e.entry = e'.entry := Object.message.inj (h.resolve_eq e.resolves e'.resolves)
  have hfields := e'.fields
  rw [← hentry, schema, h.setup.message] at hfields
  obtain ⟨hkeyField, hvalueField⟩ : e.key = e'.key ∧ e.value = e'.value := by
    simpa using e.fields.symm.trans hfields
  have hkind : e.kind = e'.kind := Except.ok.inj (e.hkind.symm.trans (hvalueField ▸ e'.hkind))
  obtain ⟨hkeys, hgroup⟩ := source_plain e hs hmaps
  obtain ⟨kind, -, hkeyKind, -⟩ := fieldType_eq_ok e.hkeyType
  have hkeyType : e.keyType = e'.keyType := h.fieldType hkeyKind (hkeys kind hkeyKind) e.hkeyType
    (by rw [hentry, hkeyField]; exact e'.hkeyType)
  refine ⟨by rw [e.hkey, e'.hkey, hkeyType], ?_⟩
  by_cases hnamed : e.kind = .message ∨ e.kind = .enum
  · obtain ⟨object, name, ho, -, hname, htarget, hvalue⟩ :=
      e.value_heldAs hs.namesStarless hnamed
    obtain ⟨object', name', ho', -, hname', htarget', hvalue'⟩ :=
      e'.value_heldAs hs'.namesStarless (hkind ▸ hnamed)
    refine ⟨?_, ?_, by simp [htarget]⟩
    · rw [htarget, htarget', h.underlying_eq ho (hvalueField ▸ ho')]
    · rw [hvalue, hvalue', FieldKind.isStarred_heldAs hname, FieldKind.isStarred_heldAs hname',
        hkind, hvalueField]
  · have hscalar : e.kind.scalar? ≠ none := by
      rw [Ne, FieldKind.scalar?_eq_none]
      simpa [hgroup, and_comm] using hnamed
    have hvalueType : e.valueType = e'.valueType := h.fieldType e.hkind hscalar e.hvalueType
      (by rw [hentry, hvalueField]; exact e'.hvalueType)
    have hvalue : map.value = map'.value := by rw [e.hvalue, e'.hvalue, hvalueType, hkind]
    refine ⟨?_, by rw [hvalue], fun _ => hvalue⟩
    rw [(e.target.resolve_left fun hsome => hnamed hsome.1).1,
      (e'.target.resolve_left fun hsome => hnamed (hkind ▸ hsome.1)).1]

theorem getterShape?_alike (hp : p.Made b id) (hp' : p'.Made b' id) (halike : p.Alike p')
    (hmaps : ∀ f ∈ files, f.MapsPlain) {shape shape' : Option GetterShape}
    (hshape : b.getterShape? p = .ok shape) (hshape' : b'.getterShape? p' = .ok shape') :
    shape = shape' := by
  have hkind := halike.kind hp hp'
  have hplain (htype : p.type = p'.type) : getterType p = getterType p' := by
    rw [getterType, getterType, getterDerefs, getterDerefs, hkind, htype]
  rcases hp.map with ⟨hnone, htype, -⟩ | ⟨map, e, hmessage, hmap, htype, -⟩
  · rcases hp'.map with ⟨hnone', htype', -⟩ | ⟨map', e', hmessage', hmap', -⟩
    · have hstarred (hnamed : p.kind = .message ∨ p.kind = .enum) :
          (getterType p).hasStarredElem = (getterType p').hasStarredElem := by
        obtain ⟨-, name, -, -, hname, heq⟩ := getterType_heldAs hp hs.namesStarless hnone hnamed
        obtain ⟨-, name', -, -, hname', heq'⟩ :=
          getterType_heldAs hp' hs'.namesStarless hnone' (hkind ▸ hnamed)
        rw [heq, heq', FieldKind.hasStarredElem_heldAs hname,
          FieldKind.hasStarredElem_heldAs hname', hkind]
      have hscalar (hscalar : p.kind.scalar? ≠ none) : getterType p = getterType p' := by
        refine hplain ?_
        rw [htype, htype', h.fieldType hp.kind hscalar hp.fieldType (halike.field ▸ hp'.fieldType)]
      unfold getterShape? at hshape hshape'
      rw [hnone] at hshape
      rw [hnone', ← hkind, ← halike.field] at hshape'
      generalize p.kind = kind at hstarred hscalar hshape hshape'
      cases kind with
      | group => rw [← Except.ok.inj hshape, ← Except.ok.inj hshape']
      | message | enum =>
        simp only [steps_eq_ok] at hshape hshape'
        obtain ⟨object, ho, rfl⟩ := hshape
        obtain ⟨object', ho', rfl⟩ := hshape'
        rw [h.underlying_eq ho ho', hstarred (by simp)]
      | _ =>
        rw [← Except.ok.inj hshape, ← Except.ok.inj hshape']
        exact congrArg (fun t => some (GetterShape.plain t)) (hscalar (Option.some_ne_none _))
    · have hunmapped := hp.unmapped hnone
      rw [hkind, hmessage', halike.field] at hunmapped
      exact absurd hunmapped (planMap_ne_none h.symm e')
  · rcases hp'.map with ⟨hnone', -⟩ | ⟨map', e', hmessage', hmap', htype', -⟩
    · have hunmapped := hp'.unmapped hnone'
      rw [← hkind, hmessage, ← halike.field] at hunmapped
      exact absurd hunmapped (planMap_ne_none h e)
    · obtain ⟨hkey, htarget, hstarred, hvalue⟩ :=
        mapPlan_alike h hs hs' hmaps e (halike.field ▸ e')
      rw [getterShape?_map (by simp [hmessage]) hmap] at hshape
      rw [getterShape?_map (by simp [hmessage']) hmap', ← htarget, ← hkey, ← hstarred] at hshape'
      rw [← Except.ok.inj hshape, ← Except.ok.inj hshape']
      cases hobject : map.target with
      | none => rw [hplain (by rw [htype, htype', hkey, hvalue hobject])]
      | some target => rfl

omit hs hs' in
theorem extensionPart_alike {id : ExtensionId} (hp : b.extensionPart id = .ok part)
    (hp' : b'.extensionPart id = .ok part') : part.exports = part'.exports := by
  have hextension : b'.schema.extension id = b.schema.extension id := h.setup.extension id
  simp only [extensionPart, steps_eq_ok] at hp hp'
  obtain ⟨-, -, -, -, -, -, -, -, -, -, rfl⟩ := hp
  obtain ⟨-, -, -, -, -, -, -, -, -, -, rfl⟩ := hp'
  simp only [hextension]

theorem messagePart_alike (hid : id.index < b.schema.messages.length)
    (hmaps : ∀ f ∈ files, f.MapsPlain) (hp : b.messagePart id = .ok part)
    (hp' : b'.messagePart id = .ok part') :
    part.exports = part'.exports := by
  have hmessage : b'.schema.message id = b.schema.message id := h.setup.message id
  have hid' : id.index < b'.schema.messages.length := by
    have hlength := congrArg length h.setup.messages
    exact hlength ▸ hid
  obtain ⟨e⟩ := messagePart_eq_ok hp
  obtain ⟨e'⟩ := messagePart_eq_ok hp'
  have hmade := (planMessage_sound (hs.schema.message_sound hid) e.hplan).fields
  have hmade' := (planMessage_sound (hs'.schema.message_sound hid') e'.hplan).fields
  have hfields := forall₂_with_mem (planMessage_alike h e.hplan e'.hplan).fields
  have hplanned : Forall₂ (fun p p' => p.Alike p' ∧ p.Made b id ∧ p'.Made b' id)
      e.plan.fields e'.plan.fields :=
    hfields.imp fun p p' hp => ⟨hp.1, hmade p hp.2.1, hmade' p' hp.2.2⟩
  have hdefaults : Forall₂ (fun d d' => d.map (fun d => (d.sort, d.name)) =
      d'.map fun d => (d.sort, d.name)) e.defaults e'.defaults := by
    refine mapM_related hplanned e.hdefaults e'.hdefaults fun p p' d d' hp hd hd' => ?_
    rw [messageType, hmessage] at hd'
    exact planDefault_alike h hs hs' hp.2.1 hp.2.2 hp.1 hd hd'
  have hgetters : Forall₂ (fun g g' => g.2 = g'.2) e.getters e'.getters := by
    refine mapM_related (forall₂_zip_zip hplanned hdefaults) e.hgetters e'.hgetters ?_
    rintro ⟨p, d⟩ ⟨p', d'⟩ g g' ⟨⟨hp, hpm, hpm'⟩, -⟩ hg hg'
    simp only [getterPart, steps_eq_ok] at hg hg'
    obtain ⟨shape, hshape, -, -, rfl⟩ := hg
    obtain ⟨shape', hshape', -, -, rfl⟩ := hg'
    rw [getterShape?_alike h hs hs' hpm hpm' hp hmaps hshape hshape']
    exact congrArg (fun n => shape'.map fun shape => GetterSymbol.mk n shape) hp.getter
  have hextensions : Forall₂ (fun p p' => p.exports = p'.exports) e.extensions
      e'.extensions := by
    refine mapM_related (forall₂_same.mpr fun _ _ => rfl) e.hextensions
      (by rw [← hmessage]; exact e'.hextensions) fun x x' p p' hx hp hp' => ?_
    subst hx
    exact extensionPart_alike h hp hp'
  have hsymbols : e.getters.filterMap (·.2) = e'.getters.filterMap (·.2) := by
    rw [filterMap_eq_flatMap_toList, filterMap_eq_flatMap_toList]
    exact flatMap_related (hgetters.imp fun g g' hg => congrArg Option.toList hg)
  rw [e.exports_eq, e'.exports_eq, messageType, messageType, hmessage, hsymbols,
    flatMap_related hextensions]
  congr 2
  refine flatMap_related (hdefaults.imp fun d d' hd => ?_)
  cases d <;> cases d' <;> simp_all

theorem declarations_alike (hmaps : ∀ f ∈ files, f.MapsPlain) (hp : b.declarations = .ok part)
    (hp' : b'.declarations = .ok part') : part.exports = part'.exports := by
  have hnode {α : Type} (g : FileNode → α) (hg : ∀ f, g f.unnumbered = g f) :
      g b'.node = g b.node := by
    rw [node, node, ← h.file]
    exact h.setup.file g hg b.file
  have hparts {ι : Type} {f f' : ι → Except Error Part} {ids : List ι} {ps ps' : List Part}
      (hps : ids.mapM f = .ok ps) (hps' : ids.mapM f' = .ok ps')
      (hf : ∀ id ∈ ids, ∀ p p', f id = .ok p → f' id = .ok p' → p.exports = p'.exports) :
      ps.flatMap (·.exports) = ps'.flatMap (·.exports) := by
    refine flatMap_related (mapM_related (R := fun id id' => id = id' ∧ id ∈ ids)
      (forall₂_same.mpr fun id hid => ⟨rfl, hid⟩) hps hps' ?_)
    rintro id _ p p' ⟨rfl, hid⟩ hp hp'
    exact hf id hid p p' hp hp'
  obtain ⟨e⟩ := declarations_eq_ok hp
  obtain ⟨e'⟩ := declarations_eq_ok hp'
  have henums : (b'.node.enums.map b'.enumPart).flatMap (·.exports) =
      (b.node.enums.map b.enumPart).flatMap (·.exports) := by
    rw [hnode FileNode.enums fun _ => rfl, flatMap_map, flatMap_map]
    simp only [enumPart, schema, h.setup.enum]
  have hdeclared : b'.declaredMessages = b.declaredMessages := by
    simp only [declaredMessages, hnode FileNode.messages fun _ => rfl, schema, h.setup.message]
  have howns := hs.schema.owns_file b.file
  rw [e.exports_eq, e'.exports_eq, henums]
  refine congrArg₂ (· ++ ·) (congrArg₂ (· ++ ·) rfl ?_) ?_
  · refine hparts e.hmessages (hdeclared ▸ e'.hmessages) fun id hid p p' hp hp' => ?_
    exact messagePart_alike h hs hs' (howns.messages id (mem_filter.mp hid).1).1 hmaps hp hp'
  · refine hparts e.hextensions ?_ fun id _ p p' hp hp' => extensionPart_alike h hp hp'
    rw [← hnode FileNode.extensions fun _ => rfl]
    exact e'.hextensions

end

end Binder

end GoBindings
