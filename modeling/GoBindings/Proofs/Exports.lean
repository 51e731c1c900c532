import GoBindings.Bind.File
import GoBindings.Proofs.Messages

/-!
# What files export

The symbols of a file have names by which they can be declared once more, and the types of their
getters name no packages but fitting ones.
-/

namespace GoBindings

open List Schema Go Descriptor Setup

namespace Go

/-- The statements of a function that have no others inside. -/
def Func.statements (f : Func) : List Simple :=
  match f.body with
  | .empty => []
  | .line s => [s]
  | .block body => body.filterMap fun
    | .simple s => some s
    | _ => none

/-- What a declaration does at the start of a program. -/
def Decl.startup : Decl → List Simple
  | .func f => if f.receiver.isNone && f.name == "init" then f.statements else []
  | _ => []

theorem underscore_ne_init (type suffix : String) : "_" ++ type ++ suffix ≠ "init" := by
  intro h
  have hhead := congrArg (fun s => s.toList.head?) h
  simp at hhead

end Go

/-- What a getter returns can be written down elsewhere: where it does not say which object it
means, its packages fit. -/
def GetterShape.Sound (s : Schema) (fits : String → Prop) : GetterShape → Prop
  | .plain type => type.Named ∧ ∀ q ∈ type.packages, fits q
  | .named target _ _ => s.Declares target
  | .map key target _ => key.Named ∧ (∀ q ∈ key.packages, fits q) ∧ s.Declares target

def Symbol.Sound (s : Schema) (fits : String → Prop) : Symbol → Prop
  | .message m => IsName m.name ∧ ∀ g ∈ m.getters, IsName g.name ∧ g.shape.Sound s fits
  | .enum name _ => IsName name
  | .value _ name cast => IsName name ∧ ∀ type ∈ cast, IsName type

def Exports.Sound (s : Schema) (fits : String → Prop) (exports : Exports) : Prop :=
  ∀ e ∈ exports, e.2.Sound s fits

namespace Exports

variable {s : Schema} {fits : String → Prop} {xs ys : Exports}

theorem Sound.nil : Sound s fits [] := forall_mem_nil _

theorem Sound.append (hx : xs.Sound s fits) (hy : ys.Sound s fits) : (xs ++ ys).Sound s fits :=
  forall_mem_append.mpr ⟨hx, hy⟩

theorem Sound.of (h : xs.Sound s fits) {object : Object} {x : Symbol} (hx : x ∈ xs.of object) :
    x.Sound s fits := by
  obtain ⟨e, he, rfl⟩ := mem_map.mp hx
  exact h e (mem_filter.mp he).1

end Exports

namespace Binder

variable {part : Part} {type : String} {kind : FieldKind}

/-- The keys of maps name fitting packages only, and so do values that are groups. -/
def EntriesFit (b : Binder) (fits : String → Prop) : Prop :=
  ∀ field map, ∀ e : MapPlan.Source b field map, (∀ q ∈ e.keyType.package?, fits q) ∧
    (e.kind = .group → ∀ q ∈ e.valueType.package?, fits q)

variable {P : Field → Prop} {b : Binder} {files : List File}
  {fits : String → Prop} {id : MessageId} {p : FieldPlan}

theorem package?_of_scalar (hs : b.setup.SoundWith P files) {scope : Option MessageId}
    {field : Field} {t : FieldType} (h : b.setup.fieldType b.file scope field = .ok t)
    (hkind : field.fieldKind = .ok kind) (hscalar : kind.scalar? ≠ none) : t.package? = none := by
  refine Option.eq_none_iff_forall_not_mem.mpr fun q hq => ?_
  obtain ⟨kind', -, hkind', hnone, -⟩ := (fieldType_sound hs h).origin q hq
  cases hkind.symm.trans hkind'
  exact hscalar hnone

private theorem scalar?_ne_none (hgroup : kind ≠ .group) (hmessage : kind ≠ .message)
    (henum : kind ≠ .enum) : kind.scalar? ≠ none := by
  cases kind <;> first | contradiction | simp [FieldKind.scalar?]

theorem getterShape?_map {map : MapPlan} (hgroup : p.kind ≠ .group) (hmap : p.map = some map) :
    b.getterShape? p = .ok (some (map.target.elim (.plain (getterType p))
      fun target => .map map.key target map.value.isStarred)) := by
  unfold getterShape?
  rw [hmap]
  split
  · contradiction
  · rename_i hsome _
    cases hsome
    cases map.target <;> rfl
  all_goals contradiction

theorem getterShape?_sound (hs : b.setup.SoundWith P files) (h : p.Made b id)
    (hfits : b.EntriesFit fits) {shape : GetterShape}
    (hshape : b.getterShape? p = .ok (some shape)) : shape.Sound b.schema fits := by
  obtain ⟨hnamed, -⟩ := getterType_named hs h
  have htype : (getterType p).packages = p.type.packages := by
    rw [getterType]
    split
    · exact (h.named hs).1.unstarred.2
    · rfl
  unfold getterShape? at hshape
  split at hshape
  · simp at hshape
  · rename_i map hmap hgroup
    rcases h.map with ⟨hnone, -⟩ | ⟨map', e, -, hmap', hmapType, -⟩
    · simp [hmap] at hnone
    cases hmap.symm.trans hmap'
    obtain ⟨⟨hkey, hkeys⟩, -, hvalues⟩ := e.sound hs
    obtain ⟨hkeyFits, hvalueFits⟩ := hfits _ _ e
    split at hshape
    · rename_i target htarget
      cases hshape
      refine ⟨hkey, ?_, ?_⟩
      · rw [hkeys]
        simpa using hkeyFits
      · rcases e.target with ⟨-, object, hobject, hsome⟩ | ⟨hnone, -⟩
        · cases htarget.symm.trans hsome
          exact resolve_declares hs hobject
        · simp [hnone] at htarget
    · rename_i htarget
      cases hshape
      refine ⟨hnamed, ?_⟩
      rw [htype, hmapType, TypeExpr.packages, hkeys, hvalues, forall_mem_append]
      refine ⟨by simpa using hkeyFits, ?_⟩
      rcases e.target with ⟨-, object, -, hsome⟩ | ⟨-, hmessage, henum⟩
      · simp [hsome] at htarget
      · by_cases hkind : e.kind = .group
        · simpa using hvalueFits hkind
        · simp [package?_of_scalar hs e.hvalueType e.hkind (scalar?_ne_none hkind hmessage henum)]
  · simp only [steps_eq_ok] at hshape
    obtain ⟨object, hobject, hshape⟩ := hshape
    cases hshape
    exact resolve_declares hs hobject
  · simp only [steps_eq_ok] at hshape
    obtain ⟨object, hobject, hshape⟩ := hshape
    cases hshape
    exact resolve_declares hs hobject
  · rename_i hmap hgroup hmessage henum
    cases hshape
    refine ⟨hnamed, ?_⟩
    rcases h.map with ⟨-, hp, -⟩ | ⟨map', e, -, hmap', -⟩
    · rw [htype, hp, (fieldType_sound hs h.fieldType).packages,
        package?_of_scalar hs h.fieldType h.kind (scalar?_ne_none hgroup hmessage henum)]
      simp
    · simp [hmap] at hmap'

theorem enumPart_exports (hs : b.setup.Sound files) {id : EnumId}
    (hid : id.index < b.schema.enums.length) : (b.enumPart id).exports.Sound b.schema fits := by
  have hnode : (b.schema.enum id).Sound := hs.schema.enum_sound hid
  simp only [Exports.Sound, enumPart, enumSymbols, forall_mem_map, forall_mem_cons]
  refine ⟨hnode.name.isName, fun v hv => ⟨isName_constant hnode (hnode.plain.values v hv), ?_⟩⟩
  simpa using hnode.name.isName

theorem extensionPart_exports (hs : b.setup.Sound files) {id : ExtensionId}
    (hid : id.index < b.schema.extensions.length) (h : b.extensionPart id = .ok part) :
    part.exports.Sound b.schema fits := by
  have hname : PlainName (b.schema.extension id).typeName := hs.schema.extension_name hid
  simp only [extensionPart, steps_eq_ok] at h
  obtain ⟨-, -, -, -, -, -, -, -, -, -, rfl⟩ := h
  simpa [Exports.Sound, Symbol.Sound] using isName_varName hname

/-- A part of declarations alone: nothing is exported, and nothing is done at the start. -/
structure Passive (p : Part) : Prop where
  exports : p.exports = []
  inits : p.inits = []
  startup : p.decls.flatMap Decl.startup = []

theorem Passive.append {p q : Part} (hp : Passive p) (hq : Passive q) : Passive (p ++ q) := by
  constructor
  · rw [Part.exports_append, hp.exports, hq.exports, append_nil]
  · rw [Part.inits_append, hp.inits, hq.inits, append_nil]
  · rw [Part.decls_append, flatMap_append, hp.startup, hq.startup, append_nil]

theorem Passive.additive : Part.Additive Passive := ⟨⟨rfl, rfl, rfl⟩, .append⟩

theorem unionPart_passive {plan : MessagePlan} (h : b.unionPart type plan = .ok part) :
    Passive part := by
  simp only [unionPart, readerFunc, steps_eq_ok] at h
  obtain ⟨reader, ⟨cases, -, rfl⟩, rfl⟩ := h
  have hname (suffix : String) := underscore_ne_init type suffix
  refine ⟨rfl, rfl, ?_⟩
  simp [writerFunc, sizerFunc, unionFuncs, funcOf, writerName, readerName, sizerName, Decl.startup,
    hname]

theorem getterPart_eq_ok {m : MessageNode} {unions : List (Option UnionPlan)}
    {d : Option DefaultPlan} {symbol : Option GetterSymbol}
    (h : b.getterPart m type unions p d = .ok (part, symbol)) :
    Passive part ∧ ∀ g ∈ symbol, g.name = p.getter ∧ b.getterShape? p = .ok (some g.shape) := by
  simp only [getterPart, steps_eq_ok] at h
  obtain ⟨shape, hshape, ⟨body, uses⟩, -, h⟩ := h
  cases h
  refine ⟨⟨rfl, rfl, rfl⟩, fun g hg => ?_⟩
  obtain ⟨shape', rfl, rfl⟩ := Option.map_eq_some_iff.mp hg
  exact ⟨rfl, hshape⟩

namespace MessageSource

variable {part : Part} (e : MessageSource b id part)

theorem passive_getters : Passive (Part.concat (e.getters.map (·.1))) := by
  refine Passive.additive.concat (forall_mem_map.mpr ?_)
  rintro ⟨part, symbol⟩ hgetter
  obtain ⟨⟨p, d⟩, -, hgetter⟩ := exists_of_mem_mapM e.hgetters hgetter
  exact (getterPart_eq_ok hgetter).1

theorem passive_funcs : Passive e.funcs := by
  rcases e.hfuncs with ⟨-, hnone⟩ | ⟨-, hfuncs⟩
  · rw [hnone]
    exact ⟨rfl, rfl, rfl⟩
  · exact unionPart_passive hfuncs

/-- What a message exports: its defaults, itself, and the extensions in its scope. -/
theorem exports_eq : part.exports =
    e.defaults.flatMap (fun d => d.toList.map fun d => (.message id, .value d.sort d.name none)) ++
    messageExports id (b.schema.message id) (b.messageType id)
      (e.getters.filterMap (·.2)) ++
    e.extensions.flatMap (·.exports) := by
  have hdefaults : (Part.concat (e.defaults.flatMap fun d =>
      d.toList.map (defaultPart id))).exports = e.defaults.flatMap fun d =>
        d.toList.map fun d => (.message id, .value d.sort d.name none) := by
    rw [Part.exports_concat, flatMap_assoc]
    refine congrArg (e.defaults.flatMap ·) (funext fun d => ?_)
    cases d <;> rfl
  refine (congrArg Part.exports e.hpart).trans ?_
  simp only [Part.exports_append, e.passive_getters.exports, e.passive_funcs.exports, hdefaults,
    Part.exports_concat, nil_append, append_nil]

end MessageSource

theorem messagePart_exports (hs : b.setup.Sound files) (hid : id.index < b.schema.messages.length)
    (hfits : b.EntriesFit fits) (h : b.messagePart id = .ok part) :
    part.exports.Sound b.schema fits := by
  have hmessage := hs.schema.message_sound hid
  have htype : IsName (b.messageType id) := hmessage.name.isName
  obtain ⟨e⟩ := messagePart_eq_ok h
  have hplan := e.plan_sound hs hid
  rw [e.exports_eq]
  refine Exports.Sound.append (.append ?_ ?_) ?_
  · simp only [Exports.Sound, forall_mem_flatMap, forall_mem_map, Option.mem_toList]
    rintro _ hd? d rfl
    obtain ⟨p, hp, hd⟩ := exists_of_mem_mapM e.hdefaults hd?
    have hsound : d.Sound b ⟨fun _ => True, False⟩ (fun _ => True) p :=
      planDefault_sound hs hid (hplan.fields p hp) (fun _ _ _ _ _ => trivial) htype hd
    exact ⟨hsound.name, by simp⟩
  · simp only [Exports.Sound, messageExports, forall_mem_ite, forall_mem_singleton]
    refine ⟨by simp, fun _ => ⟨htype, fun g hg => ?_⟩⟩
    obtain ⟨⟨part, symbol⟩, hgetter, hg⟩ := mem_filterMap.mp hg
    obtain ⟨⟨p, d⟩, hpd, hgetter⟩ := exists_of_mem_mapM e.hgetters hgetter
    have hmade := hplan.fields p (of_mem_zip hpd).1
    obtain ⟨hname, hshape⟩ := (getterPart_eq_ok hgetter).2 g hg
    exact ⟨hname ▸ (hmade.isName hs hid).2, getterShape?_sound hs hmade hfits hshape⟩
  · refine forall_mem_flatMap.mpr fun part hpart => ?_
    obtain ⟨x, hx, hpart⟩ := exists_of_mem_mapM e.hextensions hpart
    exact extensionPart_exports hs (hmessage.extensions x hx).1 hpart

section Forwards

private theorem localName_passive {target : Object} {name : TypeExpr}
    (h : b.localName target = .ok (name, part)) : Passive part := by
  unfold localName at h
  split at h
  · simp only [steps_eq_ok] at h
    obtain ⟨-, -, -, rfl⟩ := h
    exact ⟨rfl, rfl, rfl⟩
  · simp only [steps_eq_ok] at h
    obtain ⟨-, -, -, rfl⟩ := h
    exact ⟨rfl, rfl, rfl⟩

private theorem getterForward_passive {remote : TypeExpr} {g : GetterSymbol}
    (h : b.getterForward type remote g = .ok part) : Passive part := by
  unfold getterForward at h
  split at h
  · cases h
    exact ⟨rfl, rfl, rfl⟩
  · simp only [steps_eq_ok] at h
    obtain ⟨⟨name, part'⟩, hname, rfl⟩ := h
    exact (localName_passive hname).append ⟨rfl, rfl, by split <;> rfl⟩
  · simp only [steps_eq_ok] at h
    obtain ⟨⟨name, part'⟩, hname, rfl⟩ := h
    exact (localName_passive hname).append ⟨rfl, rfl, rfl⟩

private theorem unionForwards_startup (type : String) (remote : TypeExpr) :
    (b.unionForwards type remote).flatMap Decl.startup = [] := by
  have hname (suffix : String) := underscore_ne_init type suffix
  simp [unionForwards, unionForward, funcOf, writerName, readerName, sizerName, Decl.startup, hname]

theorem symbolForward_passive {package : String} {x : Symbol}
    (h : b.symbolForward package x = .ok part) : Passive part := by
  cases x with
  | message m =>
    simp only [symbolForward, messageForward, steps_eq_ok] at h
    obtain ⟨getters, hgetters, rfl⟩ := h
    refine Passive.append ⟨rfl, rfl, ?_⟩
      (Passive.additive.concat_mapM hgetters fun g _ part hg => getterForward_passive hg)
    have hextensions (isMessageSet : Bool) (remote : TypeExpr) :
        (b.extensionForwards m.name isMessageSet remote).flatMap Decl.startup = [] := by
      cases isMessageSet <;> rfl
    simp only [flatMap_append, apply_ite (List.flatMap Decl.startup), hextensions,
      unionForwards_startup, flatMap_nil, ite_self]
    rfl
  | enum name proto3 =>
    cases h
    refine ⟨rfl, rfl, ?_⟩
    cases proto3 <;> rfl
  | value sort name cast =>
    cases h
    exact ⟨rfl, rfl, rfl⟩

theorem forwardPart_passive {id : ReexportId} (h : b.forwardPart id = .ok part) : Passive part := by
  simp only [forwardPart] at h
  split at h
  · cases h
    exact ⟨rfl, rfl, rfl⟩
  · simp only [steps_eq_ok] at h
    obtain ⟨package, -, symbols, hsymbols, rfl⟩ := h
    exact (Passive.append ⟨rfl, rfl, rfl⟩ (Passive.additive.concat_mapM hsymbols
      fun x _ part hx => symbolForward_passive hx)).append ⟨rfl, rfl, rfl⟩

end Forwards

/-- What the declarations of a file are put together from. -/
structure FileSource (b : Binder) (part : Part) where
  forwards : List Part
  messages : List Part
  extensions : List Part
  hforwards : b.node.reexports.mapM b.forwardPart = .ok forwards
  hmessages : b.declaredMessages.mapM b.messagePart = .ok messages
  hextensions : b.node.extensions.mapM b.extensionPart = .ok extensions
  hpart : part = b.versionPart ++ Part.concat forwards ++
    Part.concat (b.node.enums.map b.enumPart) ++ Part.concat messages ++ Part.concat extensions

theorem declarations_eq_ok (h : b.declarations = .ok part) : Nonempty (FileSource b part) := by
  simp only [declarations, steps_eq_ok] at h
  obtain ⟨forwards, hforwards, messages, hmessages, extensions, hextensions, hpart⟩ := h
  exact ⟨⟨forwards, messages, extensions, hforwards, hmessages, hextensions, hpart.symm⟩⟩

namespace FileSource

variable {part : Part} (e : FileSource b part)

theorem passive_version : Passive b.versionPart := by
  rw [versionPart]
  split <;> exact ⟨rfl, rfl, rfl⟩

theorem passive_forwards : Passive (Part.concat e.forwards) :=
  Passive.additive.concat_mapM e.hforwards fun _ _ _ h => forwardPart_passive h

theorem exports_eq : part.exports = (b.node.enums.map b.enumPart).flatMap (·.exports) ++
    e.messages.flatMap (·.exports) ++ e.extensions.flatMap (·.exports) := by
  refine (congrArg Part.exports e.hpart).trans ?_
  simp only [Part.exports_append, passive_version.exports, e.passive_forwards.exports,
    Part.exports_concat, nil_append]

end FileSource

/-- What every part of a file has, they have together. -/
theorem declarations_induct {P : Part → Prop} (hP : Part.Additive P) (hversion : P b.versionPart)
    (hforwards : ∀ id ∈ b.node.reexports, ∀ p, b.forwardPart id = .ok p → P p)
    (henums : ∀ id ∈ b.node.enums, P (b.enumPart id))
    (hmessages : ∀ id ∈ b.declaredMessages, ∀ p, b.messagePart id = .ok p → P p)
    (hextensions : ∀ id ∈ b.node.extensions, ∀ p, b.extensionPart id = .ok p → P p)
    (h : b.declarations = .ok part) : P part := by
  obtain ⟨e⟩ := declarations_eq_ok h
  rw [e.hpart]
  exact hP.append (hP.append (hP.append (hP.append hversion
    (hP.concat_mapM e.hforwards hforwards)) (hP.concat (forall_mem_map.mpr henums)))
    (hP.concat_mapM e.hmessages hmessages)) (hP.concat_mapM e.hextensions hextensions)

/-- What a file exports are symbols of its enums, messages and extensions. -/
theorem forall_exports {P : Object × Symbol → Prop}
    (henums : ∀ id ∈ b.node.enums, ∀ x ∈ (b.enumPart id).exports, P x)
    (hmessages : ∀ id ∈ b.declaredMessages, ∀ p, b.messagePart id = .ok p → ∀ x ∈ p.exports, P x)
    (hextensions : ∀ id ∈ b.node.extensions, ∀ p, b.extensionPart id = .ok p →
      ∀ x ∈ p.exports, P x) (h : b.declarations = .ok part) : ∀ x ∈ part.exports, P x := by
  have hP : Part.Additive fun p => ∀ x ∈ p.exports, P x :=
    ⟨by simp, fun hp hq => forall_mem_append.mpr ⟨hp, hq⟩⟩
  have hpassive {p : Part} (hp : Passive p) : ∀ x ∈ p.exports, P x := by
    simp [hp.exports]
  exact declarations_induct hP (hpassive FileSource.passive_version)
    (fun _ _ _ hp => hpassive (forwardPart_passive hp)) henums hmessages hextensions h

theorem declarations_exports (hs : b.setup.Sound files) (hfits : b.EntriesFit fits)
    (h : b.declarations = .ok part) : part.exports.Sound b.schema fits := by
  have howns := hs.schema.owns_file b.file
  refine forall_exports (fun id hid => ?_) (fun id hid part hpart => ?_)
    (fun id hid part hpart => ?_) h
  · exact enumPart_exports hs (howns.enums id hid).1
  · exact messagePart_exports hs (howns.messages id (mem_filter.mp hid).1).1 hfits hpart
  · exact extensionPart_exports hs (howns.extensions id hid).1 hpart

end Binder

end GoBindings
