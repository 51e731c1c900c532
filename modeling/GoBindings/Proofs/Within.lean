import GoBindings.Proofs.Confinement
import Mathlib.Data.List.GetD

/-!
# Setups within larger ones

A setup that has all that another one has, at the same places, gives the same answers about it. It
may have files after those of the other, and the comments of its files may be others.
-/

namespace GoBindings

open List Schema Go Descriptor Binder

variable {α : Type} {t : FieldType} {remarks : Bool} {wire : WireKind} {tag : Tag}

/-- A file without its comments. -/
def Schema.FileNode.silent (f : FileNode) : FileNode :=
  { f with comments := {}, proto := { f.proto with sourceInfo := none } }

/-- Schema `s` is part of `s'`. Where remarks count, the comments of its files are the same. -/
structure Schema.Within (remarks : Bool) (s s' : Schema) : Prop where
  grows : Grows s s'
  files : s.files.map FileNode.silent <+: s'.files.map FileNode.silent
  comments : remarks = true → ∀ id : FileId, id.index < s.files.length →
    (s'.file id).comments = (s.file id).comments

theorem Schema.Within.file {s s' : Schema} (h : s.Within remarks s') (g : FileNode → α)
    (hg : ∀ f, g f.silent = g f) {id : FileId} (hid : id.index < s.files.length) :
    g (s'.file id) = g (s.file id) := by
  have hsilent := getD_of_isPrefix h.files (by simpa using hid) (default : FileNode).silent
  rw [getD_map, getD_map] at hsilent
  rw [← hg, ← hg (s.file id)]
  exact congrArg g hsilent

theorem Schema.Within.fileIds {s s' : Schema} (h : s.Within remarks s') :
    ∃ later, s'.fileIds = s.fileIds ++ later ∧ ∀ file ∈ later, s.files.length ≤ file.index := by
  obtain ⟨count, hcount⟩ : ∃ count, s'.files.length = s.files.length + count :=
    Nat.exists_eq_add_of_le (by simpa using h.files.length_le)
  refine ⟨((List.range count).map (s.files.length + ·)).map FileId.mk, ?_, ?_⟩
  · rw [Schema.fileIds, Schema.fileIds, hcount, range_add, map_append]
  · simp

/-- Setup `s` is part of `s'`. -/
structure Setup.Within (remarks : Bool) (s s' : Setup) : Prop
    extends s.schema.Within remarks s'.schema where
  closed : s.schema.Closed
  declared : ∀ name object, s.types.get? name = some object → s.schema.hasObject object = true
  types : ∀ name object, s.types.get? name = some object → s'.types.get? name = some object
  packages : ∀ file : FileId, file.index < s.schema.files.length →
    s'.packages.of file = s.packages.of file
  support : s'.packages.support = s.packages.support
  packageName : s'.packageName = s.packageName
  parameters : s'.parameters = s.parameters
  generated : s'.generated = s.generated
  compress : s'.compress = s.compress
  listed : ∀ file ∈ s.generated, file.index < s.schema.files.length

namespace Schema

variable {s : Schema} {object : Object}
variable {l : List α}

theorem getD_mem {i : Nat} (hi : i < l.length) (a : α) : l.getD i a ∈ l := by
  rw [getD_eq_getElem?_getD, getElem?_eq_getElem hi]
  exact getElem_mem hi

theorem findSome?_eq_of_mem {β : Type} {f g : α → Option β} (h : ∀ a ∈ l, f a = g a) :
    l.findSome? f = l.findSome? g := by
  induction l with
  | nil => rfl
  | cons a l ih =>
    rw [forall_mem_cons] at h
    rw [findSome?_cons, findSome?_cons, h.1, ih h.2]

theorem Closed.message_mem {id : MessageId} (hid : s.hasObject (.message id) = true) :
    s.message id ∈ s.messages := getD_mem (of_decide_eq_true hid) _

theorem Closed.extension_mem {id : ExtensionId} (hid : s.hasObject (.extension id) = true) :
    s.extension id ∈ s.extensions := getD_mem (of_decide_eq_true hid) _

theorem Closed.file_mem {id : FileId} (hid : id.index < s.files.length) : s.file id ∈ s.files :=
  getD_mem hid _

theorem Closed.fileOf_lt (h : s.Closed) (ho : s.hasObject object = true) :
    (s.fileOf object).index < s.files.length := by
  cases object with
  | message id => exact (h.messages _ (message_mem ho)).1
  | enum id => exact (h.enums _ (getD_mem (of_decide_eq_true ho) _)).1
  | extension id => exact (h.extensions _ (extension_mem ho)).1
  | reexport id => exact (h.reexports _ (getD_mem (of_decide_eq_true ho) _)).1

theorem Closed.hasObject_underlying (h : s.Closed) (ho : s.hasObject object = true) :
    s.hasObject (s.underlying object) = true := by
  cases object with
  | reexport id => exact (h.reexports _ (getD_mem (of_decide_eq_true ho) _)).2
  | _ => exact ho

theorem Closed.hasObject_reexportIn? (h : s.Closed) {file : FileId}
    (hfile : file.index < s.files.length) {r : ReexportId}
    (hr : s.reexportIn? object file = some r) : s.hasObject (.reexport r) = true :=
  (h.files _ (file_mem hfile)).2.2.2.2 r (mem_of_find?_eq_some hr)

theorem Closed.hasObject_reexportOf? (h : s.Closed) {file : FileId}
    (hfile : file.index < s.files.length) {found : Object}
    (hr : s.reexportOf? object file = some found) : s.hasObject found = true := by
  obtain ⟨r, hfound, rfl⟩ := Option.map_eq_some_iff.mp hr
  obtain ⟨dependency, hdep, hr⟩ := exists_of_findSome?_eq_some hfound
  exact h.hasObject_reexportIn? ((h.files _ (file_mem hfile)).1 dependency hdep) hr

theorem Closed.hasObject_visible (h : s.Closed) {file : FileId}
    (hfile : file.index < s.files.length)
    (ho : s.hasObject object = true) : s.hasObject (s.visible object file) = true := by
  rw [visible]
  split
  · exact ho
  · cases hr : s.reexportOf? object file with
    | none => exact ho
    | some found => exact h.hasObject_reexportOf? hfile hr

end Schema

namespace Setup.Within

variable {remarks : Bool} {s s' : Setup} {object : Object} {id : FileId}

section Lookup

variable (h : s.Within remarks s')

include h

theorem message {id : MessageId} (hid : s.schema.hasObject (.message id) = true) :
    s'.schema.message id = s.schema.message id := h.grows.message (of_decide_eq_true hid)

theorem enum {id : EnumId} (hid : s.schema.hasObject (.enum id) = true) :
    s'.schema.enum id = s.schema.enum id := h.grows.enum (of_decide_eq_true hid)

theorem extension {id : ExtensionId} (hid : s.schema.hasObject (.extension id) = true) :
    s'.schema.extension id = s.schema.extension id := h.grows.extension (of_decide_eq_true hid)

theorem reexport {id : ReexportId} (hid : s.schema.hasObject (.reexport id) = true) :
    s'.schema.reexport id = s.schema.reexport id := h.grows.reexport (of_decide_eq_true hid)

theorem file (g : FileNode → α) (hg : ∀ f, g f.silent = g f)
    (hid : id.index < s.schema.files.length) :
    g (s'.schema.file id) = g (s.schema.file id) := h.toWithin.file g hg hid

theorem dependencies (hid : id.index < s.schema.files.length) :
    (s'.schema.file id).dependencies = (s.schema.file id).dependencies :=
  h.file FileNode.dependencies (fun _ => rfl) hid

theorem fileOf (ho : s.schema.hasObject object = true) :
    s'.schema.fileOf object = s.schema.fileOf object := by
  cases object with
  | message id => exact congrArg MessageNode.file (h.message ho)
  | enum id => exact congrArg EnumNode.file (h.enum ho)
  | extension id => exact congrArg ExtensionNode.file (h.extension ho)
  | reexport id => exact congrArg Reexport.file (h.reexport ho)

theorem underlying (ho : s.schema.hasObject object = true) :
    s'.schema.underlying object = s.schema.underlying object := by
  cases object with
  | reexport id => exact congrArg Reexport.target (h.reexport ho)
  | _ => rfl

theorem typeName (ho : s.schema.hasObject object = true) :
    s'.schema.typeName object = s.schema.typeName object := by
  have hunderlying := h.closed.hasObject_underlying ho
  rw [Schema.typeName, Schema.typeName, h.underlying ho]
  cases hu : s.schema.underlying object with
  | message id => exact congrArg MessageNode.typeName (h.message (hu ▸ hunderlying))
  | enum id => exact congrArg EnumNode.typeName (h.enum (hu ▸ hunderlying))
  | extension id => exact congrArg ExtensionNode.typeName (h.extension (hu ▸ hunderlying))
  | reexport => rfl

theorem isDirect (owner : FileId) (hid : id.index < s.schema.files.length) :
    s'.schema.isDirect owner id = s.schema.isDirect owner id := by
  rw [Schema.isDirect, Schema.isDirect, h.dependencies hid]

theorem reexportIn? (object : Object) (hid : id.index < s.schema.files.length) :
    s'.schema.reexportIn? object id = s.schema.reexportIn? object id := by
  have hreexports : (s'.schema.file id).reexports = (s.schema.file id).reexports :=
    h.file FileNode.reexports (fun _ => rfl) hid
  rw [Schema.reexportIn?, hreexports]
  refine find?_congr fun r hr => ?_
  rw [h.reexport ((h.closed.files _ (Closed.file_mem hid)).2.2.2.2 r hr)]

theorem reexportOf? (object : Object) (hid : id.index < s.schema.files.length) :
    s'.schema.reexportOf? object id = s.schema.reexportOf? object id := by
  rw [Schema.reexportOf?, h.dependencies hid]
  refine congrArg (Option.map Object.reexport) (findSome?_eq_of_mem fun d hd => ?_)
  exact h.reexportIn? object ((h.closed.files _ (Closed.file_mem hid)).1 d hd)

theorem visible (ho : s.schema.hasObject object = true) (hid : id.index < s.schema.files.length) :
    s'.schema.visible object id = s.schema.visible object id := by
  rw [Schema.visible, Schema.visible, h.fileOf ho, h.isDirect _ hid, h.reexportOf? _ hid]

theorem resolve {name : String} (hid : id.index < s.schema.files.length)
    (ho : s.resolve name id = .ok object) :
    s.schema.hasObject object = true ∧ s'.resolve name id = .ok object := by
  rw [Setup.resolve, Schema.resolve] at ho
  cases hname : s.types.get? name with
  | none => simp [hname] at ho
  | some found =>
    have hfound := h.declared name found hname
    rw [hname] at ho
    cases ho
    refine ⟨h.closed.hasObject_visible hid hfound, ?_⟩
    rw [Setup.resolve, Schema.resolve, h.types name found hname]
    exact congrArg Except.ok (h.visible hfound hid)

theorem goName (ho : s.schema.hasObject object = true) : s'.goName object = s.goName object := by
  rw [Setup.goName, Setup.goName, h.fileOf ho, h.typeName ho, h.packageName,
    h.packages _ (h.closed.fileOf_lt ho)]

theorem asEnum (ho : s.schema.hasObject object = true) : s'.asEnum object = s.asEnum object := by
  have hunderlying := h.closed.hasObject_underlying ho
  rw [Setup.asEnum, Setup.asEnum, h.underlying ho]
  cases hu : s.schema.underlying object with
  | enum id => exact congrArg Except.ok (h.enum (hu ▸ hunderlying))
  | _ => simp only [h.typeName (hu ▸ hunderlying)]

theorem supportName (name : String) :
    s'.packages.supportName name = s.packages.supportName name := by
  rw [PackageNames.supportName, PackageNames.supportName, h.support]

end Lookup

section Fields

variable {field : Field} {kind : FieldKind} (h : s.Within remarks s')
  (hid : id.index < s.schema.files.length)

include h hid

theorem underlyingEnum {name : String} {e : Object × EnumNode}
    (he : s.underlyingEnum name id = .ok e) :
    s.schema.hasObject e.1 = true ∧ s.asEnum e.1 = .ok e.2 ∧ s'.underlyingEnum name id = .ok e := by
  simp only [Setup.underlyingEnum, steps_eq_ok] at he ⊢
  obtain ⟨object, ho, node, hnode, rfl⟩ := he
  obtain ⟨hentry, ho'⟩ := h.resolve hid ho
  exact ⟨hentry, hnode, object, ho', node, h.asEnum hentry ▸ hnode, rfl⟩

theorem elementType (ht : s.elementType id field kind = .ok t) :
    s'.elementType id field kind = .ok t := by
  unfold Setup.elementType at ht ⊢
  split at ht
  · simpa using ht
  · simp only [bind_eq_ok] at ht ⊢
    obtain ⟨object, ho, name, hname, ht⟩ := ht
    obtain ⟨hentry, ho'⟩ := h.resolve hid ho
    exact ⟨object, ho', name, h.goName hentry ▸ hname, ht⟩

omit hid in
theorem heldByValue {message : Option MessageId}
    (hmessage : ∀ m ∈ message, s.schema.hasObject (.message m) = true) :
    s'.heldByValue message field = s.heldByValue message field := by
  cases message with
  | none => rfl
  | some m => rw [Setup.heldByValue, Setup.heldByValue, h.message (hmessage m rfl)]

theorem fieldType {message : Option MessageId}
    (hmessage : ∀ m ∈ message, s.schema.hasObject (.message m) = true)
    (ht : s.fieldType id message field = .ok t) : s'.fieldType id message field = .ok t := by
  simp only [Setup.fieldType, bind_eq_ok, h.heldByValue hmessage] at ht ⊢
  obtain ⟨kind, hkind, elem, helem, ht⟩ := ht
  exact ⟨kind, hkind, elem, h.elementType hid helem, ht⟩

theorem tagDefault {text : Option String} (ht : s.tagDefault id field kind = .ok text) :
    s'.tagDefault id field kind = .ok text := by
  unfold Setup.tagDefault at ht ⊢
  cases hvalue : field.defaultValue with
  | none => simpa [hvalue] using ht
  | some value =>
    simp only [hvalue] at ht ⊢
    cases kind with
    | enum =>
      simp only [bind_eq_ok] at ht ⊢
      obtain ⟨e, he, ht⟩ := ht
      exact ⟨e, (h.underlyingEnum hid he).2.2, ht⟩
    | _ => exact ht

theorem tagEnum {name : Option String} (hn : s.tagEnum id field kind = .ok name) :
    s'.tagEnum id field kind = .ok name := by
  cases kind with
  | enum =>
    simp only [Setup.tagEnum, steps_eq_ok] at hn ⊢
    obtain ⟨e, he, rfl⟩ := hn
    obtain ⟨hentry, hnode, he'⟩ := h.underlyingEnum hid he
    have hfile : e.2.file.index < s.schema.files.length := by
      rw [Setup.asEnum] at hnode
      split at hnode
      · rename_i x hx
        have hx' := h.closed.hasObject_underlying hentry
        rw [hx] at hx'
        exact Except.ok.inj hnode ▸ h.closed.fileOf_lt hx'
      · cases hnode
    exact ⟨e, he', by rw [h.file FileNode.package (fun _ => rfl) hfile]⟩
  | _ => exact hn

theorem fieldTag {message : MessageId} (hmessage : s.schema.hasObject (.message message) = true)
    (ht : s.fieldTag id message field wire = .ok tag) :
    s'.fieldTag id message field wire = .ok tag := by
  simp only [Setup.fieldTag, bind_eq_ok, h.message hmessage] at ht ⊢
  obtain ⟨kind, hkind, text, htext, name, hname, ht⟩ := ht
  exact ⟨kind, hkind, text, h.tagDefault hid htext, name, h.tagEnum hid hname, ht⟩

end Fields

end Setup.Within

section Targets

/-- The declarations that a getter leads to. -/
def GetterShape.targets : GetterShape → List Object
  | .plain _ => []
  | .named target _ _ => [target]
  | .map _ target _ => [target]

def Symbol.targets : Symbol → List Object
  | .message m => m.getters.flatMap (·.shape.targets)
  | _ => []

/-- All getters of the symbols lead to entries. -/
def Exports.Closed (s : Schema) (exports : Exports) : Prop :=
  ∀ e ∈ exports, ∀ target ∈ e.2.targets, s.hasObject target = true

end Targets

/-- A file in two runs, one of which has all that the other one has. -/
structure Binder.Within (remarks : Bool) (b b' : Binder) : Prop where
  setup : b.setup.Within remarks b'.setup
  file : b'.file = b.file
  file_lt : b.file.index < b.schema.files.length
  exports : b'.exports = b.exports
  targets : b.exports.Closed b.schema

namespace Binder

/-- A file of a run of which only the support packages are known. -/
private def supported (support : Dict String) : Binder :=
  ⟨{ (default : Setup) with packages := { support } }, ⟨0⟩, []⟩

namespace Within

variable {remarks : Bool} {b b' : Binder} {field : Field} {kind : FieldKind}
variable {m : MessageNode}

section Plans

variable (h : b.Within remarks b')
variable {id : MessageId} {object : Object} {plan : MessagePlan}

include h

theorem closed : b.schema.Closed := h.setup.closed

/-- What depends on the support packages only is the same. -/
theorem ofSupport (f : Binder → α) (hf : ∀ b, f b = f (supported b.setup.packages.support)) :
    f b' = f b := by
  rw [hf b', hf b, h.setup.support]

theorem proto : b'.proto = b.proto := h.ofSupport Binder.proto fun _ => rfl

theorem node (g : FileNode → α) (hg : ∀ f, g f.silent = g f) : g b'.node = g b.node := by
  rw [Binder.node, h.file]
  exact h.setup.file g hg h.file_lt

theorem resolve {name : String} (ho : b.setup.resolve name b.file = .ok object) :
    b.schema.hasObject object = true ∧ b'.setup.resolve name b'.file = .ok object := by
  rw [h.file]
  exact h.setup.resolve h.file_lt ho

theorem underlying (ho : b.schema.hasObject object = true) :
    b'.schema.underlying object = b.schema.underlying object := h.setup.underlying ho

theorem fileOf_schema (ho : b.schema.hasObject object = true) :
    b'.schema.fileOf object = b.schema.fileOf object := h.setup.fileOf ho

theorem message (hid : b.schema.hasObject (.message id) = true) :
    b'.schema.message id = b.schema.message id := h.setup.message hid

theorem fieldType {message : Option MessageId}
    (hmessage : ∀ m ∈ message, b.schema.hasObject (.message m) = true)
    (ht : b.setup.fieldType b.file message field = .ok t) :
    b'.setup.fieldType b'.file message field = .ok t := by
  rw [h.file]
  exact h.setup.fieldType h.file_lt hmessage ht

theorem fieldTag {message : MessageId} (hmessage : b.schema.hasObject (.message message) = true)
    (ht : b.setup.fieldTag b.file message field wire = .ok tag) :
    b'.setup.fieldTag b'.file message field wire = .ok tag := by
  rw [h.file]
  exact h.setup.fieldTag h.file_lt hmessage ht

theorem mapValue {type : TypeExpr} {value : TypeExpr × Option Object}
    (hv : b.mapValue field kind type = .ok value) :
    (∀ target ∈ value.2, b.schema.hasObject target = true) ∧
      b'.mapValue field kind type = .ok value := by
  cases kind with
  | message | enum =>
    simp only [mapValue, steps_eq_ok] at hv ⊢
    obtain ⟨object, ho, rfl⟩ := hv
    obtain ⟨hentry, ho'⟩ := h.resolve ho
    refine ⟨fun target htarget => ?_, object, ho', by rw [h.underlying hentry]⟩
    exact Option.some.inj htarget ▸ h.closed.hasObject_underlying hentry
  | _ =>
    cases hv
    exact ⟨fun target htarget => (by cases htarget), rfl⟩

theorem planEntry {entry : MessageId} (hentry : b.schema.hasObject (.message entry) = true)
    {key value : Field} {plan : MapPlan × List (String × String) × List String}
    (hp : b.planEntry entry key value = .ok plan) :
    (∀ target ∈ plan.1.target, b.schema.hasObject target = true) ∧
      b'.planEntry entry key value = .ok plan := by
  have hmessage : ∀ m ∈ some entry, b.schema.hasObject (.message m) = true :=
    fun m hm => Option.some.inj hm ▸ hentry
  simp only [Binder.planEntry, steps_eq_ok] at hp ⊢
  obtain ⟨keyType, hkey, valueType, hvalue, keyTag, hkeyTag, valueTag, hvalueTag, kind, hkind, map,
    hmap, rfl⟩ := hp
  obtain ⟨htarget, hmap'⟩ := h.mapValue hmap
  exact ⟨htarget, keyType, h.fieldType hmessage hkey, valueType, h.fieldType hmessage hvalue,
    keyTag, h.fieldTag hentry hkeyTag, valueTag, h.fieldTag hentry hvalueTag, kind, hkind, map,
    hmap', rfl⟩

theorem planMap {plan : Option (MapPlan × List (String × String) × List String)}
    (hp : b.planMap field kind = .ok plan) :
    (∀ p ∈ plan, ∀ target ∈ p.1.target, b.schema.hasObject target = true) ∧
      b'.planMap field kind = .ok plan := by
  have hnone {x : Except Error (Option (MapPlan × List (String × String) × List String))}
      (hx : x = .ok none) (hp : x = .ok plan) :
      ∀ p ∈ plan, ∀ target ∈ p.1.target, b.schema.hasObject target = true := by
    cases hx.symm.trans hp
    exact fun p hp => (by cases hp)
  cases kind with
  | message =>
    simp only [planMap, bind_eq_ok] at hp ⊢
    obtain ⟨object, ho, hp⟩ := hp
    obtain ⟨hentry, ho'⟩ := h.resolve ho
    cases object with
    | message entry =>
      simp only at hp ⊢
      split at hp
      · rename_i key value hisEntry hfields
        simp only [steps_eq_ok] at hp
        obtain ⟨map, hmap, rfl⟩ := hp
        obtain ⟨htarget, hmap'⟩ := h.planEntry hentry hmap
        refine ⟨fun p hp => Option.some.inj hp ▸ htarget, _, ho', ?_⟩
        simp only [h.message hentry, hisEntry, hfields, hmap']
        rfl
      · refine ⟨hnone rfl hp, _, ho', ?_⟩
        rw [← hp]
        simp only [h.message hentry]
    | _ => exact ⟨hnone rfl hp, _, ho', hp⟩
  | _ => exact ⟨hnone rfl hp, hp⟩

theorem wrapperName (hm : m ∈ b.schema.messages) (type name : String) :
    b'.wrapperName m type name = b.wrapperName m type name := by
  obtain ⟨-, -, hnested, henums, -⟩ := h.closed.messages m hm
  have hmessages : m.nested.map (fun id => camelCaseScope (b'.schema.message id).typeName) =
      m.nested.map fun id => b.messageType id :=
    map_congr_left fun id hid => by rw [h.message (hnested id hid)]
  have hvalues : m.enums.map (fun id => camelCaseScope (b'.schema.enum id).typeName) =
      m.enums.map fun id => camelCaseScope (b.schema.enum id).typeName :=
    map_congr_left fun id hid => by
      rw [schema, schema, h.setup.enum (henums id hid)]
  simp only [Binder.wrapperName, hmessages, hvalues]

theorem planField (hid : b.schema.hasObject (.message id) = true) {type : String}
    {next : MessagePlan} (hn : b.planField id (b.schema.message id) type plan field = .ok next) :
    b'.planField id (b.schema.message id) type plan field = .ok next := by
  have hmessage : ∀ m ∈ some id, b.schema.hasObject (.message m) = true :=
    fun m hm => Option.some.inj hm ▸ hid
  simp only [Binder.planField, bind_eq_ok, h.wrapperName (Schema.Closed.message_mem hid)] at hn ⊢
  obtain ⟨kind, hkind, fieldType, htype, tag, htag, union, hunion, map, hmap, hn⟩ := hn
  exact ⟨kind, hkind, fieldType, h.fieldType hmessage htype, tag, h.fieldTag hid htag, union,
    hunion, map, (h.planMap hmap).2, hn⟩

theorem planMessage (hid : b.schema.hasObject (.message id) = true)
    (hp : b.planMessage id = .ok plan) : b'.planMessage id = .ok plan := by
  rw [Binder.planMessage, h.message hid]
  exact foldlM_of_foldlM hp fun plan field _ next hn => h.planField hid hn

theorem planMessage_targets (hp : b.planMessage id = .ok plan) :
    ∀ p ∈ plan.fields, ∀ map ∈ p.map, ∀ target ∈ map.target, b.schema.hasObject target = true := by
  refine foldlM_invariant (P := fun plan => ∀ p ∈ plan.fields, ∀ map ∈ p.map,
    ∀ target ∈ map.target, b.schema.hasObject target = true) hp (by simp) ?_
  intro plan field next _ hplan hn
  simp only [Binder.planField, steps_eq_ok] at hn
  obtain ⟨kind, -, fieldType, -, tag, -, ⟨oneof, plan'⟩, hunion, map, hmap, rfl⟩ := hn
  have hfields : plan'.fields = plan.fields := (planUnion_eq_ok hunion).1
  simp only [hfields, forall_mem_append, forall_mem_singleton]
  refine ⟨hplan, fun m hm => ?_⟩
  obtain ⟨p, hp, rfl⟩ := Option.map_eq_some_iff.mp hm
  exact (h.planMap hmap).1 p hp

end Plans

section Declared

variable (h : b.Within remarks b')
variable {p : FieldPlan} {type : String} {d : Option DefaultPlan}

include h

theorem enumConstant {object : Object} (ho : b.schema.hasObject object = true) (node : EnumNode)
    (value : String) : b'.enumConstant object node value = b.enumConstant object node value := by
  have hpackage := h.setup.packages _ (h.closed.fileOf_lt ho)
  rw [Binder.enumConstant, Binder.enumConstant, fileOf_schema h ho, h.setup.packageName, hpackage]

theorem planDefault (hd : b.planDefault type p = .ok d) : b'.planDefault type p = .ok d := by
  have hspecial : b'.specialFloat? = b.specialFloat? := h.ofSupport specialFloat? fun _ => rfl
  have hmath : b'.math = b.math := h.ofSupport math fun _ => rfl
  revert hd
  simp only [Binder.planDefault, hspecial, hmath]
  refine ite_ok id (ite_ok id (ite_ok id (ite_ok id ?_)))
  cases b.specialFloat? (p.field.defaultValue.getD "") with
  | some special => exact id
  | none =>
    refine ite_ok (fun hd => ?_) id
    rw [bind_eq_ok] at hd ⊢
    obtain ⟨object, ho, hd⟩ := hd
    obtain ⟨hentry, ho'⟩ := h.resolve ho
    refine ⟨object, ho', ?_⟩
    have hunderlying := h.closed.hasObject_underlying hentry
    rw [h.underlying hentry]
    cases hu : b.schema.underlying object with
    | enum id =>
      have henum : b'.schema.enum id = b.schema.enum id := h.setup.enum (hu ▸ hunderlying)
      simp only [hu, henum, h.enumConstant hentry] at hd ⊢
      exact hd
    | _ => simpa only [hu] using hd

theorem getterShape? {shape : Option GetterShape} (hshape : b.getterShape? p = .ok shape) :
    b'.getterShape? p = .ok shape := by
  unfold Binder.getterShape? at hshape ⊢
  generalize p.kind = kind at hshape ⊢
  generalize p.map = map at hshape ⊢
  cases map with
  | some map => cases kind <;> exact hshape
  | none =>
    cases kind with
    | message | enum =>
      simp only [steps_eq_ok] at hshape ⊢
      obtain ⟨object, ho, rfl⟩ := hshape
      obtain ⟨hentry, ho'⟩ := h.resolve ho
      exact ⟨object, ho', by rw [h.underlying hentry]⟩
    | _ => exact hshape

theorem getterShape?_targets
    (hp : ∀ map ∈ p.map, ∀ target ∈ map.target, b.schema.hasObject target = true)
    {shape : GetterShape} (hshape : b.getterShape? p = .ok (some shape)) :
    ∀ target ∈ shape.targets, b.schema.hasObject target = true := by
  have hnamed {object : Object} (ho : b.setup.resolve p.field.typeNameText b.file = .ok object) :
      b.schema.hasObject (b.schema.underlying object) = true :=
    h.closed.hasObject_underlying (h.resolve ho).1
  unfold Binder.getterShape? at hshape
  split at hshape
  · cases hshape
  · rename_i map hmap _
    split at hshape
    · rename_i target htarget
      cases hshape
      simpa [GetterShape.targets] using hp map hmap target htarget
    · cases hshape
      simp [GetterShape.targets]
  · simp only [steps_eq_ok] at hshape
    obtain ⟨object, ho, hshape⟩ := hshape
    cases hshape
    simpa [GetterShape.targets] using hnamed ho
  · simp only [steps_eq_ok] at hshape
    obtain ⟨object, ho, hshape⟩ := hshape
    cases hshape
    simpa [GetterShape.targets] using hnamed ho
  · cases hshape
    simp [GetterShape.targets]

theorem enumZero {zero : Stmt × List String} (hz : b.enumZero field = .ok zero) :
    b'.enumZero field = .ok zero := by
  simp only [Binder.enumZero, bind_eq_ok] at hz ⊢
  obtain ⟨object, ho, node, hnode, hz⟩ := hz
  obtain ⟨hentry, ho'⟩ := h.resolve ho
  refine ⟨object, ho', node, h.setup.asEnum hentry ▸ hnode, ?_⟩
  simpa only [h.enumConstant hentry] using hz

theorem getterFallback {fallback : Stmt × List String} (hf : b.getterFallback p d = .ok fallback) :
    b'.getterFallback p d = .ok fallback := by
  unfold Binder.getterFallback at hf ⊢
  generalize p.kind = kind at hf ⊢
  cases d with
  | some d => cases kind <;> exact hf
  | none =>
    cases kind with
    | enum => exact h.enumZero hf
    | _ => exact hf

theorem getterPart {unions : List (Option UnionPlan)} {getter : Part × Option GetterSymbol}
    (hg : b.getterPart m type unions p d = .ok getter) :
    b'.getterPart m type unions p d = .ok getter := by
  have hbody {body : List Stmt × List String} (hbody : b.getterBody m unions p d = .ok body) :
      b'.getterBody m unions p d = .ok body := by
    unfold getterBody at hbody ⊢
    generalize p.oneof = oneof at hbody ⊢
    cases oneof with
    | none =>
      revert hbody
      refine ite_ok id fun hbody => ?_
      rw [bind_eq_ok] at hbody ⊢
      exact hbody.imp fun fallback hf => ⟨h.getterFallback hf.1, hf.2⟩
    | some i =>
      simp only [bind_eq_ok] at hbody ⊢
      obtain ⟨union, hunion, fallback, hf, hbody⟩ := hbody
      exact ⟨union, hunion, fallback, h.getterFallback hf, hbody⟩
  simp only [Binder.getterPart, bind_eq_ok] at hg ⊢
  obtain ⟨shape, hshape, body, hb, hg⟩ := hg
  exact ⟨shape, h.getterShape? hshape, body, hbody hb, hg⟩

theorem unionPart (type : String) (plan : MessagePlan) :
    b'.unionPart type plan = b.unionPart type plan :=
  h.ofSupport (fun b => b.unionPart type plan) fun _ => rfl

theorem extensionPart {id : ExtensionId} (hid : b.schema.hasObject (.extension id) = true)
    {part : Part} (hp : b.extensionPart id = .ok part) : b'.extensionPart id = .ok part := by
  have hextension : b'.schema.extension id = b.schema.extension id := h.setup.extension hid
  have hparent := (h.closed.extensions _ (Schema.Closed.extension_mem hid)).2
  have hpackage := h.node FileNode.package fun _ => rfl
  have hname := h.node FileNode.name fun _ => rfl
  simp only [Binder.extensionPart, bind_eq_ok, hextension, extendedMessage,
    extensionDecl, registerMessageSet, h.proto, hpackage, hname] at hp ⊢
  obtain ⟨extendee, ho, message, hmessage, extended, hextended, fieldType, htype, tag, htag,
    hp⟩ := hp
  obtain ⟨hentry, ho'⟩ := h.resolve ho
  have hunderlying := h.closed.hasObject_underlying hentry
  have hobject : b.schema.hasObject (.message message) = true := by
    split at hmessage
    · rename_i x hx
      cases hmessage
      exact hx ▸ hunderlying
    · cases hmessage
  exact ⟨extendee, ho', message, h.underlying hentry ▸ hmessage, extended,
    h.setup.goName hentry ▸ hextended, fieldType, h.fieldType hparent htype, tag,
    h.fieldTag hobject htag, hp⟩

theorem localName {target : Object} (ho : b.schema.hasObject target = true) :
    b'.localName target = b.localName target := by
  have hown : b'.schema.reexportIn? target b'.file = b.schema.reexportIn? target b.file := by
    rw [h.file]
    exact h.setup.reexportIn? target h.file_lt
  have hdirect : b'.schema.isDirect (b.schema.fileOf target) b'.file =
      b.schema.isDirect (b.schema.fileOf target) b.file := by
    rw [h.file]
    exact h.setup.isDirect _ h.file_lt
  have hreexport : b'.schema.reexportOf? target b'.file = b.schema.reexportOf? target b.file := by
    rw [h.file]
    exact h.setup.reexportOf? target h.file_lt
  simp only [Binder.localName, hown, fileOf_schema h ho, hdirect, hreexport]
  cases hfound : b.schema.reexportIn? target b.file with
  | some own => simp only [h.setup.goName (h.closed.hasObject_reexportIn? h.file_lt hfound)]
  | none =>
    cases b.schema.isDirect (b.schema.fileOf target) b.file with
    | true => simp only [if_true, h.setup.goName ho]
    | false =>
      cases hfar : b.schema.reexportOf? target b.file with
      | none => simp only [Bool.false_eq_true, if_false, h.setup.goName ho]
      | some reexport =>
        have hname := h.setup.goName (h.closed.hasObject_reexportOf? h.file_lt hfar)
        simp only [Bool.false_eq_true, if_false, hname]

theorem getterForward {remote : TypeExpr} {getter : GetterSymbol}
    (hg : ∀ target ∈ getter.shape.targets, b.schema.hasObject target = true) :
    b'.getterForward type remote getter = b.getterForward type remote getter := by
  unfold Binder.getterForward
  cases hshape : getter.shape with
  | plain t => rfl
  | named target pointer repeated | map key target pointer =>
    have ho : b.schema.hasObject target = true := hg target (by simp [hshape, GetterShape.targets])
    simp only [h.localName ho]

theorem symbolForward {package : String} {x : Symbol}
    (hx : ∀ target ∈ x.targets, b.schema.hasObject target = true) :
    b'.symbolForward package x = b.symbolForward package x := by
  cases x with
  | message m =>
    have hextensions : b'.extensionForwards = b.extensionForwards :=
      h.ofSupport extensionForwards fun _ => rfl
    have hunions : b'.unionForwards = b.unionForwards := h.ofSupport unionForwards fun _ => rfl
    have hgetters : m.getters.mapM (b'.getterForward m.name (.qualified package m.name)) =
        m.getters.mapM (b.getterForward m.name (.qualified package m.name)) := by
      refine mapM_congr fun g hg => h.getterForward fun target htarget => hx target ?_
      exact mem_flatMap.mpr ⟨g, hg, htarget⟩
    simp only [Binder.symbolForward, messageForward, h.proto, hextensions, hunions, hgetters]
  | _ => rfl

theorem forwardPart {id : ReexportId} (hid : b.schema.hasObject (.reexport id) = true) :
    b'.forwardPart id = b.forwardPart id := by
  have hreexport : b'.schema.reexport id = b.schema.reexport id := h.setup.reexport hid
  have ho : b.schema.hasObject (b.schema.reexport id).target = true :=
    h.closed.hasObject_underlying hid
  have howner := h.closed.fileOf_lt ho
  have hname : b'.schema.typeName (b.schema.reexport id).target =
      b.schema.typeName (b.schema.reexport id).target := h.setup.typeName ho
  have hfile : (b'.schema.file (b.schema.fileOf (b.schema.reexport id).target)).name =
      (b.schema.file (b.schema.fileOf (b.schema.reexport id).target)).name :=
    h.setup.file FileNode.name (fun _ => rfl) howner
  have hgenerated : b'.setup.isGenerated = b.setup.isGenerated := by
    funext file
    rw [Setup.isGenerated, Setup.isGenerated, h.setup.generated]
  have hsymbols (package : String) :
      (b.exports.of (b.schema.reexport id).target).mapM (b'.symbolForward package) =
        (b.exports.of (b.schema.reexport id).target).mapM (b.symbolForward package) := by
    refine mapM_congr fun x hx => h.symbolForward fun target htarget => ?_
    obtain ⟨e, he, rfl⟩ := mem_map.mp hx
    exact h.targets e (mem_of_mem_filter he) target htarget
  simp only [Binder.forwardPart, hreexport, fileOf_schema h ho, hname, hfile, hgenerated, h.exports,
    h.setup.packages _ howner, hsymbols]

end Declared

end Within

end Binder

end GoBindings
