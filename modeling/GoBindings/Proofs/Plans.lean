import GoBindings.Bind.FieldPlan
import GoBindings.Proofs.Tags

/-!
# Plans of fields

What is decided about the fields of a message: their Go names are identifiers, their types name
the packages that the plans say they use, and their tags fit into raw literals.
-/

namespace GoBindings

open List Schema Go Descriptor Text Setup

/-- The type that a message is declared as. -/
abbrev Binder.messageType (b : Binder) (id : MessageId) : String :=
  camelCaseScope (b.schema.message id).typeName

/-- The entry that the map of a field is made of. -/
structure MapPlan.Source (b : Binder) (field : Field) (map : MapPlan) where
  entry : MessageId
  key : Field
  value : Field
  keyType : FieldType
  valueType : FieldType
  keyTag : Tag
  valueTag : Tag
  kind : FieldKind
  resolves : b.setup.resolve field.typeNameText b.file = .ok (.message entry)
  isMapEntry : (b.schema.message entry).isMapEntry = true
  fields : (b.schema.message entry).proto.fields = [key, value]
  hkeyType : b.setup.fieldType b.file (some entry) key = .ok keyType
  hvalueType : b.setup.fieldType b.file (some entry) value = .ok valueType
  hkeyTag : b.setup.fieldTag b.file entry key keyType.wire = .ok keyTag
  hvalueTag : b.setup.fieldTag b.file entry value valueType.wire = .ok valueTag
  hkind : value.fieldKind = .ok kind
  hkey : map.key = keyType.type.unstarred
  hvalue : map.value = if kind = .message then valueType.type else valueType.type.unstarred
  /-- The values are messages or enums, or they have no target. -/
  target : (kind = .message ∨ kind = .enum) ∧ (∃ object,
      b.setup.resolve value.typeNameText b.file = .ok object ∧
      map.target = some (b.schema.underlying object)) ∨
    map.target = none ∧ kind ≠ .message ∧ kind ≠ .enum

namespace MapPlan.Source

variable {b : Binder} {field : Field} {map : MapPlan} (e : map.Source b field)

def tags : List (String × String) :=
  [("protobuf_key", e.keyTag.quoted), ("protobuf_val", e.valueTag.quoted)]

def uses : List String := e.keyType.package?.toList ++ e.valueType.package?.toList

end MapPlan.Source

/-- The parts of a tag that every field has. -/
def FieldPlan.ownTags (p : FieldPlan) : List (String × String) :=
  [("protobuf", p.tag.quoted), ("json", quote (p.field.nameText ++ ",omitempty"))]

/-- How the plan of a field of a message comes about. -/
structure FieldPlan.Made (b : Binder) (id : MessageId) (p : FieldPlan) : Prop where
  field : p.field ∈ (b.schema.message id).proto.fields
  kind : p.field.fieldKind = .ok p.kind
  fieldType : b.setup.fieldType b.file (some id) p.field = .ok p.fieldType
  tag : b.setup.fieldTag b.file id p.field p.fieldType.wire = .ok p.tag
  name : ∃ k, p.name = camelCase p.field.nameText ++ repeated k '_'
  getter : ∃ k, p.getter = "Get" ++ camelCase p.field.nameText ++ repeated k '_'
  wrapper : p.oneof.isSome = true → ∃ k, p.wrapper =
    b.messageType id ++ "_" ++ p.name ++ repeated k '_'
  oneof : p.oneof.isSome = true → p.field.oneofIndex.isSome = true
  map : (p.map = none ∧ p.type = p.fieldType.type ∧ p.uses = p.fieldType.package?.toList ∧
      p.structTag = ⟨p.ownTags⟩) ∨
    ∃ map, ∃ e : MapPlan.Source b p.field map, p.kind = .message ∧ p.map = some map ∧
      p.type = .map map.key map.value ∧ p.uses = p.fieldType.package?.toList ++ e.uses ∧
      p.structTag = ⟨p.ownTags ++ e.tags⟩
  unmapped : p.map = none → b.planMap p.field p.kind = .ok none

structure UnionPlan.Sound (u : UnionPlan) : Prop where
  name : IsName u.name
  interface : IsName u.interface
  schemaName : isIdentifier u.schemaName = true

structure MessagePlan.Sound (b : Binder) (id : MessageId) (plan : MessagePlan) : Prop where
  fields : ∀ p ∈ plan.fields, p.Made b id
  unions : ∀ u ∈ plan.unions, ∀ union ∈ u, union.Sound

namespace Binder

variable {b : Binder} {field : Field}
variable {plan plan' : MessagePlan}

variable {m : MessageNode}

theorem mapValue_eq_ok {kind : FieldKind} {type value : TypeExpr} {target : Option Object}
    (h : b.mapValue field kind type = .ok (value, target)) :
    value = (if kind = .message then type else type.unstarred) ∧
      ((kind = .message ∨ kind = .enum) ∧ (∃ object,
          b.setup.resolve field.typeNameText b.file = .ok object ∧
          target = some (b.schema.underlying object)) ∨
        target = none ∧ kind ≠ .message ∧ kind ≠ .enum) := by
  unfold mapValue at h
  split at h
  · simp only [steps_eq_ok] at h
    obtain ⟨object, hobject, rfl, rfl⟩ := h
    exact ⟨rfl, .inl ⟨.inl rfl, object, hobject, rfl⟩⟩
  · simp only [steps_eq_ok] at h
    obtain ⟨object, hobject, rfl, rfl⟩ := h
    exact ⟨rfl, .inl ⟨.inr rfl, object, hobject, rfl⟩⟩
  · rename_i hmessage henum
    cases h
    exact ⟨(if_neg hmessage).symm, .inr ⟨rfl, hmessage, henum⟩⟩

theorem planMap_eq_ok {kind : FieldKind} {map : MapPlan} {tags : List (String × String)}
    {uses : List String} (h : b.planMap field kind = .ok (some (map, tags, uses))) :
    kind = .message ∧ ∃ e : map.Source b field, tags = e.tags ∧ uses = e.uses := by
  unfold planMap at h
  split at h
  · rw [bind_eq_ok] at h
    obtain ⟨object, hobject, h⟩ := h
    split at h
    · rename_i entry
      simp only at h
      split at h
      · rename_i key value hmap hfields
        rw [bind_eq_ok] at h
        obtain ⟨result, hentry, h⟩ := h
        cases h
        simp only [planEntry, steps_eq_ok] at hentry
        obtain ⟨keyType, hkeyType, valueType, hvalueType, keyTag, hkeyTag, valueTag, hvalueTag,
          kind, hkind, ⟨valueExpr, target⟩, hvalue, rfl, rfl, rfl⟩ := hentry
        obtain ⟨hexpr, htarget⟩ := mapValue_eq_ok hvalue
        exact ⟨rfl, ⟨entry, key, value, keyType, valueType, keyTag, valueTag, kind, hobject, hmap,
          hfields, hkeyType, hvalueType, hkeyTag, hvalueTag, hkind, rfl, hexpr, htarget⟩, rfl, rfl⟩
      · exact absurd (pure_eq_ok.mp h) (by simp)
    · exact absurd (pure_eq_ok.mp h) (by simp)
  · exact absurd (Except.ok.inj h) (by simp)

theorem planUnion_eq_ok {type : String} {oneof : Option Nat}
    (h : planUnion m type field plan = .ok (oneof, plan')) :
    plan'.fields = plan.fields ∧ (oneof.isSome = true → field.oneofIndex.isSome = true) ∧
      (plan'.unions = plan.unions ∨
      ∃ i o k, m.proto.oneofs[i]? = some o ∧ plan'.unions = plan.unions.set i (some
        ⟨camelCase (o.name.getD "") ++ repeated k '_',
          "is" ++ type ++ "_" ++ (camelCase (o.name.getD "") ++ repeated k '_'),
          o.name.getD ""⟩)) := by
  unfold planUnion at h
  split at h
  · cases h
    exact ⟨rfl, nofun, .inl rfl⟩
  · rename_i hindex
    have hsome : field.oneofIndex.isSome = true := by rw [hindex, Option.isSome_some]
    simp only at h
    split at h
    · cases h
      exact ⟨rfl, fun _ => hsome, .inl rfl⟩
    · rename_i i _ _ _ o _ ho
      cases h
      exact ⟨rfl, fun _ => hsome, .inr ⟨_, o, _, ho, rfl⟩⟩
    · cases h

variable {P : Field → Prop} {files : List File} {id : MessageId}

private theorem sound_union {o : Oneof} {s : Schema} (hm : m.SoundWith P s) {i : Nat}
    (ho : m.proto.oneofs[i]? = some o) (k : Nat) :
    UnionPlan.Sound ⟨camelCase (o.name.getD "") ++ repeated k '_',
      "is" ++ camelCaseScope m.typeName ++ "_" ++
        (camelCase (o.name.getD "") ++ repeated k '_'), o.name.getD ""⟩ := by
  have hid := hm.plain.oneofs o (mem_of_getElem? ho)
  have hcamel : IsName (camelCase (o.name.getD "")) :=
    isName_of_isIdentifier (isIdentifier_camelCase hid)
  have hname := hcamel.append (isTail_underscores k)
  have his : IsName "is" := by decide
  exact ⟨hname, ((his.append hm.name.isName.isTail).append (by decide)).append hname.isTail, hid⟩

theorem planField_made (hfield : field ∈ (b.schema.message id).proto.fields)
    (h : b.planField id (b.schema.message id) (b.messageType id) plan
      field = .ok plan') :
    ∃ p, plan'.fields = plan.fields ++ [p] ∧ p.field = field ∧ p.Made b id := by
  rw [planField, bind_eq_ok] at h
  obtain ⟨kind, hkind, h⟩ := h
  simp only [steps_eq_ok] at h
  obtain ⟨fieldType, hfieldType, tag, htag, ⟨oneof, plan₁⟩, hunion, map, hmap, rfl⟩ := h
  obtain ⟨hfields, hindex, -⟩ := planUnion_eq_ok hunion
  refine ⟨_, congrArg (· ++ _) hfields, rfl, hfield, hkind, hfieldType, htag, ⟨_, rfl⟩, ⟨_, rfl⟩,
    fun hsome => ⟨_, if_pos hsome⟩, hindex, ?_, ?_⟩
  · cases map with
    | none => exact .inl ⟨rfl, rfl, by simp, by simp [FieldPlan.ownTags]⟩
    | some map =>
      obtain ⟨map, tags, uses⟩ := map
      obtain ⟨rfl, e, rfl, rfl⟩ := planMap_eq_ok hmap
      exact .inr ⟨map, e, rfl, rfl, rfl, rfl, rfl⟩
  · intro hnone
    rw [hmap, Option.map_eq_none_iff.mp hnone]

/-- How the plans of the fields of a message come about, whatever the schema is like. -/
theorem planMessage_made (h : b.planMessage id = .ok plan) : ∀ p ∈ plan.fields, p.Made b id := by
  refine foldlM_invariant (P := fun plan => ∀ p ∈ plan.fields, p.Made b id) h (by simp)
    fun plan field plan' hfield hplan hstep => ?_
  obtain ⟨p, hfields, -, hp⟩ := planField_made hfield hstep
  rw [hfields]
  exact forall_mem_append.mpr ⟨hplan, by simpa using hp⟩

theorem planMessage_fields (h : b.planMessage id = .ok plan) :
    plan.fields.map (·.field) = (b.schema.message id).proto.fields := by
  have hfold {fields : List Field} {plan plan' : MessagePlan}
      (hfields : ∀ field ∈ fields, field ∈ (b.schema.message id).proto.fields)
      (h : fields.foldlM (b.planField id (b.schema.message id)
        (b.messageType id)) plan = .ok plan') :
      plan'.fields.map (·.field) = plan.fields.map (·.field) ++ fields := by
    induction fields generalizing plan with
    | nil =>
      rw [foldlM_nil, pure_eq_ok] at h
      rw [h, append_nil]
    | cons field fields ih =>
      rw [foldlM_cons, bind_eq_ok] at h
      obtain ⟨next, hnext, h⟩ := h
      obtain ⟨hfield, hrest⟩ := forall_mem_cons.mp hfields
      obtain ⟨p, hp, hpfield, -⟩ := planField_made hfield hnext
      rw [ih hrest h, hp]
      simp [hpfield]
  simpa using hfold (fun _ hfield => hfield) h

theorem planField_unions (hm : (b.schema.message id).SoundWith P b.schema)
    (hplan : ∀ u ∈ plan.unions, ∀ union ∈ u, union.Sound)
    (h : b.planField id (b.schema.message id) (b.messageType id) plan
      field = .ok plan') : ∀ u ∈ plan'.unions, ∀ union ∈ u, union.Sound := by
  simp only [planField, steps_eq_ok] at h
  obtain ⟨_, -, _, -, _, -, ⟨_, plan₁⟩, hunion, _, -, rfl⟩ := h
  obtain ⟨-, -, hunions⟩ := planUnion_eq_ok hunion
  intro u hu union hunion'
  rcases hunions with heq | ⟨i, o, k, ho, heq⟩
  · exact hplan u (by rwa [heq] at hu) union hunion'
  · rw [heq] at hu
    rcases mem_or_eq_of_mem_set hu with hu | rfl
    · exact hplan u hu union hunion'
    · obtain rfl := Option.mem_some.mp hunion'
      exact sound_union hm ho k

theorem planMessage_sound (hm : (b.schema.message id).SoundWith P b.schema)
    (h : b.planMessage id = .ok plan) : plan.Sound b id := by
  refine ⟨planMessage_made h, ?_⟩
  exact foldlM_invariant h (by simp)
    fun plan field plan' _ hplan hstep => planField_unions hm hplan hstep

end Binder

theorem Go.StructTag.unquoted_text {t : StructTag} :
    Unquoted t.text ↔ ∀ part ∈ t.parts, Unquoted part.1 ∧ Unquoted part.2 := by
  have hcolon : Unquoted ":" := by decide
  rw [text, unquoted_join (by decide), forall_mem_map]
  refine forall₂_congr fun part _ => ?_
  rw [unquoted_append, unquoted_append, and_iff_left hcolon]

namespace Setup.SoundWith

variable {P : Field → Prop} {s : Setup} {files : List File} {id : MessageId}
  {field : Field}

theorem field_plain (hs : s.SoundWith P files) (hid : id.index < s.schema.messages.length)
    (hfield : field ∈ (s.schema.message id).proto.fields) : P field :=
  (hs.schema.message_sound hid).plain.fields field hfield

theorem field_tidy (hs : s.SoundWith P files) (hid : id.index < s.schema.messages.length)
    (hfield : field ∈ (s.schema.message id).proto.fields) (htidy : ∀ f ∈ files, f.Tidy) :
    field.Tidy := by
  obtain ⟨f, hf, hproto⟩ := hs.schema.origin hid
  exact (htidy f hf).fields _ hproto field hfield

end Setup.SoundWith

namespace MapPlan.Source

variable {P : Field → Prop} {b : Binder} {files : List File}
  {field : Field} {map : MapPlan}

theorem entry_lt (hs : b.setup.SoundWith P files) (e : map.Source b field) :
    e.entry.index < b.schema.messages.length :=
  resolve_declares hs e.resolves

theorem sound (hs : b.setup.SoundWith P files) (e : map.Source b field) :
    (map.key.Named ∧ map.key.packages = e.keyType.package?.toList) ∧
      map.value.Named ∧ map.value.packages = e.valueType.package?.toList := by
  have hkey := fieldType_sound hs e.hkeyType
  have hvalue := fieldType_sound hs e.hvalueType
  refine ⟨?_, ?_⟩
  · rw [e.hkey, ← hkey.packages]
    exact hkey.named.unstarred
  · rw [← hvalue.packages]
    rw [e.hvalue]
    split
    · exact ⟨hvalue.named, rfl⟩
    · exact hvalue.named.unstarred

end MapPlan.Source

/-- The fields whose tags stand in that of a field: the field, and the fields of its map. -/
def FieldPlan.tagged (b : Binder) (p : FieldPlan) : List Field :=
  p.field :: match p.map, b.setup.resolve p.field.typeNameText b.file with
    | some _, .ok (.message entry) => (b.schema.message entry).proto.fields
    | _, _ => []

/-- The types that a field of the file names are declared in known files. Where the kind of a field
is that of a scalar, it names none. -/
def Binder.Refers (b : Binder) (known : FileId → Prop) (field : Field) : Prop :=
  ∀ kind object, field.fieldKind = .ok kind → kind.scalar? = none →
    b.setup.resolve field.typeNameText b.file = .ok object → known (b.schema.fileOf object)

/-- The field and the fields of the entry it stands for. -/
def Binder.RefersAll (b : Binder) (known : FileId → Prop) (field : Field) : Prop :=
  b.Refers known field ∧ ∀ entry,
    b.setup.resolve field.typeNameText b.file = .ok (.message entry) →
    (b.schema.message entry).isMapEntry = true →
    ∀ part ∈ (b.schema.message entry).proto.fields, b.Refers known part

/-- The packages are those of known files. -/
def Binder.Known (b : Binder) (known : FileId → Prop) (uses : List String) : Prop :=
  ∀ q ∈ uses, ∃ file, b.setup.PackageOf file q ∧ known file

theorem FieldType.Sound.known {b : Binder} {known : FileId → Prop} {field : Field}
    {t : FieldType} (h : t.Sound b.setup b.file field) (hrefers : b.Refers known field) :
    b.Known known t.package?.toList := by
  intro q hq
  obtain ⟨kind, object, hkind, hscalar, hobject, hpackage⟩ := h.origin q (by simpa using hq)
  exact ⟨_, hpackage, hrefers kind object hkind hscalar hobject⟩

namespace FieldPlan.Made

variable {P : Field → Prop} {b : Binder} {files : List File} {id : MessageId}
  {p : FieldPlan}

section

variable (hs : b.setup.SoundWith P files) (hid : id.index < b.schema.messages.length)
  (h : p.Made b id)

include hs hid h

theorem tagged_declared : ∀ field ∈ p.tagged b, ∃ id', id'.index < b.schema.messages.length ∧
    field ∈ (b.schema.message id').proto.fields := by
  rw [tagged, forall_mem_cons]
  refine ⟨⟨id, hid, h.field⟩, fun field hfield => ?_⟩
  split at hfield
  · rename_i entry _ hentry
    exact ⟨entry, resolve_declares hs hentry, hfield⟩
  · cases hfield

variable (hnames : ∀ field, P field → isIdentifier field.nameText = true)
  (hpackages : ∀ f ∈ files, Unquoted (f.package.getD ""))

include hnames hpackages

/-- The tag of a field holds a raw quote only if a text does that it copies. -/
theorem tag_unquoted_iff : Unquoted p.tag.quoted ↔ ∀ text ∈ p.field.copied, Unquoted text :=
  Tag.unquoted_quoted.trans (fieldTag_unquoted_iff hs hpackages
    (hnames _ (hs.field_plain hid h.field)) h.fieldType h.tag)

theorem structTag_unquoted_iff : Unquoted p.structTag.text ↔
    ∀ field ∈ p.tagged b, ∀ text ∈ field.copied, Unquoted text := by
  have hname := unquoted_of_isIdentifier (hnames _ (hs.field_plain hid h.field))
  have hown : (∀ part ∈ p.ownTags, Unquoted part.1 ∧ Unquoted part.2) ↔
      ∀ text ∈ p.field.copied, Unquoted text := by
    have hkeys : Unquoted "protobuf" ∧ Unquoted "json" := by decide
    have hjson : Unquoted (quote (p.field.nameText ++ ",omitempty")) :=
      (hname.append (by decide)).quote
    rw [← h.tag_unquoted_iff hs hid hnames hpackages]
    simp [ownTags, hkeys, hjson]
  rcases h.map with ⟨hmap, -, -, htag⟩ | ⟨map, e, -, hmap, -, -, htag⟩
  · rw [htag, StructTag.unquoted_text, hown]
    simp [tagged, hmap]
  · have hentry := e.entry_lt hs
    have hmember (field) (hfield : field ∈ [e.key, e.value]) :=
      hnames field (hs.field_plain hentry (e.fields ▸ hfield))
    have hkey :=
      fieldTag_unquoted_iff hs hpackages (hmember _ (by simp)) e.hkeyType e.hkeyTag
    have hvalue :=
      fieldTag_unquoted_iff hs hpackages (hmember _ (by simp)) e.hvalueType e.hvalueTag
    have hkeys : Unquoted "protobuf_key" ∧ Unquoted "protobuf_val" := by decide
    rw [htag, StructTag.unquoted_text, forall_mem_append, hown]
    simp [tagged, hmap, e.resolves, e.fields, MapPlan.Source.tags, hkeys, Tag.unquoted_quoted, hkey,
      hvalue]

end

section

variable (hs : b.setup.Sound files) (hid : id.index < b.schema.messages.length)
  (h : p.Made b id)

include hs hid h

theorem plain : p.field.Plain := hs.field_plain hid h.field

theorem isName : IsName p.name ∧ IsName p.getter := by
  have hcamel : IsName (camelCase p.field.nameText) :=
    isName_of_isIdentifier (isIdentifier_camelCase (h.plain hs hid).name)
  have hget : IsName "Get" := by decide
  obtain ⟨k, hk⟩ := h.name
  obtain ⟨k', hk'⟩ := h.getter
  exact ⟨hk ▸ hcamel.append (isTail_underscores k),
    hk' ▸ (hget.append hcamel.isTail).append (isTail_underscores k')⟩

theorem isName_wrapper (hsome : p.oneof.isSome = true) : IsName p.wrapper := by
  obtain ⟨k, hk⟩ := h.wrapper hsome
  have htype := (hs.schema.message_sound hid).name.isName
  exact hk ▸ ((htype.append (by decide)).append (h.isName hs hid).1.isTail).append
    (isTail_underscores k)

theorem tag_unquoted (htidy : ∀ f ∈ files, f.Tidy) : Unquoted p.tag.quoted :=
  (h.tag_unquoted_iff hs hid (fun _ hplain => hplain.name)
    fun f hf => (htidy f hf).unquoted_package).mpr
      (unquoted_copied (h.plain hs hid) (hs.field_tidy hid h.field htidy))

theorem structTag_unquoted (htidy : ∀ f ∈ files, f.Tidy) : Unquoted p.structTag.text := by
  refine (h.structTag_unquoted_iff hs hid (fun _ hplain => hplain.name)
    fun f hf => (htidy f hf).unquoted_package).mpr fun field hfield => ?_
  obtain ⟨id', hid', hfield⟩ := h.tagged_declared hs hid field hfield
  exact unquoted_copied (hs.field_plain hid' hfield) (hs.field_tidy hid' hfield htidy)

end

section

variable (hs : b.setup.SoundWith P files) (h : p.Made b id)

include hs h

theorem named : p.type.Named ∧ p.fieldType.type.Named ∧
    (∀ q ∈ p.type.packages, q ∈ p.uses) ∧ ∀ q ∈ p.fieldType.type.packages, q ∈ p.uses := by
  have hfield := fieldType_sound hs h.fieldType
  rcases h.map with ⟨-, htype, huses, -⟩ | ⟨map, e, -, -, htype, huses, -⟩
  · rw [htype, huses, hfield.packages]
    exact ⟨hfield.named, hfield.named, fun q hq => hq, fun q hq => hq⟩
  · obtain ⟨⟨hkey, hkeys⟩, hvalue, hvalues⟩ := e.sound hs
    rw [htype, huses, hfield.packages]
    refine ⟨⟨hkey, hvalue⟩, hfield.named, fun q hq => ?_, fun q hq => mem_append_left _ hq⟩
    rw [TypeExpr.packages, hkeys, hvalues] at hq
    exact mem_append_right _ hq

theorem known {known : FileId → Prop} (hrefers : b.RefersAll known p.field) :
    b.Known known p.uses := by
  have hfield := (fieldType_sound hs h.fieldType).known hrefers.1
  rcases h.map with ⟨-, -, huses, -⟩ | ⟨map, e, -, -, -, huses, -⟩
  · exact huses ▸ hfield
  · have hentry := hrefers.2 e.entry e.resolves e.isMapEntry
    rw [e.fields] at hentry
    have hkey := (fieldType_sound hs e.hkeyType).known (hentry e.key (by simp))
    have hvalue := (fieldType_sound hs e.hvalueType).known (hentry e.value (by simp))
    intro q hq
    rw [huses, MapPlan.Source.uses, mem_append, mem_append] at hq
    rcases hq with hq | hq | hq
    · exact hfield q hq
    · exact hkey q hq
    · exact hvalue q hq

end

end FieldPlan.Made

end GoBindings
