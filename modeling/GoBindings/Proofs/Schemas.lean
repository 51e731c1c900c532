import GoBindings.Field.Kind
import GoBindings.Proofs.Packages
import GoBindings.Proofs.Resolution
import GoBindings.Setup

/-!
# Schemas of plain files

In a plain file all names are identifiers and the defaults of fields are constants of Go. The
schema of such files has plain entries only, and the numbers in it lead to entries.
-/

namespace GoBindings

open List Descriptor

namespace Descriptor

/-- The defaults of numbers and truth values are constants of Go. -/
def DefaultFits (value : String) : FieldKind → Prop
  | .bool => value = "true" ∨ value = "false"
  | .string | .bytes | .group | .message | .enum => True
  | _ => Go.IsNumber value ∨ value ∈ ["inf", "-inf", "nan"]

/-- A field whose name is an identifier and whose default is right for its kind. -/
structure Field.Spelled (f : Field) : Prop where
  name : isIdentifier f.nameText = true
  default : ∀ kind value, f.fieldKind = .ok kind → f.defaultValue = some value →
    DefaultFits value kind

/-- A field that has no message as its default. -/
structure Field.Literal (f : Field) : Prop extends f.Spelled where
  typed : f.fieldKind = .ok .group ∨ f.fieldKind = .ok .message → f.defaultValue = none

/-- A field that has no list of texts as its default either. All other defaults that are written to
generated code as they are fit there. -/
structure Field.Plain (f : Field) : Prop extends f.Literal where
  single : f.fieldKind = .ok .string ∨ f.fieldKind = .ok .bytes → f.isRepeated = true →
    f.defaultValue.getD "" = ""

structure Enum.Plain (e : Enum) : Prop where
  name : isIdentifier (e.name.getD "") = true
  values : ∀ v ∈ e.values, isIdentifier (v.name.getD "") = true

/-- A message with identifiers for names and with certain fields. -/
structure Message.PlainWith (P : Field → Prop) (m : Message) : Prop where
  name : isIdentifier (m.name.getD "") = true
  fields : ∀ f ∈ m.fields, P f
  enums : ∀ e ∈ m.enums, e.Plain
  extensions : ∀ x ∈ m.extensions, isIdentifier x.nameText = true
  oneofs : ∀ o ∈ m.oneofs, isIdentifier (o.name.getD "") = true

structure File.PlainWith (P : Field → Prop) (f : File) : Prop where
  messages : ∀ m ∈ f.allMessages, m.PlainWith P
  enums : ∀ e ∈ f.enums, e.Plain
  extensions : ∀ x ∈ f.extensions, isIdentifier x.nameText = true

abbrev File.Plain : File → Prop := File.PlainWith Field.Plain

section Decidable

instance (value : String) (kind : FieldKind) : Decidable (DefaultFits value kind) := by
  cases kind <;> (unfold DefaultFits; infer_instance)

instance (f : Field) : Decidable f.Spelled :=
  decidable_of_iff (isIdentifier f.nameText = true ∧
      ∀ kind ∈ f.fieldKind.toOption, ∀ value ∈ f.defaultValue, DefaultFits value kind) <| by
    refine ⟨fun ⟨hname, h⟩ => ⟨hname, fun kind value hkind hvalue => ?_⟩, fun h => ⟨h.name, ?_⟩⟩
    · exact h kind (by simp [hkind, Except.toOption]) value hvalue
    · intro kind hkind value hvalue
      cases hf : f.fieldKind with
      | error e => simp [hf, Except.toOption] at hkind
      | ok kind' =>
        obtain rfl : kind' = kind := by simpa [hf, Except.toOption] using hkind
        exact h.default _ _ hf hvalue

instance (f : Field) : Decidable f.Literal :=
  decidable_of_iff (f.Spelled ∧ (f.fieldKind = .ok .group ∨ f.fieldKind = .ok .message →
      f.defaultValue = none)) ⟨fun h => ⟨h.1, h.2⟩, fun h => ⟨h.toSpelled, h.typed⟩⟩

instance (f : Field) : Decidable f.Plain :=
  decidable_of_iff (f.Literal ∧ (f.fieldKind = .ok .string ∨ f.fieldKind = .ok .bytes →
      f.isRepeated = true → f.defaultValue.getD "" = ""))
    ⟨fun h => ⟨h.1, h.2⟩, fun h => ⟨h.toLiteral, h.single⟩⟩

instance (e : Enum) : Decidable e.Plain :=
  decidable_of_iff (isIdentifier (e.name.getD "") = true ∧
      ∀ v ∈ e.values, isIdentifier (v.name.getD "") = true)
    ⟨fun h => ⟨h.1, h.2⟩, fun h => ⟨h.name, h.values⟩⟩

variable {P : Field → Prop} [DecidablePred P]

instance (m : Message) : Decidable (m.PlainWith P) :=
  decidable_of_iff (isIdentifier (m.name.getD "") = true ∧ (∀ f ∈ m.fields, P f) ∧
      (∀ e ∈ m.enums, e.Plain) ∧ (∀ x ∈ m.extensions, isIdentifier x.nameText = true) ∧
      ∀ o ∈ m.oneofs, isIdentifier (o.name.getD "") = true)
    ⟨fun ⟨h₁, h₂, h₃, h₄, h₅⟩ => ⟨h₁, h₂, h₃, h₄, h₅⟩,
      fun h => ⟨h.name, h.fields, h.enums, h.extensions, h.oneofs⟩⟩

instance (f : File) : Decidable (f.PlainWith P) :=
  decidable_of_iff ((∀ m ∈ f.allMessages, m.PlainWith P) ∧ (∀ e ∈ f.enums, e.Plain) ∧
      ∀ x ∈ f.extensions, isIdentifier x.nameText = true)
    ⟨fun ⟨h₁, h₂, h₃⟩ => ⟨h₁, h₂, h₃⟩, fun h => ⟨h.messages, h.enums, h.extensions⟩⟩

end Decidable

end Descriptor

namespace Schema

variable {scope : List String}

/-- A name with its scope. -/
def PlainName (typeName : List String) : Prop :=
  typeName ≠ [] ∧ ∀ name ∈ typeName, isIdentifier name = true

theorem PlainName.isName {typeName : List String} (h : PlainName typeName) :
    Go.IsName (Go.camelCaseScope typeName) :=
  Go.isName_of_isIdentifier (Go.isIdentifier_camelCaseScope h.1 h.2)

theorem PlainName.concat {name : String} (hscope : ∀ n ∈ scope, isIdentifier n = true)
    (h : isIdentifier name = true) : PlainName (scope ++ [name]) := by
  refine ⟨by simp, fun n hn => ?_⟩
  rcases mem_append.mp hn with hn | hn
  · exact hscope n hn
  · rwa [mem_singleton.mp hn]

/-- An entry of a message with plain names and certain fields. -/
structure MessageNode.SoundWith (P : Field → Prop) (s : Schema) (m : MessageNode) :
    Prop where
  plain : m.proto.PlainWith P
  name : PlainName m.typeName
  extensions : ∀ x ∈ m.extensions, x.index < s.extensions.length ∧ (s.extension x).file = m.file

structure EnumNode.Sound (e : EnumNode) : Prop where
  plain : e.proto.Plain
  name : PlainName e.typeName
  scope : e.parent ≠ none → PlainName e.typeName.dropLast

/-- A schema made of files with plain names and certain fields. -/
structure SoundWith (P : Field → Prop) (files : List File) (s : Schema) :
    Prop where
  mirrors : s.Mirrors files
  plain : ∀ f ∈ files, f.PlainWith P

section Lookup

variable {P : Field → Prop} {s : Schema} {files : List File}
variable {id : MessageId}

theorem Place.mem_row {δ : Type} {name : δ → Option String} {parent : Option MessageId}
    {index : Nat} {ds : List δ} {p : Place δ} (h : p ∈ Place.row name parent scope index ds) :
    p.proto ∈ ds ∧ p.typeName = scope ++ [(name p.proto).getD ""] := by
  obtain ⟨⟨d, i⟩, hd, rfl⟩ := mem_map.mp h
  exact ⟨(mem_zipIdx hd).2.2 ▸ getElem_mem _, rfl⟩

namespace SoundWith

variable (hs : s.SoundWith P files)

include hs

theorem protos : ∀ f ∈ s.files, f.proto ∈ files :=
  fun _ hf => hs.mirrors.protos ▸ mem_map_of_mem hf

theorem owns_file (id : FileId) : (s.file id).Owns s id :=
  hs.mirrors.owns_file id

theorem file_cases (id : FileId) :
    (s.file id).proto ∈ files ∨ s.file id = default :=
  (s.file_cases id).imp (fun hf => hs.protos _ (mem_of_getElem? hf)) (·.2)

theorem origin (h : id.index < s.messages.length) :
    ∃ f ∈ files, (s.message id).proto ∈ f.allMessages := by
  obtain ⟨i, f, hf, hid⟩ := hs.mirrors.exists_message id h
  refine ⟨f.proto, hs.protos f (mem_of_getElem? hf), ?_⟩
  rw [← (hs.mirrors.files i f hf).1.preorder]
  exact mem_map_of_mem hid

theorem message_plain (h : id.index < s.messages.length) :
    (s.message id).proto.PlainWith P := by
  obtain ⟨f, hf, hproto⟩ := hs.origin h
  exact (hs.plain f hf).messages _ hproto

theorem message_name (h : id.index < s.messages.length) :
    PlainName (s.message id).typeName := by
  -- The message around it has a lower number.
  induction hn : id.index using Nat.strong_induction_on generalizing id with
  | _ n ih =>
    obtain ⟨i, f, hf, hid⟩ := hs.mirrors.exists_message id h
    have hfile := (hs.mirrors.files i f hf).1
    have hplain := hs.message_plain h
    cases hparent : (s.message id).parent with
    | none =>
      have hmem : (s.message id).place ∈ (f.messages.filter fun m =>
          (s.message m).parent = none).map fun m => (s.message m).place :=
        mem_map_of_mem
          (mem_filter.mpr ⟨hid, decide_eq_true hparent⟩)
      rw [hfile.messagePlaces] at hmem
      have hname : (s.message id).typeName = _ := (Place.mem_row hmem).2
      rw [hname]
      exact .concat (by simp) hplain.name
    | some p =>
      obtain ⟨hp, hlt, hnested⟩ := (hfile.messages id hid).2.parent p hparent
      obtain ⟨hrange, hmirrors⟩ := hfile.messages p hp
      have hmem : (s.message id).place ∈
          (s.message p).nested.map fun n => (s.message n).place :=
        mem_map_of_mem hnested
      rw [hmirrors.nestedPlaces] at hmem
      have hname : (s.message id).typeName = _ := (Place.mem_row hmem).2
      rw [hname]
      exact .concat (ih p.index (hn ▸ hlt) hrange rfl).2 hplain.name

theorem message_sound {id : MessageId}
    (h : id.index < s.messages.length) : (s.message id).SoundWith P s where
  plain := hs.message_plain h
  name := hs.message_name h
  extensions x hx := by
    obtain ⟨i, f, hf, hid⟩ := hs.mirrors.exists_message id h
    have hmirrors := ((hs.mirrors.files i f hf).1.messages id hid).2
    obtain ⟨field, -, heq⟩ := hmirrors.extension hx
    exact ⟨hmirrors.extensions x hx, by rw [heq, hmirrors.file]⟩

theorem enum_sound {id : EnumId}
    (h : id.index < s.enums.length) : (s.enum id).Sound := by
  obtain ⟨i, f, hf, hid⟩ := hs.mirrors.exists_enum id h
  have hfile := (hs.mirrors.files i f hf).1
  cases hparent : (s.enum id).parent with
  | none =>
    have hmem : (s.enum id).place ∈ (f.enums.filter fun e =>
        (s.enum e).parent = none).map fun e => (s.enum e).place :=
      mem_map_of_mem
        (mem_filter.mpr ⟨hid, decide_eq_true hparent⟩)
    rw [hfile.enumPlaces] at hmem
    obtain ⟨hproto, hname⟩ := Place.mem_row hmem
    have hplain := (hs.plain _ (hs.protos f (mem_of_getElem? hf))).enums _ hproto
    have hname : (s.enum id).typeName = _ := hname
    refine ⟨hplain, ?_, fun h => absurd hparent h⟩
    rw [hname]
    exact .concat (by simp) hplain.name
  | some p =>
    obtain ⟨hp, henum⟩ := (hfile.enums id hid).2.2 p hparent
    obtain ⟨hrange, hmirrors⟩ := hfile.messages p hp
    have hmem : (s.enum id).place ∈ (s.message p).enums.map fun e => (s.enum e).place :=
      mem_map_of_mem henum
    rw [hmirrors.enumPlaces] at hmem
    obtain ⟨hproto, hname⟩ := Place.mem_row hmem
    have hplain := (hs.message_plain hrange).enums _ hproto
    have hscope := hs.message_name hrange
    have hname : (s.enum id).typeName = _ := hname
    refine ⟨hplain, ?_, fun _ => ?_⟩
    · rw [hname]
      exact .concat hscope.2 hplain.name
    · rw [hname]
      simpa using hscope

theorem extension_name {id : ExtensionId}
    (h : id.index < s.extensions.length) : PlainName (s.extension id).typeName := by
  obtain ⟨i, f, hf, ⟨m, hm, hid⟩ | hid⟩ := hs.mirrors.exists_extension id h
  · obtain ⟨hrange, hmirrors⟩ := (hs.mirrors.files i f hf).1.messages m hm
    obtain ⟨field, hfield, heq⟩ := hmirrors.extension hid
    rw [heq]
    exact .concat (hs.message_name hrange).2 ((hs.message_plain hrange).extensions field hfield)
  · obtain ⟨field, hfield, heq⟩ := (hs.mirrors.files i f hf).1.extension hid
    rw [heq]
    exact .concat (by simp : ∀ n ∈ ([] : List String), _)
      ((hs.plain _ (hs.protos f (mem_of_getElem? hf))).extensions field hfield)

theorem declared_name {object : Object}
    (h : s.Declares object) : PlainName (s.declaredName object) := by
  cases object with
  | message id => exact hs.message_name h
  | enum id => exact (hs.enum_sound h).name
  | extension id => exact hs.extension_name h
  | reexport => exact absurd h id

end SoundWith

end Lookup

end Schema

namespace Setup

open Schema

variable {r : Request}

/-- The setup of a run over files with plain names and certain fields. -/
structure SoundWith (P : Field → Prop) (files : List File) (s : Setup) :
    Prop where
  schema : s.schema.SoundWith P files
  types : s.types = s.schema.typeTable
  packages : s.packages.Sound s.generated s.packageName
  support : ∀ key ∈ supportPackages,
    PackageNames.Holds s.generated s.packages (.support key) (s.packages.supportName key)

abbrev Sound : List File → Setup → Prop := SoundWith Field.Plain

theorem map_numberFiles {α : Type} {g : FileNode → α} (hg : ∀ f index, g { f with index } = g f)
    (files : List FileNode) (index : Nat) (ids : List FileId) :
    (numberFiles files index ids).map g = files.map g := by
  induction ids generalizing files index with
  | nil => rfl
  | cons id ids ih =>
    rw [numberFiles, ih]
    refine ext_getElem? fun i => ?_
    rw [getElem?_map, getElem?_map, getElem?_modify]
    cases files[i]? with
    | none => rfl
    | some f =>
      by_cases h : id.index = i
      · simp [h, hg]
      · simp [h]

theorem mirrors_numberFiles {schema : Schema} {files : List File}
    (h : schema.Mirrors files) (index : Nat) (ids : List FileId) :
    Schema.Mirrors files { schema with files := numberFiles schema.files index ids } := by
  have hmap {α : Type} {g : FileNode → α} (hg : ∀ f index, g { f with index } = g f) :=
    map_numberFiles hg schema.files index ids
  have hfile {i : Nat} {f : FileNode} (hf : (numberFiles schema.files index ids)[i]? = some f) :
      ∃ g n, schema.files[i]? = some g ∧ f = { g with index := n } := by
    have hget := congrArg (·[i]?) (hmap (g := fun f => { f with index := 0 }) fun _ _ => rfl)
    simp only [getElem?_map, hf] at hget
    obtain ⟨g, hg, heq⟩ := Option.map_eq_some_iff.mp hget.symm
    refine ⟨g, f.index, hg, ?_⟩
    simp_all
  have hobjects : publicObjects { schema with files := numberFiles schema.files index ids } =
      schema.publicObjects :=
    publicObjects_congr rfl (hmap fun _ _ => rfl)
  have hflat {α : Type} {g : FileNode → List α} (hg : ∀ f index, g { f with index } = g f) :
      (numberFiles schema.files index ids).flatMap g = schema.files.flatMap g := by
    rw [flatMap_def, flatMap_def, hmap hg]
  refine ⟨(hmap fun _ _ => rfl).trans h.protos, fun i f hf => ?_,
    (hflat fun _ _ => rfl).trans h.messages, (hflat fun _ _ => rfl).trans h.enums,
    (hflat fun _ _ => rfl).trans h.extensions, (hflat fun _ _ => rfl).trans h.reexports,
    fun name id hid => ?_, fun f hf => ?_⟩
  · obtain ⟨g, n, hg, rfl⟩ := hfile hf
    obtain ⟨hmirrors, hdependencies, publics, hpublics, hreexports⟩ := h.files i g hg
    have hgrows : Grows schema { schema with files := numberFiles schema.files index ids } :=
      ⟨prefix_rfl, prefix_rfl, prefix_rfl, prefix_rfl⟩
    refine ⟨(hmirrors.grow hgrows).congr rfl, hdependencies, publics, hpublics, ?_⟩
    rw [hobjects]
    exact hreexports
  · obtain ⟨g, hg, rfl⟩ := h.named name id hid
    have hget := congrArg (·[id.index]?) (hmap (g := FileNode.name) fun _ _ => rfl)
    simp only [getElem?_map, hg] at hget
    exact Option.map_eq_some_iff.mp hget
  · obtain ⟨i, hi⟩ := mem_iff_getElem?.mp hf
    obtain ⟨g, n, hg, rfl⟩ := hfile hi
    exact h.found g (mem_of_getElem? hg)

theorem ofRequest_eq_ok {s : Setup} (h : ofRequest r = .ok s) :
    ∃ schema, Schema.ofFiles r.files = .ok schema ∧
      r.filesToGenerate.mapM schema.fileNamed = .ok s.generated ∧
      s.schema = { schema with files := numberFiles schema.files 0 s.generated } ∧
      assignPackageNames s.schema s.generated s.parameters = .ok (s.packages, s.packageName) ∧
      s.types = s.schema.typeTable ∧ s.parameters = Parameters.parse (r.parameter.getD "") := by
  rw [ofRequest] at h
  split at h
  · cases h
  · simp only [steps_eq_ok] at h
    obtain ⟨schema, hschema, generated, hgenerated, ⟨packages, packageName⟩, hassign, rfl⟩ := h
    exact ⟨schema, hschema, hgenerated, rfl, hassign, rfl, rfl⟩

/-- The way of compression has no part in the rest of a setup. -/
theorem ofRequest_compress {compress : List UInt8 → List UInt8} {s : Setup}
    (h : ofRequest r compress = .ok s) :
    s.compress = compress ∧ ofRequest r = .ok { s with compress := Gzip.compress } := by
  rw [ofRequest] at h
  split at h
  · cases h
  · rename_i hasked
    simp only [steps_eq_ok] at h
    obtain ⟨schema, hschema, generated, hgenerated, names, hassign, rfl⟩ := h
    refine ⟨rfl, ?_⟩
    rw [ofRequest, if_neg hasked]
    simp only [steps_eq_ok]
    exact ⟨schema, hschema, generated, hgenerated, names, hassign, rfl⟩

theorem ofRequest_sound {P : Field → Prop} {s : Setup} (h : ofRequest r = .ok s)
    (hplain : ∀ f ∈ r.files, f.PlainWith P) : s.SoundWith P r.files := by
  obtain ⟨schema, hschema, -, heq, hassign, htypes, -⟩ := ofRequest_eq_ok h
  obtain ⟨hpackages, hsupport⟩ := assignPackageNames_sound hassign
  refine ⟨?_, htypes, hpackages, hsupport⟩
  rw [heq]
  exact ⟨mirrors_numberFiles (ofFiles_mirrors hschema) 0 _, hplain⟩

variable {P : Field → Prop} {s : Setup} {files : List File} {file : FileId}
  {package : String}

theorem SoundWith.of_generated (hs : s.SoundWith P files) (hfile : s.isGenerated file = true)
    (h : s.packages.of file = .ok package) : package = s.packageName :=
  (hs.packages.eq_package_iff h).mpr (by simpa [isGenerated] using hfile)

theorem SoundWith.of_foreign (hs : s.SoundWith P files) (hfile : s.isGenerated file = false)
    (h : s.packages.of file = .ok package) : package ≠ s.packageName :=
  fun heq => by simp [isGenerated, (hs.packages.eq_package_iff h).mp heq] at hfile

end Setup

end GoBindings
