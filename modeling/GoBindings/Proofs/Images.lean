import GoBindings.Proofs.Linking

/-!
# Schemas as images of their files

The lists of a schema hold the declarations of the files, all of them and nothing else, and the
numbers in them lead from each declaration to those around it and in it.
-/

namespace GoBindings.Schema

open List

open Descriptor (File Message)

variable {i : Nat} {ι : Type}

/-- Something that is declared and has an entry. -/
def Declares (s : Schema) : Object → Prop
  | .message id => id.index < s.messages.length
  | .enum id => id.index < s.enums.length
  | .extension id => id.index < s.extensions.length
  | .reexport _ => False

theorem hasObject_of_declares {s : Schema} {object : Object} (h : s.Declares object) :
    s.hasObject object = true := by
  cases object with
  | reexport => exact absurd h id
  | _ => exact decide_eq_true h

/-- What a file lists is its own. -/
structure FileNode.Owns (s : Schema) (id : FileId) (f : FileNode) : Prop where
  messages : ∀ m ∈ f.messages, m.index < s.messages.length ∧ (s.message m).file = id
  enums : ∀ e ∈ f.enums, e.index < s.enums.length ∧ (s.enum e).file = id
  extensions : ∀ x ∈ f.extensions, x.index < s.extensions.length ∧ (s.extension x).file = id
  reexports : ∀ r ∈ f.reexports, r.index < s.reexports.length ∧ (s.reexport r).file = id ∧
    s.Declares (s.reexport r).target ∧ s.fileOf (s.reexport r).target ∈ f.dependencies

section Owners

variable {s : Schema} {files : List File} {id : FileId} {f : FileNode}

theorem file_cases (s : Schema) (id : FileId) :
    s.files[id.index]? = some (s.file id) ∨ s.files.length ≤ id.index ∧ s.file id = default := by
  cases h : s.files[id.index]? with
  | none =>
    refine .inr ⟨getElem?_eq_none_iff.mp h, ?_⟩
    rw [file, getD_eq_getElem?_getD, h]
    rfl
  | some f => exact .inl (by rw [file_eq_of_getElem? h])

theorem FileNode.Mirrors.extension (h : f.Mirrors s id) {x : ExtensionId} (hx : x ∈ f.extensions) :
    ∃ field ∈ f.proto.extensions, s.extension x = ⟨field, id, none, [field.name.getD ""]⟩ := by
  have hmem : s.extension x ∈ f.extensions.map s.extension := mem_map_of_mem hx
  rw [h.extensionEntries] at hmem
  obtain ⟨field, hfield, heq⟩ := mem_map.mp hmem
  exact ⟨field, hfield, heq.symm⟩

theorem MessageNode.Mirrors.extension {messages : List MessageId} {enums : List EnumId}
    {owner : FileId} {id : MessageId} {m : MessageNode} (h : m.Mirrors s messages enums owner id)
    {x : ExtensionId} (hx : x ∈ m.extensions) : ∃ field ∈ m.proto.extensions,
      s.extension x = ⟨field, owner, some id, m.typeName ++ [field.name.getD ""]⟩ := by
  have hmem : s.extension x ∈ m.extensions.map s.extension := mem_map_of_mem hx
  rw [h.extensionEntries] at hmem
  obtain ⟨field, hfield, heq⟩ := mem_map.mp hmem
  exact ⟨field, hfield, heq.symm⟩

namespace Mirrors

variable {mk : Nat → ι} {list : FileNode → List ι}

theorem publicObjects_declared (hs : s.Mirrors files) (id : FileId) :
    ∀ object ∈ s.publicObjects id, s.Declares object ∧ s.fileOf object = id := by
  rcases s.file_cases id with hf | ⟨-, hdefault⟩
  · have hfile := (hs.files _ _ hf).1
    intro object ho
    simp only [publicObjects, mem_append, mem_map, mem_filter] at ho
    rcases ho with (⟨m, ⟨hm, -⟩, rfl⟩ | ⟨e, he, rfl⟩) | ⟨x, hx, rfl⟩
    · exact ⟨(hfile.messages m hm).1, (hfile.messages m hm).2.file⟩
    · exact ⟨(hfile.enums e he).1, (hfile.enums e he).2.1⟩
    · obtain ⟨field, -, heq⟩ := hfile.extension hx
      exact ⟨hfile.extensions x hx, by rw [fileOf, heq]⟩
  · simp only [publicObjects, hdefault]
    exact fun object ho => by cases ho

theorem reexport_lt (hs : s.Mirrors files) (hf : f ∈ s.files) {r : ReexportId}
    (hr : r ∈ f.reexports) : r.index < s.reexports.length := by
  have hmem : r ∈ s.files.flatMap (·.reexports) := mem_flatMap.mpr ⟨f, hf, hr⟩
  rw [hs.reexports] at hmem
  obtain ⟨n, hn, rfl⟩ := mem_map.mp hmem
  exact mem_range.mp hn

theorem dependency_lt (hs : s.Mirrors files) (hf : s.files[i]? = some f) {d : FileId}
    (hd : d ∈ f.dependencies) : d.index < s.files.length := by
  obtain ⟨name, -, hname⟩ := exists_of_mem_forall₂ (hs.files i f hf).2.dependencies.flip hd
  obtain ⟨g, hg, -⟩ := hs.named name d hname
  exact (List.getElem?_eq_some_iff.mp hg).1

theorem reexport (hs : s.Mirrors files) (hf : s.files[i]? = some f) {r : ReexportId}
    (hr : r ∈ f.reexports) : (s.reexport r).file = ⟨i⟩ ∧ s.Declares (s.reexport r).target ∧
      s.fileOf (s.reexport r).target ∈ f.dependencies := by
  obtain ⟨publics, hpublics, hreexports⟩ := (hs.files i f hf).2.reexports
  have hmem : s.reexport r ∈ f.reexports.map s.reexport := mem_map_of_mem hr
  rw [hreexports] at hmem
  obtain ⟨target, htarget, heq⟩ := mem_map.mp hmem
  obtain ⟨d, hd, htarget⟩ := mem_flatMap.mp htarget
  obtain ⟨hdeclares, hfile⟩ := hs.publicObjects_declared d target htarget
  obtain ⟨index, -, hindex⟩ := exists_of_mem_forall₂ hpublics.flip hd
  rw [← heq]
  exact ⟨rfl, hdeclares, hfile.symm ▸ mem_of_entryAt? hindex⟩

theorem owns_file (hs : s.Mirrors files) (id : FileId) : (s.file id).Owns s id := by
  rcases s.file_cases id with hf | ⟨-, hdefault⟩
  · have hfile := (hs.files _ _ hf).1
    refine ⟨fun m hm => ?_, fun e he => ?_, fun x hx => ?_, fun r hr => ?_⟩
    · exact ⟨(hfile.messages m hm).1, (hfile.messages m hm).2.file⟩
    · exact ⟨(hfile.enums e he).1, (hfile.enums e he).2.1⟩
    · obtain ⟨field, -, heq⟩ := hfile.extension hx
      exact ⟨hfile.extensions x hx, by rw [heq]⟩
    · exact ⟨hs.reexport_lt (mem_of_getElem? hf) hr, hs.reexport hf hr⟩
  · rw [hdefault]
    constructor <;> exact fun _ h => by cases h

private theorem exists_listing {n k : Nat} (h : s.files.flatMap list = (range n).map mk)
    (hk : k < n) : ∃ (i : Nat) (f : FileNode), s.files[i]? = some f ∧ mk k ∈ list f := by
  have hmem : mk k ∈ s.files.flatMap list :=
    h ▸ mem_map.mpr ⟨k, mem_range.mpr hk, rfl⟩
  obtain ⟨f, hf, hid⟩ := mem_flatMap.mp hmem
  obtain ⟨i, hi⟩ := mem_iff_getElem?.mp hf
  exact ⟨i, f, hi, hid⟩

theorem exists_message (hs : s.Mirrors files) (id : MessageId) (h : id.index < s.messages.length) :
    ∃ (i : Nat) (f : FileNode), s.files[i]? = some f ∧ id ∈ f.messages :=
  exists_listing hs.messages h

theorem exists_enum (hs : s.Mirrors files) (id : EnumId) (h : id.index < s.enums.length) :
    ∃ (i : Nat) (f : FileNode), s.files[i]? = some f ∧ id ∈ f.enums :=
  exists_listing hs.enums h

theorem exists_extension (hs : s.Mirrors files) (id : ExtensionId)
    (h : id.index < s.extensions.length) : ∃ (i : Nat) (f : FileNode), s.files[i]? = some f ∧
      ((∃ m ∈ f.messages, id ∈ (s.message m).extensions) ∨ id ∈ f.extensions) := by
  obtain ⟨i, f, hf, hid⟩ := exists_listing hs.extensions h
  exact ⟨i, f, hf, (mem_append.mp hid).imp_left mem_flatMap.mp⟩

theorem exists_reexport (hs : s.Mirrors files) (id : ReexportId)
    (h : id.index < s.reexports.length) :
    ∃ (i : Nat) (f : FileNode), s.files[i]? = some f ∧ id ∈ f.reexports :=
  exists_listing hs.reexports h

end Mirrors

end Owners

/-- Every number in a schema leads to an entry. -/
structure Closed (s : Schema) : Prop where
  files : ∀ f ∈ s.files, (∀ d ∈ f.dependencies, d.index < s.files.length) ∧
    (∀ m ∈ f.messages, s.hasObject (.message m) = true) ∧
    (∀ e ∈ f.enums, s.hasObject (.enum e) = true) ∧
    (∀ x ∈ f.extensions, s.hasObject (.extension x) = true) ∧
    ∀ r ∈ f.reexports, s.hasObject (.reexport r) = true
  messages : ∀ m ∈ s.messages, m.file.index < s.files.length ∧
    (∀ p ∈ m.parent, s.hasObject (.message p) = true) ∧
    (∀ n ∈ m.nested, s.hasObject (.message n) = true) ∧
    (∀ e ∈ m.enums, s.hasObject (.enum e) = true) ∧
    ∀ x ∈ m.extensions, s.hasObject (.extension x) = true
  enums : ∀ e ∈ s.enums, e.file.index < s.files.length ∧
    ∀ p ∈ e.parent, s.hasObject (.message p) = true
  extensions : ∀ x ∈ s.extensions, x.file.index < s.files.length ∧
    ∀ p ∈ x.parent, s.hasObject (.message p) = true
  reexports : ∀ r ∈ s.reexports, r.file.index < s.files.length ∧ s.hasObject r.target = true
  byName : ∀ name id, s.byName.get? name = some id → id.index < s.files.length

section Closing

variable {s : Schema} {files : List File}

private theorem getD_getElem {α : Type} {l : List α} (hi : i < l.length) (a : α) :
    l.getD i a = l[i] := by
  rw [getD_eq_getElem?_getD, getElem?_eq_getElem hi]
  rfl

theorem Mirrors.closed (hs : s.Mirrors files) : s.Closed := by
  have hlt {i : Nat} {f : FileNode} (hf : s.files[i]? = some f) : i < s.files.length :=
    (List.getElem?_eq_some_iff.mp hf).1
  have hmessage {i : Nat} {f : FileNode} (hf : s.files[i]? = some f) {m : MessageId}
      (hm : m ∈ f.messages) : s.hasObject (.message m) = true :=
    decide_eq_true ((hs.files i f hf).1.messages m hm).1
  have henum {i : Nat} {f : FileNode} (hf : s.files[i]? = some f) {e : EnumId}
      (he : e ∈ f.enums) : s.hasObject (.enum e) = true :=
    decide_eq_true ((hs.files i f hf).1.enums e he).1
  refine ⟨fun f hf => ?_, fun m hm => ?_, fun e he => ?_, fun x hx => ?_, fun r hr => ?_,
    fun name id hid => ?_⟩
  · obtain ⟨i, hi⟩ := mem_iff_getElem?.mp hf
    refine ⟨fun d hd => hs.dependency_lt hi hd, fun m hm => hmessage hi hm,
      fun e he => henum hi he, fun x hx => decide_eq_true ((hs.files i f hi).1.extensions x hx),
      fun r hr => decide_eq_true (hs.reexport_lt hf hr)⟩
  · obtain ⟨n, hn, rfl⟩ := mem_iff_getElem.mp hm
    obtain ⟨i, f, hf, hid⟩ := hs.exists_message ⟨n⟩ hn
    have hmirrors := ((hs.files i f hf).1.messages _ hid).2
    rw [message, getD_getElem hn] at hmirrors
    refine ⟨hmirrors.file ▸ hlt hf, fun p hp => hmessage hf (hmirrors.parent p hp).1,
      fun c hc => hmessage hf (hmirrors.nested hc), fun e he => henum hf (hmirrors.enums he),
      fun x hx => decide_eq_true (hmirrors.extensions x hx)⟩
  · obtain ⟨n, hn, rfl⟩ := mem_iff_getElem.mp he
    obtain ⟨i, f, hf, hid⟩ := hs.exists_enum ⟨n⟩ hn
    obtain ⟨-, hfile, hparent⟩ := (hs.files i f hf).1.enums _ hid
    rw [enum, getD_getElem hn] at hfile hparent
    exact ⟨hfile ▸ hlt hf, fun p hp => hmessage hf (hparent p hp).1⟩
  · obtain ⟨n, hn, rfl⟩ := mem_iff_getElem.mp hx
    obtain ⟨i, f, hf, ⟨m, hm, hid⟩ | hid⟩ := hs.exists_extension ⟨n⟩ hn
    · obtain ⟨field, -, heq⟩ := ((hs.files i f hf).1.messages m hm).2.extension hid
      rw [extension, getD_getElem hn] at heq
      rw [heq]
      exact ⟨hlt hf, fun p hp => Option.some.inj hp ▸ hmessage hf hm⟩
    · obtain ⟨field, -, heq⟩ := (hs.files i f hf).1.extension hid
      rw [extension, getD_getElem hn] at heq
      rw [heq]
      exact ⟨hlt hf, fun p hp => by cases hp⟩
  · obtain ⟨n, hn, rfl⟩ := mem_iff_getElem.mp hr
    obtain ⟨i, f, hf, hid⟩ := hs.exists_reexport ⟨n⟩ hn
    obtain ⟨hfile, hdeclares, -⟩ := hs.reexport hf hid
    rw [Schema.reexport, getD_getElem hn] at hfile hdeclares
    exact ⟨hfile ▸ hlt hf, hasObject_of_declares hdeclares⟩
  · obtain ⟨f, hf, -⟩ := hs.named name id hid
    exact hlt hf

/-- A schema can be made of files exactly if their imports can be found. It has no numbers that
lead nowhere, and it is an image of the files. -/
theorem ofFiles_image (files : List File) :
    ((∃ s, ofFiles files = .ok s) ↔ ∀ f ∈ files, f.Linkable files) ∧
      (∀ sort name, ofFiles files ≠ .error (.nestingMismatch sort name)) ∧
      ∀ s, ofFiles files = .ok s → s.Closed ∧ s.Mirrors files := by
  refine ⟨exists_ofFiles_iff files, fun sort name h => ?_, fun s h => ?_⟩
  · rcases ofFiles_error h with ⟨_, h⟩ | ⟨_, _, h⟩ <;> cases h
  · exact ⟨(ofFiles_mirrors h).closed, ofFiles_mirrors h⟩

/-- A message in a message, passed on by another file. -/
def nestedFiles : List File :=
  [{ name := some "a.proto",
     messages := [{ name := some "Outer", nested := [{ name := some "Inner" }] }] },
   { name := some "b.proto", dependencies := ["a.proto"], publicDependencies := [0] }]

theorem ofFiles_image_nested :
    ∃ s, ofFiles nestedFiles = .ok s ∧ s.Closed ∧ s.Mirrors nestedFiles := by
  have hlinkable : ∀ f ∈ nestedFiles, f.Linkable nestedFiles := by
    simp [nestedFiles, File.Linkable]
  obtain ⟨s, h⟩ := (ofFiles_image nestedFiles).1.mpr hlinkable
  exact ⟨s, h, (ofFiles_image nestedFiles).2.2 s h⟩

end Closing

end GoBindings.Schema
