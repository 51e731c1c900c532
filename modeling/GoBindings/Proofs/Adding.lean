import GoBindings.Proofs.Dicts
import GoBindings.Proofs.Forests
import GoBindings.Schema.Resolve
import Mathlib.Data.List.Nodup
import Mathlib.Data.List.Range

/-!
# Adding files to a schema

Adding a file never fails: every message finds as many messages and enums in it as its descriptor
declares. The entries of the file then mirror the descriptor.
-/

namespace GoBindings.Schema

open List

open Descriptor (File Message)

variable {α ι β : Type} {owner : FileId} {es : List (ι × α)}

section Adding

variable (s : Schema) (f : File)
variable {e : MessageEntry}

def contextOf : Context :=
  { file := ⟨s.files.length⟩, package := f.package.getD "",
    proto3 := f.syntaxName.getD "" = "proto3" }

/-- The entries of the messages of a file that comes next, without what is nested in them. -/
def newMessages : List MessageEntry :=
  withExtensions s.extensions.length
    (messageListNodes (s.contextOf f) none s.messages.length 0 f.messages)

def newEnums : List (EnumId × EnumNode) :=
  (enumNodes (s.contextOf f) none 0 f.enums ++ (s.newMessages f).flatMap fun m =>
    enumNodes (s.contextOf f) (some m) 0 m.2.proto.enums).mapIdx fun i e =>
      (EnumId.mk (s.enums.length + i), e)

def nestedExtensions : List ExtensionNode :=
  (s.newMessages f).flatMap fun m => extensionNodes (s.contextOf f) (some m) m.2.proto.extensions

def ownExtensions : List ExtensionNode := extensionNodes (s.contextOf f) none f.extensions

/-- A message with what is nested in it. -/
def filled (e : MessageEntry) : MessageNode :=
  { e.2 with
    nested := nestedIn (s.newMessages f) e.1, enums := enumsIn (s.newEnums f) e.1 }

def newFile : FileNode :=
  { proto := f, messages := (s.newMessages f).map (·.1), enums := (s.newEnums f).map (·.1),
    extensions := (range' (s.extensions.length + (s.nestedExtensions f).length)
      (s.ownExtensions f).length).map ExtensionId.mk,
    comments := commentsOf f, proto3 := f.syntaxName.getD "" = "proto3" }

def added : Schema :=
  { files := s.files ++ [s.newFile f]
    messages := s.messages ++ (s.newMessages f).map (s.filled f)
    enums := s.enums ++ (s.newEnums f).map (·.2)
    extensions := s.extensions ++ s.nestedExtensions f ++ s.ownExtensions f
    reexports := s.reexports
    byName := s.byName.insert (f.name.getD "") ⟨s.files.length⟩ }

variable {s f}

theorem newMessages_forest (s : Schema) (f : File) :
    Forest (s.contextOf f) none s.messages.length 0 f.messages (s.newMessages f) :=
  (messageListNodes_forest ..).withExtensions _

theorem nodup_newMessages : ((s.newMessages f).map (·.1)).Nodup := by
  rw [(newMessages_forest s f).ids]
  exact Nodup.map (fun m n h => congrArg MessageId.index h) nodup_range'

theorem newMessages_finds : Finds (s.newMessages f) := (newMessages_forest s f).finds (by simp)

theorem newMessages_parent (he : e ∈ s.newMessages f) {p : MessageId} (hp : e.2.parent = some p) :
    p ∈ (s.newMessages f).map (·.1) ∧ p.index < e.1.index := by
  rcases (newMessages_forest s f).rooted e he with h | ⟨q, hq, hle, hlt⟩
  · rw [hp] at h
    cases h
  · obtain rfl : q = p := Option.some.inj (hq.symm.trans hp)
    have hbound := ((newMessages_forest s f).bounds he).2
    refine ⟨?_, hlt⟩
    rw [(newMessages_forest s f).ids]
    exact mem_map.mpr ⟨q.index, mem_range'_1.mpr ⟨hle, by omega⟩, rfl⟩

theorem newEnums_snd : (s.newEnums f).map (·.2) =
    enumNodes (s.contextOf f) none 0 f.enums ++ (s.newMessages f).flatMap fun m =>
      enumNodes (s.contextOf f) (some m) 0 m.2.proto.enums :=
  ext_getElem (by simp [newEnums]) (by simp [newEnums])

theorem newEnums_ids : (s.newEnums f).map (·.1) =
    (range' s.enums.length (s.newEnums f).length).map EnumId.mk :=
  ext_getElem (by simp) (by simp [newEnums])

theorem newEnums_file {e : EnumId × EnumNode} (he : e ∈ s.newEnums f) :
    e.2.file = ⟨s.files.length⟩ := by
  have hmem : e.2 ∈ (s.newEnums f).map (·.2) := mem_map_of_mem he
  rw [newEnums_snd] at hmem
  rcases mem_append.mp hmem with hmem | hmem
  · exact (enumNodes_spec _ _ _ _ _ hmem).1
  · obtain ⟨m, -, hmem⟩ := mem_flatMap.mp hmem
    exact (enumNodes_spec _ _ _ _ _ hmem).1

theorem newEnums_parent {e : EnumId × EnumNode} (he : e ∈ s.newEnums f) {p : MessageId}
    (hp : e.2.parent = some p) : p ∈ (s.newMessages f).map (·.1) := by
  have hmem : e.2 ∈ (s.newEnums f).map (·.2) := mem_map_of_mem he
  rw [newEnums_snd] at hmem
  rcases mem_append.mp hmem with hmem | hmem
  · have hnone := (enumNodes_spec _ _ _ _ _ hmem).2
    rw [hp] at hnone
    cases hnone
  · obtain ⟨m, hm, hmem⟩ := mem_flatMap.mp hmem
    have hsome := (enumNodes_spec _ _ _ _ _ hmem).2
    rw [hp] at hsome
    exact Option.some.inj hsome ▸ mem_map_of_mem hm

private theorem flatMap_eq_of_mem (h : (es.map (·.1)).Nodup) {e : ι × α} (he : e ∈ es)
    {g : ι × α → List β} (hg : ∀ x ∈ es, x.1 ≠ e.1 → g x = []) : es.flatMap g = g e := by
  induction es with
  | nil => cases he
  | cons x es ih =>
    rw [map_cons, nodup_cons] at h
    rw [flatMap_cons]
    rcases mem_cons.mp he with rfl | he
    · have hrest : es.flatMap g = [] := by
        rw [flatMap_eq_nil_iff]
        intro y hy
        refine hg y (mem_cons_of_mem _ hy) fun heq => h.1 ?_
        exact heq ▸ mem_map_of_mem hy
      rw [hrest, append_nil]
    · have hne : x.1 ≠ e.1 := fun heq => h.1 (heq ▸ mem_map_of_mem he)
      rw [hg x (by simp) hne, ih h.2 he fun y hy => hg y (mem_cons_of_mem _ hy)]
      rfl

private theorem filter_enumNodes (c : Context) (parent : Option MessageEntry)
    (index : Nat) (es : List Descriptor.Enum) (id : Option MessageId) :
    (enumNodes c parent index es).filter (fun x => x.parent = id) =
      if parent.map (·.1) = id then enumNodes c parent index es else [] := by
  split
  · rename_i heq
    rw [filter_eq_self]
    intro x hx
    simp [(enumNodes_spec _ _ _ _ _ hx).2, heq]
  · rename_i hne
    rw [filter_eq_nil_iff]
    intro x hx
    simp [(enumNodes_spec _ _ _ _ _ hx).2, hne]

private theorem filter_newEnums (id : Option MessageId) :
    ((s.newEnums f).filter fun x => x.2.parent = id).map (·.2.place) =
      ((if none = id then enumNodes (s.contextOf f) none 0 f.enums else []) ++
        (s.newMessages f).flatMap fun m =>
          if some m.1 = id then enumNodes (s.contextOf f) (some m) 0 m.2.proto.enums
          else []).map EnumNode.place := by
  have hfilter : ((s.newEnums f).filter fun x => x.2.parent = id).map (·.2.place) =
      (((s.newEnums f).map (·.2)).filter fun x => x.parent = id).map EnumNode.place := by
    rw [filter_map, map_map]
    rfl
  rw [hfilter, newEnums_snd, filter_append, filter_flatMap]
  simp only [filter_enumNodes]
  rfl

theorem newEnums_in (he : e ∈ s.newMessages f) :
    ((s.newEnums f).filter fun x => x.2.parent = some e.1).map (·.2.place) =
      Place.row (·.name) (some e.1) e.2.typeName 0 e.2.proto.enums := by
  rw [filter_newEnums, flatMap_eq_of_mem nodup_newMessages he
    fun x _ hne => if_neg fun heq => hne (Option.some.inj heq), if_pos rfl]
  exact enumNodes_place _ (some e) 0 _

theorem newEnums_top : ((s.newEnums f).filter fun x => x.2.parent = none).map (·.2.place) =
    Place.row (·.name) none [] 0 f.enums := by
  rw [filter_newEnums, flatMap_eq_nil_iff.mpr fun m _ => if_neg nofun, append_nil]
  exact enumNodes_place _ none 0 _

theorem addFile_eq (s : Schema) (f : File) : s.addFile f = .ok (s.added f) := by
  have hfill : ∀ e ∈ s.newMessages f,
      withNested (s.newMessages f) (s.newEnums f) e = .ok (s.filled f e) := by
    intro e he
    have hnested := congrArg length (newMessages_finds e he)
    have henums := congrArg length (newEnums_in he)
    simp only [length_map, Place.row, length_zipIdx] at hnested henums
    simp only [withNested, nestedIn, enumsIn, length_map, hnested, henums, ne_eq]
    rfl
  show (do
    let nodes ← (s.newMessages f).mapM (withNested (s.newMessages f) (s.newEnums f))
    pure _) = _
  rw [mapM_eq_of_forall hfill]
  rfl

end Adding

/-- A message of a file with the given messages and enums mirrors its descriptor: it knows the
message around it, and it lists what its descriptor declares, in order. -/
structure MessageNode.Mirrors (s : Schema) (messages : List MessageId) (allEnums : List EnumId)
    (owner : FileId) (id : MessageId) (m : MessageNode) : Prop where
  file : m.file = owner
  parent : ∀ p ∈ m.parent, p ∈ messages ∧ p.index < id.index ∧ id ∈ (s.message p).nested
  nested : m.nested ⊆ messages
  enums : m.enums ⊆ allEnums
  extensions : ∀ x ∈ m.extensions, x.index < s.extensions.length
  nestedPlaces : m.nested.map (fun n => (s.message n).place) =
    Place.row (·.name) (some id) m.typeName 0 m.proto.nested
  enumPlaces : m.enums.map (fun e => (s.enum e).place) =
    Place.row (·.name) (some id) m.typeName 0 m.proto.enums
  extensionEntries : m.extensions.map s.extension = m.proto.extensions.map fun x =>
    ⟨x, owner, some id, m.typeName ++ [x.name.getD ""]⟩

/-- A file mirrors its descriptor. -/
structure FileNode.Mirrors (s : Schema) (owner : FileId) (f : FileNode) : Prop where
  preorder : f.messages.map (fun m => (s.message m).proto) = f.proto.allMessages
  messages : ∀ m ∈ f.messages, m.index < s.messages.length ∧
    (s.message m).Mirrors s f.messages f.enums owner m
  enums : ∀ e ∈ f.enums, e.index < s.enums.length ∧ (s.enum e).file = owner ∧
    ∀ p ∈ (s.enum e).parent, p ∈ f.messages ∧ e ∈ (s.message p).enums
  extensions : ∀ x ∈ f.extensions, x.index < s.extensions.length
  messagePlaces : (f.messages.filter fun m => (s.message m).parent = none).map
    (fun m => (s.message m).place) = Place.row (·.name) none [] 0 f.proto.messages
  enumPlaces : (f.enums.filter fun e => (s.enum e).parent = none).map
    (fun e => (s.enum e).place) = Place.row (·.name) none [] 0 f.proto.enums
  extensionEntries : f.extensions.map s.extension = f.proto.extensions.map fun x =>
    ⟨x, owner, none, [x.name.getD ""]⟩

section Lookup

variable {s : Schema} {f : File}

private theorem getD_numbered (number : ι → Nat) {l : List β}
    (h : es.map (fun e => number e.1) = range' l.length es.length) (g : ι × α → β) {e : ι × α}
    (he : e ∈ es) (b : β) : (l ++ es.map g).getD (number e.1) b = g e := by
  obtain ⟨i, hi, rfl⟩ := mem_iff_getElem.mp he
  have hnumber : number es[i].1 = l.length + i := by
    have hget := getElem_of_eq h (by simpa using hi : i < (es.map _).length)
    simpa using hget
  rw [hnumber, getD_eq_getElem?_getD, getElem?_append_right (Nat.le_add_right _ _),
    Nat.add_sub_cancel_left]
  simp [hi]

theorem message_added {e : MessageEntry} (he : e ∈ s.newMessages f) :
    (s.added f).message e.1 = s.filled f e := by
  refine getD_numbered MessageId.index ?_ (s.filled f) he default
  have hids := congrArg (map MessageId.index) (newMessages_forest s f).ids
  simpa [Function.comp_def] using hids

theorem enum_added {e : EnumId × EnumNode} (he : e ∈ s.newEnums f) :
    (s.added f).enum e.1 = e.2 := by
  refine getD_numbered EnumId.index ?_ (·.2) he default
  have hids := congrArg (map EnumId.index) (newEnums_ids (s := s) (f := f))
  simpa [Function.comp_def] using hids

theorem map_message_added (g : MessageNode → α) {es : List MessageEntry}
    (hes : es ⊆ s.newMessages f) :
    (es.map (·.1)).map (fun id => g ((s.added f).message id)) =
      es.map fun e => g (s.filled f e) := by
  rw [map_map]
  refine map_congr_left fun e he => ?_
  rw [Function.comp_apply, message_added (hes he)]

theorem map_enum_added (g : EnumNode → α) {es : List (EnumId × EnumNode)}
    (hes : es ⊆ s.newEnums f) :
    (es.map (·.1)).map (fun id => g ((s.added f).enum id)) = es.map fun e => g e.2 := by
  rw [map_map]
  refine map_congr_left fun e he => ?_
  rw [Function.comp_apply, enum_added (hes he)]

private theorem nestedExtensions_numbers :
    (s.newMessages f).flatMap (·.2.extensions) =
      (range' s.extensions.length (s.nestedExtensions f).length).map ExtensionId.mk :=
  withExtensions_numbers ..

private theorem filled_mirrors {e : MessageEntry} (he : e ∈ s.newMessages f) :
    (s.filled f e).Mirrors (s.added f) (s.newFile f).messages (s.newFile f).enums
      ⟨s.files.length⟩ e.1 where
  file := (newMessages_forest s f).file e he
  parent p hp := by
    obtain ⟨hmem, hlt⟩ := newMessages_parent he hp
    refine ⟨hmem, hlt, ?_⟩
    obtain ⟨e', he', rfl⟩ := mem_map.mp hmem
    rw [message_added he']
    exact mem_map_of_mem (mem_filter.mpr ⟨he, decide_eq_true hp⟩)
  nested := map_subset _ (filter_subset_self _)
  enums := map_subset _ (filter_subset_self _)
  extensions x hx := by
    have hmem : x ∈ (s.newMessages f).flatMap (·.2.extensions) := mem_flatMap.mpr ⟨e, he, hx⟩
    rw [nestedExtensions_numbers] at hmem
    obtain ⟨n, hn, rfl⟩ := mem_map.mp hmem
    have hlt := (mem_range'_1.mp hn).2
    simp only [added, length_append]
    omega
  nestedPlaces :=
    (map_message_added MessageNode.place (filter_subset_self _)).trans (newMessages_finds e he)
  enumPlaces := (map_enum_added EnumNode.place (filter_subset_self _)).trans (newEnums_in he)
  extensionEntries := by
    have hentries := map_withExtensions (c := s.contextOf f) s.extensions (s.ownExtensions f) _ he
    rw [← append_assoc] at hentries
    exact hentries

theorem newFile_mirrors : (s.newFile f).Mirrors (s.added f) ⟨s.files.length⟩ where
  preorder := (map_message_added (·.proto) (Subset.refl _)).trans (newMessages_forest s f).protos
  messages m hm := by
    obtain ⟨e, he, rfl⟩ := mem_map.mp hm
    refine ⟨?_, message_added he ▸ filled_mirrors he⟩
    have hlt := ((newMessages_forest s f).bounds he).2
    simp only [added, length_append, length_map]
    omega
  enums e hmem := by
    obtain ⟨e, he, rfl⟩ := mem_map.mp hmem
    have hbound : e.1 ∈ (range' s.enums.length (s.newEnums f).length).map EnumId.mk :=
      newEnums_ids ▸ hmem
    obtain ⟨n, hn, heq⟩ := mem_map.mp hbound
    refine ⟨?_, by rw [enum_added he]; exact newEnums_file he, fun p hp => ?_⟩
    · have hlt := (mem_range'_1.mp hn).2
      rw [← heq]
      simpa [added] using hlt
    · rw [enum_added he] at hp
      have hp' := newEnums_parent he hp
      refine ⟨hp', ?_⟩
      obtain ⟨m, hm, rfl⟩ := mem_map.mp hp'
      rw [message_added hm]
      exact mem_map_of_mem (mem_filter.mpr ⟨he, decide_eq_true hp⟩)
  extensions x hx := by
    obtain ⟨n, hn, rfl⟩ := mem_map.mp hx
    have hlt := (mem_range'_1.mp hn).2
    simpa [added, Nat.add_assoc] using hlt
  messagePlaces := by
    have hfilter : (s.newFile f).messages.filter (fun m => ((s.added f).message m).parent = none) =
        ((s.newMessages f).filter fun e => e.2.parent = none).map (·.1) := by
      show ((s.newMessages f).map (·.1)).filter _ = _
      rw [filter_map]
      refine congrArg _ (filter_congr fun x hx => ?_)
      rw [Function.comp_apply, message_added hx]
      rfl
    rw [hfilter, map_message_added MessageNode.place (filter_subset_self _)]
    exact (newMessages_forest s f).top (by simp)
  enumPlaces := by
    have hfilter : (s.newFile f).enums.filter (fun e => ((s.added f).enum e).parent = none) =
        ((s.newEnums f).filter fun e => e.2.parent = none).map (·.1) := by
      show ((s.newEnums f).map (·.1)).filter _ = _
      rw [filter_map]
      refine congrArg _ (filter_congr fun x hx => ?_)
      rw [Function.comp_apply, enum_added hx]
    rw [hfilter, map_enum_added EnumNode.place (filter_subset_self _)]
    exact newEnums_top
  extensionEntries := by
    have hblock := map_range'_getD (s.extensions ++ s.nestedExtensions f) (s.ownExtensions f) []
      default
    rw [append_nil, length_append] at hblock
    show ((range' _ _).map ExtensionId.mk).map _ = _
    rw [map_map]
    exact hblock

end Lookup

section Growth

/-- A schema with more entries. -/
structure Grows (s s' : Schema) : Prop where
  messages : s.messages <+: s'.messages
  enums : s.enums <+: s'.enums
  extensions : s.extensions <+: s'.extensions
  reexports : s.reexports <+: s'.reexports

variable {s s' : Schema}

theorem getD_of_isPrefix {l l' : List α} (h : l <+: l') {i : Nat} (hi : i < l.length) (a : α) :
    l'.getD i a = l.getD i a := by
  obtain ⟨t, rfl⟩ := h
  simp [getElem?_append_left hi]

theorem Grows.message (h : Grows s s') {id : MessageId} (hid : id.index < s.messages.length) :
    s'.message id = s.message id := getD_of_isPrefix h.messages hid _

theorem Grows.enum (h : Grows s s') {id : EnumId} (hid : id.index < s.enums.length) :
    s'.enum id = s.enum id := getD_of_isPrefix h.enums hid _

theorem Grows.extension (h : Grows s s') {id : ExtensionId}
    (hid : id.index < s.extensions.length) : s'.extension id = s.extension id :=
  getD_of_isPrefix h.extensions hid _

theorem Grows.reexport (h : Grows s s') {id : ReexportId} (hid : id.index < s.reexports.length) :
    s'.reexport id = s.reexport id := getD_of_isPrefix h.reexports hid _

theorem FileNode.Mirrors.grow {f : FileNode} (hf : f.Mirrors s owner) (h : Grows s s') :
    f.Mirrors s' owner := by
  have hmessage : ∀ m ∈ f.messages, s'.message m = s.message m :=
    fun m hm => h.message (hf.messages m hm).1
  have henum : ∀ e ∈ f.enums, s'.enum e = s.enum e := fun e he => h.enum (hf.enums e he).1
  have hextension {xs : List ExtensionId} (hxs : ∀ x ∈ xs, x.index < s.extensions.length) :
      xs.map s'.extension = xs.map s.extension :=
    map_congr_left fun x hx => h.extension (hxs x hx)
  have hplaces {ms : List MessageId} (hms : ms ⊆ f.messages) :
      ms.map (fun m => (s'.message m).place) = ms.map fun m => (s.message m).place :=
    map_congr_left fun m hm => by rw [hmessage m (hms hm)]
  have henumPlaces {es : List EnumId} (hes : es ⊆ f.enums) :
      es.map (fun e => (s'.enum e).place) = es.map fun e => (s.enum e).place :=
    map_congr_left fun e he => by rw [henum e (hes he)]
  refine ⟨?_, fun m hm => ?_, fun e he => ?_, fun x hx => ?_, ?_, ?_, ?_⟩
  · rw [← hf.preorder]
    exact map_congr_left fun m hm => by rw [hmessage m hm]
  · obtain ⟨hlt, hm'⟩ := hf.messages m hm
    refine ⟨Nat.lt_of_lt_of_le hlt h.messages.length_le, ?_⟩
    rw [hmessage m hm]
    exact { hm' with
      parent := fun p hp => by
        obtain ⟨hmem, hlt, hnested⟩ := hm'.parent p hp
        exact ⟨hmem, hlt, (hmessage p hmem).symm ▸ hnested⟩
      extensions := fun x hx => Nat.lt_of_lt_of_le (hm'.extensions x hx) h.extensions.length_le
      nestedPlaces := (hplaces hm'.nested).trans hm'.nestedPlaces
      enumPlaces := (henumPlaces hm'.enums).trans hm'.enumPlaces
      extensionEntries := (hextension hm'.extensions).trans hm'.extensionEntries }
  · obtain ⟨hlt, hfile, hparent⟩ := hf.enums e he
    rw [henum e he]
    refine ⟨Nat.lt_of_lt_of_le hlt h.enums.length_le, hfile, fun p hp => ?_⟩
    obtain ⟨hmem, he'⟩ := hparent p hp
    exact ⟨hmem, (hmessage p hmem).symm ▸ he'⟩
  · exact Nat.lt_of_lt_of_le (hf.extensions x hx) h.extensions.length_le
  · rw [← hf.messagePlaces, hplaces (filter_subset_self _)]
    refine congrArg (map _) (filter_congr fun m hm => ?_)
    rw [hmessage m hm]
  · rw [← hf.enumPlaces, henumPlaces (filter_subset_self _)]
    refine congrArg (map _) (filter_congr fun e he => ?_)
    rw [henum e he]
  · exact (hextension hf.extensions).trans hf.extensionEntries

end Growth

def FileNode.declarations (f : FileNode) :
    File × List MessageId × List EnumId × List ExtensionId :=
  (f.proto, f.messages, f.enums, f.extensions)

theorem FileNode.Mirrors.congr {s : Schema} {f g : FileNode} (h : g.Mirrors s owner)
    (heq : f.declarations = g.declarations) : f.Mirrors s owner := by
  cases f
  obtain ⟨rfl, rfl, rfl, rfl⟩ := heq
  exact ⟨h.preorder, h.messages, h.enums, h.extensions, h.messagePlaces, h.enumPlaces,
    h.extensionEntries⟩

/-- All extensions of a file, those of its messages first. -/
def extensionsOf (s : Schema) (f : FileNode) : List ExtensionId :=
  (f.messages.flatMap fun m => (s.message m).extensions) ++ f.extensions

/-- The files of a schema before they are linked. -/
structure Declared (files : List File) (s : Schema) : Prop where
  protos : s.files.map (·.proto) = files
  files : ∀ (i : Nat) (f : FileNode), s.files[i]? = some f → f.Mirrors s ⟨i⟩
  messages : s.files.flatMap (·.messages) = (range s.messages.length).map MessageId.mk
  enums : s.files.flatMap (·.enums) = (range s.enums.length).map EnumId.mk
  extensions : s.files.flatMap s.extensionsOf = (range s.extensions.length).map ExtensionId.mk
  reexports : s.reexports = []
  named : ∀ name id, s.byName.get? name = some id →
    ∃ f, s.files[id.index]? = some f ∧ f.name = name
  found : ∀ f ∈ s.files, (s.byName.get? f.name).isSome = true

section Declaring

variable {s : Schema} {f : File} {files : List File}

theorem grows_added (s : Schema) (f : File) : Grows s (s.added f) :=
  ⟨prefix_append .., prefix_append .., by simp [added], prefix_rfl⟩

theorem map_range_append (mk : Nat → ι) {xs ys : List ι} {m n : Nat}
    (hx : xs = (range m).map mk) (hy : ys = (range' m n).map mk) :
    xs ++ ys = (range (m + n)).map mk := by
  rw [hx, hy, ← map_append, range_eq_range', range_eq_range',
    ← range'_append_1, Nat.zero_add]

theorem Declared.add (h : s.Declared files) (f : File) : (s.added f).Declared (files ++ [f]) where
  protos := by
    show (s.files ++ [s.newFile f]).map _ = _
    rw [map_append, h.protos]
    rfl
  files i g hg := by
    have hg : (s.files ++ [s.newFile f])[i]? = some g := hg
    rcases Nat.lt_or_ge i s.files.length with hi | hi
    · rw [getElem?_append_left hi] at hg
      exact (h.files i g hg).grow (grows_added s f)
    · obtain rfl : i = s.files.length := by
        have hlt := (List.getElem?_eq_some_iff.mp hg).1
        rw [length_append, length_singleton] at hlt
        omega
      obtain rfl : s.newFile f = g := by simpa using hg
      exact newFile_mirrors
  messages := by
    show (s.files ++ [s.newFile f]).flatMap _ = _
    rw [flatMap_append, flatMap_singleton]
    have hlength : (s.added f).messages.length = s.messages.length + (s.newMessages f).length := by
      simp [added]
    rw [hlength]
    exact map_range_append _ h.messages (newMessages_forest s f).ids
  enums := by
    show (s.files ++ [s.newFile f]).flatMap _ = _
    rw [flatMap_append, flatMap_singleton]
    have hlength : (s.added f).enums.length = s.enums.length + (s.newEnums f).length := by
      simp [added]
    rw [hlength]
    exact map_range_append _ h.enums newEnums_ids
  extensions := by
    show (s.files ++ [s.newFile f]).flatMap _ = _
    have hold : s.files.flatMap (s.added f).extensionsOf = s.files.flatMap s.extensionsOf := by
      refine flatMap_congr fun g hg => ?_
      obtain ⟨i, hi⟩ := mem_iff_getElem?.mp hg
      refine congrArg (· ++ _) (flatMap_congr fun m hm => ?_)
      rw [(grows_added s f).message ((h.files i g hi).messages m hm).1]
    have hnested : (s.newFile f).messages.flatMap (fun m => ((s.added f).message m).extensions) =
        (s.newMessages f).flatMap (·.2.extensions) := by
      show ((s.newMessages f).map (·.1)).flatMap _ = _
      rw [flatMap_map]
      exact flatMap_congr fun e he => by rw [message_added he]; rfl
    have hlength : (s.added f).extensions.length =
        s.extensions.length + (s.nestedExtensions f).length + (s.ownExtensions f).length := by
      simp [added, Nat.add_assoc]
    rw [flatMap_append, flatMap_singleton, hold, extensionsOf, hnested,
      ← append_assoc, hlength]
    exact map_range_append _ (map_range_append _ h.extensions nestedExtensions_numbers) rfl
  reexports := h.reexports
  named name id hid := by
    have hid : (s.byName.insert (f.name.getD "") ⟨s.files.length⟩).get? name = some id := hid
    show ∃ g, (s.files ++ [s.newFile f])[id.index]? = some g ∧ g.name = name
    rw [Dict.get?_insert] at hid
    split at hid
    · rename_i hname
      cases hid
      exact ⟨s.newFile f, by simp, hname.symm⟩
    · obtain ⟨g, hg, hname⟩ := h.named name id hid
      refine ⟨g, ?_, hname⟩
      rw [getElem?_append_left (List.getElem?_eq_some_iff.mp hg).1, hg]
  found g hg := by
    show ((s.byName.insert (f.name.getD "") ⟨s.files.length⟩).get? g.name).isSome = true
    rw [Dict.get?_insert]
    split
    · rfl
    · rename_i hne
      rcases mem_append.mp hg with hg | hg
      · exact h.found g hg
      · exact absurd (congrArg FileNode.name (mem_singleton.mp hg)) hne

theorem foldlM_addFile_concat (hs : files.foldlM addFile {} = .ok s) (f : File) :
    (files ++ [f]).foldlM addFile {} = .ok (s.added f) := by
  rw [foldlM_append, hs]
  show [f].foldlM addFile s = _
  rw [foldlM_cons, addFile_eq]
  rfl

theorem foldlM_addFile (files : List File) :
    ∃ s, files.foldlM addFile {} = .ok s ∧ s.Declared files := by
  induction files using reverseRecOn with
  | nil =>
    refine ⟨{}, rfl, ?_⟩
    constructor <;> simp [Dict.get?]
  | append_singleton files f ih =>
    obtain ⟨s, hs, hdeclared⟩ := ih
    exact ⟨s.added f, foldlM_addFile_concat hs f, hdeclared.add f⟩

end Declaring

end GoBindings.Schema
