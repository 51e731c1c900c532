import GoBindings.Proofs.Linking

/-!
# Where declarations stand

The path of a message or enum continues that of the message around it. A message is a group if the
one around it has a group field of its qualified name.
-/

namespace GoBindings.Schema

open List

open Descriptor (File)

/-- The path of an enum, as the message around it says. -/
def EnumNode.situation (parent : Option MessageNode) (e : EnumNode) : List Nat :=
  parent.elim [5] (·.path ++ [4]) ++ [e.index]

/-- The paths and groups of a file are those of the situations. -/
structure FileNode.Situated (s : Schema) (f : FileNode) : Prop where
  messages : ∀ m ∈ f.messages, ((s.message m).path, (s.message m).group) =
    (s.message m).situation f.package ((s.message m).parent.map s.message)
  enums : ∀ e ∈ f.enums, (s.enum e).path = (s.enum e).situation ((s.enum e).parent.map s.message)

theorem enumNodes_situation (c : Context) (parent : Option MessageEntry) (index : Nat)
    (es : List Descriptor.Enum) : ∀ e ∈ enumNodes c parent index es,
      e.path = e.situation (parent.map (·.2)) := by
  induction es generalizing index with
  | nil => simp [enumNodes]
  | cons e es ih =>
    simp only [enumNodes, forall_mem_cons]
    exact ⟨by cases parent <;> simp [EnumNode.situation], ih _⟩

section Files

variable {s s' : Schema} {f : File} {files : List File}

theorem newFile_situated : (s.newFile f).Situated (s.added f) := by
  refine ⟨fun m hm => ?_, fun e he => ?_⟩
  · obtain ⟨e, he, rfl⟩ := mem_map.mp hm
    rw [message_added he]
    rcases (newMessages_forest s f).stands e he with ⟨hparent, h⟩ | ⟨p, hp, hparent, h⟩
    · have hparent : (s.filled f e).parent = none := hparent
      rw [hparent]
      exact h
    · have hparent : (s.filled f e).parent = some p.1 := hparent
      rw [hparent, Option.map_some, message_added hp]
      exact h
  · obtain ⟨e, hmem, rfl⟩ := mem_map.mp he
    rw [enum_added hmem]
    have hmem : e.2 ∈ (s.newEnums f).map (·.2) := mem_map_of_mem hmem
    rw [newEnums_snd] at hmem
    rcases mem_append.mp hmem with hmem | hmem
    · rw [(enumNodes_spec _ _ _ _ _ hmem).2]
      exact enumNodes_situation _ _ _ _ _ hmem
    · obtain ⟨p, hp, hmem⟩ := mem_flatMap.mp hmem
      rw [(enumNodes_spec _ _ _ _ _ hmem).2, Option.map_some, Option.map_some, message_added hp]
      exact enumNodes_situation _ _ _ _ _ hmem

theorem FileNode.Situated.grow {f : FileNode} {owner : FileId} (h : f.Situated s)
    (hf : f.Mirrors s owner) (hgrows : Grows s s') : f.Situated s' := by
  have hparent {parent : Option MessageId} (hp : ∀ p ∈ parent, p ∈ f.messages) :
      parent.map s'.message = parent.map s.message := by
    cases parent with
    | none => rfl
    | some p => exact congrArg some (hgrows.message (hf.messages p (hp p rfl)).1)
  refine ⟨fun m hm => ?_, fun e he => ?_⟩
  · obtain ⟨hlt, hm'⟩ := hf.messages m hm
    rw [hgrows.message hlt, hparent fun p hp => (hm'.parent p hp).1]
    exact h.messages m hm
  · obtain ⟨hlt, -, he'⟩ := hf.enums e he
    rw [hgrows.enum hlt, hparent fun p hp => (he' p hp).1]
    exact h.enums e he

theorem foldlM_addFile_situated (h : files.foldlM addFile {} = .ok s) :
    ∀ f ∈ s.files, f.Situated s := by
  induction files using List.reverseRecOn generalizing s with
  | nil =>
    cases h
    simp
  | append_singleton files f ih =>
    obtain ⟨s₀, hs₀, hdeclared⟩ := foldlM_addFile files
    cases (foldlM_addFile_concat hs₀ f).symm.trans h
    intro g hg
    rcases mem_append.mp hg with hg | hg
    · obtain ⟨i, hi⟩ := mem_iff_getElem?.mp hg
      exact (ih hs₀ g hg).grow (hdeclared.files i g hi) (grows_added s₀ f)
    · exact mem_singleton.mp hg ▸ newFile_situated

/-- All declarations of a schema stand where they say. -/
theorem ofFiles_situated (h : ofFiles files = .ok s) : ∀ f ∈ s.files, f.Situated s := by
  obtain ⟨s₀, hadd, -, hlinking⟩ := ofFiles_linking h
  intro f hf
  have hmem : f.declarations ∈ s₀.files.map FileNode.declarations :=
    hlinking.files ▸ mem_map_of_mem hf
  obtain ⟨g, hg, heq⟩ := mem_map.mp hmem
  obtain ⟨hmessages, henums⟩ := foldlM_addFile_situated hadd g hg
  have hmessage : s.message = s₀.message := by
    funext id
    rw [message, message, hlinking.messages]
  have henum : s.enum = s₀.enum := by
    funext id
    rw [enum, enum, hlinking.enums]
  cases f
  obtain ⟨rfl, rfl, rfl, -⟩ := heq
  exact ⟨hmessage ▸ hmessages, hmessage ▸ henum ▸ henums⟩

end Files

section Rows

variable {ι δ : Type} {place : ι → Place δ} {all : List ι} {name : δ → Option String}
  {parent : Option MessageId} {ds : List δ} {i j : ι}

/-- What has a given parent stands in one row, as the parent declares it. -/
def InRow (place : ι → Place δ) (all : List ι) (name : δ → Option String)
    (parent : Option MessageId) (ds : List δ) : Prop :=
  ∃ (ids : List ι) (scope : List String), ids.map place = Place.row name parent scope 0 ds ∧
    ∀ i ∈ all, (place i).parent = parent → i ∈ ids

theorem InRow.spec (h : InRow place all name parent ds) (hi : i ∈ all)
    (hparent : (place i).parent = parent) :
    ds[(place i).index]? = some (place i).proto ∧ (place i).typeName ≠ [] := by
  obtain ⟨ids, scope, hrow, hids⟩ := h
  have hmem : place i ∈ Place.row name parent scope 0 ds :=
    hrow ▸ mem_map_of_mem (hids i hi hparent)
  obtain ⟨d, hd, heq⟩ := mem_map.mp hmem
  rw [← heq]
  exact ⟨mem_zipIdx_iff_getElem?.mp hd, by simp⟩

theorem InRow.eq (h : InRow place all name parent ds) (hi : i ∈ all) (hj : j ∈ all)
    (hiparent : (place i).parent = parent) (hjparent : (place j).parent = parent)
    (hindex : (place i).index = (place j).index) : i = j := by
  obtain ⟨ids, scope, hrow, hids⟩ := h
  have hindexes : ids.map (fun i => (place i).index) = List.range' 0 ds.length := by
    have hmap := congrArg (map (·.index)) hrow
    simpa [Place.row, Function.comp_def] using hmap
  have hnodup : (ids.map fun i => (place i).index).Nodup := hindexes ▸ nodup_range'
  exact inj_on_of_nodup_map hnodup (hids i hi hiparent) (hids j hj hjparent) hindex

variable {s : Schema} {f : FileNode} {owner : FileId}

theorem FileNode.Mirrors.message_inRow (hf : f.Mirrors s owner) {m : MessageId}
    (hm : m ∈ f.messages) : InRow (fun m => (s.message m).place) f.messages (·.name)
      (s.message m).parent
      ((s.message m).parent.elim f.proto.messages fun p => (s.message p).proto.nested) := by
  cases hparent : (s.message m).parent with
  | none => exact ⟨_, _, hf.messagePlaces, fun m hm h => mem_filter.mpr ⟨hm, decide_eq_true h⟩⟩
  | some p =>
    obtain ⟨hp, -⟩ := (hf.messages m hm).2.parent p hparent
    exact ⟨_, _, (hf.messages p hp).2.nestedPlaces,
      fun m hm h => ((hf.messages m hm).2.parent p h).2.2⟩

theorem FileNode.Mirrors.enum_inRow (hf : f.Mirrors s owner) {e : EnumId} (he : e ∈ f.enums) :
    InRow (fun e => (s.enum e).place) f.enums (·.name) (s.enum e).parent
      ((s.enum e).parent.elim f.proto.enums fun p => (s.message p).proto.enums) := by
  cases hparent : (s.enum e).parent with
  | none => exact ⟨_, _, hf.enumPlaces, fun e he h => mem_filter.mpr ⟨he, decide_eq_true h⟩⟩
  | some p =>
    obtain ⟨hp, -⟩ := (hf.enums e he).2.2 p hparent
    exact ⟨_, _, (hf.messages p hp).2.enumPlaces, fun e he h => ((hf.enums e he).2.2 p h).2⟩

end Rows

end GoBindings.Schema
