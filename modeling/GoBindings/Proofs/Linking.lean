import GoBindings.Proofs.Adding

/-!
# Linking the files of a schema

Linking a file fails only for imports that are not there. It adds what the file passes on and
leaves all declarations as they are.
-/

namespace GoBindings

open List

/-- The imports of a file are there: their names are those of files, and its public ones are among
them. -/
def Descriptor.File.Linkable (files : List File) (f : File) : Prop :=
  (∀ name ∈ f.dependencies, ∃ g ∈ files, g.name.getD "" = name) ∧
    ∀ i ∈ f.publicDependencies, 0 ≤ i.toInt ∧ i.toInt < f.dependencies.length

namespace Schema

open Descriptor (File Message)

section Linking

/-- The schema with the imports of a file, and what it passes on. -/
def linked (s : Schema) (id : FileId) (dependencies : List FileId) (targets : List Object) :
    Schema :=
  { s with
    files := s.files.set id.index { s.file id with
      dependencies,
      reexports := (range' s.reexports.length targets.length).map ReexportId.mk }
    reexports := s.reexports ++ targets.map fun target => ⟨id, target⟩ }

/-- The imports of a file have been found, and it passes on what its public imports declare. -/
structure FileNode.Linked (s : Schema) (owner : FileId) (f : FileNode) : Prop where
  dependencies : Forall₂ (fun name id => s.byName.get? name = some id)
    f.proto.dependencies f.dependencies
  reexports : ∃ publics, Forall₂ (fun i id => entryAt? f.dependencies i = some id)
      f.proto.publicDependencies publics ∧
    f.reexports.map s.reexport = (publics.flatMap s.publicObjects).map (Reexport.mk owner)

/-- The files before number `k` have been linked. -/
structure Linking (s₀ : Schema) (k : Nat) (s : Schema) : Prop where
  messages : s.messages = s₀.messages
  enums : s.enums = s₀.enums
  extensions : s.extensions = s₀.extensions
  byName : s.byName = s₀.byName
  files : s.files.map FileNode.declarations = s₀.files.map FileNode.declarations
  linked : ∀ (i : Nat) (f : FileNode), i < k → s.files[i]? = some f → f.Linked s ⟨i⟩
  reexports : (s.files.take k).flatMap (·.reexports) =
    (range s.reexports.length).map ReexportId.mk

variable {s s' s₀ : Schema} {files : List File} {id : FileId} {k : Nat}

theorem isSome_entryAt? {α : Type} {l : List α} {i : Int32} :
    (entryAt? l i).isSome = true ↔ 0 ≤ i.toInt ∧ i.toInt < l.length := by
  have hzero : (0 : Int32).toInt = 0 := rfl
  have hclamp : i.toNatClampNeg = i.toInt.toNat := rfl
  rw [entryAt?]
  split
  · rename_i h
    rw [Int32.lt_iff_toInt_lt] at h
    simp only [Option.isSome_none, Bool.false_eq_true, false_iff]
    omega
  · rename_i h
    rw [Int32.lt_iff_toInt_lt] at h
    rw [isSome_getElem?]
    omega

theorem mem_of_entryAt? {α : Type} {l : List α} {i : Int32} {a : α}
    (h : entryAt? l i = some a) : a ∈ l := by
  rw [entryAt?] at h
  split at h
  · cases h
  · exact mem_of_getElem? h

theorem fileNamed_eq_ok {name : String} :
    s.fileNamed name = .ok id ↔ s.byName.get? name = some id := by
  rw [fileNamed]
  split
  · rename_i id' hid
    rw [hid, Except.ok.injEq, Option.some.injEq]
  · rename_i hnone
    simp [hnone]

private theorem publicDependency_eq_ok {f : FileNode} {dependencies : List FileId} {i : Int32} :
    publicDependency f dependencies i = .ok id ↔ entryAt? dependencies i = some id := by
  rw [publicDependency]
  split
  · rename_i id' hid
    rw [hid, Except.ok.injEq, Option.some.injEq]
  · rename_i hnone
    simp [hnone]

theorem linkFile_eq_ok : s.linkFile id = .ok s' ↔ ∃ dependencies publics,
    Forall₂ (fun name d => s.byName.get? name = some d)
      (s.file id).proto.dependencies dependencies ∧
    Forall₂ (fun i d => entryAt? dependencies i = some d)
      (s.file id).proto.publicDependencies publics ∧
    s.linked id dependencies (publics.flatMap s.publicObjects) = s' := by
  rw [linkFile]
  simp only [steps_eq_ok, mapM_eq_ok_iff, fileNamed_eq_ok, publicDependency_eq_ok]
  constructor
  · rintro ⟨dependencies, hdependencies, publics, hpublics, heq⟩
    exact ⟨dependencies, publics, hdependencies, hpublics, heq⟩
  · rintro ⟨dependencies, publics, hdependencies, hpublics, heq⟩
    exact ⟨dependencies, hdependencies, publics, hpublics, heq⟩

theorem file_eq_of_getElem? {f : FileNode} (h : s.files[id.index]? = some f) : s.file id = f := by
  rw [file, getD_eq_getElem?_getD, h]
  rfl

theorem publicObjects_congr (hmessages : s'.messages = s.messages)
    (hfiles : s'.files.map FileNode.declarations = s.files.map FileNode.declarations) :
    s'.publicObjects = s.publicObjects := by
  have hmessage : s'.message = s.message := by
    funext id
    rw [message, message, hmessages]
  funext id
  have hfile : (s'.file id).declarations = (s.file id).declarations := by
    have hget := congrArg (·[id.index]?) hfiles
    simp only [getElem?_map] at hget
    simp only [file]
    cases h : s.files[id.index]? <;> cases h' : s'.files[id.index]? <;> simp_all
  simp only [FileNode.declarations, Prod.mk.injEq] at hfile
  simp only [publicObjects, hfile, hmessage]

private theorem Linking.step (h : Linking s₀ k s) (hk : k < s.files.length)
    (hlink : s.linkFile ⟨k⟩ = .ok s') : Linking s₀ (k + 1) s' := by
  obtain ⟨dependencies, publics, hdependencies, hpublics, rfl⟩ := linkFile_eq_ok.mp hlink
  have hget : s.files[k]? = some (s.file ⟨k⟩) := by
    rw [getElem?_eq_getElem hk, file_eq_of_getElem? (getElem?_eq_getElem hk)]
  generalize htargets : publics.flatMap s.publicObjects = targets
  have hfiles : (s.linked ⟨k⟩ dependencies targets).files.map FileNode.declarations =
      s.files.map FileNode.declarations := by
    show (s.files.set k _).map FileNode.declarations = _
    rw [map_set]
    have hsame : (s.files.map FileNode.declarations)[k]? = some (s.file ⟨k⟩).declarations := by
      rw [getElem?_map, hget]
      rfl
    obtain ⟨hlt, heq⟩ := List.getElem?_eq_some_iff.mp hsame
    exact heq ▸ set_getElem_self hlt
  have hobjects : (s.linked ⟨k⟩ dependencies targets).publicObjects = s.publicObjects :=
    publicObjects_congr rfl hfiles
  have hnew : (range' s.reexports.length targets.length).map
      (fun n => (s.reexports ++ targets.map (Reexport.mk ⟨k⟩)).getD n default) =
        targets.map (Reexport.mk ⟨k⟩) := by
    have hblock := map_range'_getD s.reexports (targets.map (Reexport.mk ⟨k⟩)) [] default
    rwa [append_nil, length_map] at hblock
  refine ⟨h.messages, h.enums, h.extensions, h.byName, hfiles.trans h.files, ?_, ?_⟩
  · intro i f hi hf
    have hf : (s.files.set k _)[i]? = some f := hf
    rcases Nat.lt_succ_iff_lt_or_eq.mp hi with hlt | rfl
    · rw [getElem?_set_ne (by omega)] at hf
      obtain ⟨hold, publics', hpublics', hreexports⟩ := h.linked i f hlt hf
      refine ⟨hold, publics', hpublics', ?_⟩
      rw [hobjects, ← hreexports]
      refine map_congr_left fun r hr => ?_
      have hmem : r ∈ (s.files.take k).flatMap (·.reexports) := by
        refine mem_flatMap.mpr ⟨f, ?_, hr⟩
        refine mem_of_getElem? (i := i) ?_
        rw [getElem?_take_of_lt hlt, hf]
      rw [h.reexports] at hmem
      obtain ⟨n, hn, rfl⟩ := mem_map.mp hmem
      exact getD_of_isPrefix (prefix_append ..) (mem_range.mp hn) _
    · rw [getElem?_set_self hk] at hf
      cases hf
      refine ⟨hdependencies, publics, hpublics, ?_⟩
      rw [hobjects, htargets]
      rw [map_map]
      exact hnew
  · have htake : (s.linked ⟨k⟩ dependencies targets).files.take (k + 1) =
        s.files.take k ++ [{ s.file ⟨k⟩ with
          dependencies,
          reexports := (range' s.reexports.length targets.length).map ReexportId.mk }] := by
      show (s.files.set k _).take (k + 1) = _
      rw [take_succ_eq_append_getElem (by simpa using hk), take_set_of_le (Nat.le_refl _),
        getElem_set_self]
    have hlength : (s.linked ⟨k⟩ dependencies targets).reexports.length =
        s.reexports.length + targets.length := by simp [Schema.linked]
    rw [htake, flatMap_append, flatMap_singleton, hlength]
    exact map_range_append _ h.reexports rfl

private theorem Linking.run {n : Nat} (h : Linking s₀ k s) (hn : s.files.length = k + n)
    (hlink : ((range' k n).map FileId.mk).foldlM linkFile s = .ok s') :
    Linking s₀ (k + n) s' := by
  induction n generalizing k s with
  | zero => exact pure_eq_ok.mp hlink ▸ h
  | succ n ih =>
    rw [range'_succ, map_cons, foldlM_cons, bind_eq_ok] at hlink
    obtain ⟨t, ht, hlink⟩ := hlink
    have hlength : t.files.length = s.files.length := by
      obtain ⟨_, _, -, -, rfl⟩ := linkFile_eq_ok.mp ht
      simp [Schema.linked]
    have hstep := ih (h.step (by omega) ht) (by omega) hlink
    rwa [Nat.add_right_comm] at hstep

private theorem Linking.progress {n : Nat} (h : Linking s₀ k s) (hn : s.files.length = k + n)
    (hfound : ∀ f ∈ s₀.files, (∀ name ∈ f.proto.dependencies, ∃ id, s₀.byName.get? name = some id) ∧
      ∀ i ∈ f.proto.publicDependencies, 0 ≤ i.toInt ∧ i.toInt < f.proto.dependencies.length) :
    ∃ s', ((range' k n).map FileId.mk).foldlM linkFile s = .ok s' := by
  induction n generalizing k s with
  | zero => exact ⟨s, rfl⟩
  | succ n ih =>
    have hk : k < s.files.length := by omega
    have hproto : (s.file ⟨k⟩).proto ∈ s₀.files.map (·.proto) := by
      have hprotos : s.files.map (·.proto) = s₀.files.map (·.proto) := by
        have heq := congrArg (map Prod.fst) h.files
        rw [map_map, map_map] at heq
        exact heq
      rw [← hprotos, file_eq_of_getElem? (getElem?_eq_getElem hk)]
      exact mem_map_of_mem (getElem_mem hk)
    obtain ⟨g, hg, heq⟩ := mem_map.mp hproto
    obtain ⟨hnames, hindexes⟩ := heq ▸ hfound g hg
    rw [← h.byName] at hnames
    obtain ⟨dependencies, hdependencies⟩ := exists_forall₂ hnames
    obtain ⟨publics, hpublics⟩ : ∃ publics, Forall₂
        (fun i d => entryAt? dependencies i = some d) (s.file ⟨k⟩).proto.publicDependencies
        publics := by
      refine exists_forall₂ fun i hi => Option.isSome_iff_exists.mp (isSome_entryAt?.mpr ?_)
      rw [← hdependencies.length_eq]
      exact hindexes i hi
    have hlink := linkFile_eq_ok.mpr ⟨dependencies, publics, hdependencies, hpublics, rfl⟩
    obtain ⟨s', hs'⟩ := ih (h.step hk hlink) (by simp [Schema.linked]; omega)
    refine ⟨s', ?_⟩
    rw [range'_succ, map_cons, foldlM_cons, hlink]
    exact hs'

private theorem Declared.linking (h : s.Declared files) : Linking s 0 s := by
  refine ⟨rfl, rfl, rfl, rfl, rfl, ?_, ?_⟩
  · omega
  · simp [h.reexports]

end Linking

/-- A schema mirrors files: it has an entry for each of their declarations, and no other. -/
structure Mirrors (files : List File) (s : Schema) : Prop where
  protos : s.files.map (·.proto) = files
  files : ∀ (i : Nat) (f : FileNode), s.files[i]? = some f → f.Mirrors s ⟨i⟩ ∧ f.Linked s ⟨i⟩
  messages : s.files.flatMap (·.messages) = (range s.messages.length).map MessageId.mk
  enums : s.files.flatMap (·.enums) = (range s.enums.length).map EnumId.mk
  extensions : s.files.flatMap s.extensionsOf = (range s.extensions.length).map ExtensionId.mk
  reexports : s.files.flatMap (·.reexports) = (range s.reexports.length).map ReexportId.mk
  named : ∀ name id, s.byName.get? name = some id →
    ∃ f, s.files[id.index]? = some f ∧ f.name = name
  found : ∀ f ∈ s.files, (s.byName.get? f.name).isSome = true

section Files

variable {s s₀ : Schema} {files : List File}

theorem ofFiles_linking (h : ofFiles files = .ok s) : ∃ s₀, files.foldlM addFile {} = .ok s₀ ∧
    s₀.Declared files ∧ Linking s₀ s₀.files.length s := by
  obtain ⟨s₀, hadd, hdeclared⟩ := foldlM_addFile files
  rw [ofFiles, hadd] at h
  have h : s₀.fileIds.foldlM linkFile s₀ = .ok s := h
  rw [fileIds, range_eq_range'] at h
  have hlinked := hdeclared.linking.run (by simp) h
  rw [Nat.zero_add] at hlinked
  exact ⟨s₀, hadd, hdeclared, hlinked⟩

private theorem Declared.mirrors (h : s₀.Declared files)
    (hlinked : Linking s₀ s₀.files.length s) : s.Mirrors files := by
  have hlength : s.files.length = s₀.files.length := by
    simpa using congrArg length hlinked.files
  have hmap {α : Type} (g : File × List MessageId × List EnumId × List ExtensionId → α) :
      s.files.map (fun f => g f.declarations) = s₀.files.map fun f => g f.declarations := by
    have heq := congrArg (map g) hlinked.files
    rwa [map_map, map_map] at heq
  have hnames : s.files.map FileNode.name = s₀.files.map FileNode.name :=
    hmap fun d => d.1.name.getD ""
  have hfile {i : Nat} {f : FileNode} (hf : s.files[i]? = some f) :
      ∃ g, s₀.files[i]? = some g ∧ f.declarations = g.declarations := by
    have hget := congrArg (·[i]?) hlinked.files
    simp only [getElem?_map, hf] at hget
    obtain ⟨g, hg, heq⟩ := Option.map_eq_some_iff.mp hget.symm
    exact ⟨g, hg, heq.symm⟩
  have hmessage : s.message = s₀.message := by
    funext id
    rw [message, message, hlinked.messages]
  have hgrows : Grows s₀ s := by
    refine ⟨?_, ?_, ?_, by simp [h.reexports]⟩
    · exact hlinked.messages ▸ prefix_rfl
    · exact hlinked.enums ▸ prefix_rfl
    · exact hlinked.extensions ▸ prefix_rfl
  refine ⟨(hmap (·.1)).trans h.protos, fun i f hf => ⟨?_, ?_⟩, ?_, ?_, ?_, ?_, ?_, ?_⟩
  · obtain ⟨g, hg, heq⟩ := hfile hf
    exact ((h.files i g hg).grow hgrows).congr heq
  · exact hlinked.linked i f (by have := (List.getElem?_eq_some_iff.mp hf).1; omega) hf
  · rw [hlinked.messages, ← h.messages]
    exact congrArg flatten (hmap (·.2.1))
  · rw [hlinked.enums, ← h.enums]
    exact congrArg flatten (hmap (·.2.2.1))
  · have hof : s.extensionsOf = s₀.extensionsOf := by
      funext f
      rw [extensionsOf, extensionsOf, hmessage]
    rw [hlinked.extensions, ← h.extensions, hof]
    exact congrArg flatten
      (hmap fun d => (d.2.1.flatMap fun m => (s₀.message m).extensions) ++ d.2.2.2)
  · have hall := hlinked.reexports
    rwa [← hlength, take_length] at hall
  · intro name id hid
    rw [hlinked.byName] at hid
    obtain ⟨g, hg, rfl⟩ := h.named name id hid
    have hget : (s.files.map FileNode.name)[id.index]? = some g.name := by
      rw [hnames, getElem?_map, hg]
      rfl
    rw [getElem?_map] at hget
    exact Option.map_eq_some_iff.mp hget
  · intro f hf
    have hmem : f.name ∈ s₀.files.map FileNode.name := hnames ▸ mem_map_of_mem hf
    obtain ⟨g, hg, hname⟩ := mem_map.mp hmem
    rw [hlinked.byName, ← hname]
    exact h.found g hg

theorem ofFiles_mirrors (h : ofFiles files = .ok s) : s.Mirrors files := by
  obtain ⟨s₀, -, hdeclared, hlinked⟩ := ofFiles_linking h
  exact hdeclared.mirrors hlinked

/-- A schema can be made exactly if all imports can be found. -/
theorem exists_ofFiles_iff (files : List File) :
    (∃ s, ofFiles files = .ok s) ↔ ∀ f ∈ files, f.Linkable files := by
  constructor
  · rintro ⟨s, h⟩ f hf
    have hs := ofFiles_mirrors h
    have hproto : f ∈ s.files.map (·.proto) := hs.protos ▸ hf
    obtain ⟨node, hnode, rfl⟩ := mem_map.mp hproto
    obtain ⟨i, hi⟩ := mem_iff_getElem?.mp hnode
    obtain ⟨hdependencies, publics, hpublics, -⟩ := (hs.files i node hi).2
    refine ⟨fun name hname => ?_, fun i hi => ?_⟩
    · obtain ⟨id, -, hid⟩ := exists_of_mem_forall₂ hdependencies hname
      obtain ⟨g, hg, rfl⟩ := hs.named name id hid
      exact ⟨g.proto, hs.protos ▸ mem_map_of_mem (mem_of_getElem? hg), rfl⟩
    · obtain ⟨id, -, hid⟩ := exists_of_mem_forall₂ hpublics hi
      rw [hdependencies.length_eq]
      exact isSome_entryAt?.mp (Option.isSome_iff_exists.mpr ⟨id, hid⟩)
  · intro h
    obtain ⟨s₀, hadd, hdeclared⟩ := foldlM_addFile files
    have hfound : ∀ f ∈ s₀.files,
        (∀ name ∈ f.proto.dependencies, ∃ id, s₀.byName.get? name = some id) ∧
        ∀ i ∈ f.proto.publicDependencies,
          0 ≤ i.toInt ∧ i.toInt < f.proto.dependencies.length := by
      intro f hf
      obtain ⟨hnames, hindexes⟩ := h f.proto (hdeclared.protos ▸ mem_map_of_mem hf)
      refine ⟨fun name hname => ?_, hindexes⟩
      obtain ⟨g, hg, rfl⟩ := hnames name hname
      rw [← hdeclared.protos] at hg
      obtain ⟨node, hnode, rfl⟩ := mem_map.mp hg
      exact Option.isSome_iff_exists.mp (hdeclared.found node hnode)
    obtain ⟨s, hs⟩ := hdeclared.linking.progress (n := s₀.files.length) (by simp) hfound
    refine ⟨s, ?_⟩
    rw [ofFiles, hadd, ← hs, ← range_eq_range']
    rfl

theorem ofFiles_error {e : Error} (h : ofFiles files = .error e) :
    (∃ name, e = .fileNotFound name) ∨ ∃ i file, e = .publicDependencyOutOfRange i file := by
  obtain ⟨s₀, hadd, -⟩ := foldlM_addFile files
  rw [ofFiles, hadd] at h
  obtain ⟨s, id, -, hlink⟩ := exists_of_foldlM_error h
  rw [linkFile] at hlink
  cases hdependencies : (s.file id).proto.dependencies.mapM s.fileNamed with
  | error e' =>
    obtain rfl : e' = e := by simpa [hdependencies] using hlink
    obtain ⟨name, -, hname⟩ := exists_of_mapM_error hdependencies
    rw [fileNamed] at hname
    split at hname
    · cases hname
    · exact .inl ⟨name, (Except.error.inj hname).symm⟩
  | ok dependencies =>
    cases hpublics : (s.file id).proto.publicDependencies.mapM
        (publicDependency (s.file id) dependencies) with
    | ok publics =>
      simp [hdependencies, hpublics] at hlink
    | error e' =>
      obtain rfl : e' = e := by simpa [hdependencies, hpublics] using hlink
      obtain ⟨i, -, hi⟩ := exists_of_mapM_error hpublics
      rw [publicDependency] at hi
      split at hi
      · cases hi
      · exact .inr ⟨i, _, (Except.error.inj hi).symm⟩

end Files

end Schema

end GoBindings
