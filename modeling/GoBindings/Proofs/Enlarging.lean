import GoBindings.Proofs.Within

/-!
# Enlarging a request

A request that has all files of another one, under the same names, is set up to have all that the
other one has, at the same places.
-/

namespace GoBindings

open List Schema Descriptor Setup

variable {α : Type} {i : Nat}

namespace Schema

theorem mem_fileIds {s : Schema} {id : FileId} : id ∈ s.fileIds ↔ id.index < s.files.length := by
  constructor
  · intro h
    obtain ⟨n, hn, rfl⟩ := mem_map.mp h
    exact mem_range.mp hn
  · intro h
    exact mem_map.mpr ⟨id.index, mem_range.mpr h, rfl⟩

/-- Schema `s` is part of `s'`, and names of files lead to the same places. -/
structure Beside (remarks : Bool) (s s' : Schema) : Prop extends s.Within remarks s' where
  named : ∀ name id, s.byName.get? name = some id →
    id.index < s.files.length ∧ s'.byName.get? name = some id
  listed : ∀ id : FileId, ∀ m ∈ (s.file id).messages, m.index < s.messages.length

section Linking

variable {remarks : Bool} {s s' t t' : Schema} {id : FileId}

theorem map_linked (g : FileNode → α)
    (hg : ∀ f dependencies reexports, g { f with dependencies, reexports } = g f) (id : FileId)
    (dependencies : List FileId) (targets : List Object) :
    (s.linked id dependencies targets).files.map g = s.files.map g := by
  show (s.files.set id.index _).map g = _
  rw [map_set, hg]
  apply ext_getElem?
  intro i
  rw [getElem?_set]
  split
  · rename_i hid
    subst hid
    split
    · rename_i hlt
      have hlt : id.index < s.files.length := by simpa using hlt
      rw [getElem?_map, getElem?_eq_getElem hlt,
        file_eq_of_getElem? (getElem?_eq_getElem hlt)]
      rfl
    · rw [getElem?_eq_none (by omega)]
  · rfl

theorem file_linked (g : FileNode → α)
    (hg : ∀ f dependencies reexports, g { f with dependencies, reexports } = g f) (id : FileId)
    (dependencies : List FileId) (targets : List Object) (other : FileId) :
    g ((s.linked id dependencies targets).file other) = g (s.file other) := by
  have hmap := congrArg (·.getD other.index (g default))
    (map_linked (s := s) g hg id dependencies targets)
  rwa [getD_map, getD_map] at hmap

theorem Beside.publicObjects (h : s.Beside remarks s') (hid : id.index < s.files.length) :
    s'.publicObjects id = s.publicObjects id := by
  have hmessages : (s'.file id).messages = (s.file id).messages :=
    h.file FileNode.messages (fun _ => rfl) hid
  have henums : (s'.file id).enums = (s.file id).enums := h.file FileNode.enums (fun _ => rfl) hid
  have hextensions : (s'.file id).extensions = (s.file id).extensions :=
    h.file FileNode.extensions (fun _ => rfl) hid
  have hdeclared : ((s.file id).messages.filter fun m => !(s'.message m).isMapEntry) =
      (s.file id).messages.filter fun m => !(s.message m).isMapEntry := by
    apply filter_congr
    intro m hm
    rw [h.grows.message (h.listed id m hm)]
  rw [Schema.publicObjects, Schema.publicObjects, hmessages, henums, hextensions, hdeclared]

theorem set_isPrefix {l l' : List α} (h : l <+: l') (hi : i < l.length) (a : α) :
    l.set i a <+: l'.set i a := by
  obtain ⟨rest, rfl⟩ := h
  rw [set_append_left _ _ hi]
  exact prefix_append ..

theorem Beside.linked (h : s.Beside remarks s') (hreexports : s'.reexports = s.reexports)
    (hid : id.index < s.files.length) (dependencies : List FileId) (targets : List Object) :
    (s.linked id dependencies targets).Beside remarks (s'.linked id dependencies targets) := by
  have hlength : (s.linked id dependencies targets).files.length = s.files.length := by
    simp [Schema.linked]
  constructor
  · constructor
    · refine ⟨h.grows.messages, h.grows.enums, h.grows.extensions, ?_⟩
      show s.reexports ++ _ <+: s'.reexports ++ _
      exact hreexports ▸ prefix_rfl
    · have hnew : ({ s'.file id with
          dependencies,
          reexports := (range' s'.reexports.length targets.length).map ReexportId.mk } :
            FileNode).silent = ({ s.file id with
          dependencies,
          reexports := (range' s.reexports.length targets.length).map ReexportId.mk } :
            FileNode).silent := by
        rw [hreexports]
        exact congrArg (fun f : FileNode => { f with
          dependencies,
          reexports := (range' s.reexports.length targets.length).map ReexportId.mk })
          (h.file FileNode.silent (fun _ => rfl) hid)
      show (s.files.set id.index _).map _ <+: (s'.files.set id.index _).map _
      rw [map_set, map_set, hnew]
      exact set_isPrefix h.files (by simpa using hid) _
    · intro hremarks other hother
      rw [file_linked FileNode.comments (fun _ _ _ => rfl),
        file_linked FileNode.comments (fun _ _ _ => rfl)]
      exact h.comments hremarks other (hlength ▸ hother)
  · intro name other hother
    rw [hlength]
    exact h.named name other hother
  · intro other m hm
    rw [file_linked FileNode.messages (fun _ _ _ => rfl)] at hm
    exact h.listed other m hm

theorem Beside.linked_later (h : s.Beside remarks s') (hid : s.files.length ≤ id.index)
    (dependencies : List FileId) (targets : List Object) :
    s.Beside remarks (s'.linked id dependencies targets) := by
  constructor
  · constructor
    · exact ⟨h.grows.messages, h.grows.enums, h.grows.extensions,
        h.grows.reexports.trans (prefix_append ..)⟩
    · obtain ⟨rest, hrest⟩ := h.files
      show _ <+: (s'.files.set id.index _).map _
      rw [map_set, ← hrest, set_append_right _ _ (by simpa using hid)]
      exact prefix_append ..
    · intro hremarks other hother
      rw [file_linked FileNode.comments (fun _ _ _ => rfl)]
      exact h.comments hremarks other hother
  · exact h.named
  · exact h.listed

theorem Beside.linkFile (h : s.Beside remarks s') (hreexports : s'.reexports = s.reexports)
    (hid : id.index < s.files.length) (hlink : s.linkFile id = .ok t) :
    ∃ t', s'.linkFile id = .ok t' ∧ t.Beside remarks t' ∧ t'.reexports = t.reexports ∧
      t.files.length = s.files.length := by
  obtain ⟨dependencies, publics, hdependencies, hpublics, rfl⟩ := linkFile_eq_ok.mp hlink
  have hproto (names : File → List String)
      (hnames : ∀ f, names { f with sourceInfo := none } = names f) :
      names (s'.file id).proto = names (s.file id).proto :=
    h.file (fun f => names f.proto) (fun f => hnames f.proto) hid
  have hindexes : (s'.file id).proto.publicDependencies = (s.file id).proto.publicDependencies :=
    h.file (fun f => f.proto.publicDependencies) (fun _ => rfl) hid
  have htargets : publics.flatMap s'.publicObjects = publics.flatMap s.publicObjects := by
    apply flatMap_congr
    intro d hd
    obtain ⟨i, -, hi⟩ := exists_of_mem_forall₂ hpublics.flip hd
    obtain ⟨name, -, hname⟩ := exists_of_mem_forall₂ hdependencies.flip (mem_of_entryAt? hi)
    exact h.publicObjects (h.named name d hname).1
  refine ⟨s'.linked id dependencies (publics.flatMap s.publicObjects), ?_,
    h.linked hreexports hid _ _, ?_, by simp [Schema.linked]⟩
  · rw [linkFile_eq_ok]
    refine ⟨dependencies, publics, ?_, hindexes ▸ hpublics, by rw [htargets]⟩
    rw [hproto (·.dependencies) fun _ => rfl]
    exact hdependencies.imp fun name d hd => (h.named name d hd).2
  · show s'.reexports ++ _ = s.reexports ++ _
    rw [hreexports]

theorem Beside.link {ids : List FileId} (h : s.Beside remarks s')
    (hreexports : s'.reexports = s.reexports) (hids : ∀ id ∈ ids, id.index < s.files.length)
    (hlink : ids.foldlM Schema.linkFile s = .ok t) :
    ∃ t', ids.foldlM Schema.linkFile s' = .ok t' ∧ t.Beside remarks t' ∧
      t.files.length = s.files.length := by
  induction ids generalizing s s' with
  | nil =>
    cases hlink
    exact ⟨s', rfl, h, rfl⟩
  | cons id ids ih =>
    rw [forall_mem_cons] at hids
    rw [foldlM_cons, bind_eq_ok] at hlink
    obtain ⟨u, hu, hlink⟩ := hlink
    obtain ⟨u', hu', hbeside, hsame, hlength⟩ := h.linkFile hreexports hids.1 hu
    obtain ⟨t', ht', hresult, hcount⟩ := ih hbeside hsame
      (fun id hid => hlength ▸ hids.2 id hid) hlink
    refine ⟨t', ?_, hresult, hcount.trans hlength⟩
    rw [foldlM_cons, hu']
    exact ht'

theorem Beside.linkAll (h : s.Beside remarks s') (hreexports : s'.reexports = s.reexports)
    (hlink : s.fileIds.foldlM Schema.linkFile s = .ok t)
    (hlink' : s'.fileIds.foldlM Schema.linkFile s' = .ok t') : t.Beside remarks t' := by
  obtain ⟨later, hlater, hbound⟩ := h.fileIds
  have hids : ∀ id ∈ s.fileIds, id.index < s.files.length := fun id hid => mem_fileIds.mp hid
  obtain ⟨u', hu', hbeside, hlength⟩ := h.link hreexports hids hlink
  rw [hlater, foldlM_append, bind_eq_ok] at hlink'
  obtain ⟨v', hv', hrest⟩ := hlink'
  cases hu'.symm.trans hv'
  refine foldlM_invariant hrest hbeside ?_
  intro v id w hid hv hw
  obtain ⟨dependencies, publics, -, -, rfl⟩ := linkFile_eq_ok.mp hw
  exact hv.linked_later (hlength ▸ hbound id hid) _ _

end Linking

end Schema

section Numbering

variable {remarks : Bool} {s s' : Schema} {ids : List FileId}

private theorem silent_numberFiles (files : List FileNode) (index : Nat) (ids : List FileId) :
    (numberFiles files index ids).map FileNode.silent =
      numberFiles (files.map FileNode.silent) index ids := by
  induction ids generalizing files index with
  | nil => rfl
  | cons id ids ih =>
    have hmodify : (files.modify id.index fun f => { f with index }).map FileNode.silent =
        (files.map FileNode.silent).modify id.index fun f => { f with index } := by
      apply ext_getElem?
      intro i
      rw [getElem?_map, getElem?_modify, getElem?_modify, getElem?_map]
      cases files[i]? with
      | none => rfl
      | some f => by_cases h : id.index = i <;> simp [h, FileNode.silent]
    rw [numberFiles, numberFiles, ih, hmodify]

private theorem modify_append {l : List α} (hi : i < l.length) (g : α → α) (rest : List α) :
    (l ++ rest).modify i g = l.modify i g ++ rest := by
  apply ext_getElem?
  intro j
  rw [getElem?_modify]
  by_cases hj : j < l.length
  · rw [getElem?_append_left hj, getElem?_append_left (by simpa using hj),
      getElem?_modify]
  · have hne : ¬ i = j := by omega
    rw [getElem?_append_right (by omega), getElem?_append_right (by simpa using hj)]
    simp [hne]

private theorem numberFiles_append {files : List FileNode}
    (hids : ∀ id ∈ ids, id.index < files.length) (index : Nat) (later : List FileNode) :
    numberFiles (files ++ later) index ids = numberFiles files index ids ++ later := by
  induction ids generalizing files index with
  | nil => rfl
  | cons id ids ih =>
    rw [forall_mem_cons] at hids
    rw [numberFiles, modify_append hids.1]
    exact ih (by simpa using hids.2) _

theorem Schema.Within.number (h : s.Within remarks s')
    (hids : ∀ id ∈ ids, id.index < s.files.length) :
    Within remarks { s with files := numberFiles s.files 0 ids }
      { s' with files := numberFiles s'.files 0 ids } := by
  have hcomments (s : Schema) (id : FileId) :
      (Schema.file { s with files := numberFiles s.files 0 ids } id).comments =
        (s.file id).comments := by
    have hmap := congrArg (·.getD id.index (default : FileNode).comments)
      (map_numberFiles (g := FileNode.comments) (fun _ _ => rfl) s.files 0 ids)
    rwa [getD_map, getD_map] at hmap
  refine ⟨⟨h.grows.messages, h.grows.enums, h.grows.extensions, h.grows.reexports⟩, ?_, ?_⟩
  · obtain ⟨later, hlater⟩ := h.files
    rw [silent_numberFiles, silent_numberFiles, ← hlater,
      numberFiles_append (by simpa using hids)]
    exact prefix_append ..
  · intro hremarks id hid
    have hlength := congrArg length
      (map_numberFiles (g := FileNode.comments) (fun _ _ => rfl) s.files 0 ids)
    rw [length_map, length_map] at hlength
    rw [hcomments, hcomments]
    exact h.comments hremarks id (hlength ▸ hid)

end Numbering

section Naming

variable {remarks : Bool} {s s' : Schema} {generated : List FileId} {p : Parameters}
  {names : PackageNames} {package : String}

private theorem nameFile_later (s : Schema) (names : PackageNames) (later : List FileId) :
    (later.foldl (nameFile s generated package) names).support = names.support ∧
      ∀ id ∉ later, (later.foldl (nameFile s generated package) names).of id = names.of id := by
  induction later generalizing names with
  | nil => exact ⟨rfl, fun _ _ => rfl⟩
  | cons next later ih =>
    obtain ⟨hsupport, hof⟩ := ih (nameFile s generated package names next)
    refine ⟨hsupport.trans (PackageNames.nameFile_support s next), fun id hid => ?_⟩
    rw [mem_cons, not_or] at hid
    obtain ⟨name, heq⟩ : ∃ name, (nameFile s generated package names next).byFile =
        (next, name) :: names.byFile := by
      rw [nameFile]
      split <;> exact ⟨_, rfl⟩
    have hnext : (nameFile s generated package names next).of id = names.of id := by
      rw [PackageNames.of, PackageNames.of, heq, lookup_cons, beq_eq_false_iff_ne.mpr hid.1]
    exact (hof id hid.2).trans hnext

theorem Schema.Within.assignPackageNames (h : s.Within remarks s')
    (hgenerated : ∀ id ∈ generated, id.index < s.files.length)
    (hassign : assignPackageNames s generated p = .ok (names, package)) :
    ∃ names', GoBindings.assignPackageNames s' generated p = .ok (names', package) ∧
      names'.support = names.support ∧
      ∀ id : FileId, id.index < s.files.length → names'.of id = names.of id := by
  have hdeclared : ∀ id ∈ generated, declaredPackage s' p id = declaredPackage s p id := by
    intro id hid
    have hname := h.file FileNode.name (fun _ => rfl) (hgenerated id hid)
    have hpackage := h.file FileNode.packageName (fun _ => rfl) (hgenerated id hid)
    rw [declaredPackage, declaredPackage, hname, hpackage]
  have hname (names : PackageNames) (id : FileId) (hid : id ∈ s.fileIds) :
      nameFile s' generated package names id = nameFile s generated package names id := by
    have hcandidate : dependencyCandidate (s'.file id) = dependencyCandidate (s.file id) :=
      h.file dependencyCandidate (fun _ => rfl) (mem_fileIds.mp hid)
    rw [nameFile, nameFile, hcandidate]
  obtain ⟨later, hlater, hbound⟩ := h.fileIds
  cases generated with
  | nil => simp [GoBindings.assignPackageNames] at hassign
  | cons first rest =>
    rw [forall_mem_cons] at hdeclared
    have hrest : rest.map (declaredPackage s' p) = rest.map (declaredPackage s p) :=
      map_congr_left hdeclared.2
    simp only [GoBindings.assignPackageNames, steps_eq_ok] at hassign
    obtain ⟨candidate, hcandidate, rfl, rfl⟩ := hassign
    -- Past the common files, those of the larger schema alone take further names.
    generalize hpackage : (({} : PackageNames).registerFile candidate first).1 = package at hname ⊢
    generalize hstart : supportPackages.foldl PackageNames.registerSupport
      (({} : PackageNames).registerFile candidate first).2 = start
    have hsame := foldl_ext _ _ start hname
    refine ⟨later.foldl (nameFile s' (first :: rest) package)
      (s.fileIds.foldl (nameFile s (first :: rest) package) start), ?_, ?_, ?_⟩
    · simp only [GoBindings.assignPackageNames, steps_eq_ok, Prod.mk.injEq]
      refine ⟨candidate, by rw [hdeclared.1, hrest, hcandidate], ?_, hpackage⟩
      rw [hpackage, hstart, hlater, foldl_append, hsame]
    · exact (nameFile_later s' _ later).1
    · intro id hid
      apply (nameFile_later s' _ later).2 id
      intro hmem
      exact absurd hid (Nat.not_lt.mpr (hbound id hmem))

end Naming

section Types

variable {remarks : Bool} {s s' : Schema}

theorem Schema.Grows.typesOf (h : Grows s s') {f : FileNode}
    (hmessages : ∀ id ∈ f.messages, id.index < s.messages.length)
    (henums : ∀ id ∈ f.enums, id.index < s.enums.length) : s'.typesOf f = s.typesOf f := by
  have henum : (f.enums.map fun id =>
      (tableName f.package (s'.enum id).typeName, Object.enum id)) =
        f.enums.map fun id => (tableName f.package (s.enum id).typeName, Object.enum id) := by
    apply map_congr_left
    intro id hid
    rw [h.enum (henums id hid)]
  have hmessage : (f.messages.map fun id =>
      (tableName f.package (s'.message id).typeName, Object.message id)) =
        f.messages.map fun id =>
          (tableName f.package (s.message id).typeName, Object.message id) := by
    apply map_congr_left
    intro id hid
    rw [h.message (hmessages id hid)]
  rw [Schema.typesOf, Schema.typesOf, henum, hmessage]

theorem Schema.Within.typesOf (h : s.Within remarks s') (hclosed : s.Closed) :
    s'.files.flatMap s'.typesOf = s.files.flatMap s.typesOf ++
      (s'.files.drop s.files.length).flatMap s'.typesOf := by
  have hle : s.files.length ≤ s'.files.length := by simpa using h.files.length_le
  have hsame (f : FileNode) (hf : f ∈ s.files) : s'.typesOf f = s.typesOf f := by
    obtain ⟨-, hmessages, henums, -⟩ := hclosed.files f hf
    exact h.grows.typesOf (fun id hid => of_decide_eq_true (hmessages id hid))
      fun id hid => of_decide_eq_true (henums id hid)
  have htake : (s'.files.take s.files.length).map s'.typesOf = s.files.map s.typesOf := by
    apply ext_getElem
    · simpa using hle
    · intro i hi hi'
      have hlt : i < s.files.length := by simpa using hi'
      have hfile := h.file s'.typesOf (fun _ => rfl) (show (FileId.mk i).index < _ from hlt)
      rw [file_eq_of_getElem? (getElem?_eq_getElem (Nat.lt_of_lt_of_le hlt hle)),
        file_eq_of_getElem? (getElem?_eq_getElem hlt)] at hfile
      simp only [getElem_map, getElem_take]
      rw [hfile, hsame _ (getElem_mem hlt)]
  have hsplit := congrArg (flatMap s'.typesOf) (take_append_drop s.files.length s'.files)
  rw [← hsplit, flatMap_append, flatMap_def, htake, ← flatMap_def]

theorem Schema.Within.typeTable (h : s.Within remarks s') (hclosed : s.Closed)
    (hlater : ∀ f ∈ s'.files.drop s.files.length, ∀ e ∈ s'.typesOf f, s.typeTable.get? e.1 = none)
    {name : String} {object : Object} (hname : s.typeTable.get? name = some object) :
    s'.typeTable.get? name = some object := by
  rw [Schema.typeTable, h.typesOf hclosed, Dict.get?_ofList_append]
  · exact hname
  · intro e he heq
    obtain ⟨f, hf, he⟩ := mem_flatMap.mp he
    have hnone := hlater f hf e he
    rw [heq, hname] at hnone
    cases hnone

end Types

section Requests

variable {remarks : Bool} {r : Request} {s : Setup} {schema schema' : Schema}

theorem Schema.typeTable_numberFiles (schema : Schema) (ids : List FileId) :
    Schema.typeTable { schema with files := numberFiles schema.files 0 ids } =
      schema.typeTable := by
  have hmap := map_numberFiles (g := schema.typesOf) (fun _ _ => rfl) schema.files 0 ids
  show Dict.ofList ((numberFiles schema.files 0 ids).flatMap schema.typesOf) = _
  rw [typeTable, flatMap_def, flatMap_def, hmap]

/-- A setup in which all that is named has an entry, and every file has a package. -/
structure Setup.Whole (s : Setup) : Prop where
  closed : s.schema.Closed
  declared : ∀ name object, s.types.get? name = some object → s.schema.hasObject object = true
  listed : ∀ file ∈ s.generated, file.index < s.schema.files.length
  named : ∀ file : FileId, file.index < s.schema.files.length →
    ∃ package, s.packages.of file = .ok package

theorem Setup.ofRequest_mirrors (hs : ofRequest r = .ok s) : s.schema.Mirrors r.files := by
  obtain ⟨schema, hschema, -, hnumbered, -⟩ := ofRequest_eq_ok hs
  rw [hnumbered]
  exact mirrors_numberFiles (ofFiles_mirrors hschema) 0 s.generated

theorem Setup.ofRequest_whole (hs : ofRequest r = .ok s) : s.Whole := by
  have hmirrors := ofRequest_mirrors hs
  obtain ⟨schema, -, hgenerated, hnumbered, hassign, htable, -⟩ := ofRequest_eq_ok hs
  refine ⟨hmirrors.closed, ?_, ?_, ?_⟩
  · intro name object hobject
    rw [htable] at hobject
    exact hasObject_of_declares (declares_of_typeTable hmirrors hobject)
  · intro file hfile
    obtain ⟨name, -, hname⟩ := exists_of_mem_mapM hgenerated hfile
    have hname' : s.schema.byName.get? name = some file := by
      rw [hnumbered]
      exact fileNamed_eq_ok.mp hname
    obtain ⟨f, hf, -⟩ := hmirrors.named name file hname'
    exact (List.getElem?_eq_some_iff.mp hf).1
  · intro file hfile
    exact exists_of_assignPackageNames hassign (mem_fileIds.mpr hfile)

theorem Setup.Whole.within (h : s.Whole) : s.Within true s :=
  { grows := ⟨prefix_rfl, prefix_rfl, prefix_rfl, prefix_rfl⟩
    files := prefix_rfl
    comments := fun _ _ _ => rfl
    closed := h.closed
    declared := h.declared
    types := fun _ _ hobject => hobject
    packages := fun _ _ => rfl
    support := rfl
    packageName := rfl
    parameters := rfl
    generated := rfl
    compress := rfl
    listed := h.listed }

/-- A request that has the files of another one, with other files after them, is set up to have
all that the other one has. -/
theorem Setup.ofRequest_within (r' : Request) (hs : ofRequest r = .ok s)
    (hgenerate : r'.filesToGenerate = r.filesToGenerate) (hparameter : r'.parameter = r.parameter)
    (hschema : ofFiles r.files = .ok schema)
    (hschema' : ofFiles r'.files = .ok schema') (h : schema.Beside remarks schema')
    (htypes : ∀ name object, schema.typeTable.get? name = some object →
      schema'.typeTable.get? name = some object) :
    ∃ s', ofRequest r' = .ok s' ∧ s.Within remarks s' := by
  have hwhole := ofRequest_whole hs
  obtain ⟨schema₀, hschema₀, hgenerated, hnumbered, hassign, htable, hparameters⟩ :=
    ofRequest_eq_ok hs
  cases hschema.symm.trans hschema₀
  have hgenerated' : r'.filesToGenerate.mapM schema'.fileNamed = .ok s.generated := by
    rw [hgenerate]
    refine mapM_of_mapM hgenerated fun name _ id hid => ?_
    exact fileNamed_eq_ok.mpr (h.named name id (fileNamed_eq_ok.mp hid)).2
  have hlength : s.schema.files.length = schema.files.length := by
    have hmap := congrArg length
      (map_numberFiles (g := FileNode.comments) (fun _ _ => rfl) schema.files 0 s.generated)
    rw [length_map, length_map] at hmap
    rw [hnumbered, hmap]
  have hwithin := h.toWithin.number (hlength ▸ hwhole.listed)
  rw [← hnumbered] at hwithin
  obtain ⟨names, hnames, hsupport, hof⟩ := hwithin.assignPackageNames hwhole.listed hassign
  have hasked : r'.filesToGenerate.isEmpty = false := by
    rw [hgenerate]
    by_contra hempty
    rw [Bool.not_eq_false] at hempty
    simp [ofRequest, hempty, throw, throwThe, MonadExceptOf.throw] at hs
  refine ⟨{
    schema := { schema' with files := numberFiles schema'.files 0 s.generated }
    parameters := s.parameters
    packages := names
    types := schema'.typeTable
    packageName := s.packageName
    generated := s.generated
    compress := Gzip.compress }, ?_, hwithin, hwhole.closed, hwhole.declared, ?_, hof, hsupport,
    rfl, rfl, rfl, (ofRequest_compress hs).1.symm, hwhole.listed⟩
  · rw [hparameters] at hnames ⊢
    simp only [ofRequest, hasked, hschema', hgenerated', hparameter, bind, Except.bind, hnames,
      typeTable_numberFiles]
    rfl
  · intro name object hobject
    rw [htable, hnumbered, typeTable_numberFiles] at hobject
    exact htypes name object hobject

end Requests

end GoBindings
