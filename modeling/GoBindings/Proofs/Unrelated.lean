import GoBindings.Proofs.Echoes
import GoBindings.Proofs.Enlarging

/-!
# Files that are not asked for

A file at the end of a request that is not generated, with a name and types that no other file has,
changes nothing in the response.
-/

namespace GoBindings

open List Schema Descriptor

namespace Descriptor

/-- The messages of a file, each with the names that lead to it. -/
def File.scoped (f : File) : List (List String × Message) := Message.listScoped [] f.messages

/-- The qualified names of the enums and messages of a file. -/
def File.typeNames (f : File) : List String :=
  (((f.enums.map fun e => [e.name.getD ""]) ++
    f.scoped.flatMap fun m => m.2.enums.map fun e => m.1 ++ [e.name.getD ""]) ++
      f.scoped.map (·.1)).map (qualifiedName (f.package.getD ""))

end Descriptor

namespace Schema

open Descriptor (File Message)

section Names

theorem enumNodes_typeName (c : Context) (parent : Option MessageEntry) (index : Nat)
    (es : List Enum) : (enumNodes c parent index es).map (·.typeName) =
      es.map fun e => scopeOf parent ++ [e.name.getD ""] := by
  induction es generalizing index with
  | nil => rfl
  | cons e es ih =>
    simp only [enumNodes, map_cons, ih]
    cases parent <;> rfl

variable {s : Schema} {f : File}

theorem newMessages_scoped :
    (s.newMessages f).map (fun e => (e.2.typeName, e.2.proto)) = f.scoped :=
  (newMessages_forest s f).names

theorem typesOf_newFile : ((s.added f).typesOf (s.newFile f)).map (·.1) = f.typeNames := by
  have hmessages : (s.newFile f).messages.map (fun id => ((s.added f).message id).typeName) =
      f.scoped.map (·.1) := by
    rw [← newMessages_scoped, map_map]
    exact map_message_added (·.typeName) (Subset.refl _)
  have henums : (s.newFile f).enums.map (fun id => ((s.added f).enum id).typeName) =
      (f.enums.map fun e => [e.name.getD ""]) ++
        f.scoped.flatMap fun m => m.2.enums.map fun e => m.1 ++ [e.name.getD ""] := by
    have hplaced : (s.newFile f).enums.map (fun id => ((s.added f).enum id).typeName) =
        ((s.newEnums f).map (·.2)).map (·.typeName) := by
      rw [map_map]
      exact map_enum_added (·.typeName) (Subset.refl _)
    rw [hplaced, newEnums_snd, map_append, enumNodes_typeName, map_flatMap,
      ← newMessages_scoped, flatMap_map]
    congr 1
    apply flatMap_congr
    intro e _
    exact enumNodes_typeName ..
  simp only [typesOf, tableName_eq]
  rw [map_append, map_map, map_map, File.typeNames, map_append, ← henums, ← hmessages, map_map,
    map_map]
  rfl

theorem typeNames_ofFiles {files : List File} (h : ofFiles files = .ok s) :
    s.files.map (fun f => (s.typesOf f).map (·.1)) = files.map File.typeNames := by
  have hadded : ∀ files : List File, ∃ s, files.foldlM addFile {} = .ok s ∧ s.Declared files ∧
      s.files.map (fun f => (s.typesOf f).map (·.1)) = files.map File.typeNames := by
    intro files
    induction files using List.reverseRecOn with
    | nil => exact ⟨{}, rfl, (foldlM_addFile []).elim fun s hs => pure_eq_ok.mp hs.1 ▸ hs.2, rfl⟩
    | append_singleton files f ih =>
      obtain ⟨s, hs, hdeclared, hnames⟩ := ih
      refine ⟨s.added f, foldlM_addFile_concat hs f, hdeclared.add f, ?_⟩
      show (s.files ++ [s.newFile f]).map _ = _
      rw [map_append, map_append, ← hnames, map_singleton, typesOf_newFile]
      congr 1
      apply map_congr_left
      intro g hg
      obtain ⟨i, hi⟩ := mem_iff_getElem?.mp hg
      have hmirrors := hdeclared.files i g hi
      rw [(grows_added s f).typesOf (fun id hid => (hmirrors.messages id hid).1)
        fun id hid => (hmirrors.enums id hid).1]
  obtain ⟨s₀, hs₀, -, hnames⟩ := hadded files
  rw [ofFiles, hs₀] at h
  refine foldlM_invariant (P := fun t => t.files.map (fun f => (t.typesOf f).map (·.1)) =
    files.map File.typeNames) h hnames ?_
  intro t id t' _ ht hlink
  obtain ⟨dependencies, publics, -, -, rfl⟩ := linkFile_eq_ok.mp hlink
  rw [← ht]
  exact map_linked (fun f => (t.typesOf f).map (·.1)) (fun _ _ _ => rfl) id _ _

end Names

section Added

variable {s : Schema} {files : List File} {g : File}
variable {t : Schema}

theorem Declared.beside_added (h : s.Declared files)
    (hname : ∀ f ∈ files, f.name.getD "" ≠ g.name.getD "") : s.Beside true (s.added g) := by
  have hfiles : (s.added g).files = s.files ++ [s.newFile g] := rfl
  constructor
  · refine ⟨grows_added s g, ?_, fun _ id hid => ?_⟩
    · rw [hfiles, map_append]
      exact prefix_append ..
    · have hfile : (s.added g).file id = s.file id :=
        getD_of_isPrefix (hfiles ▸ prefix_append ..) hid _
      rw [hfile]
  · intro name id hid
    obtain ⟨f, hf, rfl⟩ := h.named name id hid
    refine ⟨(List.getElem?_eq_some_iff.mp hf).1, ?_⟩
    have hproto : f.proto ∈ files := by
      rw [← h.protos]
      exact mem_map_of_mem (mem_of_getElem? hf)
    have hne : f.name ≠ g.name.getD "" := hname f.proto hproto
    show (s.byName.insert (g.name.getD "") _).get? f.name = _
    rw [Dict.get?_insert, if_neg hne, hid]
  · intro id m hm
    rcases s.file_cases id with hf | ⟨-, hdefault⟩
    · exact ((h.files _ _ hf).messages m hm).1
    · rw [hdefault] at hm
      cases hm

/-- A schema with one file more, with a name and types of its own, has all that it had. -/
theorem ofFiles_beside (hs : ofFiles files = .ok s) (ht : ofFiles (files ++ [g]) = .ok t)
    (hname : ∀ f ∈ files, f.name.getD "" ≠ g.name.getD "") : s.Beside true t := by
  obtain ⟨s₀, hs₀, hdeclared⟩ := foldlM_addFile files
  rw [ofFiles, hs₀] at hs
  rw [ofFiles, foldlM_addFile_concat hs₀ g] at ht
  exact (hdeclared.beside_added hname).linkAll rfl hs ht

theorem ofFiles_apart (hs : ofFiles files = .ok s) (ht : ofFiles (files ++ [g]) = .ok t)
    (htypes : ∀ f ∈ files, ∀ name ∈ f.typeNames, name ∉ g.typeNames) :
    ∀ f ∈ t.files.drop s.files.length, ∀ e ∈ t.typesOf f, s.typeTable.get? e.1 = none := by
  have hnames := typeNames_ofFiles hs
  have hnames' := typeNames_ofFiles ht
  have hlength : s.files.length = (files.map File.typeNames).length := by
    rw [← hnames, length_map]
  have hlast : (t.files.drop s.files.length).map (fun f => (t.typesOf f).map (·.1)) =
      [g.typeNames] := by
    rw [map_drop, hnames', map_append, hlength, drop_left, map_singleton]
  intro f hf e he
  have hnew : e.1 ∈ g.typeNames := by
    have hkeys : (t.typesOf f).map (·.1) ∈ [g.typeNames] := by
      rw [← hlast]
      exact mem_map_of_mem hf
    rw [← mem_singleton.mp hkeys]
    exact mem_map_of_mem he
  cases hget : s.typeTable.get? e.1 with
  | none => rfl
  | some object =>
    obtain ⟨f', hf', hmem⟩ := mem_flatMap.mp (Dict.mem_ofList (Dict.mem_of_get? hget))
    have hkeys : (s.typesOf f').map (·.1) ∈ files.map File.typeNames := by
      rw [← hnames]
      exact mem_map_of_mem hf'
    obtain ⟨file, hfile, heq⟩ := mem_map.mp hkeys
    have hold : e.1 ∈ file.typeNames := by
      rw [heq]
      exact mem_map_of_mem (f := (·.1)) hmem
    exact absurd hnew (htypes file hfile e.1 hold)

end Added

end Schema

section Runs

variable {s : Setup}

theorem Setup.binders_append (exports : Exports) (files later : List FileId) :
    ∃ rest, s.binders exports (files ++ later) = s.binders exports files ++ rest ∧
      ∀ b ∈ rest, b.setup = s ∧ b.file ∈ later := by
  induction files generalizing exports with
  | nil =>
    refine ⟨s.binders exports later, rfl, fun b hb => ?_⟩
    obtain ⟨hsetup, hfile, -⟩ := binders_invariant (P := fun _ => True) hb trivial
      fun _ _ _ _ _ => trivial
    exact ⟨hsetup, hfile⟩
  | cons file files ih =>
    rw [cons_append, binders, binders]
    cases (Binder.mk s file exports).declarations with
    | error e => exact ⟨[], rfl, by simp⟩
    | ok part =>
      obtain ⟨rest, hrest, hall⟩ := ih (exports ++ part.exports)
      exact ⟨rest, congrArg _ hrest, hall⟩

theorem Setup.Within.outputs {s' : Setup} (h : s.Within true s')
    {outs outs' : List (List GeneratedFile)}
    (houts : (s.binders [] s.schema.fileIds).mapM Binder.output = .ok outs)
    (houts' : (s'.binders [] s'.schema.fileIds).mapM Binder.output = .ok outs') :
    outs'.flatten = outs.flatten := by
  obtain ⟨later, hlater, hbound⟩ := h.fileIds
  obtain ⟨rest, hrest, hall⟩ := Setup.binders_append [] s.schema.fileIds later
  have hclosed : Exports.Closed s.schema [] := by simp [Exports.Closed]
  obtain ⟨same, hsame, hequal⟩ := h.binders (fun file => mem_fileIds.mp) hclosed
    (fun b _ b' _ hwithin out hout => ⟨out, hwithin.sameOutput hout, rfl⟩) houts
  rw [forall₂_eq_eq_eq] at hequal
  rw [hlater, hrest, mapM_append, bind_eq_ok] at houts'
  obtain ⟨first, hfirst, hmore⟩ := houts'
  simp only [steps_eq_ok] at hmore
  obtain ⟨more, hmore, rfl⟩ := hmore
  cases hfirst.symm.trans hsame
  have hnone : more.flatten = [] := by
    rw [flatten_eq_nil_iff]
    intro out hout
    obtain ⟨b, hb, hout⟩ := exists_of_mem_mapM hmore hout
    obtain ⟨rfl, hfile⟩ := hall b hb
    refine ((Binder.output_skipped ?_).mp hout).2
    rw [Bool.eq_false_iff]
    intro hgenerated
    rw [isGenerated, h.generated, contains_iff_mem] at hgenerated
    exact absurd (h.listed b.file hgenerated) (Nat.not_lt.mpr (hbound b.file hfile))
  rw [flatten_append, hnone, append_nil, hequal]

end Runs

/-- A file at the end of a request whose name and types are those of no other file, and which is
not asked for, does not change the response. -/
theorem generate_unrelated {σ : Type} {r : Request} {g : File}
    (hname : ∀ f ∈ r.files, f.name.getD "" ≠ g.name.getD "")
    (htypes : ∀ f ∈ r.files, ∀ name ∈ f.typeNames, name ∉ g.typeNames) {state : σ}
    {out out' : List GeneratedFile} (h : (generateWith [] r state).1 = .ok out)
    (h' : (generateWith [] { r with files := r.files ++ [g] } state).1 = .ok out') :
    out' = out := by
  simp only [generateWith_nil, steps_eq_ok] at h h'
  obtain ⟨s, hs, outs, houts, rfl⟩ := h
  obtain ⟨s', hs', outs', houts', rfl⟩ := h'
  obtain ⟨schema, hschema, -⟩ := Setup.ofRequest_eq_ok hs
  obtain ⟨schema', hschema', -⟩ := Setup.ofRequest_eq_ok hs'
  have hbeside := ofFiles_beside hschema hschema' hname
  obtain ⟨s'', hs'', hwithin⟩ := Setup.ofRequest_within { r with files := r.files ++ [g] } hs rfl
    rfl
    hschema hschema' hbeside fun name object => hbeside.typeTable
      (ofFiles_mirrors hschema).closed (ofFiles_apart hschema hschema' htypes)
  cases hs'.symm.trans hs''
  exact hwithin.outputs houts houts'

/-- A file that uses a message of another one. -/
def userRequest : Request where
  filesToGenerate := ["b.proto"]
  files :=
    [{ name := some "a.proto", package := some "a", messages := [{ name := some "M" }] },
     { name := some "b.proto", package := some "b", dependencies := ["a.proto"]
       messages := [{
         name := some "N"
         fields :=
           [{ name := some "m", number := some 1, label := some 1, kind := some 11,
              typeName := some ".a.M" }] }] }]

/-- Another file of the package of that message, which imports it too. -/
def neighbour : File where
  name := some "c.proto"
  package := some "a"
  dependencies := ["a.proto"]
  publicDependencies := [0]
  messages := [{
    name := some "Outer"
    nested := [{ name := some "M" }]
    fields :=
      [{ name := some "m", number := some 1, label := some 1, kind := some 11,
         typeName := some ".a.M" }] }]

theorem generate_unrelated_neighbour : ∃ out, (generateWith [] userRequest ()).1 = .ok out ∧
    (generateWith [] { userRequest with files := userRequest.files ++ [neighbour] } ()).1 =
      .ok out := by
  have hchecked : userRequest.Checked ∧
      Request.Checked
        { userRequest with files := userRequest.files ++ [neighbour] } := by decide +kernel
  obtain ⟨out, h⟩ := generate_of_checked hchecked.1
  obtain ⟨out', h'⟩ := generate_of_checked hchecked.2
  obtain rfl := generate_unrelated (by decide +kernel) (by decide +kernel) h h'
  exact ⟨out', h, h'⟩

end GoBindings
