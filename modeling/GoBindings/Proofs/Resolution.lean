import GoBindings.Proofs.Images
import Mathlib.Logic.Relation

/-!
# What type names stand for

Resolving a name finds what is declared under it, as it is or through a re-export. A re-export is
found for what the imports of a file pass on, which is what they publicly import themselves.
-/

namespace GoBindings.Schema

open List

open Descriptor (File)

variable {file : FileId}

/-- A file imports another publicly. -/
def PubliclyImports (s : Schema) (importer imported : FileId) : Prop :=
  ∃ i ∈ (s.file importer).proto.publicDependencies,
    entryAt? (s.file importer).dependencies i = some imported

/-- What is declared in one file can be named in another as it is. -/
def Near (s : Schema) (current owner : FileId) : Prop :=
  owner = current ∨ owner ∈ (s.file current).dependencies

instance (s : Schema) (importer imported : FileId) :
    Decidable (s.PubliclyImports importer imported) :=
  inferInstanceAs (Decidable (∃ i ∈ _, _))

instance (s : Schema) (current owner : FileId) : Decidable (s.Near current owner) :=
  inferInstanceAs (Decidable (_ ∨ _))

/-- The messages that stand for the entries of map fields. -/
def IsMapEntry (s : Schema) : Object → Prop
  | .message id => (s.message id).isMapEntry = true
  | _ => False

section Lookup

variable {s : Schema} {files : List File} {name : String} {current : FileId} {object : Object}

theorem isDirect_iff {owner : FileId} : s.isDirect owner current = true ↔ s.Near current owner := by
  simp [isDirect, Near]

theorem underlying_of_declares (h : s.Declares object) : s.underlying object = object := by
  cases object with
  | reexport => exact absurd h id
  | _ => rfl

theorem listed_of_typeTable (h : s.typeTable.get? name = some object) :
    ∃ (i : Nat) (f : FileNode), s.files[i]? = some f ∧
      name = qualifiedName f.package (s.declaredName object) ∧
      ((∃ id ∈ f.enums, object = .enum id) ∨ ∃ id ∈ f.messages, object = .message id) := by
  have hmem := Dict.mem_ofList (Dict.mem_of_get? h)
  obtain ⟨f, hf, hmem⟩ := mem_flatMap.mp hmem
  obtain ⟨i, hi⟩ := mem_iff_getElem?.mp hf
  simp only [typesOf, tableName_eq, mem_append, mem_map] at hmem
  rcases hmem with ⟨id, hid, rfl, rfl⟩ | ⟨id, hid, rfl, rfl⟩
  · exact ⟨i, f, hi, rfl, .inl ⟨id, hid, rfl⟩⟩
  · exact ⟨i, f, hi, rfl, .inr ⟨id, hid, rfl⟩⟩

theorem declares_of_typeTable (hs : s.Mirrors files) (h : s.typeTable.get? name = some object) :
    s.Declares object := by
  obtain ⟨i, f, hf, -, ⟨id, hid, rfl⟩ | ⟨id, hid, rfl⟩⟩ := listed_of_typeTable h
  · exact ((hs.files i f hf).1.enums id hid).1
  · exact ((hs.files i f hf).1.messages id hid).1

theorem mem_publicObjects_of_typeTable (hs : s.Mirrors files)
    (h : s.typeTable.get? name = some object) :
    object ∈ s.publicObjects file ↔ s.fileOf object = file ∧ ¬ s.IsMapEntry object := by
  obtain ⟨i, f, hf, -, hlisted⟩ := listed_of_typeTable h
  constructor
  · intro hmem
    refine ⟨(hs.publicObjects_declared file object hmem).2, fun hentry => ?_⟩
    rcases hlisted with ⟨id, -, rfl⟩ | ⟨id, -, rfl⟩
    · exact hentry
    · simp only [publicObjects, mem_append, mem_map, mem_filter] at hmem
      rcases hmem with (⟨m, ⟨-, hm⟩, heq⟩ | ⟨e, -, heq⟩) | ⟨x, -, heq⟩
      · cases heq
        simp [show (s.message id).isMapEntry = true from hentry] at hm
      · cases heq
      · cases heq
  · rintro ⟨rfl, hentry⟩
    have hfile : s.file ⟨i⟩ = f := file_eq_of_getElem? hf
    rcases hlisted with ⟨id, hid, rfl⟩ | ⟨id, hid, rfl⟩
    · have howner : s.file (s.enum id).file = f := by
        rw [((hs.files i f hf).1.enums id hid).2.1, hfile]
      simp [publicObjects, fileOf, howner, hid]
    · have howner : s.file (s.message id).file = f := by
        rw [((hs.files i f hf).1.messages id hid).2.file, hfile]
      have hplain : (s.message id).isMapEntry = false := by simpa [IsMapEntry] using hentry
      simp [publicObjects, fileOf, howner, hid, hplain]

end Lookup

section Reexports

variable {s : Schema} {files : List File} {name : String} {current : FileId}
  {object target : Object}
variable {o : Object}

/-- A file passes on what the files declare that it publicly imports. -/
theorem exists_reexport_iff (hs : s.Mirrors files) :
    (∃ r ∈ (s.file file).reexports, (s.reexport r).target = object) ↔
      ∃ imported, s.PubliclyImports file imported ∧ object ∈ s.publicObjects imported := by
  rcases s.file_cases file with hf | ⟨-, hdefault⟩
  · obtain ⟨publics, hpublics, hreexports⟩ := (hs.files _ _ hf).2.reexports
    constructor
    · rintro ⟨r, hr, rfl⟩
      have hmem : s.reexport r ∈ (s.file file).reexports.map s.reexport := mem_map_of_mem hr
      rw [hreexports] at hmem
      obtain ⟨object, hobject, heq⟩ := mem_map.mp hmem
      obtain ⟨imported, himported, hobject⟩ := mem_flatMap.mp hobject
      obtain ⟨i, hi, hentry⟩ := exists_of_mem_forall₂ hpublics.flip himported
      exact ⟨imported, ⟨i, hi, hentry⟩, heq ▸ hobject⟩
    · rintro ⟨imported, ⟨i, hi, hentry⟩, hobject⟩
      obtain ⟨imported', himported, hentry'⟩ := exists_of_mem_forall₂ hpublics hi
      cases hentry.symm.trans hentry'
      have hmem : Reexport.mk file object ∈ (s.file file).reexports.map s.reexport := by
        rw [hreexports]
        exact mem_map_of_mem (mem_flatMap.mpr ⟨imported, himported, hobject⟩)
      obtain ⟨r, hr, heq⟩ := mem_map.mp hmem
      exact ⟨r, hr, by rw [heq]⟩
  · have hempty : (default : FileNode).proto.publicDependencies = [] := rfl
    simp only [PubliclyImports, hdefault, hempty, not_mem_nil, false_and, exists_false,
      iff_false]
    rintro ⟨r, hr, -⟩
    cases hr

theorem reexportOf?_eq_some (hs : s.Mirrors files)
    (h : s.reexportOf? object current = some target) :
    ∃ r, target = .reexport r ∧ (s.reexport r).target = object ∧
      (s.reexport r).file ∈ (s.file current).dependencies ∧
      r ∈ (s.file (s.reexport r).file).reexports := by
  rw [reexportOf?, Option.map_eq_some_iff] at h
  obtain ⟨r, hr, rfl⟩ := h
  obtain ⟨dependency, hdep, hr⟩ := exists_of_findSome?_eq_some hr
  have hmem := mem_of_find?_eq_some hr
  obtain ⟨-, rfl, -⟩ := (hs.owns_file dependency).reexports r hmem
  exact ⟨r, rfl, by simpa using find?_some hr, hdep, hmem⟩

theorem reexportOf?_eq_none : s.reexportOf? object current = none ↔
    ∀ d ∈ (s.file current).dependencies, ∀ r ∈ (s.file d).reexports,
      (s.reexport r).target ≠ object := by
  simp [reexportOf?, reexportIn?]

/-- What stands for an object in a file: itself if it is near or no import passes it on, and else
a re-export. -/
theorem visible_cases (hs : s.Mirrors files) (object : Object) (current : FileId) :
    (s.visible object current = object ∧ (s.Near current (s.fileOf object) ∨
      ∀ d ∈ (s.file current).dependencies, ∀ r ∈ (s.file d).reexports,
        (s.reexport r).target ≠ object)) ∨
    ∃ r, s.visible object current = .reexport r ∧ (s.reexport r).target = object ∧
      (s.reexport r).file ∈ (s.file current).dependencies ∧
      r ∈ (s.file (s.reexport r).file).reexports ∧ ¬ s.Near current (s.fileOf object) := by
  by_cases hnear : s.Near current (s.fileOf object)
  · exact .inl ⟨by rw [visible, if_pos (isDirect_iff.mpr hnear)], .inl hnear⟩
  · have hfar : s.visible object current = (s.reexportOf? object current).getD object :=
      if_neg (mt isDirect_iff.mp hnear)
    cases hr : s.reexportOf? object current with
    | none =>
      rw [hr] at hfar
      exact .inl ⟨hfar, .inr (reexportOf?_eq_none.mp hr)⟩
    | some target =>
      rw [hr] at hfar
      obtain ⟨r, rfl, htarget, hfile, hheld⟩ := reexportOf?_eq_some hs hr
      exact .inr ⟨r, hfar, htarget, hfile, hheld, hnear⟩

theorem underlying_visible (hs : s.Mirrors files) (h : s.Declares object) (current : FileId) :
    s.underlying (s.visible object current) = object := by
  rcases visible_cases hs object current with ⟨heq, -⟩ | ⟨r, heq, htarget, -⟩
  · rw [heq, underlying_of_declares h]
  · rw [heq, underlying, htarget]

theorem resolve_of_typeTable (h : s.typeTable.get? name = some object) :
    s.resolve s.typeTable name current = .ok (s.visible object current) := by
  rw [resolve, h]

theorem resolve_eq_ok (h : s.resolve s.typeTable name current = .ok o) :
    ∃ object, s.typeTable.get? name = some object ∧ o = s.visible object current := by
  rw [resolve] at h
  split at h
  · rename_i object hobject
    exact ⟨object, hobject, (Except.ok.inj h).symm⟩
  · cases h

theorem resolve_declares (hs : s.Mirrors files) (h : s.resolve s.typeTable name current = .ok o) :
    s.Declares (s.underlying o) ∧
      ∃ f ∈ s.files, name = qualifiedName f.package (s.typeName o) := by
  obtain ⟨object, hobject, rfl⟩ := resolve_eq_ok h
  have hdeclares := declares_of_typeTable hs hobject
  obtain ⟨i, f, hf, hname, -⟩ := listed_of_typeTable hobject
  rw [typeName, underlying_visible hs hdeclares]
  exact ⟨hdeclares, f, mem_of_getElem? hf, hname⟩

end Reexports

section Results

variable {s : Schema} {files : List File}

/-- A name is resolved exactly if something is declared under it, and it stands for just that. A
re-export takes the place of what is far only, and what is far stays only if none is held by an
import. -/
theorem resolve_denotes (h : ofFiles files = .ok s) (name : String) (current : FileId) :
    (∀ e, s.resolve s.typeTable name current = .error e ↔
      s.typeTable.get? name = none ∧ e = .unknownObject name) ∧
    ∀ object, s.typeTable.get? name = some object →
      ∃ o, s.resolve s.typeTable name current = .ok o ∧ s.underlying o = object ∧
        (s.Near current (s.fileOf o) ∨ o = object ∧ ∀ d ∈ (s.file current).dependencies,
          ∀ r ∈ (s.file d).reexports, (s.reexport r).target ≠ o) ∧
        ((∃ r, o = .reexport r) → ¬ s.Near current (s.fileOf object)) := by
  have hs := ofFiles_mirrors h
  refine ⟨fun e => ?_, fun object hobject => ?_⟩
  · rw [resolve]
    split
    · rename_i hsome
      simp [hsome]
    · rename_i hnone
      rw [Except.error.injEq, hnone, eq_comm]
      exact (and_iff_right rfl).symm
  · have hdeclares := declares_of_typeTable hs hobject
    refine ⟨s.visible object current, resolve_of_typeTable hobject,
      underlying_visible hs hdeclares current, ?_⟩
    rcases visible_cases hs object current with ⟨heq, hheld⟩ | ⟨r, heq, -, hfile, -, hfar⟩
    · rw [heq]
      refine ⟨hheld.imp_right fun hnone => ⟨rfl, hnone⟩, ?_⟩
      rintro ⟨r, rfl⟩
      exact absurd hdeclares id
    · rw [heq]
      exact ⟨.inl (.inr hfile), fun _ => hfar⟩

/-- A message with a map, passed on by `b` to `e` and then by `c` to `d`. -/
def relayedFiles : List File :=
  [{ name := some "a.proto", package := some "a",
     messages := [
       { name := some "M",
         nested := [{ name := some "E", options := some { mapEntry := some true } }] }] },
   { name := some "b.proto", dependencies := ["a.proto"], publicDependencies := [0] },
   { name := some "c.proto", dependencies := ["b.proto"], publicDependencies := [0] },
   { name := some "d.proto", dependencies := ["c.proto"] },
   { name := some "e.proto", dependencies := ["b.proto"] }]

def relayed : Schema := (ofFiles relayedFiles).toOption.getD {}

private theorem ofFiles_relayed : ofFiles relayedFiles = .ok relayed :=
  eq_ok_of_isOk {} (by decide)

private theorem relayed_message : relayed.typeTable.get? ".a.M" = some (.message ⟨0⟩) := by
  decide +kernel

theorem resolve_denotes_relayed : ofFiles relayedFiles = .ok relayed ∧
    relayed.typeTable.get? ".a.M" = some (.message ⟨0⟩) ∧
    ∃ o, relayed.resolve relayed.typeTable ".a.M" ⟨4⟩ = .ok o ∧
      relayed.underlying o = .message ⟨0⟩ := by
  refine ⟨ofFiles_relayed, relayed_message, ?_⟩
  obtain ⟨o, ho, hunder, -⟩ :=
    (resolve_denotes ofFiles_relayed ".a.M" ⟨4⟩).2 (.message ⟨0⟩) relayed_message
  exact ⟨o, ho, hunder⟩

/-- A name stands for something near exactly if it is declared near, or if a file that is imported
publicly imports the file that declares it. -/
theorem resolve_near_iff (h : ofFiles files = .ok s) {name : String} {object : Object}
    (hobject : s.typeTable.get? name = some object) (current : FileId) :
    ∃ o, s.resolve s.typeTable name current = .ok o ∧ (s.Near current (s.fileOf o) ↔
      s.Near current (s.fileOf object) ∨ ¬ s.IsMapEntry object ∧
        ∃ d ∈ (s.file current).dependencies, s.PubliclyImports d (s.fileOf object)) := by
  have hs := ofFiles_mirrors h
  have hheld (d : FileId) : (∃ r ∈ (s.file d).reexports, (s.reexport r).target = object) ↔
      ¬ s.IsMapEntry object ∧ s.PubliclyImports d (s.fileOf object) := by
    rw [exists_reexport_iff hs]
    constructor
    · rintro ⟨imported, himports, hmem⟩
      obtain ⟨rfl, hentry⟩ := (mem_publicObjects_of_typeTable hs hobject).mp hmem
      exact ⟨hentry, himports⟩
    · rintro ⟨hentry, himports⟩
      exact ⟨_, himports, (mem_publicObjects_of_typeTable hs hobject).mpr ⟨rfl, hentry⟩⟩
  refine ⟨s.visible object current, resolve_of_typeTable hobject, ?_⟩
  rcases visible_cases hs object current with
    ⟨heq, hnear | hnone⟩ | ⟨r, heq, htarget, hfile, hr, -⟩
  · rw [heq]
    exact iff_of_true hnear (.inl hnear)
  · rw [heq]
    refine (or_iff_left ?_).symm
    rintro ⟨hentry, d, hd, himports⟩
    obtain ⟨r, hr, htarget⟩ := (hheld d).mpr ⟨hentry, himports⟩
    exact hnone d hd r hr htarget
  · rw [heq]
    obtain ⟨hentry, himports⟩ := (hheld _).mp ⟨r, hr, htarget⟩
    exact iff_of_true (.inr hfile) (.inr ⟨hentry, _, hfile, himports⟩)

theorem resolve_near_iff_relayed : ofFiles relayedFiles = .ok relayed ∧
    relayed.PubliclyImports ⟨1⟩ ⟨0⟩ ∧
      ∃ o, relayed.resolve relayed.typeTable ".a.M" ⟨4⟩ = .ok o ∧
        relayed.Near ⟨4⟩ (relayed.fileOf o) := by
  have hpublic : relayed.PubliclyImports ⟨1⟩ (relayed.fileOf (.message ⟨0⟩)) := by decide +kernel
  have hplain : (relayed.message ⟨0⟩).isMapEntry = false := by decide +kernel
  obtain ⟨o, ho, hnear⟩ := resolve_near_iff ofFiles_relayed relayed_message ⟨4⟩
  refine ⟨ofFiles_relayed, by decide +kernel, o, ho, hnear.mpr (.inr ⟨?_, ⟨1⟩, ?_, hpublic⟩)⟩
  · simp [IsMapEntry, hplain]
  · decide +kernel

/-- Public imports pass on neither what they only pass on themselves, nor map entries. -/
theorem not_near_of_publiclyImports : ofFiles relayedFiles = .ok relayed ∧
    ∀ q ∈ [(".a.M", FileId.mk 3), (".a.M.E", FileId.mk 4)],
      ∃ object, relayed.typeTable.get? q.1 = some object ∧
        (∃ d ∈ (relayed.file q.2).dependencies,
          Relation.TransGen relayed.PubliclyImports d (relayed.fileOf object)) ∧
        ∃ o, relayed.resolve relayed.typeTable q.1 q.2 = .ok o ∧
          ¬ relayed.Near q.2 (relayed.fileOf o) := by
  have hpublic : relayed.PubliclyImports ⟨1⟩ ⟨0⟩ ∧ relayed.PubliclyImports ⟨2⟩ ⟨1⟩ := by
    decide +kernel
  have hfile : relayed.fileOf (.message ⟨0⟩) = ⟨0⟩ ∧ relayed.fileOf (.message ⟨1⟩) = ⟨0⟩ := by
    decide +kernel
  have hentry : relayed.typeTable.get? ".a.M.E" = some (.message ⟨1⟩) := by decide +kernel
  refine ⟨ofFiles_relayed, fun q hq => ?_⟩
  rcases mem_pair.mp hq with rfl | rfl
  · refine ⟨_, relayed_message, ⟨⟨2⟩, by decide +kernel, ?_⟩,
      _, resolve_of_typeTable relayed_message, by decide +kernel⟩
    rw [hfile.1]
    exact .tail (.single hpublic.2) hpublic.1
  · refine ⟨_, hentry, ⟨⟨1⟩, by decide +kernel, ?_⟩,
      _, resolve_of_typeTable hentry, by decide +kernel⟩
    rw [hfile.2]
    exact .single hpublic.1

end Results

end GoBindings.Schema
