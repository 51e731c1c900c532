import GoBindings.Proofs.Schemas

/-!
# Qualifiers of names

The package names tell apart what is generated from all else, so that a name is written without a
package exactly if its file is generated.
-/

namespace GoBindings

open Schema Descriptor List

/-- The names of packages tell apart the generated package, each of the other files and the support
packages. -/
structure PackageNames.Separate (names : PackageNames) (files generated : List FileId)
    (package : String) : Prop where
  named : ∀ id ∈ files, ∃ name, names.of id = .ok name
  shared : ∀ id ∈ files, names.of id = .ok package ↔ id ∈ generated
  apart : ∀ id ∈ files, ∀ id' ∈ files, id ∉ generated → id' ∉ generated →
    names.of id = names.of id' → id = id'
  support : (supportPackages.map names.supportName).Nodup
  supportNotShared : package ∉ supportPackages.map names.supportName
  supportNotFile : ∀ id ∈ files, ∀ name ∈ supportPackages.map names.supportName,
    names.of id ≠ .ok name

section Separation

variable {schema : Schema} {generated : List FileId} {p : Parameters} {names : PackageNames}
  {package : String}

open PackageNames in
theorem separate_of_assignPackageNames
    (h : assignPackageNames schema generated p = .ok (names, package)) :
    names.Separate schema.fileIds generated package := by
  obtain ⟨hsound, hsupport⟩ := assignPackageNames_sound h
  have hheld {name : String} (hname : name ∈ supportPackages.map names.supportName) :
      ∃ key, Holds generated names (.support key) name := by
    obtain ⟨key, hkey, rfl⟩ := mem_map.mp hname
    exact ⟨key, hsupport key hkey⟩
  refine ⟨fun id hid => exists_of_assignPackageNames h hid, fun id hid => ?_, ?_, ?_, ?_,
    fun id hid name hname => ?_⟩
  · obtain ⟨name, hname⟩ := exists_of_assignPackageNames h hid
    rw [← hsound.eq_package_iff hname, hname, Except.ok.injEq]
  · intro id hid id' hid' hother hother' heq
    obtain ⟨name, hname⟩ := exists_of_assignPackageNames h hid
    have howner := hsound.unique (holds_of generated hname) (holds_of generated (heq ▸ hname))
    rw [Owner.of, Owner.of, if_neg (by simpa using hother), if_neg (by simpa using hother')]
      at howner
    exact Owner.file.inj howner
  · refine Nodup.map_on (fun key hkey key' hkey' heq => ?_) (by decide)
    exact Owner.support.inj (hsound.unique (hsupport key hkey) (heq ▸ hsupport key' hkey'))
  · intro hmem
    obtain ⟨key, hkey⟩ := hheld hmem
    obtain ⟨first, hfirst, hown⟩ := hsound.first
    have howner := hsound.unique hkey (Holds.file hown)
    rw [Owner.of, if_pos (by simpa using hfirst)] at howner
    cases howner
  · obtain ⟨key, hkey⟩ := hheld hname
    exact hsound.support_ne hkey

end Separation

theorem Schema.Mirrors.fileOf_mem {s : Schema} {files : List File} (hs : s.Mirrors files)
    {object : Object} (h : s.hasObject object = true) : s.fileOf object ∈ s.fileIds := by
  have hentry {α : Type} {l : List α} {i : Nat} {a : α} (hi : i < l.length) : l.getD i a ∈ l := by
    rw [getD_eq_getElem?_getD, getElem?_eq_getElem hi]
    exact getElem_mem hi
  suffices hlt : (s.fileOf object).index < s.files.length from
    mem_map.mpr ⟨_, mem_range.mpr hlt, rfl⟩
  cases object with
  | message id => exact (hs.closed.messages _ (hentry (of_decide_eq_true h))).1
  | enum id => exact (hs.closed.enums _ (hentry (of_decide_eq_true h))).1
  | extension id => exact (hs.closed.extensions _ (hentry (of_decide_eq_true h))).1
  | reexport id => exact (hs.closed.reexports _ (hentry (of_decide_eq_true h))).1

namespace Setup

/-- The package names of a run over the files of a schema, in whichever way they are numbered. A
name is bare for what is in a generated file and qualified for all else. -/
theorem packages_separate {files : List File} {schema : Schema} {s : Setup}
    (hschema : ofFiles files = .ok schema) (ids : List FileId)
    (hs : s.schema = { schema with files := numberFiles schema.files 0 ids })
    (h : assignPackageNames s.schema s.generated s.parameters = .ok (s.packages, s.packageName)) :
    s.packages.Separate s.schema.fileIds s.generated s.packageName ∧
      ∀ object, s.schema.hasObject object = true →
        ∃ package, s.packages.of (s.schema.fileOf object) = .ok package ∧
          s.goName object = .ok (
            if s.schema.fileOf object ∈ s.generated
            then .name (Go.camelCaseScope (s.schema.typeName object))
            else .qualified package (Go.camelCaseScope (s.schema.typeName object))) := by
  have hmirrors : s.schema.Mirrors files := by
    rw [hs]
    exact mirrors_numberFiles (ofFiles_mirrors hschema) 0 ids
  refine ⟨separate_of_assignPackageNames h, fun object hobject => ?_⟩
  obtain ⟨package, hpackage⟩ := exists_of_assignPackageNames h (hmirrors.fileOf_mem hobject)
  refine ⟨package, hpackage, ?_⟩
  rw [goName, hpackage]
  simp only [bind, Except.bind, pure, Except.pure,
    (assignPackageNames_sound h).1.eq_package_iff hpackage]

/-- Files that ask for names which others have, or which others get by a number. -/
def crowdedFiles : List File :=
  [{ name := some "a.proto", package := some "a", messages := [{ name := some "M" }] },
   { name := some "b.proto", package := some "a", messages := [{ name := some "N" }] },
   { name := some "c.proto", package := some "a1" },
   { name := some "fmt.proto" }]

def crowdedSchema : Schema := (ofFiles crowdedFiles).toOption.getD {}

def crowded : Setup :=
  let assigned := (assignPackageNames crowdedSchema [⟨0⟩] {}).toOption.getD default
  { schema := crowdedSchema, parameters := {}, packages := assigned.1,
    types := crowdedSchema.typeTable, packageName := assigned.2, generated := [⟨0⟩] }

theorem packages_separate_crowded :
    crowded.schema.fileIds.map (fun id => (crowded.packages.of id).toOption) =
      [some "a", some "a1", some "a11", some "fmt1"] ∧
    crowded.packages.Separate crowded.schema.fileIds crowded.generated crowded.packageName := by
  have hschema : ofFiles crowdedFiles = .ok crowdedSchema :=
    eq_ok_of_isOk {} (by decide +kernel)
  have hassign : assignPackageNames crowded.schema crowded.generated crowded.parameters =
      .ok (crowded.packages, crowded.packageName) :=
    eq_ok_of_isOk default (by decide +kernel)
  exact ⟨by decide +kernel, (packages_separate hschema [] rfl hassign).1⟩

end Setup

end GoBindings
