import GoBindings.Field.Mapping
import GoBindings.Field.Tag
import GoBindings.Proofs.Schemas
import GoBindings.Proofs.Syntax

/-!
# Types and tags of fields

The Go types of plain fields have plain names. They refer to the packages of the files that declare
what the fields name.
-/

namespace GoBindings

open Schema Go Descriptor

variable {t : TypeExpr} {R : Rules}

namespace Go.TypeExpr

/-- A type whose names are identifiers, whatever the packages in it are. -/
def Named (t : TypeExpr) : Prop := t.Valid ⟨fun _ => True, False⟩

theorem Named.valid (h : t.Named) (hp : ∀ p ∈ t.packages, R.package p) : t.Valid R := by
  induction t with
  | name n => exact h
  | qualified package n => exact ⟨hp package (by simp [packages]), h.2⟩
  | pointer t ih | slice t ih => exact ih h hp
  | map k v ihk ihv =>
    exact ⟨ihk h.1 fun p hk => hp p (by simp [packages, hk]),
      ihv h.2 fun p hv => hp p (by simp [packages, hv])⟩
  | anything => trivial

theorem packages_unstarred (t : TypeExpr) : t.unstarred.packages = t.packages := by
  cases t with
  | name n =>
    rw [unstarred]
    split <;> rfl
  | _ => rfl

theorem Valid.unstarred (h : t.Valid R) :
    t.unstarred.Valid R ∧ t.unstarred.packages = t.packages := by
  refine ⟨?_, packages_unstarred t⟩
  cases t with
  | name n =>
    have hn : IsName n := h
    have hstar : n.toList.head? ≠ some '*' := by
      intro hhead
      exact hn.not_mem (by decide) (List.mem_of_head? hhead)
    rw [TypeExpr.unstarred, if_neg hstar]
    exact h
  | pointer t => exact h
  | _ => exact h

theorem Named.unstarred (h : t.Named) :
    t.unstarred.Named ∧ t.unstarred.packages = t.packages := Valid.unstarred h

end Go.TypeExpr

namespace Setup

variable {P : Field → Prop} {s : Setup} {files : List File}

/-- A package that is named for the sake of a file. -/
def PackageOf (s : Setup) (file : FileId) (package : String) : Prop :=
  s.packages.of file = .ok package ∧ package ≠ s.packageName

theorem resolve_declares (hs : s.SoundWith P files) {name : String} {file : FileId}
    {object : Object} (h : s.resolve name file = .ok object) :
    s.schema.Declares (s.schema.underlying object) := by
  rw [resolve, hs.types] at h
  exact (Schema.resolve_declares hs.schema.mirrors h).1

theorem goName_packages {object : Object} (h : s.goName object = .ok t) :
    ∀ p ∈ t.packages, s.PackageOf (s.schema.fileOf object) p := by
  rw [goName, bind_eq_ok] at h
  obtain ⟨package, hpackage, h⟩ := h
  cases h
  split
  · simp [TypeExpr.packages]
  · rename_i hne
    simpa [TypeExpr.packages] using ⟨hpackage, hne⟩

theorem goName_spec (hs : s.SoundWith P files) {object : Object}
    (ho : s.schema.Declares (s.schema.underlying object)) (h : s.goName object = .ok t) :
    t.Named ∧ ∀ p ∈ t.packages, s.PackageOf (s.schema.fileOf object) p := by
  have hname := (hs.schema.declared_name ho).isName
  refine ⟨?_, goName_packages h⟩
  rw [goName, bind_eq_ok] at h
  obtain ⟨package, hpackage, h⟩ := h
  cases h
  split
  · exact hname
  · exact ⟨trivial, hname⟩

end Setup

/-- What the type of a field is like: its names are identifiers, it refers to at most one package,
and that is the one of the file that declares what the field names. -/
structure FieldType.Sound (s : Setup) (file : FileId) (field : Field)
    (t : FieldType) : Prop where
  named : t.type.Named
  packages : t.type.packages = t.package?.toList
  origin : ∀ p ∈ t.package?, ∃ kind object, field.fieldKind = .ok kind ∧ kind.scalar? = none ∧
    s.resolve field.typeNameText file = .ok object ∧ s.PackageOf (s.schema.fileOf object) p

theorem FieldKind.scalar?_named {kind : FieldKind} {wire : WireKind}
    (h : kind.scalar? = some (t, wire)) : t.Named ∧ t.packages = [] := by
  cases kind <;> simp only [scalar?] at h <;>
    obtain ⟨rfl, -⟩ := h <;> exact ⟨by show IsName _; decide, rfl⟩

namespace Setup

variable {P : Field → Prop} {s : Setup} {files : List File} {file : FileId}
  {field : Field} {t : FieldType}
variable {message : Option MessageId}

theorem elementType_sound (hs : s.SoundWith P files) {kind : FieldKind}
    (hkind : field.fieldKind = .ok kind) (h : s.elementType file field kind = .ok t) :
    t.Sound s file field := by
  rw [elementType] at h
  split at h
  · rename_i type wire hscalar
    cases h
    obtain ⟨hnamed, hpackages⟩ := FieldKind.scalar?_named hscalar
    have hnone : FieldType.package? ⟨type, wire⟩ = none := by simp [FieldType.package?, hpackages]
    exact ⟨hnamed, by rw [hnone, hpackages]; rfl, by simp [hnone]⟩
  · rename_i hscalar
    rw [bind_eq_ok] at h
    obtain ⟨object, hobject, h⟩ := h
    rw [bind_eq_ok] at h
    obtain ⟨name, hname, h⟩ := h
    obtain ⟨hnamed, hpackages⟩ := goName_spec hs (resolve_declares hs hobject) hname
    have hone : name.packages = name.packages.head?.toList := by
      rw [goName, bind_eq_ok] at hname
      obtain ⟨package, -, hname⟩ := hname
      cases hname
      split <;> rfl
    have horigin : ∀ p ∈ name.packages.head?, ∃ kind object, field.fieldKind = .ok kind ∧
        kind.scalar? = none ∧ s.resolve field.typeNameText file = .ok object ∧
        s.PackageOf (s.schema.fileOf object) p := fun p hp =>
      ⟨kind, object, hkind, hscalar, hobject, hpackages p (List.mem_of_head? hp)⟩
    split at h <;> obtain rfl := pure_eq_ok.mp h <;> exact ⟨hnamed, hone, horigin⟩

theorem fieldType_eq_ok (h : s.fieldType file message field = .ok t) :
    ∃ kind elem, field.fieldKind = .ok kind ∧ s.elementType file field kind = .ok elem ∧
      t.wire = elem.wire ∧ (t.type = .slice elem.type ∧ field.isRepeated = true ∨
        field.isRepeated = false ∧ (t.type = elem.type ∨
          t.type = .pointer elem.type ∧ kind.needsPointer = true)) := by
  rw [fieldType, bind_eq_ok] at h
  obtain ⟨kind, hkind, h⟩ := h
  rw [bind_eq_ok] at h
  obtain ⟨elem, helem, h⟩ := h
  refine ⟨kind, elem, hkind, helem, ?_⟩
  split at h
  · cases h
    exact ⟨rfl, .inl ⟨rfl, by assumption⟩⟩
  · rename_i hrepeated
    rw [Bool.not_eq_true] at hrepeated
    split at h
    · cases h
      exact ⟨rfl, .inr ⟨hrepeated, .inl rfl⟩⟩
    · split at h
      · cases h
        exact ⟨rfl, .inr ⟨hrepeated, .inr ⟨rfl, by assumption⟩⟩⟩
      · cases h
        exact ⟨rfl, .inr ⟨hrepeated, .inl rfl⟩⟩

theorem fieldType_sound (hs : s.SoundWith P files) (h : s.fieldType file message field = .ok t) :
    t.Sound s file field := by
  obtain ⟨kind, elem, hkind, helem, -, htype⟩ := fieldType_eq_ok h
  obtain ⟨hnamed, hpackages, horigin⟩ := elementType_sound hs hkind helem
  have hsame : t.type.Named ∧ t.type.packages = elem.type.packages := by
    rcases htype with ⟨htype, -⟩ | ⟨-, htype | ⟨htype, -⟩⟩ <;> rw [htype] <;> exact ⟨hnamed, rfl⟩
  have hpackage : t.package? = elem.package? := by
    rw [FieldType.package?, FieldType.package?, hsame.2]
  exact ⟨hsame.1, by rw [hsame.2, hpackage, hpackages], hpackage ▸ horigin⟩

end Setup

end GoBindings
