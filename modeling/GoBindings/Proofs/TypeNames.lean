import GoBindings.Proofs.Images
import GoBindings.Proofs.Situations

/-!
# Names of types

The type table finds the last message or enum of a full name: that of the last file, and in a file
a message rather than an enum. A message is a group if a group field around it has its full name.
-/

namespace GoBindings.Schema

open List

open Descriptor (File)

/-- The names with a dot before each. -/
def dotted : List String → String
  | [] => ""
  | name :: names => "." ++ name ++ dotted names

/-- The full name: the package, if there is one, and the names from the outside in. -/
def fullName (package : String) (names : List String) : String :=
  dotted (if package = "" then names else package :: names)

theorem qualifiedName_eq (package : String) {names : List String} (h : names ≠ []) :
    qualifiedName package names = fullName package names := by
  have hjoin : ∀ names ≠ [], "." ++ Text.join "." names = dotted names := by
    intro names h
    induction names with
    | nil => exact absurd rfl h
    | cons name names ih =>
      cases names with
      | nil => simp [Text.join, dotted]
      | cons name' names =>
        rw [dotted, ← ih (by simp), Text.join, String.append_assoc, String.append_assoc]
        simp
  rw [qualifiedName, fullName]
  split
  · exact hjoin names h
  · rw [dotted, ← hjoin names h, String.append_assoc]

/-- A message or an enum of the schema. -/
def IsType (s : Schema) : Object → Prop
  | .message id => id.index < s.messages.length
  | .enum id => id.index < s.enums.length
  | _ => False

/-- The message or enum has the full name. -/
def Named (s : Schema) (name : String) (object : Object) : Prop :=
  s.IsType object ∧ fullName (s.file (s.fileOf object)).package (s.declaredName object) = name

/-- The file of a type, then its sort, then its own number. -/
def typeRank (s : Schema) : Object → List Nat
  | .enum id => [(s.enum id).file.index, 0, id.index]
  | .message id => [(s.message id).file.index, 1, id.index]
  | _ => []

section Types

variable {s : Schema} {files : List File}

theorem FileNode.Mirrors.mem_typesOf {f : FileNode} {i : Nat} (hf : f.Mirrors s ⟨i⟩)
    (hfile : s.file ⟨i⟩ = f) {e : String × Object} (he : e ∈ s.typesOf f) :
    s.Named e.1 e.2 ∧ s.fileOf e.2 = ⟨i⟩ := by
  simp only [typesOf, tableName_eq] at he
  rcases mem_append.mp he with he | he <;> obtain ⟨id, hid, rfl⟩ := mem_map.mp he
  · obtain ⟨hlt, howner, -⟩ := hf.enums id hid
    refine ⟨⟨hlt, ?_⟩, howner⟩
    rw [fileOf, howner, hfile]
    exact (qualifiedName_eq _ ((hf.enum_inRow hid).spec hid rfl).2).symm
  · obtain ⟨hlt, hm⟩ := hf.messages id hid
    refine ⟨⟨hlt, ?_⟩, hm.file⟩
    rw [fileOf, hm.file, hfile]
    exact (qualifiedName_eq _ ((hf.message_inRow hid).spec hid rfl).2).symm

namespace Mirrors

variable (hs : s.Mirrors files)

include hs

theorem mem_types_iff {name : String} {object : Object} :
    (name, object) ∈ s.files.flatMap s.typesOf ↔ s.Named name object := by
  have hnamed {i : Nat} {f : FileNode} (hf : s.files[i]? = some f) {e : String × Object}
      (he : e ∈ s.typesOf f) : s.Named e.1 e.2 :=
    ((hs.files i f hf).1.mem_typesOf (file_eq_of_getElem? hf) he).1
  rw [mem_flatMap]
  constructor
  · rintro ⟨f, hf, h⟩
    obtain ⟨i, hi⟩ := mem_iff_getElem?.mp hf
    exact hnamed hi h
  · rintro ⟨htype, rfl⟩
    cases object with
    | message id =>
      obtain ⟨i, f, hf, hmem⟩ := hs.exists_message id htype
      have he : (_, Object.message id) ∈ s.typesOf f := mem_append_right _ (mem_map_of_mem hmem)
      exact ⟨f, mem_of_getElem? hf, (hnamed hf he).2 ▸ he⟩
    | enum id =>
      obtain ⟨i, f, hf, hmem⟩ := hs.exists_enum id htype
      have he : (_, Object.enum id) ∈ s.typesOf f := mem_append_left _ (mem_map_of_mem hmem)
      exact ⟨f, mem_of_getElem? hf, (hnamed hf he).2 ▸ he⟩
    | extension | reexport => exact absurd htype id

theorem types_ascend :
    (s.files.flatMap s.typesOf).Pairwise fun e e' => s.typeRank e.2 < s.typeRank e'.2 := by
  have hrank {i : Nat} {f : FileNode} (hf : s.files[i]? = some f) {e : String × Object}
      (he : e ∈ s.typesOf f) : ∃ rest, s.typeRank e.2 = i :: rest := by
    obtain ⟨⟨htype, -⟩, hfile⟩ := (hs.files i f hf).1.mem_typesOf (file_eq_of_getElem? hf) he
    obtain ⟨name, object⟩ := e
    cases object with
    | message | enum => exact ⟨_, congrArg (· :: _) (congrArg FileId.index hfile)⟩
    | extension | reexport => exact absurd htype id
  have hascend {ι : Type} {mk : Nat → ι} (index : ι → Nat) (hmk : ∀ n, index (mk n) = n)
      {list : FileNode → List ι} {n : Nat} (h : s.files.flatMap list = (range n).map mk)
      {f : FileNode} (hf : f ∈ s.files) : (list f).Pairwise fun a b => index a < index b := by
    have hall : (s.files.flatMap list).Pairwise fun a b => index a < index b := by
      rw [h, pairwise_map]
      simpa [hmk] using pairwise_lt_range
    exact (pairwise_flatMap.mp hall).1 f hf
  refine pairwise_flatMap.mpr ⟨fun f hf => ?_, ?_⟩
  · obtain ⟨i, hi⟩ := mem_iff_getElem?.mp hf
    have hmirrors := (hs.files i f hi).1
    refine pairwise_append.mpr ⟨pairwise_map.mpr ?_, pairwise_map.mpr ?_, ?_⟩
    · refine (hascend EnumId.index (fun _ => rfl) hs.enums hf).imp_of_mem fun ha hb hlt => ?_
      simp only [typeRank, (hmirrors.enums _ ha).2.1, (hmirrors.enums _ hb).2.1]
      simpa [cons_lt_cons_iff] using hlt
    · refine (hascend MessageId.index (fun _ => rfl) hs.messages hf).imp_of_mem fun ha hb hlt => ?_
      simp only [typeRank, (hmirrors.messages _ ha).2.file, (hmirrors.messages _ hb).2.file]
      simpa [cons_lt_cons_iff] using hlt
    · simp only [mem_map]
      rintro _ ⟨a, ha, rfl⟩ _ ⟨b, hb, rfl⟩
      simp only [typeRank, (hmirrors.enums _ ha).2.1, (hmirrors.messages _ hb).2.file]
      simp [cons_lt_cons_iff]
  · rw [pairwise_iff_getElem]
    intro i j hi hj hlt e he e' he'
    obtain ⟨rest, hrest⟩ := hrank (getElem?_eq_getElem hi) he
    obtain ⟨rest', hrest'⟩ := hrank (getElem?_eq_getElem hj) he'
    rw [hrest, hrest', cons_lt_cons_iff]
    exact .inl hlt

end Mirrors

/-- Of the types of one name the table finds the last. Where full names differ, it has one entry for
each type, and finds exactly what has the name. -/
theorem typeTable_finds (h : ofFiles files = .ok s) :
    (∀ name object, s.typeTable.get? name = some object ↔ s.Named name object ∧
      ∀ other, s.Named name other → other = object ∨ s.typeRank other < s.typeRank object) ∧
    ((∀ name object other, s.Named name object → s.Named name other → object = other) →
      (s.typeTable.entries.map Prod.snd).Perm
        ((range s.messages.length).map (.message ⟨·⟩) ++
          (range s.enums.length).map (.enum ⟨·⟩)) ∧
      ∀ name object, s.typeTable.get? name = some object ↔ s.Named name object) ∧
    ∀ id : MessageId, id.index < s.messages.length → ((s.message id).group = true ↔
      ∃ p ∈ (s.message id).parent, ∃ field ∈ (s.message p).proto.fields,
        field.kind = some 10 ∧ s.Named (field.typeName.getD "") (.message id)) := by
  have hs := ofFiles_mirrors h
  have hget (name : String) (object : Object) : s.typeTable.get? name = some object ↔
      s.Named name object ∧
        ∀ other, s.Named name other → other = object ∨ s.typeRank other < s.typeRank object := by
    rw [typeTable, Dict.get?_ofList_iff (r := fun a b => s.typeRank a < s.typeRank b)
      hs.types_ascend fun a b => lt_asymm]
    simp only [hs.mem_types_iff]
  refine ⟨hget, fun hdistinct => ?_, fun id hid => ?_⟩
  · have hget' (name : String) (object : Object) :
        s.typeTable.get? name = some object ↔ s.Named name object := by
      rw [hget]
      exact and_iff_left_of_imp fun hn other ho => .inl (hdistinct name other object ho hn)
    refine ⟨?_, hget'⟩
    have hentry {e : String × Object} (he : e ∈ s.typeTable.entries) : s.Named e.1 e.2 :=
      (hget' ..).mp ((Dict.sorted_ofList _).mem_iff.mp he)
    have hnodup : (s.typeTable.entries.map Prod.snd).Nodup := by
      refine (Dict.sorted_ofList _).nodup.map_on fun e he e' he' heq => Prod.ext ?_ heq
      rw [← (hentry he).2, ← (hentry he').2, heq]
    have hmem (object : Object) : object ∈ (range s.messages.length).map (.message ⟨·⟩) ++
        (range s.enums.length).map (.enum ⟨·⟩) ↔ s.IsType object := by
      obtain ⟨⟨n⟩⟩ | ⟨⟨n⟩⟩ | _ | _ := object <;> simp [IsType]
    refine (perm_ext_iff_of_nodup hnodup ?_).mpr fun object => ?_
    · refine nodup_append.mpr ⟨nodup_range.map ?_, nodup_range.map ?_, by simp⟩
      · exact fun _ _ heq => by cases heq; rfl
      · exact fun _ _ heq => by cases heq; rfl
    · rw [hmem]
      constructor
      · intro h
        obtain ⟨e, he, rfl⟩ := mem_map.mp h
        exact (hentry he).1
      · intro htype
        have he := (Dict.sorted_ofList _).mem_iff.mpr ((hget' _ object).mpr ⟨htype, rfl⟩)
        exact mem_map_of_mem (f := Prod.snd) he
  · obtain ⟨i, f, hf, hmem⟩ := hs.exists_message id hid
    have hmirrors := (hs.files i f hf).1
    have hname := qualifiedName_eq f.package ((hmirrors.message_inRow hmem).spec hmem rfl).2
    have hgroup := congrArg Prod.snd ((ofFiles_situated h f (mem_of_getElem? hf)).messages id hmem)
    have hnamed (name : String) : s.Named name (.message id) ↔
        name = qualifiedName f.package (s.message id).typeName := by
      rw [Named, fileOf, (hmirrors.messages id hmem).2.file, file_eq_of_getElem? hf]
      exact ⟨fun h => (hname.trans h.2).symm, fun h => ⟨hid, (h.trans hname).symm⟩⟩
    simp only [MessageNode.situation] at hgroup
    simp only [hgroup, hnamed, show (10 : Int32) = groupKind from rfl]
    cases (s.message id).parent <;> simp [hasGroup]

/-- A nested message is found by its full name. -/
theorem typeTable_finds_inner : ∃ s, ofFiles nestedFiles = .ok s ∧
    s.typeTable.get? ".Outer.Inner" = some (.message ⟨1⟩) := by
  have hschema : ∃ s, ofFiles nestedFiles = .ok s ∧ s.messages.length = 2 ∧ s.enums.length = 0 ∧
      fullName (s.file (s.message ⟨0⟩).file).package (s.message ⟨0⟩).typeName = ".Outer" ∧
      fullName (s.file (s.message ⟨1⟩).file).package (s.message ⟨1⟩).typeName = ".Outer.Inner" :=
    ⟨_, rfl, rfl, rfl, by decide, by decide⟩
  obtain ⟨s, h, hmessages, henums, houter, hinner⟩ := hschema
  refine ⟨s, h, (((typeTable_finds h).2.1 ?_).2 _ _).mpr ⟨by simp [IsType, hmessages], hinner⟩⟩
  have htype {object : Object} (hobject : s.IsType object) :
      object = .message ⟨0⟩ ∨ object = .message ⟨1⟩ := by
    obtain ⟨⟨n⟩⟩ | ⟨⟨n⟩⟩ | _ | _ := object <;> simp only [IsType, hmessages, henums] at hobject
    · obtain rfl | rfl : n = 0 ∨ n = 1 := by omega
      all_goals simp
    · omega
  rintro name object other ⟨hobject, rfl⟩ ⟨hother, heq⟩
  rcases htype hobject with rfl | rfl <;> rcases htype hother with rfl | rfl
  · rfl
  · exact absurd (hinner.symm.trans (heq.trans houter)) (by decide)
  · exact absurd (houter.symm.trans (heq.trans hinner)) (by decide)
  · rfl

end Types

end GoBindings.Schema
