import GoBindings.PackageAssignment
import GoBindings.Proofs.Dicts
import GoBindings.Proofs.FreeNames
import GoBindings.Proofs.Identifiers

/-!
# Names of packages

No package name has two holders: the generated files together hold one, every other file and every
support package holds one of its own.
-/

namespace GoBindings

open List Schema Go

theorem Go.isNameChar_sanitize (text : String) :
    ∀ c ∈ (sanitize text).toList, isNameChar c = true := by
  rw [sanitize, String.toList_ofList, forall_mem_map]
  intro c _
  split
  · assumption
  · decide

namespace PackageNames

variable {keys : List String} {ids : List FileId}
variable {id : FileId}

private theorem numbered_injective (base : String) : Function.Injective (numbered base) := by
  have htext : ∀ n, numbered base n = base ++ if n = 0 then "" else toString n := by
    intro n
    rw [numbered]
    split <;> simp
  intro m n h
  rw [htext, htext, String.append_right_inj] at h
  have hne : ∀ n : Nat, toString n ≠ "" := by
    intro n hn
    have hdigits := congrArg String.toList hn
    rw [Nat.toString_eq_ofList_toDigits, String.toList_ofList] at hdigits
    exact Nat.toDigits_ne_nil hdigits
  by_cases hm : m = 0 <;> by_cases hn : n = 0
  · rw [hm, hn]
  · simp only [hm, hn, if_true, if_false] at h
    exact absurd h.symm (hne n)
  · simp only [hm, hn, if_true, if_false] at h
    exact absurd h (hne m)
  · simp only [hm, hn, if_false] at h
    rw [Nat.toString_eq_ofList_toDigits, Nat.toString_eq_ofList_toDigits, String.ofList_inj] at h
    exact (Nat.ofDigitChars_ten_toDigits.symm.trans (h ▸ Nat.ofDigitChars_ten_toDigits)).symm

variable {names : PackageNames} {generated : List FileId} {package name : String}

theorem free_isLeast (names : PackageNames) (base : String) :
    ∃ n, names.free base = numbered base n ∧ IsLeast {n | numbered base n ∉ names.inUse} n :=
  ⟨_, rfl, leastFrom_free (numbered_injective base) names.inUse⟩

theorem free_not_mem (names : PackageNames) (base : String) : names.free base ∉ names.inUse := by
  obtain ⟨n, heq, hfree, -⟩ := names.free_isLeast base
  rw [heq]
  exact hfree

theorem isNameChar_register (names : PackageNames) (candidate : String) :
    ∀ c ∈ (names.register candidate).1.toList, isNameChar c = true := by
  have hsanitized := isNameChar_sanitize candidate
  obtain ⟨n, heq, -⟩ := names.free_isLeast (sanitize candidate)
  have hname : (names.register candidate).1 = numbered (sanitize candidate) n := heq
  rw [hname, numbered]
  split
  · exact hsanitized
  · rw [String.toList_append, forall_mem_append]
    exact ⟨hsanitized, fun c hc => of_isDigit (isDigit_toString hc) (by decide)⟩

theorem isTail_register (names : PackageNames) (candidate : String) :
    IsTail (names.register candidate).1 :=
  all_eq_true.mpr fun c hc => isIdentRest_of_isNameChar (names.isNameChar_register candidate c hc)

/-- Whom a package name was given to. -/
inductive Owner where
  | generated
  | support (name : String)
  | file (id : FileId)

/-- The generated files are one owner. -/
def Owner.of (generated : List FileId) (id : FileId) : Owner :=
  if generated.contains id then .generated else .file id

inductive Holds (generated : List FileId) (names : PackageNames) : Owner → String → Prop where
  | file {id : FileId} {name : String} (h : (id, name) ∈ names.byFile) :
      Holds generated names (.of generated id) name
  | support {key name : String} (h : (key, name) ∈ names.support.entries) :
      Holds generated names (.support key) name

structure Sound (generated : List FileId) (package : String) (names : PackageNames) : Prop where
  tail : ∀ n ∈ names.inUse, IsTail n
  inUse : ∀ {o n}, Holds generated names o n → n ∈ names.inUse
  unique : ∀ {o o' n}, Holds generated names o n → Holds generated names o' n → o = o'
  first : ∃ id ∈ generated, (id, package) ∈ names.byFile
  eq_package : ∀ {n}, Holds generated names .generated n → n = package

private theorem Sound.extend {names' : PackageNames} (hs : names.Sound generated package)
    (owner : Owner) (howner : owner ≠ .generated) (hfree : name ∉ names.inUse)
    (htail : IsTail name) (hinUse : names'.inUse = name :: names.inUse)
    (hfiles : names.byFile ⊆ names'.byFile)
    (hnew : ∀ o n, Holds generated names' o n →
      Holds generated names o n ∨ o = owner ∧ n = name) : names'.Sound generated package where
  tail n hn := by
    rw [hinUse] at hn
    rcases mem_cons.mp hn with rfl | hn
    · exact htail
    · exact hs.tail n hn
  inUse {o n} h := by
    rw [hinUse]
    rcases hnew o n h with h | ⟨-, rfl⟩
    · exact mem_cons_of_mem _ (hs.inUse h)
    · exact mem_cons_self
  unique {o o' n} h h' := by
    rcases hnew o n h with h | ⟨rfl, rfl⟩ <;> rcases hnew o' _ h' with h' | ⟨rfl, hn⟩
    · exact hs.unique h h'
    · exact absurd (hs.inUse h) (hn ▸ hfree)
    · exact absurd (hs.inUse h') hfree
    · rfl
  first := by
    obtain ⟨id, hid, h⟩ := hs.first
    exact ⟨id, hid, hfiles h⟩
  eq_package {n} h := by
    rcases hnew _ n h with h | ⟨h, -⟩
    · exact hs.eq_package h
    · exact absurd h.symm howner

theorem Sound.registerFile (hs : names.Sound generated package) (candidate : String)
    (hid : generated.contains id = false) :
    (names.registerFile candidate id).2.Sound generated package := by
  have howner : Owner.of generated id = .file id := by rw [Owner.of, hid]; rfl
  refine hs.extend (.file id) (by simp) (names.free_not_mem (sanitize candidate))
    (names.isTail_register candidate) rfl (fun e he => mem_cons_of_mem _ he) ?_
  intro o n h
  cases h with
  | support h => exact .inl (.support h)
  | file h =>
    rcases mem_cons.mp h with h | h
    · cases h
      exact .inr ⟨howner, rfl⟩
    · exact .inl (.file h)

theorem Sound.registerSupport (hs : names.Sound generated package) (key : String) :
    (names.registerSupport key).Sound generated package := by
  refine hs.extend (.support key) (by simp) (names.free_not_mem (sanitize key))
    (names.isTail_register key) rfl (fun e he => he) ?_
  intro o n h
  cases h with
  | file h => exact .inl (.file h)
  | support h =>
    rcases Dict.mem_insert h with h | h
    · cases h
      exact .inr ⟨rfl, rfl⟩
    · exact .inl (.support h)

theorem Sound.assign (hs : names.Sound generated package)
    (hid : generated.contains id = true) : (names.assign id package).Sound generated package := by
  have howner : Owner.of generated id = .generated := if_pos hid
  obtain ⟨first, hfirst, hmem⟩ := hs.first
  have hheld : Holds generated names .generated package := by
    have h : Holds generated names (.of generated first) package := .file hmem
    rwa [Owner.of, if_pos (by simpa using hfirst)] at h
  have hold : ∀ {o n}, Holds generated (names.assign id package) o n →
      Holds generated names o n := by
    intro o n h
    cases h with
    | support h => exact .support h
    | file h =>
      rcases mem_cons.mp h with h | h
      · cases h
        exact howner ▸ hheld
      · exact .file h
  exact ⟨hs.tail, fun h => hs.inUse (hold h), fun h h' => hs.unique (hold h) (hold h'),
    ⟨first, hfirst, mem_cons_of_mem _ hmem⟩, fun h => hs.eq_package (hold h)⟩

theorem Sound.nameFile (hs : names.Sound generated package) (schema : Schema) (id : FileId) :
    (nameFile schema generated package names id).Sound generated package := by
  rw [GoBindings.nameFile]
  split
  · exact hs.assign (by assumption)
  · rename_i hid
    exact hs.registerFile _ (Bool.eq_false_iff.mpr hid)

theorem nameFile_support (schema : Schema) (id : FileId) :
    (nameFile schema generated package names id).support = names.support := by
  rw [GoBindings.nameFile]
  split <;> rfl

theorem mem_support_of_holds {key : String} (h : Holds generated names (.support key) name) :
    (key, name) ∈ names.support.entries := by
  generalize howner : Owner.support key = owner at h
  cases h with
  | file h =>
    rw [Owner.of] at howner
    split at howner <;> cases howner
  | support h =>
    obtain rfl := Owner.support.inj howner
    exact h

theorem holds_of (generated : List FileId) (h : names.of id = .ok name) :
    Holds generated names (.of generated id) name := by
  rw [of] at h
  split at h
  · rename_i name' hname
    cases h
    obtain ⟨before, after, heq, -⟩ := lookup_eq_some_iff.mp hname
    exact .file (by rw [heq]; simp)
  · simp at h

/-- A support package and a file are two owners. -/
theorem Sound.support_ne (hs : names.Sound generated package) {key : String}
    (hkey : Holds generated names (.support key) name) : names.of id ≠ .ok name := by
  intro hof
  have howner := hs.unique hkey (holds_of generated hof)
  rw [Owner.of] at howner
  split at howner <;> cases howner

/-- The generated package is that of the generated files. -/
theorem Sound.eq_package_iff (hs : names.Sound generated package)
    (h : names.of id = .ok name) : name = package ↔ id ∈ generated := by
  have hheld := holds_of generated h
  by_cases hid : id ∈ generated
  · rw [Owner.of, if_pos (by simpa using hid)] at hheld
    exact iff_of_true (hs.eq_package hheld) hid
  · rw [Owner.of, if_neg (by simpa using hid)] at hheld
    refine iff_of_false ?_ hid
    rintro rfl
    obtain ⟨first, hfirst, hmem⟩ := hs.first
    have hown : Holds generated names (.of generated first) name := .file hmem
    rw [Owner.of, if_pos (by simpa using hfirst)] at hown
    cases hs.unique hheld hown

private theorem sound_first (candidate : String) (first : FileId) (rest : List FileId) :
    (({} : PackageNames).registerFile candidate first).2.Sound (first :: rest)
      (({} : PackageNames).registerFile candidate first).1 := by
  set names := (({} : PackageNames).registerFile candidate first).2 with hnames
  set package := (({} : PackageNames).registerFile candidate first).1 with hpackage
  have hholds : ∀ {o n}, Holds (first :: rest) names o n → o = .generated ∧ n = package := by
    intro o n h
    cases h with
    | support h => cases h
    | file h =>
      obtain ⟨rfl, rfl⟩ := Prod.mk.inj (mem_singleton.mp h)
      exact ⟨by simp [Owner.of], rfl⟩
  refine ⟨?_, ?_, ?_, ⟨first, by simp, mem_singleton.mpr rfl⟩, fun h => (hholds h).2⟩
  · intro n hn
    obtain rfl := mem_singleton.mp hn
    exact isTail_register {} candidate
  · intro o n h
    exact mem_singleton.mpr (hholds h).2
  · intro o o' n h h'
    exact (hholds h).1.trans (hholds h').1.symm

private theorem sound_supports (hs : names.Sound generated package) (keys : List String) :
    (keys.foldl registerSupport names).Sound generated package := by
  induction keys generalizing names with
  | nil => exact hs
  | cons key keys ih => exact ih (hs.registerSupport key)

private theorem isSome_supports (names : PackageNames) {key : String}
    (h : key ∈ keys ∨ (names.support.get? key).isSome = true) :
    ((keys.foldl registerSupport names).support.get? key).isSome = true := by
  induction keys generalizing names with
  | nil => simpa using h
  | cons k keys ih =>
    refine ih _ ?_
    rw [registerSupport, Dict.get?_insert]
    rcases h with h | h
    · rcases mem_cons.mp h with rfl | h
      · exact .inr (by simp)
      · exact .inl h
    · refine .inr ?_
      split
      · rfl
      · exact h

private theorem sound_files (hs : names.Sound generated package) (schema : Schema)
    (ids : List FileId) :
    (ids.foldl (nameFile schema generated package) names).Sound generated package ∧
      (ids.foldl (nameFile schema generated package) names).support = names.support := by
  induction ids generalizing names with
  | nil => exact ⟨hs, rfl⟩
  | cons id ids ih =>
    obtain ⟨hsound, heq⟩ := ih (hs.nameFile schema id)
    exact ⟨hsound, heq.trans (nameFile_support schema id)⟩

private theorem nameFile_byFile (generated : List FileId) (names : PackageNames) (schema : Schema)
    (next : FileId) : ∃ name, (nameFile schema generated package names next).byFile =
      (next, name) :: names.byFile := by
  rw [GoBindings.nameFile]
  split <;> exact ⟨_, rfl⟩

private theorem isSome_files (generated : List FileId) (names : PackageNames) (schema : Schema)
    (h : id ∈ ids ∨ (names.byFile.lookup id).isSome = true) :
    ((ids.foldl (nameFile schema generated package) names).byFile.lookup id).isSome = true := by
  induction ids generalizing names with
  | nil => simpa using h
  | cons next ids ih =>
    refine ih _ ?_
    obtain ⟨name, heq⟩ := nameFile_byFile generated names schema next
    rw [heq, lookup_cons]
    rcases h with h | h
    · rcases mem_cons.mp h with rfl | h
      · exact .inr (by simp)
      · exact .inl h
    · refine .inr ?_
      split
      · rfl
      · exact h

private theorem mem_byFile_files (generated : List FileId) (names : PackageNames) (schema : Schema)
    {e : FileId × String} (h : e ∈ (ids.foldl (nameFile schema generated package) names).byFile) :
    e.1 ∈ ids ∨ e ∈ names.byFile := by
  induction ids generalizing names with
  | nil => exact .inr h
  | cons next ids ih =>
    rcases ih _ h with h | h
    · exact .inl (mem_cons_of_mem _ h)
    · obtain ⟨name, heq⟩ := nameFile_byFile generated names schema next
      rw [heq] at h
      rcases mem_cons.mp h with rfl | h
      · exact .inl mem_cons_self
      · exact .inr h

private theorem numbered_supports (names : PackageNames) {e : String × String}
    (h : e ∈ (keys.foldl registerSupport names).support.entries) :
    (∃ n, e.2 = numbered (sanitize e.1) n) ∨ e ∈ names.support.entries := by
  induction keys generalizing names with
  | nil => exact .inr h
  | cons key keys ih =>
    rcases ih _ h with h | h
    · exact .inl h
    · rcases Dict.mem_insert h with rfl | h
      · exact .inl ⟨_, rfl⟩
      · exact .inr h

private theorem byFile_supports (names : PackageNames) (keys : List String) :
    (keys.foldl registerSupport names).byFile = names.byFile := by
  induction keys generalizing names with
  | nil => rfl
  | cons key keys ih => exact ih _

end PackageNames

open PackageNames

section Assignment

variable {schema : Schema} {generated : List FileId} {p : Parameters} {names : PackageNames}
  {package : String} (h : assignPackageNames schema generated p = .ok (names, package))

include h

theorem assignPackageNames_eq_ok :
    ∃ first rest candidate, generated = first :: rest ∧
      (({} : PackageNames).registerFile candidate first).1 = package ∧
      schema.fileIds.foldl (nameFile schema generated package) (supportPackages.foldl
        registerSupport (({} : PackageNames).registerFile candidate first).2) = names := by
  unfold assignPackageNames at h
  cases generated with
  | nil => simp [throw, throwThe, MonadExceptOf.throw] at h
  | cons first rest =>
    simp only [bind_eq_ok] at h
    obtain ⟨candidate, -, h⟩ := h
    cases h
    exact ⟨first, rest, candidate, rfl, rfl, rfl⟩

theorem assignPackageNames_sound :
    names.Sound generated package ∧ ∀ key ∈ supportPackages,
      Holds generated names (.support key) (names.supportName key) := by
  obtain ⟨first, rest, candidate, rfl, rfl, rfl⟩ := assignPackageNames_eq_ok h
  have hsupports := sound_supports (sound_first candidate first rest) supportPackages
  obtain ⟨hsound, heq⟩ := sound_files hsupports schema schema.fileIds
  refine ⟨hsound, fun key hkey => ?_⟩
  obtain ⟨name, hname⟩ := Option.isSome_iff_exists.mp
    (isSome_supports (({} : PackageNames).registerFile candidate first).2 (.inl hkey))
  rw [← heq] at hname
  rw [supportName, hname]
  exact .support (Dict.mem_of_get? hname)

theorem exists_of_assignPackageNames {id : FileId}
    (hid : id ∈ schema.fileIds) : ∃ name, names.of id = .ok name := by
  obtain ⟨first, rest, candidate, rfl, rfl, rfl⟩ := assignPackageNames_eq_ok h
  obtain ⟨name, hname⟩ := Option.isSome_iff_exists.mp
    (isSome_files (first :: rest) _ schema (.inl hid))
  exact ⟨name, by rw [PackageNames.of, hname]⟩

theorem mem_of_assignPackageNames {id : FileId} {name : String}
    (hid : names.of id = .ok name) : id ∈ generated ∨ id ∈ schema.fileIds := by
  obtain ⟨first, rest, candidate, rfl, rfl, rfl⟩ := assignPackageNames_eq_ok h
  rw [PackageNames.of] at hid
  split at hid
  · rename_i name' hname
    obtain ⟨before, after, heq, -⟩ := lookup_eq_some_iff.mp hname
    have hmem : (id, name') ∈ before ++ (id, name') :: after := by simp
    rw [← heq] at hmem
    rcases mem_byFile_files (first :: rest) _ schema hmem with hmem | hmem
    · exact .inr hmem
    · rw [byFile_supports] at hmem
      obtain ⟨rfl, -⟩ := Prod.mk.inj (mem_singleton.mp hmem)
      exact .inl mem_cons_self
  · cases hid

theorem supportName_eq_append {key : String}
    (hkey : key ∈ supportPackages) : ∃ suffix, names.supportName key = key ++ suffix := by
  obtain ⟨n, hn⟩ : ∃ n, names.supportName key = numbered (Go.sanitize key) n := by
    have hmem := mem_support_of_holds ((assignPackageNames_sound h).2 key hkey)
    obtain ⟨first, rest, candidate, rfl, rfl, rfl⟩ := assignPackageNames_eq_ok h
    rw [(sound_files (sound_supports (sound_first candidate first rest) supportPackages)
      schema schema.fileIds).2] at hmem
    rcases numbered_supports _ hmem with hn | hnone
    · exact hn
    · cases hnone
  have hsame : ∀ key ∈ supportPackages, Go.sanitize key = key := by decide
  rw [hn, numbered, hsame key hkey]
  split
  · exact ⟨"", by simp⟩
  · exact ⟨_, rfl⟩

theorem supportName_notMem {key : String} (hkey : key ∈ supportPackages) {others : List String}
    (hothers : ∀ n ∈ others, ¬ key.toList <+: n.toList) : names.supportName key ∉ others := by
  obtain ⟨suffix, hsuffix⟩ := supportName_eq_append h hkey
  intro hmem
  refine hothers _ hmem ?_
  rw [hsuffix, String.toList_append]
  exact prefix_append _ _

theorem supportName_ne_blank {key : String} (hkey : key ∈ supportPackages) :
    names.supportName key ≠ "_" := by
  have hblank : ∀ key ∈ supportPackages, ∀ n ∈ ["_"], ¬ key.toList <+: n.toList := by decide
  simpa using supportName_notMem h hkey (hblank key hkey)

end Assignment

end GoBindings
