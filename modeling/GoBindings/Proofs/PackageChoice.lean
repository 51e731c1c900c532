import GoBindings.Proofs.Packages
import GoBindings.Schema.Build

/-!
# The choice of the generated package

The generated files decide alone on the name of their package. What they ask for explicitly comes
first, then the import path of the run, then what their schema packages and file names imply; and
where several files have a say, they have to agree.
-/

namespace GoBindings

open List Schema Go

/-- The name that is given to a file: the last element of the import path that a parameter has for
the file, or else the name in the option of the file. -/
def explicitName? (p : Parameters) (f : FileNode) : Option String :=
  (((p.importMap.get? f.name).map Path.lastElement).filter (· ≠ "")).or
    (f.packageOption?.map (·.2))

/-- The names given to the files of a package. -/
def explicitNames (s : Schema) (p : Parameters) (generated : List FileId) : List String :=
  generated.filterMap fun id => explicitName? p (s.file id)

/-- The names that the files of a package have without being given one. -/
def impliedNames (s : Schema) (generated : List FileId) : List String :=
  generated.map fun id => dependencyCandidate (s.file id)

/-- Two of the names differ. -/
def Differ (names : List String) : Prop := ∃ a ∈ names, ∃ b ∈ names, a ≠ b

instance (names : List String) : Decidable (Differ names) :=
  inferInstanceAs (Decidable (∃ a ∈ names, ∃ b ∈ names, a ≠ b))

/-- The files of a package disagree on its name, and nothing overrides them. -/
def PackageConflict (s : Schema) (p : Parameters) (generated : List FileId) : Prop :=
  Differ (explicitNames s p generated) ∨
    explicitNames s p generated = [] ∧ packageOfImportPath? p.importPath = none ∧
      Differ (impliedNames s generated)

instance (s : Schema) (p : Parameters) (generated : List FileId) :
    Decidable (PackageConflict s p generated) :=
  inferInstanceAs (Decidable (_ ∨ _ ∧ _ ∧ _))

/-- The name of a package is the one given to its files, or the one of the import path, or the one
that the files imply. -/
structure PackageChosen (s : Schema) (p : Parameters) (generated : List FileId)
    (package : String) : Prop where
  explicit : ∀ name ∈ explicitNames s p generated, package = sanitize name
  importPath : explicitNames s p generated = [] →
    ∀ name ∈ packageOfImportPath? p.importPath, package = name
  implied : explicitNames s p generated = [] → packageOfImportPath? p.importPath = none →
    ∀ name ∈ impliedNames s generated, package = sanitize name

section Names

variable {names names' : List String}

theorem differ_congr (h : ∀ name, name ∈ names ↔ name ∈ names') : Differ names ↔ Differ names' := by
  simp only [Differ, h]

theorem not_differ_iff {name : String} (h : name ∈ names) :
    ¬ Differ names ↔ ∀ other ∈ names, other = name := by
  constructor
  · intro hsame other hother
    by_contra hne
    exact hsame ⟨other, hother, name, h, hne⟩
  · rintro hall ⟨a, ha, b, hb, hne⟩
    exact hne ((hall a ha).trans (hall b hb).symm)

end Names

section Sanitizing

theorem sanitize_eq_self {name : String} (h : ∀ c ∈ name.toList, isNameChar c = true) :
    sanitize name = name := by
  have hmap : name.toList.map (fun c => if isNameChar c then c else '_') = name.toList := by
    conv_rhs => rw [← map_id name.toList]
    apply map_congr_left
    intro c hc
    exact if_pos (h c hc)
  rw [sanitize, hmap, String.ofList_toList]

theorem isNameChar_packageOfImportPath {path name : String}
    (h : packageOfImportPath? path = some name) : ∀ c ∈ name.toList, isNameChar c = true := by
  have hprefixed (base : String) (escape : Bool) (hbase : ∀ c ∈ base.toList, isNameChar c = true) :
      ∀ c ∈ (if escape then "_" ++ base else base).toList, isNameChar c = true := by
    split
    · rw [String.toList_append, forall_mem_append]
      exact ⟨all_eq_true.mp (by decide), hbase⟩
    · exact hbase
  simp only [packageOfImportPath?] at h
  split at h
  · cases h
  · obtain rfl := Option.some.inj h
    exact hprefixed _ _ (hprefixed _ _ (isNameChar_sanitize _))

end Sanitizing

section Asking

variable (s : Schema) (p : Parameters)

theorem packageName_eq (f : FileNode) :
    f.packageName = ((f.packageOption?.map (·.2)).getD (dependencyCandidate f),
      f.packageOption?.isSome) := by
  rw [FileNode.packageName]
  cases f.packageOption? <;> rfl

theorem declaredPackage_eq (id : FileId) :
    declaredPackage s p id = ((explicitName? p (s.file id)).getD (dependencyCandidate (s.file id)),
      (explicitName? p (s.file id)).isSome) := by
  simp only [declaredPackage, explicitName?]
  cases hpath : p.importMap.get? (s.file id).name with
  | none => simpa using packageName_eq (s.file id)
  | some path =>
    by_cases hlast : Path.lastElement path = ""
    · simpa [hlast, Option.filter] using packageName_eq (s.file id)
    · simp [hlast, Option.filter]

theorem foldlM_explicitPackage (ids : List FileId) (found : Option String) :
    let asked := found.toList ++ explicitNames s p ids
    (Differ asked ∧ ∃ a b, (ids.map (declaredPackage s p)).foldlM explicitPackage found =
        .error (.inconsistentPackageNames a b)) ∨
      ¬ Differ asked ∧ (ids.map (declaredPackage s p)).foldlM explicitPackage found =
        .ok asked.head? := by
  induction ids generalizing found with
  | nil =>
    refine .inr ⟨?_, ?_⟩
    · cases found <;> simp [explicitNames, Differ]
    · cases found <;> rfl
  | cons id ids ih =>
    simp only [map_cons, foldlM_cons, declaredPackage_eq]
    cases hname : explicitName? p (s.file id) with
    | none =>
      have hasked : explicitNames s p (id :: ids) = explicitNames s p ids := by
        simp [explicitNames, hname]
      rw [hasked]
      exact ih found
    | some name =>
      have hasked : explicitNames s p (id :: ids) = name :: explicitNames s p ids := by
        simp [explicitNames, hname]
      rw [hasked]
      cases found with
      | none => exact ih (some name)
      | some expected =>
        by_cases heq : name = expected
        · subst heq
          have hstep : explicitPackage (some name) (name, true) = .ok (some name) :=
            if_pos rfl
          have hsame : Differ ([name] ++ name :: explicitNames s p ids) ↔
              Differ ([name] ++ explicitNames s p ids) := differ_congr (by simp)
          simp only [Option.toList_some, Option.getD_some, Option.isSome_some, hstep, hsame]
          exact ih (some name)
        · have hstep : explicitPackage (some expected) (name, true) =
              .error (.inconsistentPackageNames name expected) := if_neg heq
          refine .inl ⟨⟨name, by simp, expected, by simp, heq⟩, name, expected, ?_⟩
          simp only [Option.getD_some, Option.isSome_some, hstep]
          rfl

theorem checkAgree_cases (expected : String) (names : List String) :
    (∃ name ∈ names, name ≠ expected ∧
        checkAgree expected names = .error (.inconsistentPackageNames name expected)) ∨
      (∀ name ∈ names, name = expected) ∧ checkAgree expected names = .ok () := by
  unfold checkAgree
  cases hfind : names.find? (· ≠ expected) with
  | none =>
    refine .inr ⟨fun name hname => ?_, rfl⟩
    simpa using find?_eq_none.mp hfind name hname
  | some name =>
    exact .inl ⟨name, mem_of_find?_eq_some hfind, by simpa using find?_some hfind, rfl⟩

end Asking

section Choosing

variable {s s' : Schema} {p : Parameters} {generated generated' : List FileId} {package : String}

theorem choosePackage_cases (s : Schema) (p : Parameters) (first : FileId) (rest : List FileId) :
    let chosen := choosePackage p (declaredPackage s p first) (rest.map (declaredPackage s p))
    (PackageConflict s p (first :: rest) ∧ ∃ a b, chosen = .error (.inconsistentPackageNames a b)) ∨
      ¬ PackageConflict s p (first :: rest) ∧ ∃ candidate, chosen = .ok candidate ∧
        PackageChosen s p (first :: rest) (sanitize candidate) := by
  intro chosen
  have hchosen : chosen = choosePackage p (declaredPackage s p first)
    (rest.map (declaredPackage s p)) := rfl
  rw [choosePackage, ← map_cons] at hchosen
  rcases foldlM_explicitPackage s p (first :: rest) none with
    ⟨hdiffer, a, b, hfold⟩ | ⟨hsame, hfold⟩
  · rw [hfold] at hchosen
    exact .inl ⟨.inl hdiffer, a, b, hchosen⟩
  rw [hfold] at hchosen
  cases hnames : explicitNames s p (first :: rest) with
  | cons name names =>
    rw [hnames] at hchosen hsame
    refine .inr ⟨?_, name, hchosen, ⟨fun other hother => ?_, ?_, ?_⟩⟩
    · rintro (hdiffer | ⟨hnil, -⟩)
      · exact hsame (hnames ▸ hdiffer)
      · cases hnames.symm.trans hnil
    · rw [hnames] at hother
      rw [(not_differ_iff mem_cons_self).mp hsame other hother]
    · intro hnil
      cases hnames.symm.trans hnil
    · intro hnil
      cases hnames.symm.trans hnil
  | nil =>
    rw [hnames] at hchosen
    cases hpath : packageOfImportPath? p.importPath with
    | some name =>
      simp only [hpath] at hchosen
      have hsanitized := sanitize_eq_self (isNameChar_packageOfImportPath hpath)
      refine .inr ⟨?_, name, hchosen, ⟨?_, ?_, ?_⟩⟩
      · rintro (hdiffer | ⟨-, hnone, -⟩)
        · exact hsame hdiffer
        · cases hpath.symm.trans hnone
      · simp [hnames]
      · intro _ other hother
        rw [hpath, Option.mem_some_iff] at hother
        rw [hsanitized, hother]
      · intro _ hnone
        cases hpath.symm.trans hnone
    | none =>
      -- Without explicit names every file declares the name that it implies.
      have hdeclared : ∀ id ∈ first :: rest,
          (declaredPackage s p id).1 = dependencyCandidate (s.file id) := by
        intro id hid
        have hnone := filterMap_eq_nil_iff.mp hnames id hid
        rw [declaredPackage_eq, hnone]
        rfl
      have himplied : ((first :: rest).map (declaredPackage s p)).map (·.1) =
          impliedNames s (first :: rest) := by
        rw [map_map]
        exact map_congr_left hdeclared
      have hfirst : (declaredPackage s p first).1 ∈ impliedNames s (first :: rest) := by
        rw [hdeclared first mem_cons_self]
        exact mem_cons_self
      simp only [hpath, himplied] at hchosen
      rcases checkAgree_cases (declaredPackage s p first).1
          (impliedNames s (first :: rest)) with
        ⟨name, hname, hne, hcheck⟩ | ⟨hall, hcheck⟩
      · rw [hcheck] at hchosen
        exact .inl ⟨.inr ⟨hnames, hpath, name, hname, _, hfirst, hne⟩, _, _, hchosen⟩
      · rw [hcheck] at hchosen
        refine .inr ⟨?_, _, hchosen, ⟨?_, ?_, ?_⟩⟩
        · rintro (hdiffer | ⟨-, -, hdiffer⟩)
          · exact hsame hdiffer
          · exact (not_differ_iff hfirst).mpr hall hdiffer
        · simp [hnames]
        · simp [hpath]
        · intro _ _ name hname
          rw [hall name hname]

/-- Naming packages fails for a conflict, and only for one. -/
theorem assignPackageNames_cases (hne : generated ≠ []) :
    (PackageConflict s p generated ∧ ∃ a b,
        assignPackageNames s generated p = .error (.inconsistentPackageNames a b)) ∨
      ¬ PackageConflict s p generated ∧ ∃ names package,
        assignPackageNames s generated p = .ok (names, package) ∧
          PackageChosen s p generated package := by
  cases generated with
  | nil => exact absurd rfl hne
  | cons first rest =>
    rcases choosePackage_cases s p first rest with
      ⟨hconflict, a, b, hchosen⟩ | ⟨hnone, candidate, hchosen, hpackage⟩
    · refine .inl ⟨hconflict, a, b, ?_⟩
      simp only [assignPackageNames, hchosen]
      rfl
    · -- The first name that is registered is free, so that the package keeps its candidate.
      obtain ⟨names, hassign⟩ : ∃ names, assignPackageNames s (first :: rest) p =
          .ok (names, sanitize candidate) := by
        simp only [assignPackageNames, hchosen]
        exact ⟨_, rfl⟩
      exact .inr ⟨hnone, names, _, hassign, hpackage⟩

theorem explicitNames_eq_filterMap (s : Schema) (p : Parameters) (generated : List FileId) :
    explicitNames s p generated = (generated.map fun id => (s.file id).proto).filterMap
      fun proto => explicitName? p { (default : FileNode) with proto } := by
  rw [filterMap_map]
  rfl

theorem impliedNames_eq_map (s : Schema) (generated : List FileId) :
    impliedNames s generated = (generated.map fun id => (s.file id).proto).map
      fun proto => dependencyCandidate { (default : FileNode) with proto } := by
  rw [map_map]
  rfl

theorem PackageChosen.unique (hne : generated ≠ []) {package' : String}
    (h : PackageChosen s p generated package) (h' : PackageChosen s p generated package') :
    package = package' := by
  cases hnames : explicitNames s p generated with
  | cons name names =>
    have hmem : name ∈ explicitNames s p generated := hnames ▸ mem_cons_self
    exact (h.explicit name hmem).trans (h'.explicit name hmem).symm
  | nil =>
    cases hpath : packageOfImportPath? p.importPath with
    | some name =>
      exact (h.importPath hnames name hpath).trans (h'.importPath hnames name hpath).symm
    | none =>
      obtain ⟨first, hfirst⟩ := exists_mem_of_ne_nil generated hne
      have hmem : dependencyCandidate (s.file first) ∈ impliedNames s generated :=
        mem_map_of_mem hfirst
      exact (h.implied hnames hpath _ hmem).trans (h'.implied hnames hpath _ hmem).symm

section Reordering

variable (h : (generated'.map fun id => (s'.file id).proto).Perm
  (generated.map fun id => (s.file id).proto))

include h

theorem explicitNames_perm :
    (explicitNames s' p generated').Perm (explicitNames s p generated) := by
  rw [explicitNames_eq_filterMap, explicitNames_eq_filterMap]
  exact h.filterMap _

theorem impliedNames_perm : (impliedNames s' generated').Perm (impliedNames s generated) := by
  rw [impliedNames_eq_map, impliedNames_eq_map]
  exact h.map _

theorem packageConflict_iff_of_perm :
    PackageConflict s' p generated' ↔ PackageConflict s p generated := by
  have hexplicit := explicitNames_perm (p := p) h
  have hnil : explicitNames s' p generated' = [] ↔ explicitNames s p generated = [] := by
    rw [← length_eq_zero_iff, hexplicit.length_eq, length_eq_zero_iff]
  simp only [PackageConflict, differ_congr fun _ => hexplicit.mem_iff, hnil,
    differ_congr fun _ => (impliedNames_perm h).mem_iff]

theorem packageChosen_of_perm (hchosen : PackageChosen s' p generated' package) :
    PackageChosen s p generated package := by
  have hexplicit := explicitNames_perm (p := p) h
  have hnil (hs : explicitNames s p generated = []) : explicitNames s' p generated' = [] :=
    (hs ▸ hexplicit).eq_nil
  exact ⟨fun name hname => hchosen.explicit name (hexplicit.mem_iff.mpr hname),
    fun hs => hchosen.importPath (hnil hs),
    fun hs hpath name hname =>
      hchosen.implied (hnil hs) hpath name ((impliedNames_perm h).mem_iff.mpr hname)⟩

end Reordering

end Choosing

/-- Naming packages fails exactly if the generated files disagree, and then as inconsistent. Else
the name of their package is chosen as it should be. It depends on the generated files alone, and
not on their order. -/
theorem assignPackageNames_agreed (s : Schema) (p : Parameters) {generated : List FileId}
    (hne : generated ≠ []) :
    ((∃ found expected, assignPackageNames s generated p =
        .error (.inconsistentPackageNames found expected)) ↔ PackageConflict s p generated) ∧
    (¬ PackageConflict s p generated → ∃ names package,
      assignPackageNames s generated p = .ok (names, package) ∧
        PackageChosen s p generated package) ∧
    ∀ (s' : Schema) (generated' : List FileId),
      (generated'.map fun id => (s'.file id).proto).Perm
        (generated.map fun id => (s.file id).proto) →
      (assignPackageNames s' generated' p).toOption.map (·.2) =
        (assignPackageNames s generated p).toOption.map (·.2) := by
  refine ⟨?_, ?_, fun s' generated' hperm => ?_⟩
  · rcases assignPackageNames_cases (s := s) (p := p) hne with
      ⟨hconflict, herror⟩ | ⟨hnone, names, package, hok, -⟩
    · exact iff_of_true herror hconflict
    · refine iff_of_false ?_ hnone
      rintro ⟨found, expected, herror⟩
      cases hok.symm.trans herror
  · intro hnone
    rcases assignPackageNames_cases (s := s) (p := p) hne with ⟨hconflict, -⟩ | ⟨-, hchosen⟩
    · exact absurd hconflict hnone
    · exact hchosen
  · have hne' : generated' ≠ [] := by
      rintro rfl
      exact hne (map_eq_nil_iff.mp hperm.symm.eq_nil)
    have hconflict := packageConflict_iff_of_perm (p := p) hperm
    rcases assignPackageNames_cases (s := s) (p := p) hne with
      ⟨hs, a, b, herror⟩ | ⟨hs, names, package, hok, hchosen⟩ <;>
    rcases assignPackageNames_cases (s := s') (p := p) hne' with
      ⟨hs', a', b', herror'⟩ | ⟨hs', names', package', hok', hchosen'⟩
    · rw [herror, herror']
      rfl
    · exact absurd (hconflict.mpr hs) hs'
    · exact absurd (hconflict.mp hs') hs
    · rw [hok, hok', (packageChosen_of_perm hperm hchosen').unique hne hchosen]
      rfl

/-- A file without a name of its own choice, and one with. -/
def plainFile : Descriptor.File := { name := some "a.proto", package := some "one" }

def optionFile : Descriptor.File :=
  { name := some "b.proto", package := some "two",
    options := some { goPackage := some "example.com/x;shared" } }

/-- A dependency stands between the two. -/
def spacedSchema : Schema :=
  (Schema.ofFiles
    [plainFile, { name := some "c.proto", package := some "c" }, optionFile]).toOption.getD {}

def swappedSchema : Schema :=
  (Schema.ofFiles [optionFile, plainFile, { name := some "one.proto" }]).toOption.getD {}

theorem assignPackageNames_agreed_swapped :
    (∃ names, assignPackageNames spacedSchema [⟨0⟩, ⟨2⟩] {} = .ok (names, "shared")) ∧
    (assignPackageNames swappedSchema [⟨0⟩, ⟨1⟩] {}).toOption.map (·.2) = some "shared" ∧
    ∃ found expected, assignPackageNames spacedSchema [⟨0⟩, ⟨1⟩] {} =
      .error (.inconsistentPackageNames found expected) := by
  have hagreed := assignPackageNames_agreed spacedSchema {} (cons_ne_nil ⟨0⟩ [⟨2⟩])
  obtain ⟨names, package, hok, hchosen⟩ := hagreed.2.1 (by decide +kernel)
  obtain rfl : package = "shared" :=
    (hchosen.explicit "shared" (by decide +kernel)).trans (by decide +kernel)
  refine ⟨⟨names, hok⟩, ?_, ?_⟩
  · rw [hagreed.2.2 swappedSchema [⟨0⟩, ⟨1⟩] (.swap plainFile optionFile []), hok]
    rfl
  · exact (assignPackageNames_agreed spacedSchema {} (cons_ne_nil ⟨0⟩ [⟨1⟩])).1.mpr
      (by decide +kernel)

end GoBindings
