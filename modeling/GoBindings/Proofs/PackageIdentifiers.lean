import GoBindings.Proofs.PackageChoice
import GoBindings.Proofs.Registry
import GoBindings.Proofs.Schemas

/-!
# Package names as identifiers

Only import paths are kept from being keywords and from beginning with a digit. The name of any
other package may not be an identifier of Go, and here is exactly when it is one.
-/

namespace GoBindings

open List Schema Go Text

variable {id : FileId}

/-- A name that may stand in a package clause. -/
structure IsPackageName (name : String) : Prop where
  nonempty : name ≠ ""
  chars : ∀ c ∈ name.toList, isLetter c = true ∨ isDecimalDigit c = true ∨ c = '_'
  start : startsWithDigit name = false
  keyword : isKeyword name = false

instance (name : String) : Decidable (IsPackageName name) :=
  decidable_of_iff (name ≠ "" ∧ name.toList.all isNameChar = true ∧
      startsWithDigit name = false ∧ isKeyword name = false)
    ⟨fun h => ⟨h.1, by simpa [isNameChar, or_assoc] using h.2.1, h.2.2.1, h.2.2.2⟩,
      fun h => ⟨h.nonempty, by simpa [isNameChar, or_assoc] using h.chars, h.start, h.keyword⟩⟩

/-- A text that names can begin with. -/
def BeginsName (text : String) : Prop := text ≠ "" ∧ startsWithDigit text = false

instance (text : String) : Decidable (BeginsName text) := inferInstanceAs (Decidable (_ ∧ _))

/-- Identifiers with dots between them, or nothing. -/
def IsDotted (text : String) : Prop :=
  ∃ parts, (∀ part ∈ parts, isIdentifier part = true) ∧ text = join "." parts

section Candidates

variable {text : String}

theorem isKeyword_iff : isKeyword text = true ↔ text ∈ keywords := by
  simp [isKeyword]

theorem chars_of_isNameChar (h : ∀ c ∈ text.toList, isNameChar c = true) :
    ∀ c ∈ text.toList, isLetter c = true ∨ isDecimalDigit c = true ∨ c = '_' := by
  intro c hc
  simpa [isNameChar, or_assoc] using h c hc

theorem sanitize_eq_empty_iff : sanitize text = "" ↔ text = "" := by
  rw [sanitize]
  simp

theorem startsWithDigit_sanitize (text : String) :
    startsWithDigit (sanitize text) = startsWithDigit text := by
  rw [startsWithDigit, startsWithDigit, sanitize, String.toList_ofList]
  cases text.toList with
  | nil => rfl
  | cons c cs =>
    simp only [map_cons]
    split
    · rfl
    · rename_i hc
      have hdigit : isDecimalDigit c = false := by
        simp only [isNameChar, Bool.or_eq_true, not_or, Bool.not_eq_true] at hc
        exact hc.1.2
      rw [hdigit]
      decide

theorem sanitize_of_keyword (h : text ∈ keywords) : sanitize text = text := by
  have hchars : ∀ k ∈ keywords, k.toList.all isNameChar = true := by decide +kernel
  exact sanitize_eq_self (all_eq_true.mp (hchars text h))

/-- Keywords hold no underscore, so that no other text becomes one. -/
theorem sanitize_mem_keywords_iff : sanitize text ∈ keywords ↔ text ∈ keywords := by
  have hunderscore : ∀ k ∈ keywords, '_' ∉ k.toList := by decide +kernel
  constructor
  · intro h
    suffices hchars : ∀ c ∈ text.toList, isNameChar c = true by
      rwa [sanitize_eq_self hchars] at h
    intro c hc
    by_contra hnot
    apply hunderscore _ h
    rw [sanitize, String.toList_ofList]
    exact mem_map.mpr ⟨c, hc, if_neg hnot⟩
  · intro h
    rwa [sanitize_of_keyword h]

theorem isPackageName_sanitize_iff :
    IsPackageName (sanitize text) ↔ BeginsName text ∧ text ∉ keywords := by
  rw [← sanitize_mem_keywords_iff, ← isKeyword_iff, Bool.not_eq_true, BeginsName,
    ← startsWithDigit_sanitize text, Ne, ← sanitize_eq_empty_iff]
  constructor
  · intro h
    exact ⟨⟨h.nonempty, h.start⟩, h.keyword⟩
  · rintro ⟨⟨hne, hstart⟩, hkeyword⟩
    exact ⟨hne, chars_of_isNameChar (isNameChar_sanitize text), hstart, hkeyword⟩

theorem startsWithDigit_append {a : String} (ha : a ≠ "") (b : String) :
    startsWithDigit (a ++ b) = startsWithDigit a := by
  rw [startsWithDigit, startsWithDigit, String.toList_append]
  cases hchars : a.toList with
  | nil => exact absurd (String.toList_eq_nil_iff.mp hchars) ha
  | cons c cs => rfl

theorem beginsName_of_isIdentifier (h : isIdentifier text = true) : BeginsName text := by
  rw [isIdentifier] at h
  cases hchars : text.toList with
  | nil =>
    rw [hchars] at h
    cases h
  | cons c cs =>
    have hne : text ≠ "" := by
      rintro rfl
      cases hchars
    have hstart : c.isAlpha = true ∨ c = '_' := by
      simp only [hchars, Bool.and_eq_true, Bool.or_eq_true, decide_eq_true_eq] at h
      exact h.1
    rw [BeginsName, startsWithDigit, hchars]
    refine ⟨hne, ?_⟩
    rcases hstart with hstart | rfl
    · exact isDecimalDigit_of_isAlpha hstart
    · exact (by decide : isDecimalDigit '_' = false)

theorem IsDotted.beginsName (h : IsDotted text) (hne : text ≠ "") : BeginsName text := by
  obtain ⟨parts, hparts, rfl⟩ := h
  cases parts with
  | nil => exact absurd rfl hne
  | cons part rest =>
    have hpart := beginsName_of_isIdentifier (hparts part mem_cons_self)
    cases rest with
    | nil => exact hpart
    | cons next rest =>
      refine ⟨hne, ?_⟩
      change startsWithDigit (part ++ "." ++ join "." (next :: rest)) = false
      rw [String.append_assoc, startsWithDigit_append hpart.1]
      exact hpart.2

end Candidates

section Numbers

theorem exists_toString (n : Nat) : ∃ c cs, (toString n).toList = c :: cs ∧ c.isDigit = true := by
  cases hchars : (toString n).toList with
  | nil =>
    rw [Nat.toString_eq_ofList_toDigits, String.toList_ofList] at hchars
    exact absurd hchars Nat.toDigits_ne_nil
  | cons c cs =>
    have hmem : c ∈ (toString n).toList := hchars ▸ mem_cons_self
    exact ⟨c, cs, rfl, isDigit_toString hmem⟩

theorem append_toString_notMem_keywords (base : String) (n : Nat) :
    base ++ toString n ∉ keywords := by
  have hkeywords : ∀ k ∈ keywords, k.toList.any Char.isDigit = false := by decide +kernel
  obtain ⟨c, cs, hchars, hdigit⟩ := exists_toString n
  intro hmem
  have hc : c ∈ (base ++ toString n).toList := by
    rw [String.toList_append, hchars]
    simp
  exact any_eq_false.mp (hkeywords _ hmem) c hc hdigit

theorem isPackageName_numbered_iff {text : String} {n : Nat} :
    IsPackageName (sanitize text ++ toString n) ↔ BeginsName text := by
  have hdigit {c : Char} (hc : c.isDigit = true) : isDecimalDigit c = true :=
    of_isDigit hc (by decide)
  obtain ⟨c, cs, hchars, hc⟩ := exists_toString n
  by_cases hempty : text = ""
  · -- The number alone begins with a digit.
    subst hempty
    have hnumber : sanitize "" ++ toString n = toString n := by
      rw [sanitize_eq_empty_iff.mpr rfl, String.empty_append]
    constructor
    · intro h
      have hstart := h.start
      rw [hnumber, startsWithDigit, hchars] at hstart
      exact absurd (hdigit hc) (Bool.eq_false_iff.mp hstart)
    · intro h
      exact absurd rfl h.1
  · have hne : sanitize text ≠ "" := fun h => hempty (sanitize_eq_empty_iff.mp h)
    have hstart : startsWithDigit (sanitize text ++ toString n) = startsWithDigit text := by
      rw [startsWithDigit_append hne, startsWithDigit_sanitize]
    constructor
    · intro h
      exact ⟨hempty, hstart ▸ h.start⟩
    · intro h
      refine ⟨?_, ?_, hstart.trans h.2, ?_⟩
      · intro happend
        exact hne (String.append_eq_empty_iff.mp happend).1
      · rw [String.toList_append, forall_mem_append]
        refine ⟨chars_of_isNameChar (isNameChar_sanitize text), ?_⟩
        intro d hd
        exact .inr (.inl (hdigit (isDigit_toString hd)))
      · rw [← Bool.not_eq_true, isKeyword_iff]
        exact append_toString_notMem_keywords _ n

end Numbers

section Registering

open PackageNames

variable {names : PackageNames} {candidate keyword : String}

theorem isPackageName_register_iff :
    IsPackageName (names.register candidate).1 ↔
      BeginsName candidate ∧ (candidate ∈ keywords → candidate ∈ names.inUse) := by
  rcases names.free_cases (sanitize candidate) with ⟨hfree, hname⟩ | ⟨hused, n, hname, -⟩
  · have hregister : (names.register candidate).1 = sanitize candidate := hname
    rw [hregister, isPackageName_sanitize_iff]
    apply and_congr_right
    intro _
    constructor
    · intro hnot hkeyword
      exact absurd hkeyword hnot
    · intro himp hkeyword
      exact hfree ((sanitize_of_keyword hkeyword).symm ▸ himp hkeyword)
  · have hregister : (names.register candidate).1 = sanitize candidate ++ toString n := hname
    rw [hregister, isPackageName_numbered_iff]
    refine ⟨fun h => ⟨h, fun hkeyword => ?_⟩, And.left⟩
    rwa [sanitize_of_keyword hkeyword] at hused

theorem keyword_mem_register_iff (hkeyword : keyword ∈ keywords) :
    keyword ∈ (names.register candidate).2.inUse ↔ keyword = candidate ∨ keyword ∈ names.inUse := by
  have hinUse : (names.register candidate).2.inUse =
      names.free (sanitize candidate) :: names.inUse := rfl
  rw [hinUse, mem_cons]
  rcases names.free_cases (sanitize candidate) with ⟨hfree, hname⟩ | ⟨hused, n, hname, -⟩
  · have hsame : keyword = sanitize candidate ↔ keyword = candidate := by
      constructor
      · intro heq
        rw [heq] at hkeyword ⊢
        exact sanitize_of_keyword (sanitize_mem_keywords_iff.mp hkeyword)
      · rintro rfl
        exact (sanitize_of_keyword hkeyword).symm
    rw [hname, hsame]
  · have hnumbered : keyword ≠ sanitize candidate ++ toString n := by
      rintro rfl
      exact append_toString_notMem_keywords _ n hkeyword
    have hasked (heq : keyword = candidate) : keyword ∈ names.inUse := by
      rw [← heq, sanitize_of_keyword hkeyword] at hused
      exact hused
    rw [hname]
    constructor
    · intro h
      exact .inr (h.resolve_left hnumbered)
    · intro h
      exact .inr (h.elim hasked id)

theorem keyword_mem_supports_iff (hkeyword : keyword ∈ keywords) (keys : List String) :
    keyword ∈ (keys.foldl registerSupport names).inUse ↔
      keyword ∈ keys ∨ keyword ∈ names.inUse := by
  induction keys generalizing names with
  | nil => simp
  | cons key keys ih =>
    have hstep : keyword ∈ (names.registerSupport key).inUse ↔
        keyword = key ∨ keyword ∈ names.inUse := keyword_mem_register_iff hkeyword
    rw [foldl_cons, ih, hstep, mem_cons, or_left_comm, or_assoc]

end Registering

section Files

open PackageNames

variable {s : Schema} {generated : List FileId} {package keyword : String} {names : PackageNames}

theorem nameFile_of_notMem (hid : id ∉ generated) :
    nameFile s generated package names id =
      (names.registerFile (dependencyCandidate (s.file id)) id).2 := by
  rw [nameFile, if_neg (by simpa using hid)]

theorem keyword_mem_files_iff (hkeyword : keyword ∈ keywords) (ids : List FileId) :
    keyword ∈ (ids.foldl (nameFile s generated package) names).inUse ↔
      keyword ∈ names.inUse ∨
        ∃ id ∈ ids, id ∉ generated ∧ dependencyCandidate (s.file id) = keyword := by
  induction ids generalizing names with
  | nil => simp
  | cons id ids ih =>
    rw [foldl_cons, ih, exists_mem_cons_iff]
    by_cases hid : id ∈ generated
    · have hstep : (nameFile s generated package names id).inUse = names.inUse := by
        rw [nameFile, if_pos (by simpa using hid)]
        rfl
      simp [hstep, hid]
    · have hstep : keyword ∈ (nameFile s generated package names id).inUse ↔
          keyword = dependencyCandidate (s.file id) ∨ keyword ∈ names.inUse := by
        rw [nameFile_of_notMem hid]
        exact keyword_mem_register_iff hkeyword
      rw [hstep, or_comm (a := keyword = _), or_assoc]
      simp only [hid, not_false_eq_true, true_and, eq_comm]

theorem lookup_files_of_notMem {ids : List FileId} (hid : id ∉ ids) :
    (ids.foldl (nameFile s generated package) names).byFile.lookup id = names.byFile.lookup id := by
  induction ids generalizing names with
  | nil => rfl
  | cons next ids ih =>
    rw [mem_cons, not_or] at hid
    have hstep : (nameFile s generated package names next).byFile.lookup id =
        names.byFile.lookup id := by
      have hne : (id == next) = false := beq_eq_false_iff_ne.mpr hid.1
      rw [nameFile]
      split
      · rw [assign, lookup_cons, hne]
      · change List.lookup id ((next, _) :: names.byFile) = _
        rw [lookup_cons, hne]
    rw [foldl_cons, ih hid.2, hstep]

theorem lookup_files {before after : List FileId} (hid : id ∉ generated) (hafter : id ∉ after) :
    ((before ++ id :: after).foldl (nameFile s generated package) names).byFile.lookup id =
      some ((before.foldl (nameFile s generated package) names).register
        (dependencyCandidate (s.file id))).1 := by
  rw [foldl_append, foldl_cons, lookup_files_of_notMem hafter, nameFile_of_notMem hid]
  change List.lookup id ((id, _) :: _) = _
  rw [lookup_cons, beq_self_eq_true]
  rfl

end Files

section Assigned

open PackageNames

variable {s : Schema} {generated : List FileId} {p : Parameters} {names : PackageNames}
  {package : String}

theorem fileIds_split (h : id ∈ s.fileIds) :
    ∃ before after, s.fileIds = before ++ id :: after ∧ id ∉ after ∧
      ∀ j, j ∈ before ↔ j.index < id.index := by
  have hsorted : s.fileIds.Pairwise fun i j => i.index < j.index := by
    rw [Schema.fileIds, pairwise_map]
    exact pairwise_lt_range
  obtain ⟨before, after, hsplit⟩ := append_of_mem h
  rw [hsplit, pairwise_append, pairwise_cons] at hsorted
  obtain ⟨-, ⟨hafter, -⟩, hbefore⟩ := hsorted
  refine ⟨before, after, hsplit, fun hmem => Nat.lt_irrefl _ (hafter id hmem), fun j => ?_⟩
  constructor
  · intro hj
    exact hbefore j hj id mem_cons_self
  · intro hlt
    obtain ⟨i, hi, rfl⟩ := mem_map.mp h
    have hj : j ∈ s.fileIds :=
      mem_map.mpr ⟨j.index, mem_range.mpr (hlt.trans (mem_range.mp hi)), rfl⟩
    rw [hsplit, mem_append, mem_cons] at hj
    rcases hj with hj | rfl | hj
    · exact hj
    · exact absurd hlt (Nat.lt_irrefl _)
    · exact absurd (hafter j hj) hlt.asymm

/-- The name of a file outside the package is an identifier if it begins like one, unless it is a
keyword that no one has before the file. -/
theorem isPackageName_dependency_iff (h : assignPackageNames s generated p = .ok (names, package))
    (hid : id ∈ s.fileIds) (hforeign : id ∉ generated) :
    ∃ name, names.of id = .ok name ∧ (IsPackageName name ↔
      BeginsName (dependencyCandidate (s.file id)) ∧
        (dependencyCandidate (s.file id) ∈ keywords →
          dependencyCandidate (s.file id) = package ∨ ∃ j : FileId, j.index < id.index ∧
            j ∉ generated ∧ dependencyCandidate (s.file j) = dependencyCandidate (s.file id))) := by
  obtain ⟨first, rest, candidate, rfl, rfl, rfl⟩ := assignPackageNames_eq_ok h
  obtain ⟨before, after, hsplit, hafter, hbefore⟩ := fileIds_split hid
  have hsupport : ∀ k ∈ keywords, k ∉ supportPackages := by decide
  refine ⟨_, by rw [PackageNames.of, hsplit, lookup_files hforeign hafter], ?_⟩
  rw [isPackageName_register_iff]
  apply and_congr_right
  intro _
  apply forall_congr'
  intro hkeyword
  have hfirst : dependencyCandidate (s.file id) ∈
      (({} : PackageNames).registerFile candidate first).2.inUse ↔
        dependencyCandidate (s.file id) = (({} : PackageNames).registerFile candidate first).1 :=
    mem_singleton
  rw [keyword_mem_files_iff hkeyword, keyword_mem_supports_iff hkeyword, hfirst]
  simp only [hsupport _ hkeyword, false_or, hbefore]

theorem packageChosen_of_eq_ok (h : assignPackageNames s generated p = .ok (names, package)) :
    PackageChosen s p generated package := by
  have hne : generated ≠ [] := by
    obtain ⟨first, rest, -, rfl, -⟩ := assignPackageNames_eq_ok h
    exact cons_ne_nil first rest
  rcases assignPackageNames_cases hne with
    ⟨-, a, b, herror⟩ | ⟨-, n, pkg, hok, hchosen⟩
  · cases h.symm.trans herror
  · obtain ⟨-, rfl⟩ := Prod.mk.inj (Except.ok.inj (hok.symm.trans h))
    exact hchosen

theorem isPackageName_packageOfImportPath {path name : String}
    (h : packageOfImportPath? path = some name) : IsPackageName name := by
  have hkeywords : ∀ k ∈ keywords, k.toList.head? ≠ some '_' := by decide
  have hescaped (base : String) : isKeyword ("_" ++ base) = false := by
    rw [← Bool.not_eq_true, isKeyword_iff]
    intro hmem
    exact hkeywords _ hmem (by rw [String.toList_append]; rfl)
  have hchars := chars_of_isNameChar (isNameChar_packageOfImportPath h)
  have hunderscore (base : String) : startsWithDigit ("_" ++ base) = false := by
    rw [startsWithDigit_append (by decide)]
    decide
  simp only [packageOfImportPath?] at h
  split at h
  · cases h
  · rename_i hlast
    have hne : sanitize (Path.lastElement path) ≠ "" := fun h => hlast (sanitize_eq_empty_iff.mp h)
    by_cases hkeyword : isKeyword (sanitize (Path.lastElement path)) = true
    · rw [if_pos hkeyword, hunderscore] at h
      cases h
      exact ⟨fun h => hne (String.append_eq_empty_iff.mp h).2, hchars, hunderscore _, hescaped _⟩
    · rw [if_neg hkeyword] at h
      by_cases hdigit : startsWithDigit (sanitize (Path.lastElement path)) = true
      · rw [if_pos hdigit] at h
        cases h
        exact ⟨fun h => hne (String.append_eq_empty_iff.mp h).2, hchars, hunderscore _, hescaped _⟩
      · rw [if_neg hdigit] at h
        cases h
        exact ⟨hne, hchars, Bool.eq_false_iff.mpr hdigit, Bool.eq_false_iff.mpr hkeyword⟩

/-- The name of the generated package is an identifier if what it is made of is no keyword and
begins like an identifier. -/
theorem PackageChosen.isPackageName_iff (h : PackageChosen s p generated package)
    (hne : generated ≠ []) :
    IsPackageName package ↔
      (∀ name ∈ explicitNames s p generated, BeginsName name ∧ name ∉ keywords) ∧
      (explicitNames s p generated = [] → packageOfImportPath? p.importPath = none →
        ∀ name ∈ impliedNames s generated, BeginsName name ∧ name ∉ keywords) := by
  have hall {texts : List String} (hmade : ∀ name ∈ texts, package = sanitize name)
      (htexts : texts ≠ []) :
      IsPackageName package ↔ ∀ name ∈ texts, BeginsName name ∧ name ∉ keywords := by
    have heach : ∀ name ∈ texts, (IsPackageName package ↔ BeginsName name ∧ name ∉ keywords) := by
      intro name hname
      rw [hmade name hname, isPackageName_sanitize_iff]
    obtain ⟨text, htext⟩ := exists_mem_of_ne_nil texts htexts
    constructor
    · intro hpackage name hname
      exact (heach name hname).mp hpackage
    · intro hnames
      exact (heach text htext).mpr (hnames text htext)
  by_cases hnames : explicitNames s p generated = []
  · have hvacuous : ∀ name ∈ explicitNames s p generated, BeginsName name ∧ name ∉ keywords := by
      simp [hnames]
    rw [and_iff_right hvacuous]
    cases hpath : packageOfImportPath? p.importPath with
    | some name =>
      rw [h.importPath hnames name hpath]
      exact iff_of_true (isPackageName_packageOfImportPath hpath) nofun
    | none =>
      rw [hall (h.implied hnames hpath) (by simpa [impliedNames] using hne)]
      exact ⟨fun himplied _ _ => himplied, fun himplied => himplied hnames rfl⟩
  · rw [hall h.explicit hnames, and_iff_left fun hnil => absurd hnil hnames]

end Assigned

/-- A file whose candidate may begin a name: every schema package does, not every file name. -/
def Schema.FileNode.Begins (f : FileNode) : Prop :=
  f.package ≠ "" ∨ BeginsName (Path.baseName f.name)

theorem beginsName_candidate_iff {f : FileNode} (h : IsDotted f.package) :
    BeginsName (dependencyCandidate f) ↔ f.Begins := by
  rw [dependencyCandidate, FileNode.Begins]
  by_cases hempty : f.package = ""
  · simp [hempty]
  · rw [if_neg hempty]
    exact iff_of_true (h.beginsName hempty) (.inl hempty)

namespace Setup

variable {r : Descriptor.Request} {s : Setup}

theorem ofRequest_isDotted (hs : ofRequest r = .ok s)
    (hdotted : ∀ f ∈ r.files, IsDotted (f.package.getD "")) (id : FileId) :
    IsDotted (s.schema.file id).package := by
  obtain ⟨schema, hschema, -, hnumbered, -⟩ := ofRequest_eq_ok hs
  have hprotos : s.schema.files.map (·.proto) = r.files := by
    rw [hnumbered]
    exact (mirrors_numberFiles (ofFiles_mirrors hschema) 0 s.generated).protos
  rcases s.schema.file_cases id with hfile | ⟨-, hdefault⟩
  · apply hdotted
    rw [← hprotos]
    exact mem_map_of_mem (mem_of_getElem? hfile)
  · rw [hdefault]
    exact ⟨[], by simp, rfl⟩

/-- When the names of packages are identifiers, in a run over schema packages that are. The package
that is generated is told from what its files are given or imply, and every other file from its own
candidate and those before it. -/
theorem packageNames_legal_iff (hs : ofRequest r = .ok s)
    (hdotted : ∀ f ∈ r.files, IsDotted (f.package.getD "")) :
    (IsPackageName s.packageName ↔
      (∀ name ∈ explicitNames s.schema s.parameters s.generated,
        BeginsName name ∧ name ∉ keywords) ∧
      (explicitNames s.schema s.parameters s.generated = [] →
        packageOfImportPath? s.parameters.importPath = none →
        ∀ id ∈ s.generated, (s.schema.file id).Begins ∧
          dependencyCandidate (s.schema.file id) ∉ keywords)) ∧
    ∀ id ∈ s.schema.fileIds, id ∉ s.generated → ∃ name, s.packages.of id = .ok name ∧
      (IsPackageName name ↔ (s.schema.file id).Begins ∧
        (dependencyCandidate (s.schema.file id) ∈ keywords →
          dependencyCandidate (s.schema.file id) = s.packageName ∨
          ∃ j : FileId, j.index < id.index ∧ j ∉ s.generated ∧
            dependencyCandidate (s.schema.file j) = dependencyCandidate (s.schema.file id))) := by
  obtain ⟨schema, -, -, -, hassign, -⟩ := ofRequest_eq_ok hs
  have hbegins (id : FileId) := beginsName_candidate_iff (ofRequest_isDotted hs hdotted id)
  constructor
  · have hne : s.generated ≠ [] := by
      obtain ⟨first, rest, -, hcons, -⟩ := assignPackageNames_eq_ok hassign
      exact hcons ▸ cons_ne_nil first rest
    rw [(packageChosen_of_eq_ok hassign).isPackageName_iff hne]
    simp only [impliedNames, forall_mem_map, hbegins]
  · intro id hid hforeign
    obtain ⟨name, hname, hiff⟩ := isPackageName_dependency_iff hassign hid hforeign
    rw [hbegins] at hiff
    exact ⟨name, hname, hiff⟩

/-- Files that are called like keywords, or like nothing that Go knows. -/
def oddFiles : Descriptor.Request where
  filesToGenerate := ["a.proto"]
  files :=
    [{ name := some "a.proto", package := some "type" },
     { name := some "9lives.proto" },
     { name := some "go/.proto" },
     { name := some "b.proto", package := some "range" },
     { name := some "c.proto", package := some "range" },
     { name := some "d.proto", package := some "go.types" }]

def odd : Setup := (ofRequest oddFiles).toOption.getD default

theorem oddFiles_isDotted : ∀ f ∈ oddFiles.files, IsDotted (f.package.getD "") := by
  have hparts : ∀ f ∈ oddFiles.files, ∃ parts ∈ [["type"], [], ["range"], ["go", "types"]],
      (∀ part ∈ parts, isIdentifier part = true) ∧ f.package.getD "" = join "." parts := by
    decide +kernel
  intro f hf
  obtain ⟨parts, -, h⟩ := hparts f hf
  exact ⟨parts, h⟩

/-- A schema package that is a keyword, and a file name that begins with a digit or is empty, become
names of packages as they are. -/
theorem packageNames_illegal :
    ofRequest oddFiles = .ok odd ∧ (∀ f ∈ oddFiles.files, IsDotted (f.package.getD "")) ∧
      odd.packageName = "type" ∧ ¬ IsPackageName "type" ∧
      odd.schema.fileIds.map (fun id => (odd.packages.of id).toOption) =
        [some "type", some "9lives", some "", some "range", some "range1", some "go_types"] ∧
      ¬ IsPackageName "9lives" ∧ ¬ IsPackageName "" ∧ ¬ IsPackageName "range" :=
  ⟨eq_ok_of_isOk default (by decide +kernel), oddFiles_isDotted, by decide +kernel,
    by decide +kernel, by decide +kernel, by decide +kernel, by decide +kernel, by decide +kernel⟩

theorem packageNames_legal_iff_odd :
    ofRequest oddFiles = .ok odd ∧ ¬ IsPackageName odd.packageName ∧
      (∃ name, odd.packages.of ⟨3⟩ = .ok name ∧ ¬ IsPackageName name) ∧
      ∃ name, odd.packages.of ⟨4⟩ = .ok name ∧ IsPackageName name := by
  have hs : ofRequest oddFiles = .ok odd := eq_ok_of_isOk default (by decide +kernel)
  obtain ⟨hpackage, hfiles⟩ := packageNames_legal_iff hs oddFiles_isDotted
  refine ⟨hs, ?_, ?_, ?_⟩
  · rw [hpackage]
    rintro ⟨-, himplied⟩
    exact (himplied (by decide +kernel) (by decide +kernel) ⟨0⟩ (by decide +kernel)).2
      (by decide +kernel)
  · obtain ⟨name, hname, hiff⟩ := hfiles ⟨3⟩ (by decide +kernel) (by decide +kernel)
    refine ⟨name, hname, ?_⟩
    rw [hiff]
    rintro ⟨-, htaken⟩
    rcases htaken (by decide +kernel) with hsame | ⟨⟨j⟩, hj, -, hsame⟩
    · exact absurd hsame (by decide +kernel)
    · have hnone : ∀ j < 3, dependencyCandidate (odd.schema.file ⟨j⟩) ≠ "range" := by decide +kernel
      exact hnone j hj hsame
  · obtain ⟨name, hname, hiff⟩ := hfiles ⟨4⟩ (by decide +kernel) (by decide +kernel)
    refine ⟨name, hname, hiff.mpr ⟨.inl (by decide +kernel), fun _ => .inr ⟨⟨3⟩, ?_⟩⟩⟩
    decide +kernel

end Setup

end GoBindings
