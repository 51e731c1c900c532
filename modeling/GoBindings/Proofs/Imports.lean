import GoBindings.Proofs.Qualifiers
import GoBindings.Proofs.SafeRequests

/-!
# Imports

The body of a generated file names packages by the names that the imports of the file bind, each of
them once.
-/

namespace GoBindings

open List Schema Go Descriptor Setup Binder

/-- The name that an import binds in its file. -/
def Go.ImportEntry.bound? : ImportEntry → Option String
  | .named name _ => if name = "_" then none else some name
  | .weak _ _ => none

def boundNames (entries : List ImportEntry) : List String := entries.filterMap ImportEntry.bound?

/-- The keys of maps are scalars, and their values are no groups. -/
def Descriptor.File.MapsPlain (f : File) : Prop :=
  ∀ m ∈ f.allMessages, (m.options.bind (·.mapEntry)).getD false = true →
    ∀ key value, m.fields = [key, value] →
      (∀ kind, key.fieldKind = .ok kind → kind.scalar? ≠ none) ∧ value.fieldKind ≠ .ok .group

theorem Descriptor.File.MapsPlain.of_forall {f : File}
    (h : ∀ m ∈ f.allMessages, (m.options.bind (·.mapEntry)).getD false = false) : f.MapsPlain := by
  intro m hm hentry
  simp [h m hm] at hentry

namespace Binder

variable {b : Binder} {files : List File} {isUsed : String → Bool} {file : FileId}
  {package : String}
variable {indirect : List FileId}

/-- The package of a file, unless it is the generated one. -/
def foreign? (b : Binder) (file : FileId) : Option String :=
  (b.setup.packages.of file).toOption.filter fun package => package ≠ b.setup.packageName

theorem foreign?_eq_some : b.foreign? file = some package ↔ b.setup.PackageOf file package := by
  rw [foreign?, PackageOf]
  cases b.setup.packages.of file <;> simp [Except.toOption]

theorem foreign?_of_eq_ok (h : b.setup.packages.of file = .ok package) :
    b.foreign? file = if package = b.setup.packageName then none else some package := by
  rw [foreign?, h]
  by_cases hsame : package = b.setup.packageName <;> simp [Except.toOption, Option.filter]

/-- The import of a dependency, if it is in another package than the file. -/
def dependencySpecs (b : Binder) (isUsed : String → Bool) (d : String × FileId) :
    List ImportEntry :=
  (b.foreign? d.2).toList.map fun package =>
    .named (if isUsed package then package else "_") (b.importPath d.1 d.2)

/-- The import of a file that is no dependency. -/
def indirectSpecs (b : Binder) (file : FileId) : List ImportEntry :=
  (b.foreign? file).toList.map fun package =>
    .named package (b.importPath (b.schema.file file).name file)

/-- The files that are imported though they are no dependencies. -/
def indirectFiles (b : Binder) (indirect : List FileId) : List FileId :=
  b.schema.fileIds.filter fun file => indirect.contains file && !b.node.dependencies.contains file

section Blocks

private theorem eq_map_of_mapM {α β : Type} {f : α → Except Error β} {g : α → β} {xs : List α}
    {ys : List β} (h : xs.mapM f = .ok ys) (hg : ∀ x ∈ xs, ∀ y, f x = .ok y → y = g x) :
    ys = xs.map g := by
  have hall := mapM_eq_ok h
  clear h
  induction hall with
  | nil => rfl
  | cons hxy _ ih =>
    rw [hg _ (by simp) _ hxy, ih fun x hx => hg x (by simp [hx])]
    rfl

theorem dependencyImports_eq {entries : List ImportEntry}
    (hweak : ∀ i < b.node.proto.dependencies.length, b.node.isWeakDependency i = false)
    (h : b.dependencyImports isUsed = .ok entries) : entries =
      (b.node.proto.dependencies.zip b.node.dependencies).flatMap (b.dependencySpecs isUsed) := by
  simp only [dependencyImports, steps_eq_ok] at h
  obtain ⟨lists, hlists, rfl⟩ := h
  have heq := eq_map_of_mapM (g := fun x => b.dependencySpecs isUsed x.1) hlists ?_
  · generalize b.node.proto.dependencies.zip b.node.dependencies = ds at heq ⊢
    rw [heq, flatMap_def]
    conv_rhs => rw [← zipIdx_map_fst 0 ds, map_map]
    rfl
  · rintro ⟨⟨name, id⟩, i⟩ hmem list hlist
    obtain ⟨package, hpackage, rfl⟩ := dependencyImport_eq_ok hlist
    have hi : i < b.node.proto.dependencies.length := by
      have hlt := (mem_zipIdx hmem).2.1
      rw [length_zip] at hlt
      omega
    rw [dependencySpecs, foreign?_of_eq_ok hpackage, hweak i hi]
    by_cases hsame : package = b.setup.packageName <;> simp [hsame]

theorem indirectImports_eq {entries : List ImportEntry}
    (h : b.indirectImports indirect = .ok entries) :
    entries = (b.indirectFiles indirect).flatMap b.indirectSpecs := by
  simp only [indirectImports, steps_eq_ok] at h
  obtain ⟨lists, hlists, rfl⟩ := h
  have heq := eq_map_of_mapM (g := fun file =>
    if b.node.dependencies.contains file then [] else b.indirectSpecs file) hlists ?_
  · have hfilter (xs : List FileId) : xs.flatMap (fun file =>
        if b.node.dependencies.contains file then [] else b.indirectSpecs file) =
          (xs.filter fun file => !b.node.dependencies.contains file).flatMap b.indirectSpecs := by
      induction xs with
      | nil => rfl
      | cons x xs ih => by_cases hx : b.node.dependencies.contains x = true <;> simp_all
    rw [heq, ← flatMap_def, hfilter, filter_filter, indirectFiles]
    simp only [Bool.and_comm]
  · intro file hmem list hlist
    obtain ⟨package, hpackage, rfl⟩ := indirectImport_eq_ok hlist
    rw [indirectSpecs, foreign?_of_eq_ok hpackage]
    by_cases hsame : package = b.setup.packageName <;> simp [hsame]

end Blocks

section Names

variable {q : String}

/-- The generated package, each file outside of it and each support package have names of their
own, and none of them is blank. -/
structure Named (b : Binder) : Prop where
  separate : b.setup.packages.Separate b.schema.fileIds b.setup.generated b.setup.packageName
  listed : ∀ file package, b.setup.PackageOf file package → file ∈ b.schema.fileIds
  found : ∀ key ∈ supportPackages,
    (key, b.setup.packages.supportName key) ∈ b.setup.packages.support.entries
  support : ∀ key ∈ supportPackages, b.setup.packages.supportName key ≠ "_"
  files : ∀ file, ¬ b.setup.PackageOf file "_"

theorem Named.packageOf_injective (h : b.Named) {file' : FileId}
    (hfile : b.setup.PackageOf file package) (hfile' : b.setup.PackageOf file' package) :
    file = file' := by
  have hother {file : FileId} (hfile : b.setup.PackageOf file package) :
      file ∉ b.setup.generated := by
    intro hmem
    have hshared := (h.separate.shared file (h.listed file package hfile)).mpr hmem
    exact hfile.2 (Except.ok.inj (hfile.1.symm.trans hshared))
  exact h.separate.apart file (h.listed file package hfile) file' (h.listed file' package hfile')
    (hother hfile) (hother hfile') (hfile.1.trans hfile'.1.symm)

private theorem boundNames_of_map {entries : List ImportEntry} {names : List String}
    (h : entries.map ImportEntry.bound? = names.map some) : boundNames entries = names := by
  have hid : boundNames entries = (entries.map ImportEntry.bound?).filterMap id := by
    rw [filterMap_map]
    rfl
  rw [hid, h, filterMap_map]
  exact filterMap_some

theorem Named.map_bound?_support (h : b.Named) :
    (b.supportImports isUsed).map ImportEntry.bound? =
      ((supportPackages.map b.setup.packages.supportName).filter isUsed).map some := by
  have hpath : ∀ key ∈ supportPackages, ∃ path,
      b.setup.packages.supportImportPath? (b.setup.packages.supportName key) = some path := by
    intro key hkey
    rw [PackageNames.supportImportPath?, ← Option.isSome_iff_exists, Option.isSome_map,
      find?_isSome]
    exact ⟨_, h.found key hkey, by simp⟩
  have hblank := h.support
  rw [supportImports]
  generalize supportPackages = keys at hpath hblank ⊢
  induction keys with
  | nil => rfl
  | cons key keys ih =>
    rw [forall_mem_cons] at hpath hblank
    obtain ⟨⟨path, hp⟩, hpath⟩ := hpath
    have hrest := ih hpath hblank.2
    by_cases hused : isUsed (b.setup.packages.supportName key) = true
    · rw [map_cons, filter_cons_of_pos hused, map_cons, ← hrest,
        filterMap_cons]
      simp only [hused, if_true, hp, Option.map_some]
      split <;> simp [ImportEntry.bound?, hblank.1]
    · rw [map_cons, filter_cons_of_neg hused, ← hrest, filterMap_cons]
      simp only [hused, Bool.false_eq_true, if_false]

theorem Named.map_bound?_indirect (h : b.Named) (ids : List FileId) :
    (ids.flatMap b.indirectSpecs).map ImportEntry.bound? =
      (ids.filterMap b.foreign?).map some := by
  induction ids with
  | nil => rfl
  | cons file ids ih =>
    rw [flatMap_cons, map_append, ih, filterMap_cons, indirectSpecs]
    cases hfile : b.foreign? file with
    | none => rfl
    | some package =>
      have hblank : package ≠ "_" := by
        rintro rfl
        exact h.files file (foreign?_eq_some.mp hfile)
      simp [ImportEntry.bound?, hblank]

theorem Named.boundNames_dependencies (h : b.Named) (ds : List (String × FileId)) :
    boundNames (ds.flatMap (b.dependencySpecs isUsed)) =
      (ds.map Prod.snd).filterMap fun file => (b.foreign? file).filter isUsed := by
  induction ds with
  | nil => rfl
  | cons d ds ih =>
    rw [flatMap_cons, boundNames, filterMap_append, ← boundNames, ← boundNames, ih,
      map_cons, filterMap_cons, dependencySpecs]
    cases hd : b.foreign? d.2 with
    | none => rfl
    | some package =>
      have hblank : package ≠ "_" := by
        rintro rfl
        exact h.files d.2 (foreign?_eq_some.mp hd)
      by_cases hused : isUsed package = true <;>
        simp [boundNames, ImportEntry.bound?, hused, hblank, Option.filter]

def importedNames (b : Binder) (isUsed : String → Bool) (indirect : List FileId) : List String :=
  (supportPackages.map b.setup.packages.supportName).filter isUsed ++
    ((b.node.dependencies.filterMap fun file => (b.foreign? file).filter isUsed) ++
      (b.indirectFiles indirect).filterMap b.foreign?)

variable {indirect : List FileId}

private theorem mem_used {ids : List FileId}
    (h : q ∈ ids.filterMap fun file => (b.foreign? file).filter isUsed) :
    isUsed q = true ∧ ∃ file ∈ ids, b.setup.PackageOf file q := by
  obtain ⟨file, hfile, hq⟩ := mem_filterMap.mp h
  rw [Option.filter_eq_some_iff, foreign?_eq_some] at hq
  exact ⟨hq.2, file, hfile, hq.1⟩

private theorem mem_others (h : q ∈ (b.indirectFiles indirect).filterMap b.foreign?) :
    ∃ file, file ∉ b.node.dependencies ∧ b.setup.PackageOf file q := by
  obtain ⟨file, hfile, hq⟩ := mem_filterMap.mp h
  rw [foreign?_eq_some] at hq
  rw [indirectFiles, mem_filter] at hfile
  exact ⟨file, by simpa using (Bool.and_eq_true_iff.mp hfile.2).2, hq⟩

theorem Named.importedNames_nodup (h : b.Named) (hdependencies : b.node.dependencies.Nodup) :
    (b.importedNames isUsed indirect).Nodup := by
  have hinjective {ids : List FileId} {f : FileId → Option String} (hids : ids.Nodup)
      (hf : ∀ file q, f file = some q → b.setup.PackageOf file q) : (ids.filterMap f).Nodup :=
    hids.filterMap fun file file' q hfile hfile' =>
      h.packageOf_injective (hf file q hfile) (hf file' q hfile')
  have hids : b.schema.fileIds.Nodup :=
    nodup_range.map fun i j hij => FileId.mk.inj hij
  refine nodup_append.mpr ⟨h.separate.support.filter _, nodup_append.mpr ⟨?_, ?_, ?_⟩, ?_⟩
  · refine hinjective hdependencies fun file q hq => ?_
    exact foreign?_eq_some.mp (Option.filter_eq_some_iff.mp hq).1
  · exact hinjective (hids.filter _) fun file q hq => foreign?_eq_some.mp hq
  · -- A dependency is not imported as another file once more.
    rintro q hq _ hq' rfl
    obtain ⟨-, file, hfile, hpackage⟩ := mem_used hq
    obtain ⟨file', hfile', hpackage'⟩ := mem_others hq'
    rw [h.packageOf_injective hpackage hpackage'] at hfile
    exact hfile' hfile
  · rintro q hq _ hq' rfl
    obtain ⟨file, hpackage⟩ : ∃ file, b.setup.PackageOf file q := by
      rcases mem_append.mp hq' with hq' | hq'
      · obtain ⟨-, file, -, hpackage⟩ := mem_used hq'
        exact ⟨file, hpackage⟩
      · obtain ⟨file, -, hpackage⟩ := mem_others hq'
        exact ⟨file, hpackage⟩
    exact h.separate.supportNotFile file (h.listed file q hpackage) q (mem_filter.mp hq).1
      hpackage.1

theorem Named.packageName_not_mem (h : b.Named) :
    b.setup.packageName ∉ b.importedNames isUsed indirect := by
  intro hmem
  rcases mem_append.mp hmem with hmem | hmem
  · exact h.separate.supportNotShared (mem_filter.mp hmem).1
  · rcases mem_append.mp hmem with hmem | hmem
    · obtain ⟨-, file, -, hpackage⟩ := mem_used hmem
      exact hpackage.2 rfl
    · obtain ⟨file, -, hpackage⟩ := mem_others hmem
      exact hpackage.2 rfl

/-- A package in use is imported if it is that of a dependency, or of a file that is imported as
well. -/
theorem Named.mem_importedNames (h : b.Named) (hused : isUsed package = true)
    (hpackage : b.setup.PackageOf file package)
    (hfile : file ∈ b.node.dependencies ∨ file ∈ indirect) :
    package ∈ b.importedNames isUsed indirect := by
  refine mem_append_right _ (mem_append.mpr ?_)
  have hforeign := foreign?_eq_some.mpr hpackage
  by_cases hdependency : file ∈ b.node.dependencies
  · refine .inl (mem_filterMap.mpr ⟨file, hdependency, ?_⟩)
    rw [hforeign, Option.filter_some, if_pos hused]
  · refine .inr (mem_filterMap.mpr ⟨file, mem_filter.mpr ⟨?_, ?_⟩, hforeign⟩)
    · exact h.listed file package hpackage
    · simpa [hdependency] using hfile

end Names

section Complete

variable {P : Field → Prop}

/-- The imports of a file fit its body. -/
structure ImportsComplete (b : Binder) (part : Part) (entries : List ImportEntry) : Prop where
  /-- Every package that the body names is bound once. -/
  body : ∀ d ∈ b.bodyDecls part, d.InBody ⟨fun p => (boundNames entries).count p = 1, False⟩
  distinct : (boundNames entries).Nodup
  own : b.setup.packageName ∉ boundNames entries
  /-- Each dependency in another package has one import, which binds the package if it is in use.
  All other imports bind packages of files that are no dependencies. -/
  dependencies : ∃ before after, entries = before ++
      (b.node.proto.dependencies.zip b.node.dependencies).flatMap
        (b.dependencySpecs fun package => decide (package ∈ b.bodyUses part)) ++ after ∧
    ∀ e ∈ before ++ after, ∃ name ∈ e.bound?,
      ∀ file ∈ b.node.dependencies, b.setup.packages.of file ≠ .ok name

/-- A generated file whose dependencies are different files, none of them weak, and that names types
of its own and of these only. -/
structure DirectOnly (b : Binder) : Prop where
  linked : b.Linked fun file => b.schema.isDirect file b.file = true
  nodup : b.node.proto.dependencies.Nodup
  notWeak : ∀ i < b.node.proto.dependencies.length, b.node.isWeakDependency i = false

variable {part : Part}

private theorem dependencies_names (hs : b.setup.Sound files) :
    b.node.dependencies.map (fun file => (b.schema.file file).name) =
      b.node.proto.dependencies := by
  have hnames {names : List String} {ids : List FileId}
      (h : Forall₂ (fun name id => b.schema.byName.get? name = some id) names ids) :
      ids.map (fun file => (b.schema.file file).name) = names := by
    induction h with
    | nil => rfl
    | cons hname _ ih =>
      obtain ⟨f, hf, rfl⟩ := hs.schema.mirrors.named _ _ hname
      rw [map_cons, ih, schema, file_eq_of_getElem? hf]
  rcases b.schema.file_cases b.file with hnode | ⟨-, hdefault⟩
  · exact hnames (hs.schema.mirrors.files _ _ hnode).2.dependencies
  · rw [node, hdefault]
    rfl

private theorem importDecls_blocks (hs : b.setup.Sound files) (h : b.Named)
    (hweak : ∀ i < b.node.proto.dependencies.length, b.node.isWeakDependency i = false)
    {imports : List Decl} (himports : b.importDecls isUsed indirect = .ok imports) :
    ∃ entries, imports = importBlock entries ∧
      boundNames entries = b.importedNames isUsed indirect ∧ entries = b.supportImports isUsed ++
        (b.node.proto.dependencies.zip b.node.dependencies).flatMap (b.dependencySpecs isUsed) ++
        (b.indirectFiles indirect).flatMap b.indirectSpecs := by
  obtain ⟨dependencies, others, hdependencies, hothers, rfl⟩ := importDecls_eq_ok.mp himports
  obtain rfl := dependencyImports_eq hweak hdependencies
  obtain rfl := indirectImports_eq hothers
  refine ⟨_, rfl, ?_, rfl⟩
  have hsnd : (b.node.proto.dependencies.zip b.node.dependencies).map Prod.snd =
      b.node.dependencies := by
    refine map_snd_zip ?_
    rw [← dependencies_names hs, length_map]
  rw [boundNames, filterMap_append, filterMap_append, ← boundNames, ← boundNames,
    ← boundNames, boundNames_of_map h.map_bound?_support, h.boundNames_dependencies, hsnd,
    boundNames_of_map (h.map_bound?_indirect _), importedNames, append_assoc]

private theorem bound_of_other (h : b.Named) {e : ImportEntry}
    (he : e ∈ b.supportImports isUsed ++ (b.indirectFiles indirect).flatMap b.indirectSpecs) :
    ∃ name ∈ e.bound?, ∀ file ∈ b.node.dependencies, b.setup.packages.of file ≠ .ok name := by
  rcases mem_append.mp he with he | he
  · have hmem : e.bound? ∈ (b.supportImports isUsed).map ImportEntry.bound? :=
      mem_map_of_mem he
    rw [h.map_bound?_support] at hmem
    obtain ⟨name, hname, hbound⟩ := mem_map.mp hmem
    have hsupport := (mem_filter.mp hname).1
    refine ⟨name, hbound.symm, fun file hfile hof => ?_⟩
    have hne : name ≠ b.setup.packageName := by
      rintro rfl
      exact h.separate.supportNotShared hsupport
    exact h.separate.supportNotFile file (h.listed file name ⟨hof, hne⟩) name hsupport hof
  · have hmem : e.bound? ∈
        ((b.indirectFiles indirect).flatMap b.indirectSpecs).map ImportEntry.bound? :=
      mem_map_of_mem he
    rw [h.map_bound?_indirect] at hmem
    obtain ⟨name, hname, hbound⟩ := mem_map.mp hmem
    obtain ⟨file', hother, hpackage⟩ := mem_others hname
    refine ⟨name, hbound.symm, fun file hfile hof => hother ?_⟩
    rwa [← h.packageOf_injective ⟨hof, hpackage.2⟩ hpackage]

/-- The imports of a file are complete if all types that it names are declared in the file itself or
in dependencies. -/
theorem importDecls_complete (hs : b.setup.Sound files) (h : b.Named)
    (hexports : b.exports.Sound b.schema fun _ => False) (hdirect : b.DirectOnly)
    (hpart : b.declarations = .ok part) {imports : List Decl}
    (himports : b.importDecls (fun package => decide (package ∈ b.bodyUses part)) part.indirect =
      .ok imports) : ∃ entries, imports = importBlock entries ∧ b.ImportsComplete part entries := by
  obtain ⟨entries, rfl, hbound, hentries⟩ := importDecls_blocks hs h hdirect.notWeak himports
  have hdependencies : b.node.dependencies.Nodup := by
    refine Nodup.of_map (fun file => (b.schema.file file).name) ?_
    rw [dependencies_names hs]
    exact hdirect.nodup
  have hdistinct : (boundNames entries).Nodup := hbound ▸ h.importedNames_nodup hdependencies
  refine ⟨entries, rfl, ?_, hdistinct, hbound ▸ h.packageName_not_mem, ?_⟩
  · let R : Rules := ⟨fun p => (boundNames entries).count p = 1, False⟩
    have hsound : (part ++ b.initPart part.inits).Sound b R
        (fun file => b.schema.isDirect file b.file = true) [] :=
      initPart_sound hs (declarations_sound hs False.elim hdirect.linked hexports
        (fun _ hq => hq.elim) hpart)
    have huses : ∀ q ∈ b.bodyUses part, R.package q := by
      intro q hq
      refine count_eq_one_of_mem hdistinct ?_
      rw [hbound]
      have hused : decide (q ∈ b.bodyUses part) = true := decide_eq_true hq
      have hsupport (hmem : q ∈ supportPackages.map b.setup.packages.supportName) :
          q ∈ b.importedNames (fun package => decide (package ∈ b.bodyUses part)) part.indirect :=
        mem_append_left _ (mem_filter.mpr ⟨hmem, hused⟩)
      rcases mem_cons.mp hq with rfl | hq
      · exact hsupport (mem_map_of_mem (by decide : "proto" ∈ supportPackages))
      rcases hsound.uses q hq with hq | ⟨file, hpackage, hfile⟩
      · refine hsupport ?_
        simp only [mem_cons, not_mem_nil, or_false] at hq
        rcases hq with rfl | rfl | rfl
        · exact mem_map_of_mem (by decide : "proto" ∈ supportPackages)
        · exact mem_map_of_mem (by decide : "fmt" ∈ supportPackages)
        · exact mem_map_of_mem (by decide : "math" ∈ supportPackages)
      · refine h.mem_importedNames hused hpackage ?_
        rcases hfile with hfile | hfile
        · rcases isDirect_iff.mp hfile with rfl | hfile
          · exact absurd (hs.of_generated hdirect.linked.generated hpackage.1) hpackage.2
          · exact .inl hfile
        · exact .inr (by simpa [initPart] using hfile)
    rw [bodyDecls, forall_mem_append]
    refine ⟨hsound.decls fun x hx => huses x ?_, embeddedDecls_valid (huses _ mem_cons_self)⟩
    exact mem_cons_of_mem _ (by simpa using hx)
  · refine ⟨_, _, hentries, fun e he => bound_of_other h he⟩

theorem source_plain {field : Field} {map : MapPlan} (e : map.Source b field)
    (hs : b.setup.SoundWith P files) (hmaps : ∀ f ∈ files, f.MapsPlain) :
    (∀ kind, e.key.fieldKind = .ok kind → kind.scalar? ≠ none) ∧ e.kind ≠ .group := by
  obtain ⟨f, hf, hentry⟩ := hs.schema.origin (e.entry_lt hs)
  obtain ⟨hkey, hvalue⟩ := hmaps f hf _ hentry e.isMapEntry e.key e.value e.fields
  exact ⟨hkey, fun hgroup => hvalue (hgroup ▸ e.hkind)⟩

/-- Where the keys of maps are scalars and their values are no groups, they name no packages. -/
theorem entriesFit_of_mapsPlain (hs : b.setup.SoundWith P files)
    (hmaps : ∀ f ∈ files, f.MapsPlain) :
    b.EntriesFit fun _ => False := by
  intro field map e
  obtain ⟨hkey, hvalue⟩ := source_plain e hs hmaps
  refine ⟨fun q hq => ?_, fun hgroup => absurd hgroup hvalue⟩
  obtain ⟨kind, -, hkind, hscalar, -⟩ := (fieldType_sound hs e.hkeyType).origin q hq
  exact hkey kind hkind hscalar

theorem named_of_ofRequest {r : Request} (hs : ofRequest r = .ok b.setup)
    (hblank : ∀ file, ¬ b.setup.PackageOf file "_") : b.Named := by
  obtain ⟨schema, -, -, -, hassign, -⟩ := ofRequest_eq_ok hs
  obtain ⟨hsound, hsupport⟩ := assignPackageNames_sound hassign
  refine ⟨separate_of_assignPackageNames hassign, fun file package hpackage => ?_,
    fun key hkey => PackageNames.mem_support_of_holds (hsupport key hkey),
    fun key hkey => supportName_ne_blank hassign hkey, hblank⟩
  rcases mem_of_assignPackageNames hassign hpackage.1 with hmem | hmem
  · exact absurd ((hsound.eq_package_iff hpackage.1).mpr hmem) hpackage.2
  · exact hmem

end Complete

end Binder

/-- The imports of every file that a run generates are complete, if the file names types of its own
and of direct dependencies only. -/
theorem generate_importsComplete {σ : Type} {r : Request} {s : Setup} {b : Binder}
    (hplain : ∀ f ∈ r.files, f.Plain) (hmaps : ∀ f ∈ r.files, f.MapsPlain)
    (hs : ofRequest r = .ok s) (hb : b ∈ s.binders [] s.schema.fileIds)
    (hdirect : b.DirectOnly) (hblank : ∀ file, ¬ s.PackageOf file "_") (state : σ) :
    (∀ source, b.assembled = .ok source → ∃ part entries, b.declarations = .ok part ∧
      source = Printer.linesText (b.sourceLines part (importBlock entries)) ∧
      b.ImportsComplete part entries) ∧
    ∀ out, (generateWith [] r state).1 = .ok out → ∃ source text, b.assembled = .ok source ∧
      format source = .ok text ∧ ⟨b.node.goFileName, text⟩ ∈ out := by
  have hsound := ofRequest_sound hs hplain
  obtain ⟨hsetup, -, hexports⟩ := binders_invariant hb
    (P := Exports.Sound s.schema fun _ => False) .nil fun file exports part hexports hpart =>
      hexports.append (declarations_exports (b := ⟨s, file, exports⟩) hsound
        (entriesFit_of_mapsPlain (b := ⟨s, file, exports⟩) hsound hmaps) hpart)
  subst hsetup
  have hgenerated := hdirect.linked.generated
  refine ⟨fun source hsource => ?_, fun out hout =>
    exists_of_generateWith hout hs hb hgenerated⟩
  obtain ⟨part, imports, hpart, himports, rfl⟩ :=
    (assembled_eq_ok hgenerated).mp hsource
  obtain ⟨entries, rfl, hcomplete⟩ := importDecls_complete hsound
    (named_of_ofRequest hs hblank) hexports hdirect hpart himports
  exact ⟨part, entries, hpart, rfl, hcomplete⟩

section Outside

variable {R : Rules}

/-- The packages that the fields of a struct name. -/
def Go.Decl.memberPackages : Decl → List String
  | struct _ members => members.flatMap fun m =>
    match m with
    | .field _ type _ => type.packages
    | _ => []
  | _ => []

/-- The text that stands for the value of a constant. -/
def Go.Decl.rawValue? : Decl → Option String
  | value _ _ _ (.number text) _ => some text
  | _ => none

private theorem package_of_memberPackages {d : Decl} (h : d.InBody R) :
    ∀ q ∈ d.memberPackages, R.package q := by
  have htype {t : TypeExpr} (ht : t.Valid R) : ∀ q ∈ t.packages, R.package q := by
    induction t with
    | name | anything => simp [TypeExpr.packages]
    | qualified => simpa [TypeExpr.packages] using ht.1
    | pointer t ih | slice t ih => exact ih ht
    | map k v ihk ihv => exact forall_mem_append.mpr ⟨ihk ht.1, ihv ht.2⟩
  intro q hq
  cases d with
  | struct name members =>
    obtain ⟨m, hm, hq⟩ := mem_flatMap.mp hq
    have hvalid := h.1.2 m hm
    cases m with
    | field => exact htype hvalid.2.1 q hq
    | _ => simp at hq
  | _ => simp [Decl.memberPackages] at hq

private theorem isNumber_of_rawValue? {d : Decl} (h : d.InBody R) {text : String}
    (htext : d.rawValue? = some text) : IsNumber text := by
  cases d with
  | value sort name type e note =>
    have hvalid := h.1.2.2.1
    cases e with
    | number => exact Option.some.inj htext ▸ hvalid
    | _ => simp [Decl.rawValue?] at htext
  | _ => simp [Decl.rawValue?] at htext

private theorem blank_not_mem_boundNames (entries : List ImportEntry) :
    "_" ∉ boundNames entries := by
  intro hmem
  obtain ⟨e, -, he⟩ := mem_filterMap.mp hmem
  cases e with
  | named name path =>
    rw [ImportEntry.bound?] at he
    split at he
    · cases he
    · rename_i hne
      exact hne (Option.some.inj he)
  | weak => cases he

/-- A file with a dependency that it refers to and one that it does not. Two fields of its message
may have defaults, a list of texts and a message. -/
structure Outside where
  package : String
  listDefault : Option String := none
  messageDefault : Option String := none

namespace Outside

variable (x : Outside)

def message : Message where
  name := some "M"
  fields :=
    [{ name := some "n", number := some 1, label := some 1, kind := some 11,
       typeName := some ("." ++ x.package ++ ".N") },
     { name := some "f", number := some 2, label := some 3, kind := some 9,
       defaultValue := x.listDefault },
     { name := some "g", number := some 3, label := some 1, kind := some 11,
       typeName := some ".c.M", defaultValue := x.messageDefault }]

def request : Request where
  filesToGenerate := ["c.proto"]
  files :=
    [{ name := some "a.proto", package := some x.package, messages := [{ name := some "N" }] },
     { name := some "b.proto", package := some "b" },
     { name := some "c.proto", package := some "c", dependencies := ["a.proto", "b.proto"],
       messages := [x.message] }]

def setup : Setup := (ofRequest x.request).toOption.getD default

def binders : List Binder := x.setup.binders [] x.setup.schema.fileIds

def binder : Binder := x.binders.getLast?.getD ⟨x.setup, ⟨0⟩, []⟩

def part : Part := x.binder.declarations.toOption.getD {}

def entries : List ImportEntry :=
  let isUsed (package : String) : Bool := decide (package ∈ x.binder.bodyUses x.part)
  x.binder.supportImports isUsed ++ (x.binder.dependencyImports isUsed).toOption.getD [] ++
    (x.binder.indirectImports x.part.indirect).toOption.getD []

end Outside

/-- A package without a name that can be written, defaults that are written as they are, and neither
of them. -/
def outsideCases : List Outside :=
  [⟨"_", none, none⟩, ⟨"a", some "x.Foo", none⟩, ⟨"a", none, some "x.Foo"⟩, ⟨"a", none, none⟩]

variable {x : Outside}

private theorem outside_files : ∀ x ∈ outsideCases, ∀ f ∈ x.request.files,
    f.PlainWith Field.Spelled ∧ f.MapsPlain := by
  have hfiles : ∀ x ∈ outsideCases, ∀ f ∈ x.request.files,
      f.PlainWith Field.Spelled ∧
        ∀ m ∈ f.allMessages, (m.options.bind (·.mapEntry)).getD false = false := by
    decide +kernel
  exact fun x hx f hf => ⟨(hfiles x hx f hf).1, .of_forall (hfiles x hx f hf).2⟩

private theorem outside_setup (hx : x ∈ outsideCases) :
    ofRequest x.request = .ok x.setup ∧
      x.binder ∈ x.setup.binders [] x.setup.schema.fileIds := by
  have hok : ∀ x ∈ outsideCases, (ofRequest x.request).isOk = true ∧
      x.binders.getLast?.isSome = true := by
    decide +kernel
  refine ⟨eq_ok_of_isOk default (hok x hx).1, ?_⟩
  obtain ⟨b, hb⟩ := Option.isSome_iff_exists.mp (hok x hx).2
  rw [Outside.binder, hb]
  exact mem_of_getLast? hb

private theorem outside_direct (hx : x ∈ outsideCases) : x.binder.DirectOnly := by
  have hfile : ∀ x ∈ outsideCases, x.binder.setup.isGenerated x.binder.file = true ∧
      x.binder.node.proto.dependencies.Nodup ∧ x.binder.node.proto.weakDependencies = [] ∧
      x.binder.allExtensions = [] ∧ ∀ m ∈ x.binder.schema.messages, m.isMapEntry = false := by
    decide +kernel
  have hrefers : ∀ x ∈ outsideCases, ∀ id ∈ x.binder.declaredMessages,
      ∀ field ∈ (x.binder.schema.message id).proto.fields,
      ∀ object ∈ (x.binder.setup.resolve field.typeNameText x.binder.file).toOption,
        x.binder.schema.isDirect (x.binder.schema.fileOf object) x.binder.file = true := by
    decide +kernel
  obtain ⟨hgenerated, hnodup, hweak, hextensions, hmaps⟩ := hfile x hx
  have hentry (id : MessageId) : (x.binder.schema.message id).isMapEntry = false := by
    rw [Schema.message, getD_eq_getElem?_getD]
    cases hid : x.binder.schema.messages[id.index]? with
    | none => rfl
    | some m => exact hmaps m (mem_of_getElem? hid)
  refine ⟨⟨⟨hgenerated, fun _ h => h⟩, fun id hid field hfield => ⟨?_, ?_⟩, ?_⟩, hnodup, ?_⟩
  · intro kind object hkind hscalar hobject
    exact hrefers x hx id hid field hfield object (by simp [hobject, Except.toOption])
  · intro entry hresolve hmap
    simp [hentry] at hmap
  · simp [hextensions]
  · simp [FileNode.isWeakDependency, hweak]

private theorem outside_part (hx : x ∈ outsideCases) : x.binder.declarations = .ok x.part := by
  have hok : ∀ x ∈ outsideCases, x.binder.declarations.isOk = true := by decide +kernel
  have hdeclared := hok x hx
  rw [Outside.part]
  generalize x.binder.declarations = outcome at hdeclared ⊢
  exact eq_ok_of_isOk {} hdeclared

private theorem outside_assembled (hx : x ∈ outsideCases) : x.binder.assembled =
    .ok (Printer.linesText (x.binder.sourceLines x.part (importBlock x.entries))) := by
  have hok : ∀ x ∈ outsideCases, (x.binder.dependencyImports
        (fun package => decide (package ∈ x.binder.bodyUses x.part))).isOk = true ∧
      (x.binder.indirectImports x.part.indirect).isOk = true := by
    decide +kernel
  have himports : x.binder.importDecls
      (fun package => decide (package ∈ x.binder.bodyUses x.part)) x.part.indirect =
        .ok (importBlock x.entries) :=
    importDecls_eq_ok.mpr
      ⟨_, _, eq_ok_of_isOk [] (hok x hx).1, eq_ok_of_isOk [] (hok x hx).2, rfl⟩
  exact (assembled_eq_ok (outside_direct hx).linked.generated).mpr
    ⟨x.part, _, outside_part hx, himports, rfl⟩

private theorem outside_accepted :
    ∃ out, (generateWith [] (Outside.request ⟨"_", none, none⟩) ()).1 = .ok out :=
  generate_of_checked (by decide +kernel)

/-- The imports of a file are not complete where it names a package that cannot be bound, and where
the default of a list or of a message is written as it is. -/
theorem not_importsComplete_outside :
    (∃ out, (generateWith [] (Outside.request ⟨"_", none, none⟩) ()).1 = .ok out) ∧
    ∀ x ∈ ([⟨"_", none, none⟩, ⟨"a", some "x.Foo", none⟩, ⟨"a", none, some "x.Foo"⟩] :
        List Outside),
      (∀ f ∈ x.request.files, f.PlainWith Field.Spelled ∧ f.MapsPlain) ∧
      ofRequest x.request = .ok x.setup ∧
      x.binder ∈ x.setup.binders [] x.setup.schema.fileIds ∧ x.binder.DirectOnly ∧
      x.binder.declarations = .ok x.part ∧ x.binder.assembled =
        .ok (Printer.linesText (x.binder.sourceLines x.part (importBlock x.entries))) ∧
      (∃ p, p ∉ boundNames x.entries ∧
        (p ∈ (x.binder.bodyDecls x.part).flatMap Decl.memberPackages ∨
          p ++ ".Foo" ∈ (x.binder.bodyDecls x.part).filterMap Decl.rawValue?)) ∧
      ¬ x.binder.ImportsComplete x.part x.entries := by
  refine ⟨outside_accepted, fun x hx => ?_⟩
  have hcase : x ∈ outsideCases := by
    simp only [outsideCases, mem_cons] at hx ⊢
    tauto
  have hwritten : ∀ x ∈ outsideCases.take 3,
      "_" ∈ (x.binder.bodyDecls x.part).flatMap Decl.memberPackages ∨
        "x" ∉ boundNames x.entries ∧
          "x" ++ ".Foo" ∈ (x.binder.bodyDecls x.part).filterMap Decl.rawValue? := by
    decide +kernel
  refine ⟨outside_files x hcase, (outside_setup hcase).1, (outside_setup hcase).2,
    outside_direct hcase, outside_part hcase, outside_assembled hcase, ?_, fun h => ?_⟩
  · rcases hwritten x hx with hblank | hraw
    · exact ⟨"_", blank_not_mem_boundNames x.entries, .inl hblank⟩
    · exact ⟨"x", hraw.1, .inr hraw.2⟩
  · rcases hwritten x hx with hblank | hraw
    · obtain ⟨d, hd, hblank⟩ := mem_flatMap.mp hblank
      have hcount : (boundNames x.entries).count "_" = 1 :=
        package_of_memberPackages (h.body d hd) "_" hblank
      exact blank_not_mem_boundNames x.entries (count_pos_iff.mp (by omega))
    · obtain ⟨d, hd, hraw⟩ := mem_filterMap.mp hraw.2
      exact absurd (isNumber_of_rawValue? (h.body d hd) hraw) (by decide)

/-- The imports are complete where the package has a name and nothing has a default. -/
theorem generate_importsComplete_outside :
    ofRequest (Outside.request ⟨"a", none, none⟩) = .ok (Outside.setup ⟨"a", none, none⟩) ∧
    (Outside.binder ⟨"a", none, none⟩).DirectOnly ∧
    ∃ source part entries, (Outside.binder ⟨"a", none, none⟩).assembled = .ok source ∧
      (Outside.binder ⟨"a", none, none⟩).declarations = .ok part ∧
      (Outside.binder ⟨"a", none, none⟩).ImportsComplete part entries := by
  have hcase : (⟨"a", none, none⟩ : Outside) ∈ outsideCases := by simp [outsideCases]
  obtain ⟨hs, hb⟩ := outside_setup hcase
  have hplain : ∀ f ∈ (Outside.request ⟨"a", none, none⟩).files, f.Plain := by decide +kernel
  have hinUse : "_" ∉ (Outside.setup ⟨"a", none, none⟩).packages.inUse := by decide +kernel
  have hblank (file : FileId) : ¬ (Outside.setup ⟨"a", none, none⟩).PackageOf file "_" := by
    intro hpackage
    exact hinUse ((ofRequest_sound hs hplain).packages.inUse
      (PackageNames.holds_of _ hpackage.1))
  obtain ⟨part, entries, hpart, -, hcomplete⟩ := (generate_importsComplete hplain
    (fun f hf => (outside_files _ hcase f hf).2) hs hb (outside_direct hcase) hblank ()).1 _
      (outside_assembled hcase)
  exact ⟨hs, outside_direct hcase, _, part, entries, outside_assembled hcase, hpart, hcomplete⟩

end Outside

end GoBindings
