import GoBindings.Proofs.Forwards

/-!
# The heads of files

The head of a file is valid: its comments end where they should, and the names by which it imports
packages are identifiers.
-/

namespace GoBindings

open List Schema Go Text

variable {text : String}

namespace Go

variable {cs : List Char} {c : Char}

/-- A text that does not end a block comment. -/
def StaysOpen (text : String) : Prop := blockCommentLength? text.toList = none

instance (text : String) : Decidable (StaysOpen text) := inferInstanceAs (Decidable (_ = _))

private theorem blockCommentLength?_cons (h : c = '*' → cs.head? ≠ some '/') :
    blockCommentLength? (c :: cs) = (blockCommentLength? cs).map (· + 1) := by
  rw [blockCommentLength?.eq_3]
  rintro rest rfl rfl
  exact h rfl rfl

private theorem staysOpen_cons (h : blockCommentLength? (c :: cs) = none) :
    (c = '*' → cs.head? ≠ some '/') ∧ blockCommentLength? cs = none := by
  have hclose : c = '*' → cs.head? ≠ some '/' := by
    rintro rfl hhead
    obtain ⟨rest, rfl⟩ := head?_eq_some_iff.mp hhead
    simp [blockCommentLength?] at h
  rw [blockCommentLength?_cons hclose, Option.map_eq_none_iff] at h
  exact ⟨hclose, h⟩

theorem blockCommentLength?_eq_none (h : ¬ ['*', '/'] <:+: cs) : blockCommentLength? cs = none := by
  induction cs with
  | nil => rfl
  | cons c cs ih =>
    rw [infix_cons_iff, not_or] at h
    rw [blockCommentLength?_cons, ih h.2]
    · rfl
    · rintro rfl hhead
      obtain ⟨rest, rfl⟩ := head?_eq_some_iff.mp hhead
      exact h.1 ⟨rest, rfl⟩

theorem staysOpen_of_not_mem (h : '*' ∉ text.toList) : StaysOpen text :=
  blockCommentLength?_eq_none fun hcloses => h (hcloses.subset (by simp))

private theorem blockCommentLength?_line (h : blockCommentLength? cs = none) (rest : List Char) :
    blockCommentLength? (cs ++ '\n' :: rest) =
      (blockCommentLength? rest).map (· + (cs.length + 1)) := by
  induction cs with
  | nil => exact blockCommentLength?_cons (by simp)
  | cons c cs ih =>
    obtain ⟨hclose, hrest⟩ := staysOpen_cons h
    have hclose' : c = '*' → (cs ++ '\n' :: rest).head? ≠ some '/' := by
      cases cs with
      | nil => simp
      | cons => exact hclose
    rw [cons_append, blockCommentLength?_cons hclose', ih hrest, Option.map_map]
    rfl

theorem stands_blockComment {lines : List (List Char)} {last : List Char}
    (h : ∀ cs ∈ lines, blockCommentLength? cs = none)
    (hlast : blockCommentLength? last = some last.length) :
    (Lexeme.mk .comment
      (String.ofList ('/' :: '*' :: (lines.flatMap (· ++ ['\n']) ++ last)))).Stands := by
  have hlength : blockCommentLength? (lines.flatMap (· ++ ['\n']) ++ last) =
      some (lines.flatMap (· ++ ['\n']) ++ last).length := by
    induction lines with
    | nil => exact hlast
    | cons cs lines ih =>
      have hline := blockCommentLength?_line (h cs (by simp)) (lines.flatMap (· ++ ['\n']) ++ last)
      rw [ih fun cs' hcs => h cs' (by simp [hcs])] at hline
      simpa [Nat.add_comm, Nat.add_left_comm, Nat.add_assoc] using hline
  refine Lexeme.Fits.stands ⟨'/', _, String.toList_ofList, ?_⟩ (by simp)
  rw [extent?_eq_some_iff, append_nil]
  exact .blockComment hlength

private theorem toList_join_lines (lines : List String) (last : String) :
    (join "\n" (lines ++ [last])).toList =
      (lines.map String.toList).flatMap (· ++ ['\n']) ++ last.toList := by
  induction lines with
  | nil => rfl
  | cons l lines ih =>
    have hjoin : join "\n" (l :: (lines ++ [last])) =
        l ++ "\n" ++ join "\n" (lines ++ [last]) := by
      cases lines <;> rfl
    simp [hjoin, ih]

theorem stands_joined {lines : List String} (h : ∀ l ∈ lines, StaysOpen l) :
    (⟨.comment, join "\n" ("/*" :: (lines ++ ["*/"]))⟩ : Lexeme).Stands := by
  have hjoin : join "\n" ("/*" :: (lines ++ ["*/"])) = String.ofList ('/' :: '*' ::
      (([] :: lines.map String.toList).flatMap (· ++ ['\n']) ++ ['*', '/'])) := by
    rw [← String.toList_inj, ← cons_append, toList_join_lines]
    simp
  rw [hjoin]
  exact stands_blockComment (by simpa using ⟨rfl, h⟩) rfl

/-- The package that an import names. -/
def ImportEntry.package : ImportEntry → String
  | named name _ | weak name _ => name

end Go

namespace Binder

theorem staysOpen_docLine (line : String) : StaysOpen (docLine line) := by
  rw [StaysOpen, docLine, String.toList_ofList]
  -- A slash is still after the character it was after, or a blank came between.
  suffices h : ∀ cs, blockCommentLength? (replaceAll ['*', '/'] ['*', ' ', '/'] cs) = none ∧
      (replaceAll ['*', '/'] ['*', ' ', '/'] cs).head? = cs.head? from (h line.toList).1
  intro cs
  fun_induction replaceAll ['*', '/'] ['*', ' ', '/'] cs with
  | case1 => simp [blockCommentLength?]
  | case2 c rest after hdrop hlt ih =>
    obtain ⟨rfl, rfl⟩ := List.cons.inj (dropStart?_eq_some hdrop)
    simp [blockCommentLength?, ih.1]
  | case3 c rest after hdrop hlt ih =>
    have hlength := congrArg List.length (dropStart?_eq_some hdrop)
    simp at hlength hlt
    omega
  | case4 c rest hdrop ih =>
    refine ⟨?_, rfl⟩
    rw [blockCommentLength?_cons, ih.1]
    · rfl
    · rintro rfl hhead
      obtain ⟨after, rfl⟩ := head?_eq_some_iff.mp (ih.2 ▸ hhead)
      simp [dropStart?] at hdrop

variable {b : Binder} {R : Rules} {files : List Descriptor.File}

theorem inUse_of (hs : b.setup.Sound files) {file : FileId} {package : String}
    (h : b.setup.packages.of file = .ok package) : package ∈ b.setup.packages.inUse :=
  hs.packages.inUse (PackageNames.holds_of b.setup.generated h)

theorem inUse_packageName (hs : b.setup.Sound files) :
    b.setup.packageName ∈ b.setup.packages.inUse := by
  obtain ⟨id, -, hid⟩ := hs.packages.first
  exact hs.packages.inUse (.file hid)

theorem inUse_supportName (hs : b.setup.Sound files) {key : String} (h : key ∈ supportPackages) :
    b.setup.packages.supportName key ∈ b.setup.packages.inUse :=
  hs.packages.inUse (hs.support key h)

private theorem star_not_mem (h : IsTail text) : '*' ∉ text.toList :=
  fun hmem => absurd (all_eq_true.mp h '*' hmem) (by decide)

/-- The names in the head of a file end neither a line nor the comment on the package. -/
structure PlainHead (b : Binder) : Prop where
  package : IsTail b.setup.packageName
  source : OneLine b.node.name
  files : ∀ id ∈ b.setup.generated, StaysOpen (b.schema.file id).name
  messages : ∀ id ∈ b.setup.generated, ∀ name ∈ b.topLevelMessages id, StaysOpen name

theorem plainHead (hs : b.setup.Sound files) (htidy : ∀ f ∈ files, f.Tidy) : b.PlainHead where
  package := hs.packages.tail _ (inUse_packageName hs)
  source := oneLine_fileName hs htidy b.file
  files file _ := by
    refine blockCommentLength?_eq_none ?_
    rcases hs.schema.file_cases file with hproto | hdefault
    · exact (htidy _ hproto).comment
    · rw [schema, hdefault]
      decide
  messages file _ name hname := by
    obtain ⟨id, hid, rfl⟩ := mem_map.mp hname
    have hid := ((hs.schema.owns_file file).messages id (mem_filter.mp hid).1).1
    exact staysOpen_of_not_mem (star_not_mem (hs.schema.message_sound hid).name.isName.isTail)

theorem PlainHead.packageDoc_stands (h : b.PlainHead) :
    (⟨.comment, join "\n" b.packageDoc⟩ : Lexeme).Stands := by
  have htab {text : String} (htext : StaysOpen text) : StaysOpen ("\t" ++ text) := by
    have hopen : blockCommentLength? ('\t' :: text.toList) = none := by
      rw [blockCommentLength?_cons (by simp), htext]
      rfl
    rwa [StaysOpen, String.toList_append]
  have hpackage : StaysOpen ("Package " ++ b.setup.packageName ++
      " is a generated protocol buffer package.") := by
    refine staysOpen_of_not_mem ?_
    simp only [String.toList_append, mem_append, not_or]
    exact ⟨⟨by decide, star_not_mem h.package⟩, by decide⟩
  have hmessages : ∀ l ∈ (b.setup.generated.flatMap b.topLevelMessages).map ("\t" ++ ·),
      StaysOpen l := by
    simp only [forall_mem_map, mem_flatMap]
    rintro name ⟨file, hfile, hname⟩
    exact htab (h.messages file hfile name hname)
  have hfiles : ∀ l ∈ b.setup.generated.map fun id => "\t" ++ (b.schema.file id).name,
      StaysOpen l := by
    rw [forall_mem_map]
    exact fun file hfile => htab (h.files file hfile)
  obtain ⟨doc, hdoc, heq⟩ : ∃ doc, (∀ l ∈ doc, StaysOpen l) ∧ b.packageDoc = "/*" ::
      (["Package " ++ b.setup.packageName ++ " is a generated protocol buffer package.", ""] ++
        doc ++ "It is generated from these files:" ::
          b.setup.generated.map (fun id => "\t" ++ (b.schema.file id).name) ++
        "" :: "It has these top-level messages:" ::
          (b.setup.generated.flatMap b.topLevelMessages).map ("\t" ++ ·) ++ ["*/"]) := by
    refine ⟨_, ?_, rfl⟩
    split
    · simp only [forall_mem_append, forall_mem_map, forall_mem_singleton]
      exact ⟨fun line _ => staysOpen_docLine line, by decide⟩
    · simp
  rw [heq]
  refine stands_joined ?_
  simp only [forall_mem_append, forall_mem_cons]
  exact ⟨⟨⟨⟨hpackage, by decide, by simp⟩, hdoc⟩, by decide, hfiles⟩, by decide, by decide,
    hmessages⟩

theorem PlainHead.headerDecls_eq (h : b.PlainHead) :
    ∃ remarks, b.headerDecls = remarks ++ [Decl.package b.setup.packageName, .blank] ∧
      ∀ d ∈ remarks, d.Valid R ∧ d.isRemark = true := by
  refine ⟨_, rfl, ?_⟩
  simp only [forall_mem_append, forall_mem_cons, forall_mem_ite, not_mem_nil]
  refine ⟨⟨⟨OneLine.note (by decide), rfl⟩, ⟨OneLine.note ?_, rfl⟩, ⟨trivial, rfl⟩, by simp⟩,
    fun _ => ⟨⟨h.packageDoc_stands, rfl⟩, by simp⟩, by simp⟩
  simp +decide [h.source]

section Imports

variable {isUsed : String → Bool} {indirect : List FileId} {e : ImportEntry}
variable {ds : List Decl} {entries : List ImportEntry}

theorem dependencyImport_eq_ok {i : Nat} {name : String} {dependency : FileId}
    (h : b.dependencyImport isUsed i name dependency = .ok entries) :
    ∃ package, b.setup.packages.of dependency = .ok package ∧
      entries = if package = b.setup.packageName then []
        else if b.node.isWeakDependency i then [.weak package (b.importPath name dependency)]
        else [.named (if isUsed package then package else "_") (b.importPath name dependency)] := by
  simp only [dependencyImport, steps_eq_ok] at h
  obtain ⟨package, hpackage, rfl⟩ := h
  exact ⟨package, hpackage, rfl⟩

theorem indirectImport_eq_ok {file : FileId} (h : b.indirectImport file = .ok entries) :
    ∃ package, b.setup.packages.of file = .ok package ∧
      entries = if package = b.setup.packageName || b.node.dependencies.contains file then []
        else [.named package (b.importPath (b.schema.file file).name file)] := by
  simp only [indirectImport, steps_eq_ok] at h
  obtain ⟨package, hpackage, rfl⟩ := h
  exact ⟨package, hpackage, rfl⟩

/-- Imports as they are printed. -/
def importBlock (entries : List ImportEntry) : List Decl :=
  if entries.isEmpty then [] else [.imports entries]

theorem importDecls_eq_ok : b.importDecls isUsed indirect = .ok ds ↔
    ∃ dependencies others, b.dependencyImports isUsed = .ok dependencies ∧
      b.indirectImports indirect = .ok others ∧
      ds = importBlock (b.supportImports isUsed ++ dependencies ++ others) := by
  simp only [importDecls, steps_eq_ok]
  constructor
  · rintro ⟨dependencies, hdependencies, others, hothers, rfl⟩
    exact ⟨dependencies, others, hdependencies, hothers, rfl⟩
  · rintro ⟨dependencies, others, hdependencies, hothers, rfl⟩
    exact ⟨dependencies, hdependencies, others, hothers, rfl⟩

theorem importDecls_names (hs : b.setup.Sound files) {fits : String → Prop}
    (hnames : ∀ n ∈ b.setup.packages.inUse, fits n) (hblank : fits "_")
    (h : b.importDecls isUsed indirect = .ok ds) :
    ds = [] ∨ ∃ entries, ds = [.imports entries] ∧ ∀ e ∈ entries, fits e.package := by
  obtain ⟨dependencies, others, hdependencies, hothers, rfl⟩ := importDecls_eq_ok.mp h
  rw [importBlock]
  split
  · exact .inl rfl
  refine .inr ⟨_, rfl, ?_⟩
  simp only [forall_mem_append]
  refine ⟨⟨fun e he => ?_, fun e he => ?_⟩, fun e he => ?_⟩
  · obtain ⟨key, hkey, he⟩ := mem_filterMap.mp he
    have hname := hnames _ (inUse_supportName hs hkey)
    simp only at he
    split at he
    · obtain ⟨path, -, rfl⟩ := Option.map_eq_some_iff.mp he
      split <;> exact hname
    · cases he
  · simp only [dependencyImports, steps_eq_ok] at hdependencies
    obtain ⟨entries, hentries, rfl⟩ := hdependencies
    obtain ⟨list, hlist, he⟩ := mem_flatten.mp he
    obtain ⟨⟨⟨name, id⟩, i⟩, -, hlist⟩ := exists_of_mem_mapM hentries hlist
    obtain ⟨package, hpackage, rfl⟩ := dependencyImport_eq_ok hlist
    have hname := hnames _ (inUse_of hs hpackage)
    split at he
    · cases he
    · split at he <;> obtain rfl := mem_singleton.mp he
      · exact hname
      · show fits (if _ then _ else _)
        split
        · exact hname
        · exact hblank
  · simp only [indirectImports, steps_eq_ok] at hothers
    obtain ⟨entries, hentries, rfl⟩ := hothers
    obtain ⟨list, hlist, he⟩ := mem_flatten.mp he
    obtain ⟨file, -, hlist⟩ := exists_of_mem_mapM hentries hlist
    obtain ⟨package, hpackage, rfl⟩ := indirectImport_eq_ok hlist
    split at he
    · cases he
    · obtain rfl := mem_singleton.mp he
      exact hnames _ (inUse_of hs hpackage)

theorem importDecls_valid (hs : b.setup.Sound files)
    (hnames : ∀ n ∈ b.setup.packages.inUse, IsName n) (h : b.importDecls isUsed indirect = .ok ds) :
    ds = [] ∨ ∃ entries, ds = [.imports entries] ∧ ∀ e ∈ entries, e.Valid R := by
  refine (importDecls_names hs hnames (by decide) h).imp_right ?_
  rintro ⟨entries, rfl, hentries⟩
  refine ⟨entries, rfl, fun e he => ?_⟩
  have hname := hentries e he
  cases e with
  | named name path => exact hname
  | weak name path => exact IsName.oneLine hname |>.note

end Imports

end Binder

end GoBindings
