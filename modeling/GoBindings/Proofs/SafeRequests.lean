import GoBindings.Proofs.Failures
import GoBindings.Proofs.Runs

/-!
# Safe requests

A request is safe if its names are identifiers, and if all of its texts that are written to Go
source as they are fit there. Its files are well-formed sources, which can be refused for names that
are declared twice and for nothing else.
-/

namespace GoBindings

open Schema Go Descriptor Lexeme Setup Binder

/-- The names of a request can stand in a Go source, its fields are as required, and its packages
have names that begin like names. -/
structure Descriptor.Request.SafeWith (P : Field → Prop) (r : Request) : Prop where
  plain : ∀ f ∈ r.files, f.PlainWith P
  tidy : ∀ f ∈ r.files, f.Tidy
  packages : ∀ s, ofRequest r = .ok s → ∀ name ∈ s.packages.inUse,
    ∃ c ∈ name.toList.head?, isIdentStart c = true

abbrev Descriptor.Request.Safe : Request → Prop := Request.SafeWith Field.Plain

section Safe

variable {files : List File} {s : Setup} {b : Binder}
variable {r : Request} {fits : String → Prop}

theorem PackageNames.Sound.isName {names : PackageNames} {generated : List FileId}
    {package name : String} (h : names.Sound generated package) (hname : name ∈ names.inUse)
    (hstart : ∃ c ∈ name.toList.head?, isIdentStart c = true) : IsName name := by
  obtain ⟨c, hc, hstart⟩ := hstart
  have htail := h.tail name hname
  rw [IsTail] at htail
  rw [isName_iff]
  cases htext : name.toList with
  | nil => simp [htext] at hc
  | cons d cs =>
    rw [htext] at hc htail
    obtain rfl : d = c := by simpa using hc
    exact ⟨d, cs, rfl, hstart, fun e he => List.all_eq_true.mp htail e (by simp [he])⟩

theorem Binder.entriesFit_of_inUse (hs : b.setup.Sound files)
    (hnames : ∀ n ∈ b.setup.packages.inUse, fits n) : b.EntriesFit fits := by
  have hfits {scope : Option MessageId} {field : Field} {t : FieldType}
      (ht : b.setup.fieldType b.file scope field = .ok t) : ∀ q ∈ t.package?, fits q := by
    intro q hq
    obtain ⟨_, _, -, -, -, hpackage, -⟩ := (fieldType_sound hs ht).origin q hq
    exact hnames _ (inUse_of hs hpackage)
  intro field map e
  exact ⟨hfits e.hkeyType, fun _ => hfits e.hvalueType⟩

/-- The files of a run know only exports that name packages in use. -/
theorem Setup.binders_sound (hs : s.Sound files) (hnames : ∀ n ∈ s.packages.inUse, fits n)
    (hb : b ∈ s.binders [] s.schema.fileIds) : b.setup = s ∧ b.exports.Sound s.schema fits := by
  obtain ⟨hsetup, -, hexports⟩ := binders_invariant hb (P := Exports.Sound s.schema fits) .nil
    fun file exports part hexports hpart => hexports.append
      (declarations_exports (b := ⟨s, file, exports⟩) hs
        (entriesFit_of_inUse hs hnames) hpart)
  exact ⟨hsetup, hexports⟩

theorem Binder.assembled_notFor {rare : Rare} (h : NotFor rare b.declarations) :
    NotFor rare b.assembled := by
  simp [assembled, h, source_notFor]

theorem Binder.assembled_notForSource (b : Binder) : NotForSource b.assembled :=
  notForSource_iff.mpr (assembled_notFor (notForSource_iff.mp declarations_notForSource))

theorem Binder.outcome_badSource {bad : BadSource} (h : b.outcome = .error (.badSource bad)) :
    b.setup.isGenerated b.file = true ∧
      ∃ source, b.assembled = .ok source ∧ format source = .error bad := by
  rw [outcome] at h
  cases hpart : b.declarations with
  | error e =>
    obtain rfl : e = .badSource bad := by simpa [hpart] using h
    exact absurd hpart (declarations_notForSource bad)
  | ok part =>
    rw [hpart] at h
    by_cases hgenerated : b.setup.isGenerated b.file = true
    · refine ⟨hgenerated, ?_⟩
      cases hsource : b.assembled with
      | error e =>
        obtain rfl : e = .badSource bad := by
          simpa [hgenerated, hsource] using h
        exact absurd hsource (b.assembled_notForSource bad)
      | ok source =>
        refine ⟨source, rfl, ?_⟩
        cases hformat : format source with
        | error bad' =>
          obtain rfl : bad' = bad := by
            simpa [hgenerated, hsource, layOut, hformat] using h
          rfl
        | ok text =>
          simp [hgenerated, hsource, layOut, hformat] at h
    · simp [hgenerated] at h

theorem Setup.ofRequest_isName (hr : r.Safe) (hs : ofRequest r = .ok s) :
    s.Sound r.files ∧ ∀ n ∈ s.packages.inUse, IsName n := by
  have hsound := ofRequest_sound hs hr.plain
  exact ⟨hsound, fun n hn => hsound.packages.isName hn (hr.packages s hs n hn)⟩

/-- The source of every file that a safe request generates is well-formed, and a run fails for bad
source only if a name is declared twice. -/
theorem generate_wellFormed {σ : Type} {r : Request} (hr : r.Safe) (state : σ) :
    (∀ s, ofRequest r = .ok s → ∀ b ∈ s.binders [] s.schema.fileIds,
      s.isGenerated b.file = true → ∀ source, b.assembled = .ok source →
        ∃ tokens clause imports decls, WellFormed source tokens clause imports decls) ∧
    ∀ bad, (generateWith [] r state).1 = .error (.badSource bad) → bad.fault.IsRedeclaration := by
  have hfile {s : Setup} (hs : ofRequest r = .ok s) {b : Binder}
      (hb : b ∈ s.binders [] s.schema.fileIds) (hgenerated : s.isGenerated b.file = true)
      {source : String} (hsource : b.assembled = .ok source) :
      (∃ tokens clause imports decls, WellFormed source tokens clause imports decls) ∧
        ∀ bad, format source = .error bad → bad.fault.IsRedeclaration := by
    obtain ⟨hsound, hnames⟩ := ofRequest_isName hr hs
    obtain ⟨rfl, hexports⟩ := binders_sound hsound hnames hb
    obtain ⟨hwellFormed, hrefused, -⟩ :=
      assembled_wellFormed hsound hnames hr.tidy hexports hgenerated hsource
    exact ⟨hwellFormed, hrefused⟩
  refine ⟨fun s hs b hb hgenerated source hsource => (hfile hs hb hgenerated hsource).1, ?_⟩
  intro bad hbad
  rw [generateWith_nil] at hbad
  cases hs : ofRequest r with
  | error e =>
    obtain rfl : e = .badSource bad := by simpa [hs] using hbad
    exact absurd hs (ofRequest_notForSource r bad)
  | ok s =>
    rw [hs] at hbad
    have hfiles : (s.binders [] s.schema.fileIds).mapM output =
        .error (.badSource bad) := by
      cases hmap : (s.binders [] s.schema.fileIds).mapM output with
      | error e => simpa [hmap] using hbad
      | ok files => simp [hmap] at hbad
    obtain ⟨b, hb, hout⟩ := exists_of_mapM_error hfiles
    have hout : b.outcome = .error (.badSource bad) := by
      rw [output] at hout
      cases hcase : b.outcome <;> simp_all [Except.map]
    obtain ⟨hgenerated, source, hsource, hformat⟩ := outcome_badSource hout
    obtain ⟨hsound, hnames⟩ := ofRequest_isName hr hs
    obtain ⟨rfl, -⟩ := binders_sound hsound hnames hb
    exact (hfile hs hb hgenerated hsource).2 bad hformat

/-- A safe run generates its files if they can be put together and bind nothing twice. -/
theorem generate_accepted {σ : Type} (hr : r.Safe) (hs : ofRequest r = .ok s)
    (h : ∀ b ∈ s.binders [] s.schema.fileIds, ∃ part, b.declarations = .ok part ∧
      (s.isGenerated b.file = true → (∃ source, b.assembled = .ok source) ∧
        ((b.bodyDecls part).flatMap Decl.bindings).Nodup)) (state : σ) :
    ∃ out, (generateWith [] r state).1 = .ok out := by
  obtain ⟨hsound, hnames⟩ := ofRequest_isName hr hs
  have hfile : ∀ b ∈ s.binders [] s.schema.fileIds, ∃ files, b.output = .ok files := by
    intro b hb
    obtain ⟨part, hpart, hgenerated⟩ := h b hb
    obtain ⟨rfl, hexports⟩ := binders_sound hsound hnames hb
    by_cases hfile : b.setup.isGenerated b.file = true
    · obtain ⟨⟨source, hsource⟩, hnodup⟩ := hgenerated hfile
      obtain ⟨text, htext⟩ := (assembled_wellFormed hsound hnames hr.tidy hexports hfile
        hsource).2.2 part hpart |>.mpr hnodup
      simp [output, outcome, hpart, hfile, hsource, layOut, htext, Except.map]
    · simp [output, outcome, hpart, hfile, Except.map]
  obtain ⟨lists, hlists⟩ := exists_forall₂ hfile
  refine ⟨lists.flatten, ?_⟩
  rw [generateWith_nil, hs]
  simp only [steps_eq_ok]
  exact ⟨s, rfl, lists, mapM_eq_ok_iff.mpr hlists, rfl⟩

end Safe

section Checks

open Descriptor

variable {r : Request}

theorem tidy_of_isIdentifier {f : File}
    (h : (f.name.getD "").toList.any isControl = false ∧
      ¬ ['*', '/'] <:+: (f.name.getD "").toList ∧ isIdentifier (f.package.getD "") = true ∧
      ∀ m ∈ f.allMessages, ∀ field ∈ m.fields, field.Tidy) : f.Tidy := by
  obtain ⟨hname, hcomment, hpackage, hfields⟩ := h
  refine ⟨?_, hcomment, ⟨[f.package.getD ""], by simpa using hpackage, ?_⟩, hfields⟩
  · simpa using hname
  · simp [Text.join]

/-- The setup of a request that has one. -/
def setupOf (r : Request) : Setup := (ofRequest r).toOption.getD default

/-- What can be evaluated to see that a safe request is run without failure. -/
def Descriptor.Request.Checked (r : Request) : Prop :=
  (ofRequest r).isOk = true ∧ (∀ f ∈ r.files, f.Plain ∧
    (f.name.getD "").toList.any isControl = false ∧
    ¬ ['*', '/'] <:+: (f.name.getD "").toList ∧ isIdentifier (f.package.getD "") = true ∧
    ∀ m ∈ f.allMessages, ∀ field ∈ m.fields, field.Tidy) ∧
  (∀ name ∈ (setupOf r).packages.inUse, name.toList.head?.any isIdentStart = true) ∧
  ∀ b ∈ (setupOf r).binders [] (setupOf r).schema.fileIds, b.declarations.isOk = true ∧
    ∀ part ∈ b.declarations.toOption, (setupOf r).isGenerated b.file = true →
      b.setup.isGenerated b.file = true ∧
      (b.importDecls (fun package => decide (package ∈ b.bodyUses part))
        part.indirect).isOk = true ∧ ((b.bodyDecls part).flatMap Decl.bindings).Nodup

instance (r : Request) : Decidable r.Checked := inferInstanceAs (Decidable (_ ∧ _ ∧ _ ∧ _))

theorem Descriptor.Request.Checked.setup (h : r.Checked) : ofRequest r = .ok (setupOf r) :=
  eq_ok_of_isOk default h.1

theorem Descriptor.Request.Checked.safe (h : r.Checked) : r.Safe := by
  obtain ⟨-, hfiles, hnames, -⟩ := id h
  refine ⟨fun f hf => (hfiles f hf).1, fun f hf => tidy_of_isIdentifier (hfiles f hf).2,
    fun s hs => ?_⟩
  rw [h.setup] at hs
  rw [← Except.ok.inj hs]
  exact fun name hname => (Option.any_eq_true _ _).mp (hnames name hname)

theorem generate_of_checked (h : r.Checked) : ∃ out, (generateWith [] r ()).1 = .ok out := by
  refine generate_accepted h.safe h.setup (fun b hb => ?_) ()
  obtain ⟨hdeclared, himports⟩ := h.2.2.2 b hb
  have hpart := eq_ok_of_isOk {} hdeclared
  refine ⟨_, hpart, fun hgenerated => ?_⟩
  obtain ⟨hgenerated, himports, hnodup⟩ := himports _ (by rw [hpart]; rfl) hgenerated
  exact ⟨⟨_, (assembled_eq_ok hgenerated).mpr
    ⟨_, _, hpart, eq_ok_of_isOk [] himports, rfl⟩⟩, hnodup⟩

theorem Generator.exists_of_checked (hr : r.Checked) :
    ∃ (g g' : Generator Unit) (out : List GeneratedFile), Generator.ofRequest r = .ok g ∧
      g.setup = setupOf r ∧ g.generateAll () = ((.ok out, g'), ()) := by
  obtain ⟨out, hout⟩ := generate_of_checked hr
  have hg : (Generator.ofRequest r : Except Error (Generator Unit)) =
      .ok { setup := setupOf r } := by
    rw [Generator.ofRequest, hr.setup]
    rfl
  refine ⟨_, _, out, hg, rfl, Prod.ext (Prod.ext ?_ rfl) rfl⟩
  rw [generateWith, hg] at hout
  exact hout

end Checks

section FirstFiles

def firstBinder (r : Request) : Binder := ⟨setupOf r, ⟨0⟩, []⟩

def firstPart (r : Request) : Part := (firstBinder r).declarations.toOption.getD {}

def firstImports (r : Request) : List Decl :=
  ((firstBinder r).importDecls
    (fun package => decide (package ∈ (firstBinder r).bodyUses (firstPart r)))
    (firstPart r).indirect).toOption.getD []

def firstLines (r : Request) : List Line :=
  (firstBinder r).sourceLines (firstPart r) (firstImports r)

/-- What can be evaluated to see that the first file is generated and printed. -/
def FirstPrinted (r : Request) : Prop :=
  (ofRequest r).isOk = true ∧ (setupOf r).schema.fileIds.head? = some ⟨0⟩ ∧
  (setupOf r).isGenerated ⟨0⟩ = true ∧ (firstBinder r).declarations.isOk = true ∧
  ((firstBinder r).importDecls
    (fun package => decide (package ∈ (firstBinder r).bodyUses (firstPart r)))
    (firstPart r).indirect).isOk = true ∧ ∀ l ∈ firstLines r, l.Visible

instance (r : Request) : Decidable (FirstPrinted r) :=
  inferInstanceAs (Decidable (_ ∧ _ ∧ _ ∧ _ ∧ _ ∧ _))

namespace FirstPrinted

variable {r : Request} {xs : List Lexeme}

theorem setup (h : FirstPrinted r) : ofRequest r = .ok (setupOf r) :=
  eq_ok_of_isOk default h.1

theorem part (h : FirstPrinted r) : (firstBinder r).declarations = .ok (firstPart r) := by
  exact eq_ok_of_isOk _ h.2.2.2.1

theorem source (h : FirstPrinted r) :
    (firstBinder r).assembled = .ok (Printer.linesText (firstLines r)) := by
  rw [assembled_eq_ok (b := firstBinder r) h.2.2.1]
  refine ⟨firstPart r, firstImports r, h.part, ?_, by rw [firstLines]⟩
  exact eq_ok_of_isOk _ h.2.2.2.2.1

theorem toList (h : FirstPrinted r) : (Printer.linesText (firstLines r)).toList =
    chars ((firstLines r).flatMap Line.full) :=
  Printer.toList_linesText h.2.2.2.2.2

theorem refused (h : FirstPrinted r)
    (hchars : chars ((firstLines r).flatMap Line.full) = chars xs) (hrow : Row xs)
    (hnests : nests [] xs = false) :
    ∃ bad, (generateWith [] r ()).1 = .error (.badSource bad) ∧ ¬ bad.fault.IsRedeclaration := by
  obtain ⟨bad, hbad, hnot⟩ := format_of_not_nests (h.toList.trans hchars) hrow hnests
  have houtput : (firstBinder r).output = .error (.badSource bad) := by
    have hgenerated : (firstBinder r).setup.isGenerated (firstBinder r).file = true := h.2.2.1
    simp [output, outcome, h.part, h.source, hgenerated, layOut, hbad, Except.map]
  obtain ⟨rest, hfiles⟩ := List.head?_eq_some_iff.mp h.2.1
  refine ⟨bad, ?_, hnot⟩
  rw [generateWith_nil, h.setup]
  rw [firstBinder] at houtput
  simp [hfiles, binders, houtput]

end FirstPrinted

/-- A text, or a list of texts, whose default is a bracket. -/
def braceField (isList : Bool) : Field where
  name := some "f"
  number := some 1
  label := some (if isList then 3 else 1)
  kind := some 9
  defaultValue := some "\x7d"

def braceRequest (isList : Bool) : Request where
  filesToGenerate := ["b.proto", "a.proto"]
  files :=
    [{ name := some "a.proto", package := some "a",
       messages := [{ name := some "M", fields := [braceField isList] }] },
     { name := some "b.proto", package := some "a" }]

/-- The default of a list, which is printed as a number, is read as a bracket. -/
def rereadBrace (x : Lexeme) : Lexeme := if x = ⟨.number, "\x7d"⟩ then .punct "\x7d" else x

def closingLexemes : List Lexeme :=
  ((firstLines (braceRequest true)).flatMap Line.full).map rereadBrace

private theorem chars_map_rereadBrace (xs : List Lexeme) :
    chars (xs.map rereadBrace) = chars xs := by
  have htext (x : Lexeme) : (rereadBrace x).text = x.text := by
    rw [rereadBrace]
    split
    · rename_i h
      rw [h]
      rfl
    · rfl
  induction xs with
  | nil => rfl
  | cons x xs ih => simp [htext, ih]

private theorem closing_checked : FirstPrinted (braceRequest true) ∧
    (∀ x ∈ closingLexemes, x.scansAlone = true ∧ x.is "/" = false) ∧
    closingLexemes.IsChain (fun x y => meets x y = true) ∧ nests [] closingLexemes = false := by
  decide +kernel

private theorem braceRequest_safeWith {P : Field → Prop} {isList : Bool}
    (hplain : ∀ f ∈ (braceRequest isList).files, f.PlainWith P) :
    (braceRequest isList).SafeWith P := by
  have hfiles : ∀ isList, ∀ f ∈ (braceRequest isList).files,
      (f.name.getD "").toList.any isControl = false ∧
        ¬ ['*', '/'] <:+: (f.name.getD "").toList ∧ isIdentifier (f.package.getD "") = true ∧
        ∀ m ∈ f.allMessages, ∀ field ∈ m.fields, field.Tidy := by
    decide +kernel
  have hsetup : ∀ isList, (ofRequest (braceRequest isList)).isOk = true ∧
      ∀ name ∈ (setupOf (braceRequest isList)).packages.inUse,
        name.toList.head?.any isIdentStart = true := by
    decide +kernel
  refine ⟨hplain, fun f hf => tidy_of_isIdentifier (hfiles isList f hf), fun s hs => ?_⟩
  rw [eq_ok_of_isOk default (hsetup isList).1] at hs
  rw [← Except.ok.inj hs]
  exact fun name hname => (Option.any_eq_true _ _).mp ((hsetup isList).2 name hname)

/-- A default that closes a bracket makes a source bad, whatever is declared in it. -/
theorem generate_closing_badSource : (braceRequest true).SafeWith Field.Literal ∧
    ∃ bad, (generateWith [] (braceRequest true) ()).1 = .error (.badSource bad) ∧
      ¬ bad.fault.IsRedeclaration := by
  refine ⟨braceRequest_safeWith (by decide +kernel), ?_⟩
  obtain ⟨hprinted, hstands, hchain, hnests⟩ := closing_checked
  have hrow : Row closingLexemes :=
    ⟨fun x hx => ⟨scansAlone_iff.mp (hstands x hx).1, (hstands x hx).2⟩, hchain⟩
  exact hprinted.refused (chars_map_rereadBrace _).symm hrow hnests

/-- The same default is quoted where the field is no list. -/
theorem generate_wellFormed_single : (braceRequest false).Safe ∧
    ∀ bad, (generateWith [] (braceRequest false) ()).1 = .error (.badSource bad) →
      bad.fault.IsRedeclaration := by
  have hsafe : (braceRequest false).Safe := braceRequest_safeWith (by decide +kernel)
  exact ⟨hsafe, (generate_wellFormed hsafe ()).2⟩

end FirstFiles

end GoBindings
