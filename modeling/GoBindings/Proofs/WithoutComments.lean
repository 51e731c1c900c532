import GoBindings.Proofs.ConfinedLines
import GoBindings.Proofs.Echoes
import GoBindings.Proofs.Enlarging

/-!
# Comments

Requests that are the same apart from comments are run with the same success, and the files that
they generate are the same apart from comments.
-/

namespace GoBindings

open List Schema Go Descriptor Lexeme Setup

namespace Descriptor

/-- A file without its comments. -/
def File.silent (f : File) : File := { f with sourceInfo := none }

def Request.silent (r : Request) : Request := { r with files := r.files.map File.silent }

theorem File.plain_silent {f : File} : f.silent.Plain ↔ f.Plain :=
  ⟨fun h => ⟨h.messages, h.enums, h.extensions⟩, fun h => ⟨h.messages, h.enums, h.extensions⟩⟩

theorem File.tidy_silent {f : File} : f.silent.Tidy ↔ f.Tidy :=
  ⟨fun h => ⟨h.name, h.comment, h.package, h.fields⟩,
    fun h => ⟨h.name, h.comment, h.package, h.fields⟩⟩

theorem Request.forall_of_silent {P : File → Prop} (hP : ∀ {f : File}, P f.silent ↔ P f)
    {r r' : Request} (hsame : r'.silent = r.silent) (h : ∀ f ∈ r.files, P f) :
    ∀ f ∈ r'.files, P f := by
  intro f' hf'
  have hfiles : r'.files.map File.silent = r.files.map File.silent := congrArg Request.files hsame
  have hmem : f'.silent ∈ r.files.map File.silent := by
    rw [← hfiles]
    exact mem_map_of_mem hf'
  obtain ⟨f, hf, heq⟩ := mem_map.mp hmem
  rw [← hP, ← heq, hP]
  exact h f hf

end Descriptor

namespace Schema

open Descriptor (File)

def silent (s : Schema) : Schema := { s with files := s.files.map FileNode.silent }

section Silence

variable (s : Schema) (f : File)

private theorem contextOf_silent : s.silent.contextOf f.silent = s.contextOf f := by
  have hlength : s.silent.files.length = s.files.length := length_map ..
  rw [contextOf, hlength]
  rfl

private theorem newMessages_silent : s.silent.newMessages f.silent = s.newMessages f := by
  rw [newMessages, contextOf_silent]
  rfl

private theorem newEnums_silent : s.silent.newEnums f.silent = s.newEnums f := by
  rw [newEnums, contextOf_silent, newMessages_silent]
  rfl

private theorem nestedExtensions_silent :
    s.silent.nestedExtensions f.silent = s.nestedExtensions f := by
  rw [nestedExtensions, nestedExtensions, contextOf_silent, newMessages_silent]

private theorem ownExtensions_silent : s.silent.ownExtensions f.silent = s.ownExtensions f := by
  rw [ownExtensions, contextOf_silent]
  rfl

theorem silent_added : (s.added f).silent = s.silent.added f.silent := by
  have hfilled : s.silent.filled f.silent = s.filled f := by
    funext e
    rw [filled, filled, newMessages_silent, newEnums_silent]
  have hfile : (s.newFile f).silent = s.silent.newFile f.silent := by
    rw [newFile, newFile, newMessages_silent, newEnums_silent, nestedExtensions_silent,
      ownExtensions_silent]
    rfl
  have hfiles : (s.files ++ [s.newFile f]).map FileNode.silent =
      s.silent.files ++ [s.silent.newFile f.silent] := by
    rw [map_append, map_singleton, hfile]
    rfl
  rw [added, added, newMessages_silent, newEnums_silent, nestedExtensions_silent,
    ownExtensions_silent, hfilled, ← hfiles]
  simp [silent, File.silent]

theorem foldlM_addFile_silent (files : List File) : ∃ s, files.foldlM addFile {} = .ok s ∧
    s.Declared files ∧ (files.map File.silent).foldlM addFile {} = .ok s.silent := by
  induction files using reverseRecOn with
  | nil =>
    obtain ⟨s, hs, hdeclared⟩ := foldlM_addFile []
    cases hs
    exact ⟨{}, rfl, hdeclared, rfl⟩
  | append_singleton files f ih =>
    obtain ⟨s, hs, hdeclared, hsilent⟩ := ih
    refine ⟨s.added f, foldlM_addFile_concat hs f, hdeclared.add f, ?_⟩
    rw [map_append, silent_added]
    exact foldlM_addFile_concat hsilent f.silent

variable {s s' f} {files files' : List File}

theorem Declared.beside_silent (h : s.Declared files) (hsame : s'.silent = s.silent) :
    s.Beside false s' := by
  obtain ⟨hfiles, hmessages, henums, hextensions, hreexports, hnames⟩ := mk.inj hsame
  constructor
  · refine ⟨⟨?_, ?_, ?_, ?_⟩, ?_, fun hremarks => ?_⟩
    · exact hmessages ▸ prefix_rfl
    · exact henums ▸ prefix_rfl
    · exact hextensions ▸ prefix_rfl
    · exact hreexports ▸ prefix_rfl
    · exact hfiles ▸ prefix_rfl
    · cases hremarks
  · intro name id hid
    obtain ⟨f, hf, -⟩ := h.named name id hid
    exact ⟨(List.getElem?_eq_some_iff.mp hf).1, hnames ▸ hid⟩
  · intro id m hm
    rcases s.file_cases id with hf | ⟨-, hdefault⟩
    · exact ((h.files _ _ hf).messages m hm).1
    · rw [hdefault] at hm
      cases hm

/-- Files that are the same apart from comments make schemas that are. -/
theorem ofFiles_silent (hsame : files'.map File.silent = files.map File.silent)
    (h : ofFiles files = .ok s) : ∃ s', ofFiles files' = .ok s' ∧ s.Beside false s' ∧
      s'.files.length = s.files.length := by
  obtain ⟨s₀, hs₀, hdeclared, hsilent⟩ := foldlM_addFile_silent files
  obtain ⟨s₀', hs₀', -, hsilent'⟩ := foldlM_addFile_silent files'
  have hequal : s₀'.silent = s₀.silent := by
    rw [hsame] at hsilent'
    exact Except.ok.inj (hsilent'.symm.trans hsilent)
  have hids : s₀'.fileIds = s₀.fileIds := by
    have hfiles := congrArg (fun s : Schema => s.files.length) hequal
    simp only [silent, length_map] at hfiles
    rw [fileIds, fileIds, hfiles]
  have hreexports : s₀'.reexports = s₀.reexports := (mk.inj hequal).2.2.2.2.1
  have hmirrors := ofFiles_mirrors h
  rw [ofFiles, hs₀] at h
  obtain ⟨s', hs', hbeside, -⟩ := (hdeclared.beside_silent hequal).link hreexports
    (fun id => mem_fileIds.mp) h
  have hofFiles : ofFiles files' = .ok s' := by
    rw [ofFiles, hs₀', ← hs', ← hids]
    rfl
  refine ⟨s', hofFiles, hbeside, ?_⟩
  have hlength := congrArg length hsame
  rw [← (ofFiles_mirrors hofFiles).protos, ← hmirrors.protos] at hlength
  simpa using hlength

end Silence

end Schema

section Runs

variable {r r' : Request} {s : Setup}
variable {out : List GeneratedFile}

theorem Setup.ofRequest_silent (hsame : r'.silent = r.silent) (hs : ofRequest r = .ok s) :
    ∃ s', ofRequest r' = .ok s' ∧ s.Within false s' := by
  obtain ⟨hgenerate, hparameter, -, hfiles⟩ := Request.mk.inj hsame
  obtain ⟨schema, hschema, -⟩ := ofRequest_eq_ok hs
  obtain ⟨schema', hschema', hbeside, hlength⟩ := ofFiles_silent hfiles hschema
  refine ofRequest_within r' hs hgenerate hparameter hschema hschema' hbeside ?_
  apply hbeside.typeTable (ofFiles_mirrors hschema).closed
  rw [drop_of_length_le hlength.le]
  simp

/-- Generated files of one name whose contents are the same apart from comments and layout. -/
def GeneratedFile.SameCode (f f' : GeneratedFile) : Prop :=
  f'.name = f.name ∧ ∃ tokens tokens', scan f.content = .ok tokens ∧
    scan f'.content = .ok tokens' ∧ codeOf tokens' = codeOf tokens

theorem Binder.Within.output {b b' : Binder} (h : b.Within false b')
    {files files' : List File} (hs : b.setup.Sound files) (hs' : b'.setup.Sound files')
    (htidy : ∀ f ∈ files, f.Tidy) (htidy' : ∀ f ∈ files', f.Tidy)
    (hexports : b.exports.Sound b.schema IsTail) (hexports' : b'.exports.Sound b'.schema IsTail)
    (hout : b.output = .ok out) :
    ∃ out', b'.output = .ok out' ∧ Forall₂ GeneratedFile.SameCode out out' := by
  cases hgenerated : b.setup.isGenerated b.file with
  | false =>
    obtain ⟨⟨part, hpart⟩, rfl⟩ := (output_skipped hgenerated).mp hout
    obtain ⟨-, part', hpart', -⟩ := h.declarations hpart
    exact ⟨[], (output_skipped (h.isGenerated.trans hgenerated)).mpr ⟨⟨part', hpart'⟩, rfl⟩, .nil⟩
  | true =>
    have hgenerated' := h.isGenerated.trans hgenerated
    obtain ⟨part, imports, text, hpart, himports, hformat, rfl⟩ := (output_eq_ok hgenerated).mp hout
    obtain ⟨part', hpart', -, himports', hlines⟩ := h.sourceLines hpart himports
    obtain ⟨text', tokens, tokens', hformat', htokens, htokens', hcode⟩ := format_of_code
      (sourceLines_confined hs htidy hexports hgenerated hpart himports)
      (sourceLines_confined hs' htidy' hexports' hgenerated' hpart' himports') hlines.symm hformat
    refine ⟨[⟨b'.node.goFileName, text'⟩], (output_eq_ok hgenerated').mpr
      ⟨part', imports, text', hpart', himports', hformat', rfl⟩, .cons ⟨?_, ?_⟩ .nil⟩
    · exact h.node FileNode.goFileName fun _ => rfl
    · exact ⟨tokens, tokens', htokens, htokens', hcode⟩

private theorem generate_silent {σ : Type} (hplain : ∀ f ∈ r.files, f.Plain)
    (htidy : ∀ f ∈ r.files, f.Tidy) (hsame : r'.silent = r.silent) {state : σ}
    (h : (generateWith [] r state).1 = .ok out) :
    ∃ out', (generateWith [] r' state).1 = .ok out' ∧
      Forall₂ GeneratedFile.SameCode out out' := by
  have hplain' := Request.forall_of_silent File.plain_silent hsame hplain
  have htidy' := Request.forall_of_silent File.tidy_silent hsame htidy
  simp only [generateWith_nil, steps_eq_ok] at h ⊢
  obtain ⟨s, hs, outs, houts, rfl⟩ := h
  obtain ⟨s', hs', hwithin⟩ := ofRequest_silent hsame hs
  have hsound := ofRequest_sound hs hplain
  have hsound' := ofRequest_sound hs' hplain'
  have hids : s'.schema.fileIds = s.schema.fileIds := by
    obtain ⟨s'', hs'', hback⟩ := ofRequest_silent hsame.symm hs'
    cases hs.symm.trans hs''
    have hle : s.schema.files.length ≤ s'.schema.files.length := by
      simpa using hwithin.files.length_le
    have hge : s'.schema.files.length ≤ s.schema.files.length := by
      simpa using hback.files.length_le
    rw [fileIds, fileIds, Nat.le_antisymm hge hle]
  obtain ⟨outs', houts', hall⟩ := hwithin.binders
    (fun file => mem_fileIds.mp) (by simp [Exports.Closed]) (by
      intro b hb b' hb' hbinder out hout
      obtain ⟨rfl, hexports⟩ := binders_sound hsound hsound.packages.tail hb
      rw [← hids] at hb'
      obtain ⟨rfl, hexports'⟩ := binders_sound hsound' hsound'.packages.tail hb'
      exact hbinder.output hsound hsound' htidy htidy' hexports hexports' hout) houts
  rw [← hids] at houts'
  exact ⟨outs'.flatten, ⟨s', hs', outs', houts', rfl⟩, rel_flatten hall⟩

/-- Comments cannot change code: runs over files with plain names, texts and defaults that differ
in comments only succeed alike, and generate the same files in the same order with the same code. -/
theorem generate_comments {σ : Type} (hplain : ∀ f ∈ r.files, f.Plain)
    (htidy : ∀ f ∈ r.files, f.Tidy) (hsame : r'.silent = r.silent) (state : σ) :
    ((∃ out, (generateWith [] r state).1 = .ok out) ↔
      ∃ out', (generateWith [] r' state).1 = .ok out') ∧
    ∀ out out', (generateWith [] r state).1 = .ok out → (generateWith [] r' state).1 = .ok out' →
      Forall₂ GeneratedFile.SameCode out out' := by
  have hplain' := Request.forall_of_silent File.plain_silent hsame hplain
  have htidy' := Request.forall_of_silent File.tidy_silent hsame htidy
  refine ⟨⟨?_, ?_⟩, ?_⟩
  · rintro ⟨out, h⟩
    obtain ⟨out', h', -⟩ := generate_silent hplain htidy hsame h
    exact ⟨out', h'⟩
  · rintro ⟨out', h'⟩
    obtain ⟨out, h, -⟩ := generate_silent hplain' htidy' hsame.symm h'
    exact ⟨out, h⟩
  · intro out out' h h'
    obtain ⟨out'', h'', hsame⟩ := generate_silent hplain htidy hsame h
    cases h'.symm.trans h''
    exact hsame

end Runs

section Remarks

private theorem FirstPrinted.accepted {r : Request} {xs : List Lexeme}
    (h : FirstPrinted r) (hfiles : (setupOf r).schema.fileIds = [⟨0⟩])
    (hchars : chars ((firstLines r).flatMap Line.full) = chars xs) (hrow : Row xs)
    (hcheck : (checkTokens (placed {} xs)).isOk = true) :
    ∃ out, (generateWith [] r ()).1 = .ok out := by
  have hscan := scan_spell (h.toList.trans hchars) (lexed_of_isChain hrow.stands hrow.chain rfl)
  have hformat :=
    format_eq_ok.mpr ⟨_, checkedTokens_eq_ok.mpr ⟨hscan, eq_ok_of_isOk () hcheck⟩, rfl⟩
  have hgenerated : (firstBinder r).setup.isGenerated (firstBinder r).file = true := h.2.2.1
  have houtput : ∃ file, (firstBinder r).output = .ok [file] := by
    simp [Binder.output, Binder.outcome, h.part, h.source, hgenerated, Binder.layOut, hformat,
      Except.map]
  obtain ⟨file, houtput⟩ := houtput
  have hpart := h.part
  rw [firstBinder] at houtput hpart
  rw [generateWith_nil, h.setup]
  simp [hfiles, binders, hpart, houtput]

/-- A message with a text, or a list of texts, whose default opens a comment, and one with a remark
that closes a comment, on the message or on its field. The file is named twice, so that it is not
the first of the package and has no remarks about it. -/
def remarkedRequest (isList : Bool) (path : List Int32) : Request where
  filesToGenerate := ["a.proto", "a.proto"]
  files :=
    [{ name := some "a.proto", package := some "a"
       messages :=
         [{ name := some "M"
            fields :=
              [{ name := some "f", number := some 1, label := some (if isList then 3 else 1),
                 kind := some 9, defaultValue := some "/*" }] },
          { name := some "N"
            fields := [{ name := some "g", number := some 1, label := some 1, kind := some 9 }] }]
       sourceInfo := some { locations := [{ path, leadingComments := some " */" }] } }]

theorem generate_comments_closing :
    ∃ out out', (generateWith [] (remarkedRequest false [4, 1]) ()).1 = .ok out ∧
      (generateWith [] (remarkedRequest false [4, 1, 2, 0]) ()).1 = .ok out' ∧
      Forall₂ GeneratedFile.SameCode out out' := by
  have hchecked : (remarkedRequest false [4, 1]).Checked := by decide +kernel
  obtain ⟨out, h⟩ := generate_of_checked hchecked
  have hsilent : (remarkedRequest false [4, 1, 2, 0]).silent =
      (remarkedRequest false [4, 1]).silent := rfl
  obtain ⟨hsuccess, hsame⟩ :=
    generate_comments hchecked.safe.plain hchecked.safe.tidy hsilent ()
  obtain ⟨out', h'⟩ := hsuccess.mp ⟨out, h⟩
  exact ⟨out, out', h, h', hsame out out' h h'⟩

/-- The lines of the file. The default of a list is written as it is, and what follows is a comment
up to the remark. -/
def openLines (path : List Int32) : List Line := firstLines (remarkedRequest true path)

/-- What is printed before the default, between it and the remark, and after the remark. -/
def printedParts (path : List Int32) : List Lexeme × List Lexeme × List Lexeme :=
  let xs := (openLines path).flatMap Line.full
  let before := xs.takeWhile (· ≠ ⟨.number, "/*"⟩)
  let after := xs.drop (before.length + 1)
  let hidden := after.takeWhile (· ≠ ⟨.comment, "// */"⟩)
  (before, hidden, after.drop (hidden.length + 1))

/-- The comment after its first two characters. -/
def hiddenChars (path : List Int32) : List Char :=
  chars (printedParts path).2.1 ++ ['/', '/', ' ', '*', '/']

/-- The lexemes as they are read. -/
def readLexemes (path : List Int32) : List Lexeme :=
  (printedParts path).1 ++
    ⟨.comment, String.ofList ('/' :: '*' :: hiddenChars path)⟩ :: (printedParts path).2.2

/-- What can be evaluated to see that the lexemes are read so. -/
def ReadSo (path : List Int32) : Prop :=
  (FirstPrinted (remarkedRequest true path) ∧
    (openLines path).flatMap Line.full = (printedParts path).1 ++ ⟨.number, "/*"⟩ ::
      ((printedParts path).2.1 ++ ⟨.comment, "// */"⟩ :: (printedParts path).2.2)) ∧
  blockCommentLength? (hiddenChars path) = some (hiddenChars path).length ∧
  (∀ x ∈ (printedParts path).1 ++ (printedParts path).2.2,
    x.scansAlone = true ∧ x.is "/" = false) ∧
  (readLexemes path).IsChain fun x y => meets x y = true

instance (path : List Int32) : Decidable (ReadSo path) :=
  inferInstanceAs (Decidable (_ ∧ _ ∧ _ ∧ _))

variable {path : List Int32}

private theorem ReadSo.chars (h : ReadSo path) :
    chars ((openLines path).flatMap Line.full) = chars (readLexemes path) := by
  rw [h.1.2, readLexemes]
  simp [hiddenChars]

private theorem stands_closed {cs : List Char} (h : blockCommentLength? cs = some cs.length) :
    (⟨.comment, String.ofList ('/' :: '*' :: cs)⟩ : Lexeme).Stands := by
  refine Fits.stands ⟨'/', '*' :: cs, String.toList_ofList, ?_⟩ (by simp)
  rw [extent?_eq_some_iff, append_nil]
  exact .blockComment h

private theorem ReadSo.row (h : ReadSo path) : Row (readLexemes path) := by
  obtain ⟨-, hcloses, hothers, hchain⟩ := h
  refine ⟨fun x hx => ?_, hchain⟩
  have hother (hx : x ∈ (printedParts path).1 ++ (printedParts path).2.2) : x.Stands :=
    ⟨scansAlone_iff.mp (hothers x hx).1, (hothers x hx).2⟩
  rw [readLexemes, mem_append, mem_cons] at hx
  rcases hx with hx | rfl | hx
  · exact hother (mem_append_left _ hx)
  · exact stands_closed hcloses
  · exact hother (mem_append_right _ hx)

private theorem readSo_checked :
    (ReadSo [4, 1] ∧ (setupOf (remarkedRequest true [4, 1])).schema.fileIds = [⟨0⟩] ∧
      (checkTokens (placed {} (readLexemes [4, 1]))).isOk = true) ∧
    ReadSo [4, 1, 2, 0] ∧ nests [] (readLexemes [4, 1, 2, 0]) = false := by
  decide +kernel

/-- Where a default opens a comment, comments decide: a remark on a message lets a run succeed that
fails if the remark is on the field of the message. -/
theorem generate_comments_open :
    (∀ f ∈ (remarkedRequest true [4, 1]).files,
      f.PlainWith Field.Literal ∧ f.Tidy) ∧
    (remarkedRequest true [4, 1, 2, 0]).silent = (remarkedRequest true [4, 1]).silent ∧
    (∃ out, (generateWith [] (remarkedRequest true [4, 1]) ()).1 = .ok out) ∧
    ∃ bad, (generateWith [] (remarkedRequest true [4, 1, 2, 0]) ()).1 =
      .error (.badSource bad) := by
  obtain ⟨⟨hmessage, hone, hcheck⟩, hfield, hnests⟩ := readSo_checked
  obtain ⟨bad, hbad, -⟩ := hfield.1.1.refused hfield.chars hfield.row hnests
  refine ⟨fun f hf => ?_, rfl, hmessage.1.1.accepted hone hmessage.chars hmessage.row hcheck, bad,
    hbad⟩
  have hfiles : ∀ f ∈ (remarkedRequest true [4, 1]).files,
      f.PlainWith Field.Literal ∧ (f.name.getD "").toList.any isControl = false ∧
        ¬ ['*', '/'] <:+: (f.name.getD "").toList ∧ isIdentifier (f.package.getD "") = true ∧
        ∀ m ∈ f.allMessages, ∀ field ∈ m.fields, field.Tidy := by
    decide +kernel
  exact ⟨(hfiles f hf).1, tidy_of_isIdentifier (hfiles f hf).2⟩

end Remarks

end GoBindings
