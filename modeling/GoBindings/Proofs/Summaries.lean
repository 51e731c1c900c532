import GoBindings.Proofs.Clauses
import GoBindings.Proofs.Enlarging
import GoBindings.Proofs.SafeRequests
import GoBindings.Summary
import Mathlib.Data.List.Dedup

/-!
# Summaries agree with runs

A summary of a request tells which files a run on it generates: one for each file that is named for
generation, in the order of the request, and in the package that their clauses name.
-/

namespace GoBindings

open List Schema Go Descriptor Lexeme Setup Binder

namespace Descriptor

/-- The files with one of the names; of files with the same name the last counts. -/
def lastNamed (names : List String) : List File → List File
  | [] => []
  | f :: files =>
    if f.name.getD "" ∈ names ∧ ∀ g ∈ files, g.name.getD "" ≠ f.name.getD "" then
      f :: lastNamed names files
    else lastNamed names files

/-- The files that a request names for generation. -/
def Request.requested (r : Request) : List File := lastNamed r.filesToGenerate r.files

/-- The name of the file that is generated from a file. -/
def File.goFileName (f : File) : String :=
  FileNode.goFileName { (default : FileNode) with proto := f }

/-- The names in the head of a generated file end neither a line nor a comment. -/
structure File.ClearHead (f : File) : Prop where
  line : OneLine (f.name.getD "")
  comment : StaysOpen (f.name.getD "")
  messages : ∀ m ∈ f.messages, StaysOpen (camelCaseScope [m.name.getD ""])

instance (f : File) : Decidable f.ClearHead :=
  decidable_of_iff (OneLine (f.name.getD "") ∧ StaysOpen (f.name.getD "") ∧
      ∀ m ∈ f.messages, StaysOpen (camelCaseScope [m.name.getD ""]))
    ⟨fun ⟨line, comment, messages⟩ => ⟨line, comment, messages⟩,
      fun h => ⟨h.line, h.comment, h.messages⟩⟩

section Requested

variable {names : List String} {files : List File}

theorem lastNamed_sublist : (lastNamed names files).Sublist files := by
  induction files with
  | nil => exact Sublist.refl _
  | cons f files ih =>
    rw [lastNamed]
    split
    · exact ih.cons_cons f
    · exact ih.cons f

theorem mem_lastNamed {name : String} :
    name ∈ (lastNamed names files).map (·.name.getD "") ↔
      name ∈ names ∧ name ∈ files.map (·.name.getD "") := by
  induction files with
  | nil => simp [lastNamed]
  | cons f files ih =>
    rw [lastNamed]
    split
    · rename_i hf
      rw [map_cons, map_cons, mem_cons, mem_cons, ih]
      constructor
      · rintro (rfl | h)
        · exact ⟨hf.1, .inl rfl⟩
        · exact ⟨h.1, .inr h.2⟩
      · rintro ⟨hname, rfl | h⟩
        · exact .inl rfl
        · exact .inr ⟨hname, h⟩
    · rename_i hf
      rw [ih, map_cons, mem_cons]
      constructor
      · exact fun h => ⟨h.1, .inr h.2⟩
      · rintro ⟨hname, rfl | h⟩
        · -- A file that does not count has a later one of its name.
          by_contra hlater
          refine hf ⟨hname, fun g hg heq => hlater ⟨hname, ?_⟩⟩
          exact mem_map.mpr ⟨g, hg, heq⟩
        · exact ⟨hname, h⟩

theorem nodup_lastNamed : ((lastNamed names files).map (·.name.getD "")).Nodup := by
  induction files with
  | nil => exact nodup_nil
  | cons f files ih =>
    rw [lastNamed]
    split
    · rename_i hf
      refine nodup_cons.mpr ⟨fun hmem => ?_, ih⟩
      obtain ⟨g, hg, heq⟩ := mem_map.mp hmem
      exact hf.2 g (lastNamed_sublist.subset hg) heq
    · exact ih

theorem filter_range_eq_lastNamed {p : Nat → Bool}
    (hp : ∀ i f, files[i]? = some f → (p i = true ↔
      f.name.getD "" ∈ names ∧ ∀ g ∈ files.drop (i + 1), g.name.getD "" ≠ f.name.getD "")) :
    ((range files.length).filter p).map (fun i => files.getD i default) =
      lastNamed names files := by
  induction files generalizing p with
  | nil => rfl
  | cons f files ih =>
    have hrest := ih fun i g hg => by
      simpa using hp (i + 1) g (by simpa using hg)
    have hfirst := hp 0 f rfl
    have htail : ((range files.length).map Nat.succ).filter p =
        ((range files.length).filter (p ∘ Nat.succ)).map Nat.succ := filter_map
    rw [length_cons, range_succ_eq_map, lastNamed, ← hrest]
    split
    · rename_i hf
      rw [filter_cons_of_pos (hfirst.mpr hf), htail, map_cons, map_map]
      rfl
    · rename_i hf
      rw [filter_cons_of_neg (mt hfirst.mp hf), htail, map_map]
      rfl

end Requested

end Descriptor

section Named

variable {r : Request} {s : Setup}
variable {files : List FileId} {id : FileId}

variable {schema : Schema} {outs : List (List GeneratedFile)}

/-- A name leads to the last file that has it. -/
theorem Schema.byName_foldlM_addFile {files : List File}
    (h : files.foldlM addFile {} = .ok schema) {name : String}
    (hid : schema.byName.get? name = some id) :
    ∀ f ∈ files.drop (id.index + 1), f.name.getD "" ≠ name := by
  induction files using reverseRecOn generalizing schema with
  | nil => simp
  | append_singleton files f ih =>
    obtain ⟨s, hs, hdeclared⟩ := foldlM_addFile files
    obtain rfl : s.added f = schema :=
      Except.ok.inj ((foldlM_addFile_concat hs f).symm.trans h)
    have hlength : s.files.length = files.length := by
      rw [← hdeclared.protos, length_map]
    have hget : (s.byName.insert (f.name.getD "") ⟨s.files.length⟩).get? name = some id := hid
    rw [Dict.get?_insert] at hget
    split at hget
    · cases hget
      rw [hlength]
      simp
    · rename_i hne
      obtain ⟨g, hg, -⟩ := hdeclared.named name id hget
      have hlt := (List.getElem?_eq_some_iff.mp hg).1
      rw [drop_append_of_le_length (by omega), forall_mem_append,
        forall_mem_singleton]
      exact ⟨ih hs hget, fun heq => hne heq.symm⟩

theorem Schema.byName_ofFiles {files : List File} (h : ofFiles files = .ok schema)
    {name : String} (hid : schema.byName.get? name = some id) :
    ∀ f ∈ files.drop (id.index + 1), f.name.getD "" ≠ name := by
  obtain ⟨s₀, hadd, -⟩ := foldlM_addFile files
  rw [ofFiles, hadd] at h
  have hlink : s₀.fileIds.foldlM linkFile s₀ = .ok schema := h
  have hkept : schema.byName = s₀.byName := by
    refine foldlM_invariant (P := fun s : Schema => s.byName = s₀.byName) hlink rfl ?_
    intro s id s' _ hs hstep
    obtain ⟨dependencies, publics, -, -, rfl⟩ := linkFile_eq_ok.mp hstep
    exact hs
  rw [hkept] at hid
  exact byName_foldlM_addFile hadd hid

theorem Setup.isGenerated_iff (hs : ofRequest r = .ok s) {i : Nat} {f : File}
    (hf : r.files[i]? = some f) : s.isGenerated ⟨i⟩ = true ↔
      f.name.getD "" ∈ r.filesToGenerate ∧
        ∀ g ∈ r.files.drop (i + 1), g.name.getD "" ≠ f.name.getD "" := by
  have hmirrors := ofRequest_mirrors hs
  obtain ⟨schema, hschema, hgenerated, hnumbered, -⟩ := ofRequest_eq_ok hs
  have hname {node : FileNode} {j : Nat} (hnode : s.schema.files[j]? = some node) :
      ∃ g, r.files[j]? = some g ∧ g.name.getD "" = node.name := by
    refine ⟨node.proto, ?_, rfl⟩
    rw [← hmirrors.protos, getElem?_map, hnode]
    rfl
  have hlookup (name : String) : s.schema.byName.get? name = schema.byName.get? name := by
    rw [hnumbered]
  rw [isGenerated, contains_iff_mem]
  constructor
  · intro hmem
    obtain ⟨name, hrequested, hfound⟩ := exists_of_mem_mapM hgenerated hmem
    rw [fileNamed_eq_ok] at hfound
    obtain ⟨node, hnode, rfl⟩ := hmirrors.named name ⟨i⟩ (by rw [hlookup, hfound])
    obtain ⟨g, hg, heq⟩ := hname hnode
    cases hf.symm.trans hg
    rw [heq]
    exact ⟨hrequested, byName_ofFiles hschema hfound⟩
  · rintro ⟨hrequested, hlast⟩
    obtain ⟨id, hid, hfound⟩ := exists_of_mem_forall₂ (mapM_eq_ok_iff.mp hgenerated) hrequested
    rw [fileNamed_eq_ok] at hfound
    obtain ⟨node, hnode, heq⟩ := hmirrors.named _ id (by rw [hlookup, hfound])
    obtain ⟨g, hg, hgname⟩ := hname hnode
    have hdrop {j k : Nat} {g : File} (hlt : j < k) (hg : r.files[k]? = some g) :
        g ∈ r.files.drop (j + 1) := by
      refine mem_of_getElem? (i := k - (j + 1)) ?_
      rw [getElem?_drop, Nat.add_sub_cancel' hlt, hg]
    -- Neither of the two files with the name is after the other.
    have hle : id.index ≤ i := by
      by_contra hlt
      exact hlast g (hdrop (by omega) hg) (hgname.trans heq)
    have hge : i ≤ id.index := by
      by_contra hlt
      exact byName_ofFiles hschema hfound f (hdrop (by omega) hf) rfl
    obtain rfl : id = ⟨i⟩ := congrArg FileId.mk (Nat.le_antisymm hle hge)
    exact hid

theorem Setup.generated_eq_requested (hs : ofRequest r = .ok s) :
    (s.schema.fileIds.filter s.isGenerated).map (fun id => (s.schema.file id).proto) =
      r.requested := by
  have hprotos := (ofRequest_mirrors hs).protos
  have hlength : s.schema.files.length = r.files.length := by
    rw [← hprotos, length_map]
  have hfile (i : Nat) (hi : i < r.files.length) :
      (s.schema.file ⟨i⟩).proto = r.files.getD i default := by
    obtain ⟨node, hnode⟩ : ∃ node, s.schema.files[i]? = some node :=
      ⟨_, getElem?_eq_getElem (hlength ▸ hi)⟩
    have hproto : r.files[i]? = some node.proto := by
      rw [← hprotos, getElem?_map, hnode]
      rfl
    rw [file_eq_of_getElem? hnode, getD_eq_getElem?_getD, hproto]
    rfl
  have hcounted := filter_range_eq_lastNamed
    fun i f hf => isGenerated_iff hs hf
  rw [Request.requested, ← hcounted, fileIds, hlength, filter_map, map_map]
  refine map_congr_left fun i hi => ?_
  exact hfile i (mem_range.mp (mem_filter.mp hi).1)

theorem Setup.requested_perm (hs : ofRequest r = .ok s) :
    (r.requested.map (·.name.getD "")).Perm r.filesToGenerate.dedup := by
  have hmirrors := ofRequest_mirrors hs
  obtain ⟨schema, -, hgenerated, hnumbered, -⟩ := ofRequest_eq_ok hs
  refine (perm_ext_iff_of_nodup nodup_lastNamed (nodup_dedup _)).mpr ?_
  intro name
  rw [mem_lastNamed, mem_dedup]
  constructor
  · exact fun h => h.1
  · intro hname
    obtain ⟨id, -, hfound⟩ := exists_of_mem_forall₂ (mapM_eq_ok_iff.mp hgenerated) hname
    rw [fileNamed_eq_ok] at hfound
    obtain ⟨node, hnode, rfl⟩ := hmirrors.named name id (by rw [hnumbered]; exact hfound)
    refine ⟨hname, ?_⟩
    rw [← hmirrors.protos, map_map]
    exact mem_map.mpr ⟨node, mem_of_getElem? hnode, rfl⟩

theorem Setup.names_of_binders {exports : Exports}
    (h : (s.binders exports files).mapM output = .ok outs) :
    outs.flatten.map (·.name) =
      (files.filter s.isGenerated).map fun id => (s.schema.file id).goFileName := by
  induction files generalizing exports outs with
  | nil =>
    cases h
    rfl
  | cons file files ih =>
    rw [binders, mapM_cons] at h
    simp only [steps_eq_ok] at h
    obtain ⟨out, hout, rest, hrest, rfl⟩ := h
    by_cases hgenerated : s.isGenerated file = true
    · obtain ⟨part, -, text, hpart, -, -, rfl⟩ :=
        (output_eq_ok hgenerated).mp hout
      rw [hpart] at hrest
      rw [filter_cons_of_pos hgenerated, map_cons, ← ih hrest]
      rfl
    · obtain ⟨⟨part, hpart⟩, rfl⟩ := (output_skipped
        (Bool.eq_false_iff.mpr hgenerated)).mp hout
      rw [hpart] at hrest
      rw [filter_cons_of_neg hgenerated, ← ih hrest]
      rfl

theorem Setup.exists_lines_of_binders (h : (s.binders [] files).mapM output = .ok outs)
    {f : GeneratedFile} (hf : f ∈ outs.flatten) : ∃ b : Binder, b.setup = s ∧ b.file ∈ files ∧
      s.isGenerated b.file = true ∧ ∃ part imports,
        format (Printer.linesText (b.sourceLines part imports)) = .ok f.content := by
  obtain ⟨out, hout, hf⟩ := mem_flatten.mp hf
  obtain ⟨b, hb, houtput⟩ := exists_of_mem_mapM h hout
  obtain ⟨rfl, hfile, -⟩ :=
    binders_invariant (P := fun _ => True) hb trivial fun _ _ _ _ _ => trivial
  by_cases hgenerated : b.setup.isGenerated b.file = true
  · obtain ⟨part, imports, text, -, -, htext, rfl⟩ := (output_eq_ok hgenerated).mp houtput
    obtain rfl := mem_singleton.mp hf
    exact ⟨b, rfl, hfile, hgenerated, part, imports, htext⟩
  · obtain ⟨-, rfl⟩ := (output_skipped (Bool.eq_false_iff.mpr hgenerated)).mp houtput
    cases hf

theorem Setup.plainHead_of_clearHead (hs : ofRequest r = .ok s)
    (hclear : ∀ f ∈ r.requested, f.ClearHead) {b : Binder} (hb : b.setup = s)
    (hgenerated : s.isGenerated b.file = true) : b.PlainHead := by
  subst hb
  have hmirrors : b.schema.Mirrors r.files := ofRequest_mirrors hs
  have hwhole := ofRequest_whole hs
  obtain ⟨-, -, -, -, hassign, -⟩ := ofRequest_eq_ok hs
  have hlisted {id : FileId} (hid : id ∈ b.setup.generated) :
      (b.schema.file id).proto ∈ r.requested := by
    rw [← generated_eq_requested hs]
    refine mem_map_of_mem ?_
    exact mem_filter.mpr
      ⟨mem_fileIds.mpr (hwhole.listed id hid), contains_iff_mem.mpr hid⟩
  refine ⟨?_, ?_, fun id hid => ?_, fun id hid name hname => ?_⟩
  · obtain ⟨hsound, -⟩ := assignPackageNames_sound hassign
    obtain ⟨id, -, hid⟩ := hsound.first
    exact hsound.tail _ (hsound.inUse (.file hid))
  · exact (hclear _ (hlisted (contains_iff_mem.mp hgenerated))).line
  · exact (hclear _ (hlisted hid)).comment
  · obtain ⟨node, hnode⟩ : ∃ node, b.schema.files[id.index]? = some node :=
      ⟨_, getElem?_eq_getElem (hwhole.listed id hid)⟩
    have hplaces := (hmirrors.files id.index node hnode).1.messagePlaces
    rw [topLevelMessages, file_eq_of_getElem? hnode] at hname
    obtain ⟨m, hm, rfl⟩ := mem_map.mp hname
    obtain ⟨hm, hparent⟩ := mem_filter.mp hm
    have hplace : (b.schema.message m).place ∈ (node.messages.filter fun m =>
        (b.schema.message m).parent = none).map fun m => (b.schema.message m).place :=
      mem_map_of_mem
        (mem_filter.mpr ⟨hm, by simpa using hparent⟩)
    rw [hplaces] at hplace
    obtain ⟨hproto, htypeName⟩ := Place.mem_row hplace
    have htypeName : (b.schema.message m).typeName = _ := htypeName
    have hrequested := hlisted hid
    rw [file_eq_of_getElem? hnode] at hrequested
    rw [htypeName]
    exact (hclear _ hrequested).messages _ hproto

theorem Setup.fileSummary_eq_ok {entry : FileSummary} (h : s.fileSummary id = .ok entry) :
    s.packages.of id = .ok entry.goPackage ∧
      entry.generated = s.isGenerated id ∧
      entry.output = if s.isGenerated id then (s.schema.file id).goFileName else "" := by
  rw [fileSummary] at h
  simp only [steps_eq_ok] at h
  obtain ⟨package, hpackage, rfl⟩ := h
  exact ⟨hpackage, rfl, rfl⟩

/-- Where there is a setup there is a summary, because every file has a package. -/
theorem Setup.exists_summary (hs : ofRequest r = .ok s) :
    ∃ summary, s.summary = .ok summary := by
  have hentries : ∃ entries, s.schema.fileIds.mapM s.fileSummary = .ok entries := by
    refine exists_mapM fun id hid => ?_
    obtain ⟨package, hpackage⟩ := (ofRequest_whole hs).named id (mem_fileIds.mp hid)
    simp only [fileSummary, hpackage]
    exact ⟨_, rfl⟩
  obtain ⟨entries, hentries⟩ := hentries
  rw [summary, hentries]
  exact ⟨_, rfl⟩

theorem Setup.outputs_of_summary {entries : List FileSummary}
    (h : files.mapM s.fileSummary = .ok entries) :
    (entries.filter (·.generated)).map (·.output) =
      (files.filter s.isGenerated).map fun id => (s.schema.file id).goFileName := by
  have hentries := mapM_eq_ok_iff.mp h
  induction hentries with
  | nil => rfl
  | @cons id entry files entries hentry hrest ih =>
    obtain ⟨-, hgenerated, houtput⟩ := fileSummary_eq_ok hentry
    rw [filter_cons, filter_cons, hgenerated]
    split
    · rename_i hid
      rw [map_cons, map_cons, ih (mapM_eq_ok_iff.mpr hrest), houtput, if_pos hid]
    · exact ih (mapM_eq_ok_iff.mpr hrest)

end Named

namespace Go

theorem format_layout {source : String} {tokens : List Token}
    (h : checkedTokens source = .ok tokens) : format (layout tokens) = .ok (layout tokens) := by
  have hlaid := checkedTokens_layout h
  obtain ⟨xs, -, hxs, rfl⟩ := exists_lexed_of_scan (checkedTokens_eq_ok.mp h).1
  obtain ⟨ys, -, hys, heq⟩ := exists_lexed_of_scan (checkedTokens_eq_ok.mp hlaid).1
  have hrelaid : relaid xs = ys := by
    rw [placed_map] at heq
    rw [← placed_map {} (relaid xs), heq, placed_map]
  have htext {zs : List Lexeme} (hzs : Lexed sourceStart zs) :
      (layout (placed {} zs)).toList = chars (relaid zs) := by
    rw [toList_layout, placed_map]
    intro t ht
    refine hzs.text_ne_nil t.toLexeme ?_
    rw [← placed_map {} zs]
    exact mem_map_of_mem ht
  refine format_eq_ok.mpr ⟨_, hlaid, ?_⟩
  apply String.toList_injective
  rw [heq, htext hys, htext hxs, ← hrelaid, relaid_relaid]

end Go

/-- A request has a summary exactly if it can be set up. A run generates one file for each file that
the request names, in the order of the request, in canonical layout, and under the names that the
summary gives. Where the names in the heads are clear, the files are in the package that the summary
gives. -/
theorem generate_summarized {σ : Type} (r : Request) (state : σ) :
    ((∃ summary, (ofRequest r >>= Setup.summary) = .ok summary) ↔
      ∃ g : Generator σ, Generator.ofRequest r = .ok g) ∧
    ∀ out, (generateWith [] r state).1 = .ok out →
      (r.requested.Sublist r.files ∧
        (r.requested.map (·.name.getD "")).Perm r.filesToGenerate.dedup) ∧
      out.map (·.name) = r.requested.map (·.goFileName) ∧
      (∀ f ∈ out, format f.content = .ok f.content) ∧
      ∃ summary, (ofRequest r >>= Setup.summary) = .ok summary ∧
        (summary.files.filter (·.generated)).map (·.output) = out.map (·.name) ∧
        ((∀ f ∈ r.requested, f.ClearHead) → ∀ entry ∈ summary.files, entry.generated = true →
          ∀ f ∈ out, packageClause? f.content = some entry.goPackage) := by
  refine ⟨?_, fun out hout => ?_⟩
  · simp only [bind_eq_ok, Generator.ofRequest, pure_eq_ok]
    constructor
    · rintro ⟨summary, s, hs, -⟩
      exact ⟨_, s, hs, rfl⟩
    · rintro ⟨-, s, hs, -⟩
      obtain ⟨summary, hsummary⟩ := exists_summary hs
      exact ⟨summary, s, hs, hsummary⟩
  · simp only [generateWith_nil, steps_eq_ok] at hout
    obtain ⟨s, hs, outs, houts, rfl⟩ := hout
    obtain ⟨summary, hsummary⟩ := exists_summary hs
    have hnames := names_of_binders houts
    have hentries : s.schema.fileIds.mapM s.fileSummary = .ok summary.files := by
      simp only [Setup.summary, steps_eq_ok] at hsummary
      obtain ⟨entries, hentries, rfl⟩ := hsummary
      exact hentries
    refine ⟨⟨lastNamed_sublist, requested_perm hs⟩, ?_, fun f hf => ?_,
      summary, bind_eq_ok.mpr ⟨s, hs, hsummary⟩, ?_, fun hclear entry hentry hgenerated f hf => ?_⟩
    · rw [hnames, ← generated_eq_requested hs, map_map]
      rfl
    · obtain ⟨b, -, -, -, part, imports, hformat⟩ := exists_lines_of_binders houts hf
      obtain ⟨tokens, htokens, heq⟩ := format_eq_ok.mp hformat
      rw [heq]
      exact format_layout htokens
    · rw [hnames, outputs_of_summary hentries]
    · obtain ⟨b, hb, -, hfile, part, imports, hformat⟩ := exists_lines_of_binders houts hf
      rw [(plainHead_of_clearHead hs hclear hb hfile).packageClause? hformat, hb]
      obtain ⟨id, -, hid⟩ := exists_of_mem_mapM hentries hentry
      obtain ⟨hpackage, hsame, -⟩ := fileSummary_eq_ok hid
      obtain ⟨-, -, -, -, hassign, -⟩ := ofRequest_eq_ok hs
      obtain ⟨hsound, -⟩ := assignPackageNames_sound hassign
      have hlisted : id ∈ s.generated := contains_iff_mem.mp (hsame.symm.trans hgenerated)
      rw [(hsound.eq_package_iff hpackage).mpr hlisted]

/-- Names are given twice, and so are files. -/
def repeatedRequest : Request where
  filesToGenerate := ["b.proto", "a.proto", "b.proto"]
  files :=
    [{ name := some "a.proto", package := some "p", messages := [{ name := some "M" }] },
     { name := some "b.proto", package := some "p" },
     { name := some "a.proto", package := some "p", messages := [{ name := some "N" }] }]

theorem generate_summarized_repeated :
    ∃ out, (generateWith [] repeatedRequest ()).1 = .ok out ∧
      out.map (·.name) = ["b.pb.go", "a.pb.go"] ∧
      ∀ f ∈ out, format f.content = .ok f.content ∧ packageClause? f.content = some "p" := by
  obtain ⟨out, hout⟩ := generate_of_checked (r := repeatedRequest) (by decide +kernel)
  obtain ⟨-, hnames, hformat, summary, hsummary, -, hclause⟩ :=
    (generate_summarized repeatedRequest ()).2 out hout
  refine ⟨out, hout, ?_, fun f hf => ⟨hformat f hf, ?_⟩⟩
  · rw [hnames]
    decide +kernel
  · have hentry : ∃ entry ∈ summary.files, entry.generated = true ∧ entry.goPackage = "p" := by
      have hany : (ofRequest repeatedRequest >>= Setup.summary).toOption.any
          (fun summary => summary.files.any fun e => e.generated && e.goPackage = "p") = true := by
        decide +kernel
      rw [hsummary] at hany
      simpa [Except.toOption] using hany
    obtain ⟨entry, hentry, hgenerated, hpackage⟩ := hentry
    have hclear : ∀ f ∈ repeatedRequest.requested, f.ClearHead := by decide +kernel
    rw [hclause hclear entry hentry hgenerated f hf, hpackage]

/-- The name of the file ends the line that it stands on, and opens a literal, which ends where the
name is registered. -/
def escapingRequest : Request where
  filesToGenerate := ["` //\npackage evil\nvar _ = `", "` //\npackage evil\nvar _ = `"]
  files := [{ name := some "` //\npackage evil\nvar _ = `", package := some "real" }]

def escapingBinder : Binder := ⟨setupOf escapingRequest, ⟨0⟩, []⟩

def escapingPart : Part := escapingBinder.declarations.toOption.getD {}

def escapingImports : List Decl :=
  (escapingBinder.importDecls (fun package =>
    decide (package ∈ escapingBinder.bodyUses escapingPart)) escapingPart.indirect).toOption.getD []

/-- The lines of the file before its descriptor. -/
def escapingHead : List Line :=
  (escapingBinder.headerDecls ++ escapingImports).flatMap Decl.lines ++ .blank ::
    ((escapingPart ++ escapingBinder.initPart escapingPart.inits).decls ++
      escapingBinder.embeddedDecls.dropLast).flatMap Decl.lines

def escapingTable : Decl :=
  .table escapingBinder.node.varName false .bytes
    (Embedded.entries escapingBinder.embeddedBytes)

/-- The literal, which holds the imports and the clause. -/
def escapingChars : List Char :=
  "`\n\npackage real\n\nimport (\n".toList ++
    "\tproto \"github.com/golang/protobuf/proto\"\n)\n\n\n".toList ++
    "func init() \x7b proto.RegisterFile(\"`".toList

/-- What the lines before the descriptor are read as. -/
def escapedDecls : List Decl :=
  [.comment " Code generated by protoc-gen-go. DO NOT EDIT.", .comment " source: ` //",
   .package "evil",
   .value .var "_" none (.literal (String.ofList escapingChars))
    (some "\\npackage evil\\nvar _ = `\", fileDescriptor1) \x7d")]

private theorem escapingChars_scan :
    (literal (String.ofList escapingChars)).scansAlone = true := by
  rw [scansAlone_iff]
  refine ⟨rawQuote, escapingChars.drop 1, String.toList_ofList, ?_⟩
  decide +kernel

private theorem spells_escapedDecls : ∃ ss bss, Spells (escapedDecls.flatMap Decl.lines)
    ([.ident "package", .ident "evil"] :: ss) ∧ Forall₂ Go.Declares ss bss ∧
      bss.flatten = [] := by
  have hR : Rules.Proper ⟨IsName, True⟩ := ⟨fun _ h => h, trivial⟩
  have hcomment (text : String) (h : OneLine text) : Spells (Decl.comment text).lines [] :=
    Decl.spells_remark hR h.note rfl
  have hvalid : Decl.Valid ⟨IsName, True⟩ (.value .var "_" none
      (.literal (String.ofList escapingChars))
      (some "\\npackage evil\\nvar _ = `\", fileDescriptor1) \x7d")) :=
    ⟨by decide, by simp, escapingChars_scan, rfl, by simp [Rules.Note]⟩
  obtain ⟨ss, bss, hss, hdeclares, hbinds⟩ := Decl.spells hR hvalid rfl
  refine ⟨ss, bss, ?_, hdeclares, hbinds⟩
  rw [← append_nil ss]
  exact (hcomment _ (by decide)).append ((hcomment _ (by decide)).append
    ((Decl.spells_package (by decide)).append (hss.append .nil)))

private theorem spells_escapingTable : ∃ ss bss, Spells escapingTable.lines ss ∧
    Forall₂ Go.Declares ss bss ∧ bss.flatten.Nodup := by
  have hR : Rules.Proper ⟨IsName, True⟩ := ⟨fun _ h => h, trivial⟩
  have htable := embeddedDecls_valid (b := escapingBinder) (R := ⟨IsName, True⟩)
    (by decide +kernel) escapingTable (by simp [embeddedDecls, escapingTable])
  obtain ⟨ss, bss, hss, hbss, hbinds⟩ := Decl.spells hR htable.1 htable.2
  refine ⟨ss, bss, hss, hbss, ?_⟩
  rw [hbinds]
  decide

private theorem linesText_escapingHead :
    Printer.linesText escapingHead = Printer.linesText (escapedDecls.flatMap Decl.lines) := by
  obtain ⟨ss, -, hspells, -⟩ := spells_escapedDecls
  have hfirst : escapedDecls.flatMap Decl.lines =
      escapingHead.take 1 ++ escapedDecls.tail.flatMap Decl.lines := rfl
  have hvisible : ∀ l ∈ escapedDecls.tail.flatMap Decl.lines, l.Visible := by
    intro l hl
    refine (hspells.proper l ?_).visible
    exact mem_append_right _ hl
  have hrest : Printer.linesText (escapingHead.drop 1) =
      Printer.linesText (escapedDecls.tail.flatMap Decl.lines) := by
    apply String.toList_injective
    rw [Printer.toList_linesText (by decide +kernel), Printer.toList_linesText hvisible]
    generalize hxs : (escapedDecls.tail.flatMap Decl.lines).flatMap Line.full = xs
    have hliteral : xs = xs.take 12 ++ .literal (String.ofList escapingChars) :: xs.drop 13 := by
      rw [← hxs]
      rfl
    have htext : (literal (String.ofList escapingChars)).text.toList = escapingChars :=
      String.toList_ofList
    rw [hliteral, chars_append, chars_cons, htext, ← hxs]
    decide +kernel
  rw [hfirst, Printer.linesText_append, ← hrest, ← Printer.linesText_append, take_append_drop]

private theorem format_escaping : ∃ text, format (Printer.linesText
    (escapingBinder.sourceLines escapingPart escapingImports)) = .ok text ∧
      packageClause? text = some "evil" := by
  have hlines : escapingBinder.sourceLines escapingPart escapingImports =
      escapingHead ++ escapingTable.lines := by
    have htable : escapingBinder.embeddedDecls =
        escapingBinder.embeddedDecls.dropLast ++ [escapingTable] := rfl
    rw [sourceLines, bodyDecls, htable, escapingHead]
    simp only [flatMap_append, flatMap_singleton, append_assoc, cons_append]
  rw [hlines, Printer.linesText_append, linesText_escapingHead, ← Printer.linesText_append]
  obtain ⟨ss, bss, hhead, hss, hnone⟩ := spells_escapedDecls
  obtain ⟨ts, cs, htable, hts, hnodup⟩ := spells_escapingTable
  have hspells : Spells (escapedDecls.flatMap Decl.lines ++ escapingTable.lines)
      ([.ident "package", .ident "evil"] :: ([] ++ (ss ++ ts))) := hhead.append htable
  obtain ⟨text, htext⟩ := (hspells.wellFormed (by simp) (rel_append hss hts)
    (Printer.toList_linesText fun l hl => (hspells.proper l hl).visible)).2.2.mpr (by
      rwa [flatten_append, hnone])
  refine ⟨text, htext, ?_⟩
  have hremarks : ∀ l ∈ [Line.comment 0 " Code generated by protoc-gen-go. DO NOT EDIT.",
      Line.comment 0 " source: ` //"], l.Confined ∧ l.isCode = false := by
    simp only [forall_mem_cons]
    exact ⟨⟨Line.confined_comment (by decide), rfl⟩, ⟨Line.confined_comment (by decide), rfl⟩,
      by simp⟩
  exact packageClause?_of_format (by decide) hremarks htext

/-- A file is not in the package that the summary gives if its name is read as a clause. -/
theorem generate_escaping_clause : ∃ out summary, (generateWith [] escapingRequest ()).1 = .ok out ∧
    (ofRequest escapingRequest >>= Setup.summary) = .ok summary ∧
    ∃ f ∈ out, ∃ entry ∈ summary.files, entry.generated = true ∧ entry.goPackage = "real" ∧
      packageClause? f.content = some "evil" := by
  obtain ⟨text, htext, hclause⟩ := format_escaping
  have hs : ofRequest escapingRequest = .ok (setupOf escapingRequest) :=
    eq_ok_of_isOk default (by decide +kernel)
  have hpart : escapingBinder.declarations = .ok escapingPart :=
    eq_ok_of_isOk {} (by decide +kernel)
  have himports : escapingBinder.importDecls (fun package =>
      decide (package ∈ escapingBinder.bodyUses escapingPart)) escapingPart.indirect =
        .ok escapingImports := eq_ok_of_isOk [] (by decide +kernel)
  have houtput : escapingBinder.output = .ok [⟨escapingBinder.node.goFileName, text⟩] :=
    (output_eq_ok (by decide +kernel)).mpr
      ⟨escapingPart, escapingImports, text, hpart, himports, htext, rfl⟩
  have hbinders : (setupOf escapingRequest).binders [] (setupOf escapingRequest).schema.fileIds =
      [escapingBinder] := by
    have hfiles : (setupOf escapingRequest).schema.fileIds = [⟨0⟩] := by decide +kernel
    rw [hfiles]
    have hdeclarations : (mk (setupOf escapingRequest) ⟨0⟩ []).declarations =
        .ok escapingPart := hpart
    rw [binders, hdeclarations]
    rfl
  obtain ⟨summary, hsummary⟩ := exists_summary hs
  have hentry : ∃ entry ∈ summary.files, entry.generated = true ∧ entry.goPackage = "real" := by
    have hany : (setupOf escapingRequest).summary.toOption.any (fun summary =>
        summary.files.any fun e => e.generated && e.goPackage = "real") = true := by
      decide +kernel
    rw [hsummary] at hany
    simpa [Except.toOption] using hany
  obtain ⟨entry, hentry, hgenerated, hpackage⟩ := hentry
  refine ⟨[⟨escapingBinder.node.goFileName, text⟩], summary, ?_, ?_, _, mem_singleton.mpr rfl,
    entry, hentry, hgenerated, hpackage, hclause⟩
  · rw [generateWith_nil]
    simp only [steps_eq_ok]
    refine ⟨_, hs, [[⟨escapingBinder.node.goFileName, text⟩]], ?_, rfl⟩
    rw [hbinders]
    exact mapM_eq_ok_iff.mpr (.cons houtput .nil)
  · exact bind_eq_ok.mpr ⟨_, hs, hsummary⟩

end GoBindings
