import GoBindings.Proofs.Heads
import GoBindings.Proofs.WellFormed

/-!
# Files

The text of a file, before it is laid out, is a package clause, imports, and declarations.
-/

namespace GoBindings

open List Schema Go Lexeme

section Text

/-- A line that looks empty only if it is. -/
def Go.Line.Visible (l : Line) : Prop := l.text = "" → l.lexemes = []

instance (l : Line) : Decidable l.Visible := inferInstanceAs (Decidable (_ → _))

theorem Go.Line.Proper.visible {l : Line} (h : l.Proper) : l.Visible := by
  intro htext
  have hchars : chars l.lexemes = [] := by
    rw [← toList_spell, ← Line.text, htext]
    rfl
  cases hl : l.lexemes with
  | nil => rfl
  | cons x xs =>
    obtain ⟨c, cs, hc, -⟩ := (h.row.stands x (by simp [hl])).1
    simp [hl, hc] at hchars

private theorem toList_lineText {l : Line} (h : l.Visible) :
    (Printer.lineText l.depth l.text).toList = chars l.full := by
  have hfeed : chars [lineFeed] = ['\n'] := rfl
  rw [Printer.lineText, Line.full, chars_append, chars_append, hfeed]
  by_cases hnil : l.lexemes = []
  · have htext : l.text = "" := by rw [Line.text, hnil]; rfl
    rw [if_pos htext, hnil]
    rfl
  · rw [if_neg (mt h hnil), if_neg hnil, chars_indent, ← toList_spell]
    simp [Text.repeated, Line.text]

namespace Printer

variable {p : Printer}

def linesText (ls : List Line) : String := String.join (ls.map fun l => lineText l.depth l.text)

theorem toList_linesText {ls : List Line} (h : ∀ l ∈ ls, l.Visible) :
    (linesText ls).toList = chars (ls.flatMap Line.full) := by
  rw [linesText, String.toList_join]
  induction ls with
  | nil => rfl
  | cons l ls ih =>
    rw [map_cons, flatMap_cons, flatMap_cons, chars_append,
      toList_lineText (h l (by simp)), ih fun l' hl => h l' (by simp [hl])]

theorem linesText_append (ls ls' : List Line) :
    linesText (ls ++ ls') = linesText ls ++ linesText ls' := by
  simp [linesText]

theorem lines_body (henabled : p.enabled = true) (hdepth : p.depth = 0) (ls : List Line) :
    (p.lines ls).body = p.body ++ linesText ls := by
  simp [lines, henabled, hdepth, linesText]

theorem decls_body (henabled : p.enabled = true) (hdepth : p.depth = 0) (ds : List Decl) :
    (p.decls ds).body = p.body ++ linesText (ds.flatMap Decl.lines) :=
  lines_body henabled hdepth _

/-- Printing changes the text only. -/
theorem decls_eq (p : Printer) (ds : List Decl) : ∃ text, p.decls ds = { p with body := text } := by
  rw [decls, lines]
  split
  · exact ⟨_, rfl⟩
  · exact ⟨p.body, rfl⟩

theorem isUsed_decls (p : Printer) (ds : List Decl) (q : String) :
    (p.decls ds).isUsed q = p.isUsed q := by
  obtain ⟨text, htext⟩ := p.decls_eq ds
  rw [htext]
  rfl

theorem usePackages_eq (p : Printer) (packages : List String) :
    ∃ dict, p.usePackages packages = { p with packages := dict } := by
  induction packages generalizing p with
  | nil => exact ⟨p.packages, rfl⟩
  | cons package packages ih =>
    obtain ⟨dict, hdict⟩ := ih (p.usePackage package)
    exact ⟨dict, hdict⟩

theorem isUsed_usePackage (p : Printer) (package q : String) :
    (p.usePackage package).isUsed q = (decide (q = package) || p.isUsed q) := by
  simp only [isUsed, usePackage, Dict.contains, Dict.get?_insert]
  by_cases h : q = package <;> simp [h]

theorem isUsed_usePackages (p : Printer) (packages : List String) (q : String) :
    (p.usePackages packages).isUsed q = (decide (q ∈ packages) || p.isUsed q) := by
  induction packages generalizing p with
  | nil => simp [usePackages]
  | cons package packages ih =>
    have hstep : p.usePackages (package :: packages) =
        (p.usePackage package).usePackages packages := rfl
    rw [hstep, ih, isUsed_usePackage]
    by_cases h : q = package <;> simp [h]

end Printer

end Text

namespace Binder

variable {b : Binder} {R : Rules} {known : FileId → Prop} {files : List Descriptor.File}
  {given : List String}
variable {part : Part} {source : String} {fits : String → Prop}

/-- All types that a generated file names are declared in known files. -/
structure Linked (b : Binder) (known : FileId → Prop) : Prop extends Forwarding b known where
  fields : ∀ id ∈ b.declaredMessages, ∀ field ∈ (b.schema.message id).proto.fields,
    b.RefersAll known field
  extensions : ∀ x ∈ b.allExtensions, b.RefersExtension known (b.schema.extension x)

private theorem versionPart_sound : b.versionPart.Sound b R known given := by
  rw [versionPart]
  split
  · refine ⟨fun hu => ?_, by simp, by simp⟩
    have hp : R.package b.proto := hu b.proto (by simp)
    simp only [forall_mem_cons]
    refine ⟨⟨OneLine.note (by decide), rfl⟩, ⟨OneLine.note (by decide), rfl⟩,
      ⟨OneLine.note (by decide), rfl⟩, ⟨OneLine.note (by decide), rfl⟩, ?_, ⟨trivial, rfl⟩, by simp⟩
    refine ⟨⟨by decide, by simp, ⟨hp, by decide⟩, rfl, ?_⟩, rfl⟩
    simpa using OneLine.note (by decide)
  · exact .nil

theorem declarations_sound (hs : b.setup.Sound files) (htidy : R.strict → ∀ f ∈ files, f.Tidy)
    (hb : b.Linked known) (hexports : b.exports.Sound b.schema fits)
    (hfits : ∀ q, fits q → R.package q) (h : b.declarations = .ok part) :
    part.Sound b R known given := by
  have howns := hs.schema.owns_file b.file
  refine declarations_induct Part.Sound.additive versionPart_sound (fun id hid part hpart => ?_)
    (fun id hid => ?_) (fun id hid part hpart => ?_) (fun id hid part hpart => ?_) h
  · exact forwardPart_sound hs htidy hb.toForwarding hexports hfits hid hpart
  · exact enumPart_sound hs (howns.enums id hid).1
  · have hmem : id ∈ b.node.messages := (mem_filter.mp hid).1
    refine messagePart_sound hs (howns.messages id hmem).1 htidy (hb.fields id hid)
      (fun x hx => hb.extensions x ?_) hpart
    exact mem_append_left _ (mem_flatMap.mpr ⟨id, hmem, hx⟩)
  · exact extensionPart_sound hs (howns.extensions id hid).1
      (hb.extensions id (mem_append_right _ hid)) hpart

private theorem allExtensions_lt (hs : b.setup.Sound files) {x : ExtensionId}
    (hx : x ∈ b.allExtensions) : x.index < b.schema.extensions.length := by
  have howns := hs.schema.owns_file b.file
  rcases mem_append.mp hx with hx | hx
  · obtain ⟨id, hid, hx⟩ := mem_flatMap.mp hx
    exact ((hs.schema.message_sound (howns.messages id hid).1).extensions x hx).1
  · exact (howns.extensions x hx).1

/-- The statements that register what a file declares. -/
def registrations (b : Binder) : List Simple :=
  (b.node.enums.map fun id => b.registerEnum (b.schema.enum id)) ++
    b.allExtensions.map fun id => b.registerExtension (b.schema.extension id)

private theorem registrations_valid (hs : b.setup.Sound files) (hp : R.package b.proto) :
    ∀ s ∈ b.registrations, s.Valid R := by
  have howns := hs.schema.owns_file b.file
  simp only [registrations, forall_mem_append, forall_mem_map]
  exact ⟨fun id hid => registerEnum_valid (hs.schema.enum_sound (howns.enums id hid).1) hp,
    fun id hid => registerExtension_valid (hs.schema.extension_name (allExtensions_lt hs hid)) hp⟩

theorem initPart_eq (inits : List Simple) : b.initPart inits =
    { decls := if (inits ++ b.registrations).isEmpty then []
        else [.func { name := "init", body := .block ((inits ++ b.registrations).map .simple) }]
      uses := if b.registrations.isEmpty then [] else [b.proto] } := rfl

theorem initPart_sound (hs : b.setup.Sound files) (h : part.Sound b R known part.uses) :
    (part ++ b.initPart part.inits).Sound b R known given := by
  rw [initPart_eq]
  refine Part.Sound.of_uses (h.append ⟨fun hu => ?_, by simp, ?_⟩) (by simp)
  · simp only [forall_mem_append, forall_mem_ite, forall_mem_singleton] at hu ⊢
    obtain ⟨huses, -, hproto⟩ := hu
    refine ⟨by simp, fun _ => Decl.inBody_func.mpr ?_⟩
    have hstmts : Stmt.ValidAll R ((part.inits ++ b.registrations).map Stmt.simple) := by
      rw [Stmt.validAll_iff, forall_mem_map, forall_mem_append]
      refine ⟨h.inits (forall_mem_append.mpr ⟨huses, huses⟩), fun s hmem => ?_⟩
      exact registrations_valid hs (hproto (by simpa using ne_nil_of_mem hmem)) s hmem
    exact ⟨by simp, (by decide : IsName "init"), by simp, trivial, hstmts⟩
  · simp

private theorem isNumber_byteText (byte : UInt8) : IsNumber (Embedded.byteText byte) := by
  have hdigit : ∀ n < 16, isNumberRest (Nat.digitChar n) = true := by decide
  have hlt := byte.toNat_lt
  refine isNumber_ofList (by decide) ?_
  simp only [forall_mem_cons]
  exact ⟨by decide, hdigit _ (by omega), hdigit _ (Nat.mod_lt _ (by decide)), by simp⟩

theorem embeddedTable_valid (bytes : List UInt8) :
    (Decl.table b.node.varName false .bytes (Embedded.entries bytes)).InBody R := by
  have hentries : ∀ e ∈ Embedded.entries bytes, e.Valid R := by
    simp only [Embedded.entries, forall_mem_cons, forall_mem_map]
    refine ⟨OneLine.note (by simp +decide), fun row _ => ?_⟩
    show Expr.ValidAll R _
    rw [Expr.validAll_iff, forall_mem_map]
    exact fun byte _ => isNumber_byteText byte
  exact ⟨⟨isName_fileDescriptor _, by simp +decide, hentries⟩, rfl⟩

theorem embeddedDecls_valid (hp : R.package b.proto) : ∀ d ∈ b.embeddedDecls, d.InBody R := by
  simp only [embeddedDecls, forall_mem_cons]
  exact ⟨⟨trivial, rfl⟩, by simp +decide [hp], embeddedTable_valid _, by simp⟩

section Sources

variable {ds : List Decl}

private theorem spells_remarks (hR : R.Proper) (h : ∀ d ∈ ds, d.Valid R ∧ d.isRemark = true) :
    Spells (ds.flatMap Decl.lines) [] := by
  induction ds with
  | nil => exact .nil
  | cons d ds ih =>
    rw [forall_mem_cons] at h
    exact (Decl.spells_remark hR h.1.1 h.1.2).append (ih h.2)

private theorem spells_decls (hR : R.Proper) (h : ∀ d ∈ ds, d.InBody R) :
    ∃ ss bss, Spells (ds.flatMap Decl.lines) ss ∧ List.Forall₂ Go.Declares ss bss ∧
      bss.flatten = ds.flatMap Decl.bindings := by
  induction ds with
  | nil => exact ⟨[], [], .nil, .nil, rfl⟩
  | cons d ds ih =>
    rw [forall_mem_cons] at h
    obtain ⟨ss, bss, hss, hdeclares, hbss⟩ := Decl.spells hR h.1.1 h.1.2
    obtain ⟨rest, others, hrest, hothers, hbinds⟩ := ih h.2
    refine ⟨ss ++ rest, bss ++ others, hss.append hrest, rel_append hdeclares hothers, ?_⟩
    rw [flatten_append, hbss, hbinds, flatMap_cons]

private theorem spells_blank : Spells [Line.blank] [] := by
  have hR : Rules.Proper ⟨IsName, True⟩ := ⟨fun _ h => h, trivial⟩
  exact Decl.spells_remark (d := .blank) hR trivial rfl

private theorem spells_head (hR : R.Proper) (hs : b.setup.Sound files)
    (htidy : ∀ f ∈ files, f.Tidy) (hnames : ∀ n ∈ b.setup.packages.inUse, IsName n)
    {isUsed : String → Bool} {indirect : List FileId} {imports : List Decl}
    (h : b.importDecls isUsed indirect = .ok imports) :
    ∃ is, Spells ((b.headerDecls ++ imports).flatMap Decl.lines)
      ([.ident "package", .ident b.setup.packageName] :: is) ∧ ∀ s ∈ is, ImportsGroup s := by
  have hpackage := hnames _ (inUse_packageName hs)
  obtain ⟨remarks, hheader, hremarks⟩ := (plainHead hs htidy).headerDecls_eq
  have hclause : Spells (b.headerDecls.flatMap Decl.lines)
      [[.ident "package", .ident b.setup.packageName]] := by
    rw [hheader, flatMap_append]
    exact (spells_remarks hR hremarks).append ((Decl.spells_package hpackage).append spells_blank)
  rw [flatMap_append]
  rcases importDecls_valid hs hnames h with rfl | ⟨entries, rfl, hentries⟩
  · exact ⟨[], hclause.append .nil, by simp⟩
  · obtain ⟨s, hspells, hgroup⟩ := Decl.spells_imports hR hentries
    exact ⟨[s], hclause.append (by simpa using hspells), by simpa using hgroup⟩

end Sources

/-- The text of a file before it is laid out. -/
def assembled (b : Binder) : Except Error String := do
  let part ← b.declarations
  b.source (((b.bodyPrinter part).usePackage b.proto).decls b.embeddedDecls) { enabled := true }
    part.indirect

def bodyDecls (b : Binder) (part : Part) : List Decl :=
  (part ++ b.initPart part.inits).decls ++ b.embeddedDecls

def bodyUses (b : Binder) (part : Part) : List String :=
  b.proto :: (part ++ b.initPart part.inits).uses

def sourceLines (b : Binder) (part : Part) (imports : List Decl) : List Line :=
  (b.headerDecls ++ imports).flatMap Decl.lines ++
    .blank :: (b.bodyDecls part).flatMap Decl.lines

section Printed

variable {part : Part}

theorem bodyPrinter_body (part : Part) (hgenerated : b.setup.isGenerated b.file = true) :
    (b.bodyPrinter part).enabled = true ∧ (b.bodyPrinter part).depth = 0 ∧
      (b.bodyPrinter part).body =
        Printer.linesText ((part ++ b.initPart part.inits).decls.flatMap Decl.lines) := by
  obtain ⟨dict, hdict⟩ := Printer.usePackages_eq { enabled := true }
    (part ++ b.initPart part.inits).uses
  obtain ⟨text, htext⟩ := Printer.decls_eq { enabled := true, packages := dict }
    (part ++ b.initPart part.inits).decls
  have hprinter : b.bodyPrinter part =
      { enabled := true, body := text, packages := dict } := by
    rw [bodyPrinter, hgenerated, hdict, htext]
  have hdecls := Printer.decls_body (p := { enabled := true, packages := dict }) rfl rfl
    (part ++ b.initPart part.inits).decls
  rw [htext] at hdecls
  rw [hprinter]
  exact ⟨rfl, rfl, by simpa using hdecls⟩

private theorem printed_body (hgenerated : b.setup.isGenerated b.file = true) :
    (((b.bodyPrinter part).usePackage b.proto).decls b.embeddedDecls).body =
      Printer.linesText ((b.bodyDecls part).flatMap Decl.lines) := by
  obtain ⟨henabled, hdepth, hbody⟩ := bodyPrinter_body part hgenerated
  have hprinted := Printer.decls_body (p := (b.bodyPrinter part).usePackage b.proto) henabled hdepth
    b.embeddedDecls
  rw [hprinted, bodyDecls, flatMap_append, Printer.linesText_append, ← hbody]
  rfl

private theorem printed_isUsed (q : String) :
    (((b.bodyPrinter part).usePackage b.proto).decls b.embeddedDecls).isUsed q =
      decide (q ∈ b.bodyUses part) := by
  have hnone (enabled : Bool) : Printer.isUsed { enabled := enabled } q = false := rfl
  rw [Printer.isUsed_decls, Printer.isUsed_usePackage, bodyPrinter, Printer.isUsed_decls,
    Printer.isUsed_usePackages, hnone]
  simp [bodyUses]

private theorem linesText_sourceLines (imports : List Decl) :
    Printer.linesText (b.sourceLines part imports) =
      Printer.linesText ((b.headerDecls ++ imports).flatMap Decl.lines) ++ "\n" ++
        Printer.linesText ((b.bodyDecls part).flatMap Decl.lines) := by
  have hblank : Printer.linesText [Line.blank] = "\n" := by decide
  rw [sourceLines, Printer.linesText_append, ← singleton_append, Printer.linesText_append,
    hblank, String.append_assoc]

theorem assembled_eq_ok (hgenerated : b.setup.isGenerated b.file = true) :
    b.assembled = .ok source ↔ ∃ part imports, b.declarations = .ok part ∧
      b.importDecls (fun package => decide (package ∈ b.bodyUses part)) part.indirect =
        .ok imports ∧
      Printer.linesText (b.sourceLines part imports) = source := by
  have hextra (q : String) : Printer.isUsed { enabled := true } q = false := rfl
  have hhead (ds : List Decl) : (Printer.decls { enabled := true } ds).body =
      Printer.linesText (ds.flatMap Decl.lines) := by
    rw [Printer.decls_body rfl rfl, String.empty_append]
  simp only [assembled, Binder.source, steps_eq_ok, printed_isUsed, hextra,
    Bool.or_false, hhead, printed_body hgenerated, String.append_empty, linesText_sourceLines,
    exists_and_left]

end Printed

section Assembled

/-- All that stands after the imports is valid where the packages in use may be named. -/
theorem bodyDecls_valid (hs : b.setup.Sound files) (hnames : ∀ n ∈ b.setup.packages.inUse, fits n)
    (htidy : ∀ f ∈ files, f.Tidy) (hexports : b.exports.Sound b.schema fits)
    (hgenerated : b.setup.isGenerated b.file = true) (h : b.declarations = .ok part) :
    ∀ d ∈ b.bodyDecls part, d.InBody ⟨fits, True⟩ := by
  have hsupport : ∀ x ∈ [b.proto, b.fmt, b.math], fits x := by
    have hname {key : String} (h : key ∈ supportPackages) := hnames _ (inUse_supportName hs h)
    simp only [forall_mem_cons]
    exact ⟨hname (by decide), hname (by decide), hname (by decide), by simp⟩
  have hlinked : b.Linked fun _ => True := by
    refine ⟨⟨hgenerated, ?_⟩, ?_, ?_⟩ <;> simp [RefersAll, RefersExtension, Refers]
  have hsound : (part ++ b.initPart part.inits).Sound b ⟨fits, True⟩ (fun _ => True) [] :=
    initPart_sound hs (declarations_sound hs (fun _ => htidy) hlinked hexports (fun _ h => h) h)
  rw [bodyDecls, forall_mem_append]
  refine ⟨hsound.decls fun x hx => ?_, embeddedDecls_valid (hsupport b.proto (by simp))⟩
  rcases hsound.uses x (by simpa using hx) with hx | ⟨file, ⟨hfile, -⟩, -⟩
  · exact hsupport x hx
  · exact hnames _ (inUse_of hs hfile)

/-- The text of every generated file is well-formed. It is refused only if something is bound twice
in it, and it is laid out exactly if nothing is. -/
theorem assembled_wellFormed (hs : b.setup.Sound files)
    (hnames : ∀ n ∈ b.setup.packages.inUse, IsName n) (htidy : ∀ f ∈ files, f.Tidy)
    (hexports : b.exports.Sound b.schema IsName) (hgenerated : b.setup.isGenerated b.file = true)
    (h : b.assembled = .ok source) :
    (∃ tokens clause imports decls, WellFormed source tokens clause imports decls) ∧
      (∀ bad, format source = .error bad → bad.fault.IsRedeclaration) ∧
      ∀ part, b.declarations = .ok part →
        ((∃ text, format source = .ok text) ↔
          ((b.bodyDecls part).flatMap Decl.bindings).Nodup) := by
  have hR : Rules.Proper ⟨IsName, True⟩ := ⟨fun _ h => h, trivial⟩
  obtain ⟨part, imports, hpart, himports, rfl⟩ := (assembled_eq_ok hgenerated).mp h
  obtain ⟨is, hhead, his⟩ := spells_head hR hs htidy hnames himports
  obtain ⟨ds, bss, hbody, hds, hbss⟩ :=
    spells_decls hR (bodyDecls_valid hs hnames htidy hexports hgenerated hpart)
  have hspells := hhead.append (spells_blank.append hbody)
  have htext := Printer.toList_linesText fun l hl => (hspells.proper l hl).visible
  obtain ⟨hwellFormed, hrefused, haccepted⟩ := hspells.wellFormed his hds htext
  refine ⟨hwellFormed, hrefused, fun part' hpart' => ?_⟩
  cases hpart.symm.trans hpart'
  rwa [hbss] at haccepted

end Assembled

end Binder

end GoBindings
