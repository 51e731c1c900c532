import GoBindings.Proofs.Echoes
import GoBindings.Proofs.Enlarging
import GoBindings.Proofs.Symbols

/-!
# Running a generator again

A generator keeps what its files export from run to run. A second run gives the files of the first
one exactly if no generated file passes on a symbol of a file that is not generated. The dots in the
texts tell the runs apart: all that is passed on once more is qualified.
-/

namespace GoBindings

open List Schema Go Descriptor Lexeme Setup Binder Generator

variable {out : List GeneratedFile}

section Dots

/-- How many dots there are in the text of lines. -/
def Go.Line.dots (ls : List Line) : Nat := (Printer.linesText ls).toList.count '.'

def Go.Decl.dots (ds : List Decl) : Nat := Line.dots (ds.flatMap Decl.lines)

@[simp] theorem Go.Line.dots_append (ls ls' : List Line) :
    Line.dots (ls ++ ls') = Line.dots ls + Line.dots ls' := by
  simp [Line.dots, Printer.linesText_append]

theorem Go.Line.dots_cons (l : Line) (ls : List Line) :
    Line.dots (l :: ls) = Line.dots [l] + Line.dots ls := Line.dots_append [l] ls

@[simp] theorem Go.Decl.dots_append (ds ds' : List Decl) :
    Decl.dots (ds ++ ds') = Decl.dots ds + Decl.dots ds' := by
  simp [Decl.dots]

theorem Go.Line.dots_singleton (l : Line) : Line.dots [l] = (chars l.lexemes).count '.' := by
  have htext : l.text.toList = chars l.lexemes := toList_spell _
  simp only [Line.dots, Printer.linesText, map_singleton, Printer.lineText, ← htext]
  by_cases hempty : l.text = ""
  · simp [hempty]
  · simp [hempty, Text.repeated, count_replicate]

theorem Go.Line.dots_pos {l : Line} {ls : List Line} (hl : l ∈ ls)
    (hdot : punct "." ∈ l.lexemes) : 0 < Line.dots ls := by
  obtain ⟨before, after, rfl⟩ := append_of_mem hl
  have hpos : 0 < Line.dots [l] := by
    rw [Line.dots_singleton, count_pos_iff]
    exact mem_flatMap.mpr ⟨_, hdot, by decide⟩
  rw [Line.dots_append, Line.dots_cons]
  omega

end Dots

section Gains

/-- A part that says what another one says, and more. -/
structure Part.Gains (p q : Part) : Prop where
  dots : Decl.dots p.decls ≤ Decl.dots q.decls
  uses : p.uses ⊆ q.uses
  inits : q.inits = p.inits
  exports : q.exports = p.exports
  indirect : p.indirect ⊆ q.indirect

namespace Part

variable {p p' q q' : Part}

theorem Gains.refl (p : Part) : p.Gains p :=
  ⟨le_rfl, Subset.refl _, rfl, rfl, Subset.refl _⟩

theorem Gains.append (hp : p.Gains p') (hq : q.Gains q') : (p ++ q).Gains (p' ++ q') := by
  constructor
  · simp only [decls_append, Decl.dots_append]
    exact Nat.add_le_add hp.dots hq.dots
  · exact append_subset.mpr ⟨subset_append_of_subset_left _ hp.uses,
      subset_append_of_subset_right _ hq.uses⟩
  · simp only [inits_append, hp.inits, hq.inits]
  · simp only [exports_append, hp.exports, hq.exports]
  · exact append_subset.mpr ⟨subset_append_of_subset_left _ hp.indirect,
      subset_append_of_subset_right _ hq.indirect⟩

theorem Gains.before (p : Part) (hq : Passive q) : p.Gains (q ++ p) := by
  constructor
  · simp
  · exact subset_append_right _ _
  · rw [inits_append, hq.inits, nil_append]
  · rw [exports_append, hq.exports, nil_append]
  · exact subset_append_right _ _

theorem append_assoc (p q r : Part) : p ++ q ++ r = p ++ (q ++ r) :=
  (Part.mk.injEq ..).mpr ⟨List.append_assoc .., List.append_assoc .., List.append_assoc ..,
    List.append_assoc .., List.append_assoc ..⟩

theorem concat_append (ps qs : List Part) : concat (ps ++ qs) = concat ps ++ concat qs := by
  induction ps with
  | nil => rfl
  | cons p ps ih => rw [cons_append, concat, ih, concat, append_assoc]

/-- Parts made one by one from the same things: all of them together gain, and if there are no more
dots then there are none in any of them. -/
theorem gains_concat {α : Type} {f g : α → Except Error Part} {xs : List α} {ps qs : List Part}
    (hps : xs.mapM f = .ok ps) (hqs : xs.mapM g = .ok qs)
    (h : ∀ x ∈ xs, ∀ p q, f x = .ok p → g x = .ok q → p.Gains q) :
    (concat ps).Gains (concat qs) ∧
      (Decl.dots (concat qs).decls = Decl.dots (concat ps).decls →
        ∀ x ∈ xs, ∀ p q, f x = .ok p → g x = .ok q → Decl.dots q.decls = Decl.dots p.decls) := by
  induction xs generalizing ps qs with
  | nil =>
    cases hps
    cases hqs
    exact ⟨.refl _, by simp⟩
  | cons x xs ih =>
    simp only [mapM_cons, steps_eq_ok] at hps hqs
    obtain ⟨p, hp, ps, hps, rfl⟩ := hps
    obtain ⟨q, hq, qs, hqs, rfl⟩ := hqs
    rw [forall_mem_cons] at h
    have hfirst := h.1 p q hp hq
    obtain ⟨hrest, hsame⟩ := ih hps hqs h.2
    refine ⟨hfirst.append hrest, fun hdots => ?_⟩
    simp only [concat, decls_append, Decl.dots_append] at hdots
    have hle := hfirst.dots
    have hle' := hrest.dots
    rw [forall_mem_cons]
    refine ⟨fun p' q' hp' hq' => ?_, hsame (by omega)⟩
    cases hp.symm.trans hp'
    cases hq.symm.trans hq'
    omega

end Part

end Gains

/-- The file in a run that begins with what earlier runs have recorded. -/
def Binder.after (b : Binder) (earlier : Exports) : Binder :=
  { b with exports := earlier ++ b.exports }

theorem Exports.of_append (exports new : Exports) (object : Object) :
    Exports.of (exports ++ new) object = exports.of object ++ new.of object := by
  simp [Exports.of]

namespace Binder

variable {part : Part} {id : ReexportId}

section Own

variable (b : Binder) (earlier : Exports)

theorem constantEntries_after (node : EnumNode) (type : String) (i : Nat)
    (values : List EnumValue) :
    (b.after earlier).constantEntries node type i values =
      b.constantEntries node type i values := by
  induction values generalizing i with
  | nil => rfl
  | cons v values ih =>
    rw [constantEntries, ih]
    rfl

theorem fieldMembers_after (m : MessageNode) (plan : MessagePlan) (seen : List Nat) (i : Nat)
    (fields : List FieldPlan) :
    (b.after earlier).fieldMembers m plan seen i fields = b.fieldMembers m plan seen i fields := by
  induction fields generalizing seen i with
  | nil => rfl
  | cons p fields ih =>
    simp only [fieldMembers, ih]
    rfl

theorem enumPart_after (id : EnumId) : (b.after earlier).enumPart id = b.enumPart id := by
  have hdecls (node : EnumNode) : (b.after earlier).enumDecls node = b.enumDecls node := by
    rw [enumDecls, constantEntries_after]
    rfl
  rw [enumPart, hdecls]
  rfl

theorem messagePart_after (id : MessageId) :
    (b.after earlier).messagePart id = b.messagePart id := by
  have hstruct : (b.after earlier).structDecl = b.structDecl := by
    funext m type plan
    rw [structDecl, fieldMembers_after]
    rfl
  rw [messagePart, hstruct]
  rfl

/-- Only what a file passes on depends on earlier runs. -/
theorem declarations_eq_after : (b.after earlier).declarations = do
    let forwards ← b.node.reexports.mapM (b.after earlier).forwardPart
    let messages ← b.declaredMessages.mapM b.messagePart
    let extensions ← b.node.extensions.mapM b.extensionPart
    return b.versionPart ++ Part.concat forwards ++ Part.concat (b.node.enums.map b.enumPart) ++
      Part.concat messages ++ Part.concat extensions := by
  simp only [declarations, funext (b.enumPart_after earlier),
    funext (b.messagePart_after earlier)]
  rfl

theorem forwardPart_after_eq
    (h : b.setup.isGenerated (b.schema.fileOf (b.schema.reexport id).target) = true ∨
      earlier.of (b.schema.reexport id).target = []) :
    (b.after earlier).forwardPart id = b.forwardPart id := by
  have hschema : (b.after earlier).schema = b.schema := rfl
  have hsetup : (b.after earlier).setup = b.setup := rfl
  have hexports : (b.after earlier).exports = earlier ++ b.exports := rfl
  have hsymbol : (b.after earlier).symbolForward = b.symbolForward := rfl
  simp only [forwardPart, hschema, hsetup, hexports, hsymbol, Exports.of_append]
  rcases h with hgenerated | hnone
  · rw [if_pos hgenerated, if_pos hgenerated]
  · rw [hnone, nil_append]

end Own

variable {b : Binder} {earlier : Exports}

section Forwards

variable {x : Symbol}

theorem symbolForward_dots {package : String} (h : b.symbolForward package x = .ok part) :
    0 < Decl.dots part.decls := by
  cases x with
  | message m =>
    simp only [symbolForward, messageForward, steps_eq_ok] at h
    obtain ⟨getters, -, rfl⟩ := h
    refine Line.dots_pos (mem_flatMap.mpr
      ⟨.typeDef m.name (.qualified package m.name), by simp, mem_singleton_self _⟩) ?_
    simp [TypeExpr.lexemes]
  | enum name proto3 =>
    cases h
    refine Line.dots_pos (mem_flatMap.mpr
      ⟨.typeDef name (.qualified package name), by simp [enumForward],
        mem_singleton_self _⟩) ?_
    simp [TypeExpr.lexemes]
  | value sort name cast =>
    cases h
    refine Line.dots_pos (mem_flatMap.mpr
      ⟨_, mem_singleton_self _, mem_singleton_self _⟩) ?_
    cases cast <;> simp [Expr.lexemes, Expr.listLexemes]

variable (h : b.setup.Whole) (hfile : b.file.index < b.schema.files.length)

include h hfile

theorem exists_localName {target : Object} (ho : b.schema.hasObject target = true) :
    ∃ name, b.localName target = .ok name := by
  have hname {object : Object} (ho : b.schema.hasObject object = true) :
      ∃ name, b.setup.goName object = .ok name := by
    obtain ⟨package, hpackage⟩ := h.named _ (h.closed.fileOf_lt ho)
    rw [goName, hpackage]
    exact ⟨_, rfl⟩
  cases hown : b.schema.reexportIn? target b.file with
  | some own =>
    obtain ⟨name, hname⟩ := hname (h.closed.hasObject_reexportIn? hfile hown)
    exact ⟨(name, {}), by simp [localName, hown, hname]⟩
  | none =>
    by_cases hdirect : b.schema.isDirect (b.schema.fileOf target) b.file = true
    · obtain ⟨name, hname⟩ := hname ho
      exact ⟨(name, { uses := name.packages }), by
        simp [localName, hown, hdirect, hname]⟩
    · cases hfound : b.schema.reexportOf? target b.file with
      | some found =>
        obtain ⟨name, hname⟩ := hname (h.closed.hasObject_reexportOf? hfile hfound)
        exact ⟨(name, { uses := name.packages }), by
          simp [localName, hown, hdirect, hfound, hname]⟩
      | none =>
        obtain ⟨name, hname⟩ := hname ho
        exact ⟨(name, { uses := name.packages, indirect := [b.schema.fileOf target] }), by
          simp [localName, hown, hdirect, hfound, hname]⟩

theorem exists_getterForward (type : String) (remote : TypeExpr) {g : GetterSymbol}
    (hg : ∀ target ∈ g.shape.targets, b.schema.hasObject target = true) :
    ∃ part, b.getterForward type remote g = .ok part := by
  unfold getterForward
  cases hshape : g.shape with
  | plain t => exact ⟨_, rfl⟩
  | named target pointer repeated | map key target pointer =>
    obtain ⟨name, hname⟩ := exists_localName h hfile (hg target (by simp [hshape,
      GetterShape.targets]))
    simp only [hname]
    exact ⟨_, rfl⟩

theorem exists_symbolForward (package : String)
    (hx : ∀ target ∈ x.targets, b.schema.hasObject target = true) :
    ∃ part, b.symbolForward package x = .ok part := by
  cases x with
  | message m =>
    obtain ⟨getters, hgetters⟩ := exists_mapM fun g hg =>
      exists_getterForward h hfile m.name (.qualified package m.name) fun target htarget =>
        hx target (mem_flatMap.mpr ⟨g, hg, htarget⟩)
    rw [symbolForward, messageForward, hgetters]
    exact ⟨_, rfl⟩
  | enum name proto3 | value sort name cast => exact ⟨_, rfl⟩

/-- What earlier runs have recorded for an object is passed on before what this run has. -/
theorem forwardPart_after (hearlier : earlier.Closed b.schema) (hp : b.forwardPart id = .ok part) :
    ∃ part', (b.after earlier).forwardPart id = .ok part' ∧ part.Gains part' ∧
      (Decl.dots part'.decls = Decl.dots part.decls →
        b.setup.isGenerated (b.schema.fileOf (b.schema.reexport id).target) = true ∨
          earlier.of (b.schema.reexport id).target = []) := by
  have hschema : (b.after earlier).schema = b.schema := rfl
  have hsetup : (b.after earlier).setup = b.setup := rfl
  have hexports : (b.after earlier).exports = earlier ++ b.exports := rfl
  have hsymbol : (b.after earlier).symbolForward = b.symbolForward := rfl
  simp only [forwardPart, hschema, hsetup, hexports, hsymbol, Exports.of_append] at hp ⊢
  split at hp
  · rename_i hgenerated
    rw [if_pos hgenerated]
    exact ⟨part, hp, .refl _, fun _ => .inl hgenerated⟩
  · rename_i hgenerated
    simp only [steps_eq_ok] at hp
    obtain ⟨package, hpackage, symbols, hsymbols, rfl⟩ := hp
    obtain ⟨more, hmore⟩ : ∃ more, (earlier.of (b.schema.reexport id).target).mapM
        (b.symbolForward package) = .ok more := by
      refine exists_mapM fun x hx => ?_
      obtain ⟨e, he, rfl⟩ := mem_map.mp hx
      exact exists_symbolForward h hfile package (hearlier e (mem_of_mem_filter he))
    have hpassive : Passive (Part.concat more) :=
      Passive.additive.concat_mapM hmore fun x _ part hx => symbolForward_passive hx
    simp only [if_neg hgenerated, steps_eq_ok, mapM_append]
    refine ⟨_, ⟨package, hpackage, more ++ symbols, ⟨more, hmore, symbols, hsymbols, rfl⟩, rfl⟩, ?_,
      ?_⟩
    · rw [Part.concat_append]
      exact ((Part.Gains.refl _).append (.before _ hpassive)).append (.refl _)
    · intro hdots
      right
      cases hsame : earlier.of (b.schema.reexport id).target with
      | nil => rfl
      | cons x xs =>
        rw [hsame, mapM_cons] at hmore
        simp only [steps_eq_ok] at hmore
        obtain ⟨first, hfirst, rest, -, rfl⟩ := hmore
        have hpos := symbolForward_dots hfirst
        simp only [Part.concat_append, Part.concat, Part.decls_append, Decl.dots_append] at hdots
        omega

end Forwards

section Imports

def importDots (entries : List ImportEntry) : Nat := Line.dots (entries.map ImportEntry.line)

theorem importDots_append (es es' : List ImportEntry) :
    importDots (es ++ es') = importDots es + importDots es' := by
  simp [importDots]

theorem importDots_flatten {ls ls' : List (List ImportEntry)}
    (h : Forall₂ (fun es es' => importDots es ≤ importDots es') ls ls') :
    importDots ls.flatten ≤ importDots ls'.flatten := by
  induction h with
  | nil => exact le_rfl
  | cons hes _ ih =>
    rw [flatten_cons, flatten_cons, importDots_append, importDots_append]
    exact Nat.add_le_add hes ih

theorem importDots_sublist {ls ls' : List (List ImportEntry)} (h : ls.Sublist ls') :
    importDots ls.flatten ≤ importDots ls'.flatten := by
  induction h with
  | slnil => exact le_rfl
  | cons es _ ih =>
    rw [flatten_cons, importDots_append]
    exact Nat.le_add_left_of_le ih
  | cons_cons es _ ih =>
    rw [flatten_cons, flatten_cons, importDots_append, importDots_append]
    exact Nat.add_le_add_left ih _

variable {isUsed isUsed' : String → Bool} {indirect indirect' : List FileId}

theorem supportImports_dots (hused : ∀ q, isUsed q = true → isUsed' q = true) :
    importDots (b.supportImports isUsed) ≤ importDots (b.supportImports isUsed') := by
  have hflatten (f : String → Option ImportEntry) :
      supportPackages.filterMap f = (supportPackages.map fun name => (f name).toList).flatten := by
    rw [filterMap_eq_flatMap_toList, flatMap_def]
  rw [supportImports, supportImports, hflatten, hflatten]
  apply importDots_flatten
  rw [forall₂_map_left_iff, forall₂_map_right_iff, forall₂_same]
  intro name _
  by_cases h : isUsed (b.setup.packages.supportName name) = true
  · simp only [h, hused _ h, le_refl]
  · simp [h, importDots, Line.dots, Printer.linesText]

theorem dependencyImports_dots (hused : ∀ q, isUsed q = true → isUsed' q = true)
    {es es' : List ImportEntry} (h : b.dependencyImports isUsed = .ok es)
    (h' : b.dependencyImports isUsed' = .ok es') : importDots es ≤ importDots es' := by
  simp only [dependencyImports, steps_eq_ok] at h h'
  obtain ⟨ls, hls, rfl⟩ := h
  obtain ⟨ls', hls', rfl⟩ := h'
  refine importDots_flatten (mapM_related (R := (· = ·)) (forall₂_refl _) hls hls' ?_)
  rintro ⟨⟨name, id⟩, i⟩ - es es' rfl hes hes'
  simp only [dependencyImport, steps_eq_ok] at hes hes'
  obtain ⟨package, hpackage, rfl⟩ := hes
  obtain ⟨package', hpackage', rfl⟩ := hes'
  cases hpackage.symm.trans hpackage'
  split
  · exact le_rfl
  · split
    · exact le_rfl
    · by_cases hname : isUsed package = true
      · rw [if_pos hname, if_pos (hused _ hname)]
      · rw [if_neg hname]
        have hblank : (ident "_").text.toList.count '.' = 0 := by decide
        simp only [importDots, map_singleton, Line.dots_singleton, ImportEntry.line,
          chars_cons, count_append]
        omega

theorem indirectImports_dots (hindirect : indirect ⊆ indirect') {es es' : List ImportEntry}
    (h : b.indirectImports indirect = .ok es) (h' : b.indirectImports indirect' = .ok es') :
    importDots es ≤ importDots es' := by
  simp only [indirectImports, steps_eq_ok] at h h'
  obtain ⟨ls, hls, rfl⟩ := h
  obtain ⟨ls', hls', rfl⟩ := h'
  have hfiles : (b.schema.fileIds.filter indirect.contains).Sublist
      (b.schema.fileIds.filter indirect'.contains) := by
    apply monotone_filter_right
    intro file hfile
    rw [contains_iff_mem] at hfile ⊢
    exact hindirect hfile
  exact importDots_sublist (mapM_sublist hfiles hls hls')

theorem importDecls_dots (hused : ∀ q, isUsed q = true → isUsed' q = true)
    (hindirect : indirect ⊆ indirect') {ds ds' : List Decl}
    (h : b.importDecls isUsed indirect = .ok ds) (h' : b.importDecls isUsed' indirect' = .ok ds') :
    Decl.dots ds ≤ Decl.dots ds' := by
  have hdots (es : List ImportEntry) :
      Decl.dots (if es.isEmpty then [] else [.imports es]) = importDots es := by
    cases es with
    | nil => rfl
    | cons e es =>
      have hopen : Line.dots [⟨0, [.ident "import", .blank, .punct "("]⟩] = 0 := by decide
      have hclose : Line.dots [⟨0, [.punct ")"]⟩] = 0 := by decide
      simp only [isEmpty_cons, Bool.false_eq_true, if_false, Decl.dots, flatMap_singleton,
        Decl.lines, importDots]
      rw [Line.dots_append, Line.dots_cons]
      omega
  simp only [importDecls, steps_eq_ok] at h h'
  obtain ⟨es, hes, others, hothers, rfl⟩ := h
  obtain ⟨es', hes', others', hothers', rfl⟩ := h'
  rw [hdots, hdots]
  simp only [importDots_append]
  exact Nat.add_le_add (Nat.add_le_add (supportImports_dots hused)
    (dependencyImports_dots hused hes hes')) (indirectImports_dots hindirect hothers hothers')

end Imports

theorem dots_sourceLines (part : Part) (imports : List Decl) :
    Line.dots (b.sourceLines part imports) =
      Decl.dots b.headerDecls + Decl.dots imports + Decl.dots (b.bodyDecls part) := by
  have hblank : Line.dots [Line.blank] = 0 := by decide
  rw [sourceLines, Line.dots_append, Line.dots_cons, hblank, flatMap_append, Line.dots_append,
    Nat.zero_add]
  rfl

section Files

variable (h : b.setup.Whole) (hfile : b.file.index < b.schema.files.length)
  (hearlier : earlier.Closed b.schema)

include h hfile hearlier

theorem declarations_after (hp : b.declarations = .ok part) :
    ∃ part', (b.after earlier).declarations = .ok part' ∧ part.Gains part' ∧
      (Decl.dots part'.decls = Decl.dots part.decls → ∀ id ∈ b.node.reexports,
        b.setup.isGenerated (b.schema.fileOf (b.schema.reexport id).target) = true ∨
          earlier.of (b.schema.reexport id).target = []) := by
  obtain ⟨⟨forwards, messages, extensions, hforwards, hmessages, hextensions, rfl⟩⟩ :=
    declarations_eq_ok hp
  obtain ⟨more, hmore, -⟩ := mapM_follows hforwards fun id _ p hp =>
    (forwardPart_after h hfile hearlier hp).imp fun _ hp' => ⟨hp'.1, hp'.2.1⟩
  obtain ⟨hgains, hdots⟩ := Part.gains_concat hforwards hmore (by
    intro id _ p q hp hq
    obtain ⟨q', hq', hgains, -⟩ := forwardPart_after h hfile hearlier hp
    exact Except.ok.inj (hq'.symm.trans hq) ▸ hgains)
  refine ⟨b.versionPart ++ Part.concat more ++ Part.concat (b.node.enums.map b.enumPart) ++
    Part.concat messages ++ Part.concat extensions, ?_, ?_, ?_⟩
  · rw [declarations_eq_after, hmore, hmessages, hextensions]
    rfl
  · exact ((((Part.Gains.refl _).append hgains).append (.refl _)).append (.refl _)).append (.refl _)
  · intro hsame id hid
    simp only [Part.decls_append, Decl.dots_append] at hsame
    obtain ⟨p, -, hp⟩ := exists_of_mem_forall₂ (mapM_eq_ok hforwards) hid
    obtain ⟨q, hq, -, hnone⟩ := forwardPart_after h hfile hearlier hp
    exact hnone (hdots (by omega) id hid p q hp hq)

/-- The same files come out again if there is nothing more to pass on. -/
theorem output_after (hout : b.output = .ok out)
    (hnone : b.setup.isGenerated b.file = true → ∀ id ∈ b.node.reexports,
      b.setup.isGenerated (b.schema.fileOf (b.schema.reexport id).target) = true ∨
        earlier.of (b.schema.reexport id).target = []) : (b.after earlier).output = .ok out := by
  have hsetup : (b.after earlier).setup = b.setup := rfl
  have hsame : (b.after earlier).file = b.file := rfl
  cases hgenerated : b.setup.isGenerated b.file with
  | false =>
    obtain ⟨⟨part, hpart⟩, rfl⟩ := (output_skipped hgenerated).mp hout
    obtain ⟨part', hpart', -⟩ := declarations_after h hfile hearlier hpart
    exact (output_skipped (by rw [hsetup, hsame, hgenerated])).mpr ⟨⟨part', hpart'⟩, rfl⟩
  | true =>
    obtain ⟨part, imports, text, hpart, himports, hformat, rfl⟩ := (output_eq_ok hgenerated).mp hout
    have hdeclarations : (b.after earlier).declarations = .ok part := by
      rw [← hpart, declarations_eq_after, mapM_congr fun id hid =>
        b.forwardPart_after_eq earlier (hnone hgenerated id hid)]
      rfl
    exact (output_eq_ok (by rw [hsetup, hsame, hgenerated])).mpr
      ⟨part, imports, text, hdeclarations, himports, hformat, rfl⟩

/-- A generated file that comes out again has nothing more to pass on. -/
theorem of_output_after (hgenerated : b.setup.isGenerated b.file = true) (hout : b.output = .ok out)
    (hagain : (b.after earlier).output = .ok out) :
    ∀ id ∈ b.node.reexports,
      b.setup.isGenerated (b.schema.fileOf (b.schema.reexport id).target) = true ∨
        earlier.of (b.schema.reexport id).target = [] := by
  obtain ⟨part, imports, text, hpart, himports, hformat, rfl⟩ := (output_eq_ok hgenerated).mp hout
  obtain ⟨part', imports', text', hpart', himports', hformat', hsame⟩ :=
    (output_eq_ok (b := b.after earlier) hgenerated).mp hagain
  obtain ⟨part'', hpart'', hgains, hnone⟩ := declarations_after h hfile hearlier hpart
  cases hpart'.symm.trans hpart''
  apply hnone
  obtain rfl : text = text' := congrArg GeneratedFile.content (head_eq_of_cons_eq hsame)
  have hdots : Line.dots ((b.after earlier).sourceLines part' imports') =
      Line.dots (b.sourceLines part imports) :=
    (format_count hformat' (by decide)).symm.trans (format_count hformat (by decide))
  have hheader : (b.after earlier).headerDecls = b.headerDecls := rfl
  have hinit : (b.after earlier).initPart part'.inits = b.initPart part.inits := by
    rw [hgains.inits]
    rfl
  have hbody : (b.after earlier).bodyDecls part' =
      part'.decls ++ (b.initPart part.inits).decls ++ b.embeddedDecls := by
    rw [bodyDecls, hinit]
    rfl
  have himport : Decl.dots imports ≤ Decl.dots imports' := by
    refine importDecls_dots (fun q hq => ?_) hgains.indirect himports himports'
    simp only [bodyUses, Part.uses_append, decide_eq_true_eq, mem_cons,
      mem_append] at hq ⊢
    rcases hq with hq | hq | hq
    · exact .inl hq
    · exact .inr (.inl (hgains.uses hq))
    · exact .inr (.inr hq)
  rw [dots_sourceLines, dots_sourceLines, hheader, hbody, bodyDecls] at hdots
  simp only [Part.decls_append, Decl.dots_append] at hdots
  have hle := hgains.dots
  omega

end Files

end Binder

section Runs

variable {s : Setup} {earlier : Exports} {files : List FileId} {exports exports' : Exports}

theorem Setup.Whole.record (h : s.Whole)
    (hfiles : ∀ file ∈ files, file.index < s.schema.files.length)
    (hexports : exports.Closed s.schema)
    (hrecord : files.foldlM s.record exports = .ok exports') : exports'.Closed s.schema := by
  refine foldlM_invariant hrecord hexports ?_
  intro exports file exports' hfile hexports hstep
  simp only [Setup.record, steps_eq_ok] at hstep
  obtain ⟨part, hpart, rfl⟩ := hstep
  have hwithin : (Binder.mk s file exports).Within true ⟨s, file, exports⟩ :=
    ⟨h.within, rfl, hfiles file hfile, rfl, hexports⟩
  exact hexports.append (hwithin.declarations hpart).1.exports

/-- A second run goes through the files of the first one, with what that has recorded. -/
theorem Setup.Whole.binders_after (h : s.Whole) (hearlier : earlier.Closed s.schema)
    (hfiles : ∀ file ∈ files, file.index < s.schema.files.length)
    (hrecord : files.foldlM s.record exports = .ok exports') :
    s.binders (earlier ++ exports) files = (s.binders exports files).map (·.after earlier) := by
  induction files generalizing exports with
  | nil => rfl
  | cons file files ih =>
    rw [forall_mem_cons] at hfiles
    simp only [foldlM_cons, Setup.record, steps_eq_ok] at hrecord
    obtain ⟨-, ⟨part, hpart, rfl⟩, hrecord⟩ := hrecord
    obtain ⟨part', hpart', hgains, -⟩ := declarations_after (b := ⟨s, file, exports⟩) h
      hfiles.1 hearlier hpart
    have hafter : (Binder.mk s file (earlier ++ exports)).declarations = .ok part' := hpart'
    rw [binders, binders, hpart, hafter]
    simp only [hgains.exports, List.append_assoc, ih hfiles.2 hrecord]
    rfl

theorem Binder.length_output_after {b : Binder} {out' : List GeneratedFile}
    (hout : b.output = .ok out) (hout' : (b.after earlier).output = .ok out') :
    out'.length = out.length := by
  cases hgenerated : b.setup.isGenerated b.file with
  | false =>
    rw [((output_skipped hgenerated).mp hout).2,
      ((output_skipped (b := b.after earlier) hgenerated).mp hout').2]
  | true =>
    obtain ⟨-, -, -, -, -, -, rfl⟩ := (output_eq_ok hgenerated).mp hout
    obtain ⟨-, -, -, -, -, -, rfl⟩ := (output_eq_ok (b := b.after earlier) hgenerated).mp hout'
    rfl

end Runs

namespace Generator

variable {σ : Type} {r : Request} {g g' : Generator σ} {out : List GeneratedFile}
  {state state' : σ}

/-- No generated file passes on what is recorded for a file that is not generated. -/
def NothingMore (s : Setup) (recorded : Exports) : Prop :=
  ∀ file ∈ s.generated, ∀ imported, s.schema.PubliclyImports file imported →
    imported ∈ s.generated ∨ ∀ object ∈ s.schema.publicObjects imported, recorded.of object = []

theorem nothingMore_iff {s : Setup} {files : List File} (hs : s.schema.Mirrors files)
    {recorded : Exports} : NothingMore s recorded ↔ ∀ file, s.isGenerated file = true →
      ∀ id ∈ (s.schema.file file).reexports,
        s.isGenerated (s.schema.fileOf (s.schema.reexport id).target) = true ∨
          recorded.of (s.schema.reexport id).target = [] := by
  simp only [isGenerated, contains_iff_mem]
  refine forall₂_congr fun file hfile => ⟨?_, ?_⟩
  · intro h id hid
    obtain ⟨imported, himports, hobject⟩ := (exists_reexport_iff hs).mp ⟨id, hid, rfl⟩
    rcases h imported himports with hgenerated | hnone
    · rw [(hs.publicObjects_declared imported _ hobject).2]
      exact .inl hgenerated
    · exact .inr (hnone _ hobject)
  · intro h imported himports
    by_cases hgenerated : imported ∈ s.generated
    · exact .inl hgenerated
    · refine .inr fun object hobject => ?_
      obtain ⟨id, hid, rfl⟩ := (exists_reexport_iff hs).mpr ⟨imported, himports, hobject⟩
      refine (h id hid).resolve_left ?_
      rwa [(hs.publicObjects_declared imported _ hobject).2]

theorem runs_eq (hg : ofRequest r = .ok g)
    (h : g.generateAll state = ((.ok out, g'), state')) :
    g.setup.Whole ∧ g.setup.schema.Mirrors r.files ∧
      g.setup.schema.fileIds.foldlM g.setup.record [] = .ok g'.exports ∧
      ∃ outs, (g.setup.binders [] g.setup.schema.fileIds).mapM output = .ok outs ∧
        outs.flatten = out ∧ ∀ state, (g'.generateAll state).1.1 =
          ((g.setup.binders [] g.setup.schema.fileIds).mapM fun b : Binder =>
            (b.after g'.exports).output).map flatten := by
  simp only [ofRequest, steps_eq_ok] at hg
  obtain ⟨s, hs, rfl⟩ := hg
  have hwhole := ofRequest_whole hs
  have hrecord : s.schema.fileIds.foldlM s.record [] = .ok g'.exports := by
    have hbind : (bindFiles s ([] : List (Plugin σ)) [] s.schema.fileIds state).1 =
        (.ok out, g'.exports) := by
      apply Prod.ext
      · exact congrArg (·.1.1) h
      · exact congrArg (·.1.2.exports) h
    exact bindFiles_record hbind
  obtain ⟨exports', hfirst⟩ := generateAll_nil (g := ({ setup := s } : Generator σ)) rfl state
  rw [hfirst] at h
  obtain ⟨hresult, rfl⟩ := Prod.mk.inj (Prod.mk.inj h).1
  obtain ⟨outs, houts, rfl⟩ := map_eq_ok.mp hresult
  refine ⟨hwhole, ofRequest_mirrors hs, hrecord, outs, houts, rfl, fun state => ?_⟩
  obtain ⟨exports'', hsecond⟩ := generateAll_nil
    (g := ({ setup := s, exports := exports' } : Generator σ)) rfl state
  have hclosed : Exports.Closed s.schema exports' :=
    hwhole.record (fun file => mem_fileIds.mp) (by simp [Exports.Closed]) hrecord
  have hbinders := hwhole.binders_after hclosed (fun file => mem_fileIds.mp) hrecord
  rw [append_nil] at hbinders
  rw [hsecond]
  rw [hbinders, mapM_map]
  rfl

theorem again_of_nothingMore (hg : ofRequest r = .ok g)
    (h : g.generateAll state = ((.ok out, g'), state')) (hnone : NothingMore g.setup g'.exports)
    (later : σ) : (g'.generateAll later).1.1 = .ok out := by
  obtain ⟨hwhole, hmirrors, hrecord, outs, houts, rfl, hagain⟩ := runs_eq hg h
  have hclosed := hwhole.record (fun file => mem_fileIds.mp) (by simp [Exports.Closed]) hrecord
  rw [nothingMore_iff hmirrors] at hnone
  rw [hagain, map_eq_ok]
  refine ⟨outs, mapM_of_mapM houts ?_, rfl⟩
  rintro ⟨s, file, before⟩ hb out hout
  obtain ⟨rfl, hfile, -⟩ := binders_invariant (P := fun _ => True) hb trivial
    fun _ _ _ _ _ => trivial
  exact output_after hwhole (mem_fileIds.mp hfile) hclosed hout (hnone file)

theorem nothingMore_of_again (hg : ofRequest r = .ok g)
    (h : g.generateAll state = ((.ok out, g'), state')) {later : σ}
    (hsame : (g'.generateAll later).1.1 = .ok out) : NothingMore g.setup g'.exports := by
  obtain ⟨hwhole, hmirrors, hrecord, outs, houts, rfl, hagain⟩ := runs_eq hg h
  have hclosed := hwhole.record (fun file => mem_fileIds.mp) (by simp [Exports.Closed]) hrecord
  rw [hagain, map_eq_ok] at hsame
  obtain ⟨outs', houts', hflatten⟩ := hsame
  -- Each file gives as many files in both runs, so the runs agree file by file.
  have hlengths : outs'.map length = outs.map length := by
    have hrel := mapM_related (R := (· = ·))
      (forall₂_refl _) houts houts' fun b b' l l' heq hl hl' =>
        length_output_after hl (heq ▸ hl')
    rw [← forall₂_eq_eq_eq, forall₂_map_left_iff, forall₂_map_right_iff]
    exact hrel.flip
  obtain rfl : outs' = outs := eq_iff_flatten_eq.mpr ⟨hflatten, hlengths⟩
  rw [nothingMore_iff hmirrors]
  intro file hgenerated
  have hlisted := mem_fileIds.mpr (hwhole.listed file (contains_iff_mem.mp hgenerated))
  obtain ⟨before, hb⟩ := (exists_binder houts).2 file hlisted
  obtain ⟨out, hout, hout'⟩ := exists_of_mapM_both houts houts' hb
  exact of_output_after (b := ⟨g.setup, file, before⟩) hwhole (mem_fileIds.mp hlisted) hclosed
    hgenerated hout hout'

/-- A generator without plugins that has generated its files generates the same files again exactly
if no generated file publicly imports a file that is not generated and that has symbols. -/
theorem generateAll_again_iff (hg : ofRequest r = .ok g)
    (h : g.generateAll state = ((.ok out, g'), state')) (later : σ) :
    (g'.generateAll later).1.1 = .ok out ↔
      ∀ file ∈ g.setup.generated, ∀ imported, g.setup.schema.PubliclyImports file imported →
        imported ∈ g.setup.generated ∨
          ∀ object ∈ g.setup.schema.publicObjects imported, g'.exports.of object = [] :=
  ⟨nothingMore_of_again hg h, fun hnone => again_of_nothingMore hg h hnone later⟩

end Generator

/-- A file that publicly imports another one with a message. -/
def publicRequest (generate : List String) : Request where
  filesToGenerate := generate
  files :=
    [{ name := some "a.proto", package := some "a", messages := [{ name := some "M" }] },
     { name := some "b.proto", package := some "a", dependencies := ["a.proto"]
       publicDependencies := [0] }]

/-- Both files are generated into one package, which has nothing to pass on. -/
theorem Generator.generateAll_again_together : ∃ (g g' : Generator Unit) (out : List GeneratedFile),
    ofRequest (publicRequest ["b.proto", "a.proto"]) = .ok g ∧
      g.generateAll () = ((.ok out, g'), ()) ∧ (g'.generateAll ()).1.1 = .ok out := by
  have hchecked : (publicRequest ["b.proto", "a.proto"]).Checked := by decide +kernel
  obtain ⟨g, g', out, hg, hsetup, h⟩ := exists_of_checked hchecked
  refine ⟨g, g', out, hg, h, (generateAll_again_iff hg h ()).mpr ?_⟩
  have hall : ((setupOf (publicRequest ["b.proto", "a.proto"])).generated.all fun file =>
      ((setupOf (publicRequest ["b.proto", "a.proto"])).schema.file file).dependencies.all
        (setupOf (publicRequest ["b.proto", "a.proto"])).generated.contains) = true := by
    decide +kernel
  simp only [all_eq_true, contains_iff_mem] at hall
  rw [hsetup]
  rintro file hfile imported ⟨i, -, hentry⟩
  exact .inl (hall file hfile imported (mem_of_entryAt? hentry))

/-- The message is passed on, and once more in the second run. -/
theorem Generator.generateAll_again_apart : ∃ (g g' : Generator Unit) (out : List GeneratedFile),
    ofRequest (publicRequest ["b.proto"]) = .ok g ∧
      g.generateAll () = ((.ok out, g'), ()) ∧ (g'.generateAll ()).1.1 ≠ .ok out := by
  have hchecked : (publicRequest ["b.proto"]).Checked := by decide +kernel
  obtain ⟨g, g', out, hg, hsetup, h⟩ := exists_of_checked hchecked
  refine ⟨g, g', out, hg, h, fun hagain => ?_⟩
  have hnone := nothingMore_of_again hg h hagain ⟨1⟩ (by rw [hsetup]; decide +kernel) ⟨0⟩
    (by rw [hsetup]; decide +kernel)
  obtain ⟨-, -, hrecord, -⟩ := runs_eq hg h
  rw [hsetup] at hnone hrecord
  have hsymbols : (((setupOf (publicRequest ["b.proto"])).schema.fileIds.foldlM
      (setupOf (publicRequest ["b.proto"])).record []).toOption.all fun recorded =>
        !(recorded.of (.message ⟨0⟩)).isEmpty) = true := by decide +kernel
  rw [hrecord] at hsymbols
  rcases hnone with hgenerated | hnone
  · revert hgenerated
    decide +kernel
  · simp [Except.toOption, hnone (.message ⟨0⟩) (by decide +kernel)] at hsymbols

end GoBindings
