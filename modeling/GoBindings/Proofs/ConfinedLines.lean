import GoBindings.Proofs.Confinement

/-!
# Lines of valid trees keep to themselves

All lines of a valid tree are confined, also where packages have names that are no identifiers.
-/

namespace GoBindings.Go

open List Lexeme

variable {text n op : String} {f : Func}

section Lexemes

theorem IsTail.isRun (h : IsTail text) : IsRun text.toList := by
  intro c hc
  have hrest := all_eq_true.mp h c hc
  cases hmark : isMark c with
  | false => rfl
  | true =>
    rw [eq_false_of_isMark (p := isIdentRest) (by decide) hmark] at hrest
    cases hrest

theorem confined_ident (h : IsTail n) : (ident n).Confined :=
  ⟨by simp [ident], .inl h.isRun⟩

@[simp] theorem confined_name (h : IsName n) : (ident n).Confined :=
  confined_ident h.isTail

theorem confined_literal {x : Lexeme} (h : x.Stands) (hkind : x.kind = .literal) : x.Confined :=
  ⟨by simp [hkind], .inr (h.sealed hkind)⟩

@[simp] theorem confined_blank : blank.Confined := ⟨by decide, .inl (by decide)⟩

@[simp] theorem confined_tab : tab.Confined := ⟨by decide, .inl (by decide)⟩

private theorem operators_runs : ∀ op ∈ operators, op = "/" ∨ op = "/=" ∨ IsRun op.toList := by
  decide

@[simp] theorem confined_punct (h : op ∈ operators) (hne : op ≠ "/") :
    (punct op).Confined := by
  refine ⟨by simp [punct], ?_⟩
  rcases operators_runs op h with rfl | rfl | hrun
  · exact absurd rfl hne
  · have hmark : AtMark "/=".toList := by
      intro c hc
      obtain rfl : '/' = c := by simpa using hc
      rfl
    exact .inr ⟨stands_punct h hne, hmark, fun rest => ⟨'/', ['='], rfl, rfl⟩⟩
  · exact .inl hrun

@[simp] theorem confined_openBrace : openBrace.Confined :=
  confined_punct (by decide) (by decide)

@[simp] theorem confined_closeBrace : closeBrace.Confined :=
  confined_punct (by decide) (by decide)

theorem confined_number (h : IsNumber text) : Confined (number text) := by
  have hrun : IsRun text.toList := by
    intro c hc
    cases hmark : isMark c with
    | false => rfl
    | true =>
      have hrest := h.mem c hc
      rw [eq_false_of_isMark (p := isNumberRest) (by decide) hmark,
        eq_false_of_isMark (p := isSign) (by decide) hmark] at hrest
      simp at hrest
  have hdigits {cs : List Char} (hcs : IsRun cs) :
      (⟨.number, String.ofList cs⟩ : Lexeme).Confined := ⟨by simp, .inl (by simpa using hcs)⟩
  rw [number]
  split
  · rename_i digits htext
    rw [htext, IsRun, forall_mem_cons] at hrun
    simpa using ⟨confined_punct (by decide : "-" ∈ operators) (by decide), hdigits hrun.2⟩
  · rename_i digits htext
    rw [htext, IsRun, forall_mem_cons] at hrun
    simpa using ⟨confined_punct (by decide : "+" ∈ operators) (by decide), hdigits hrun.2⟩
  · simpa using hdigits hrun

end Lexemes

/-- Rules under which the lines of valid trees are confined. -/
structure Rules.Tame (R : Rules) : Prop where
  name : ∀ p, R.package p → IsTail p
  strict : R.strict

section Trees

variable {R : Rules}

theorem TypeExpr.confined (hR : R.Tame) {t : TypeExpr} (h : t.Valid R) : Confined t.lexemes := by
  induction t with
  | name n => simpa [lexemes] using confined_name h
  | qualified package n =>
    simp +decide [lexemes, confined_ident (hR.name _ h.1), confined_name h.2]
  | pointer t ih | slice t ih => simp +decide [lexemes, ih h]
  | map k v ihk ihv =>
    simp +decide [lexemes, ihk h.1, ihv h.2]
  | anything =>
    simp +decide [lexemes]

namespace Expr

mutual

theorem confined (hR : R.Tame) : (e : Expr) → e.Valid R → Confined e.lexemes
  | name n, h => by simpa [lexemes] using confined_name h
  | qualified package n, h => by
    simp +decide [lexemes, confined_ident (hR.name _ h.1), confined_name h.2]
  | type t, h => by simpa [lexemes] using TypeExpr.confined hR h
  | number text, h => by simpa [lexemes] using confined_number h
  | literal text, h => by
    have hstands := (scansAlone_iff.mp h).stands (by simp [Lexeme.literal])
    simpa [lexemes] using confined_literal hstands rfl
  | select e field, h => by
    simp +decide [lexemes, confined hR e h.1, confined_name h.2.2]
  | call f args, h => by
    simp +decide [lexemes, confined hR f h.1, confinedAll hR args h.2]
  | paren e, h => by simp +decide [lexemes, confined hR e h]
  | star e, h => by simp +decide [lexemes, confined hR e h.1]
  | address e, h => by simp +decide [lexemes, confined hR e h.1]
  | index e i, h => by
    simp +decide [lexemes, confined hR e h.1, confined hR i h.2.2]
  | composite t elems, h => by
    simp +decide [lexemes, TypeExpr.confined hR h.1, confinedAll hR elems h.2]
  | assert e t, h => by
    simp +decide [lexemes, confined hR e h.1, TypeExpr.confined hR h.2.2]
  | binary left op right, h => by
    simp [lexemes, confined hR left h.1, confined hR right h.2.1,
      confined_punct h.2.2.1 h.2.2.2.1]
  | tight left op right, h => by
    simp +decide [lexemes, confined hR left h.1, confined hR right h.2.1, h.2.2]
  | spread e, h => by simp +decide [lexemes, confined hR e h.1]

theorem confinedAll (hR : R.Tame) : (es : List Expr) → ValidAll R es → Confined (listLexemes es)
  | [], _ => by simp [listLexemes]
  | [e], h => by simpa [listLexemes] using confined hR e h.1
  | e :: e' :: es, h => by
    simp +decide [listLexemes, confined hR e h.1, confinedAll hR (e' :: es) h.2]

end

end Expr

theorem Simple.confined (hR : R.Tame) {s : Simple} (h : s.Valid R) : Confined s.lexemes := by
  cases s with
  | eval e => exact e.confined hR h
  | assign left op right =>
    obtain ⟨-, -, hleft, hright, hop⟩ := h
    have hops : ∀ op ∈ [":=", "=", "+="], op ∈ operators ∧ op ≠ "/" := by decide
    obtain ⟨hmem, hslash⟩ := hops op hop
    simp [lexemes, Expr.confinedAll hR left hleft, Expr.confinedAll hR right hright,
      confined_punct hmem hslash]
  | ret values => simp +decide [lexemes, Expr.confinedAll hR values h.2]

section Lines

variable {d : Nat} {xs : List Lexeme}

theorem Confined.line (h : Confined xs) : Line.Confined ⟨d, xs⟩ := ⟨xs, none, by simp, h, by simp⟩

theorem Line.confined_comment (h : '\n' ∉ text.toList) : (Line.comment d text).Confined :=
  ⟨[], some (.lineComment text), rfl, by simp, by
    rintro _ ⟨⟩
    exact ⟨rfl, stands_lineComment h⟩⟩

theorem Confined.noted (h : Confined xs) {note : String} (hnote : '\n' ∉ note.toList) :
    Line.Confined ⟨d, xs ++ Stmt.noteLexemes note⟩ :=
  ⟨xs ++ [blank], some (.lineComment note), by simp [Stmt.noteLexemes], by simp [h], by
    rintro _ ⟨⟩
    exact ⟨rfl, stands_lineComment hnote⟩⟩

theorem Confined.block (h : Confined xs) {lines : List Line} (hlines : ∀ l ∈ lines, l.Confined)
    (hop : op ∈ operators) (hne : op ≠ "/") :
    ∀ l ∈ Line.mk d xs :: lines ++ [⟨d, [.punct op]⟩], l.Confined := by
  rw [forall_mem_append, forall_mem_cons, forall_mem_singleton]
  exact ⟨⟨h.line, hlines⟩, Confined.line (by simp [confined_punct hop hne])⟩

end Lines

namespace Stmt

mutual

theorem lines_confined (hR : R.Tame) (d : Nat) :
    (s : Stmt) → s.Valid R → ∀ l ∈ s.lines d, l.Confined
  | simple s, h => by simpa [lines] using (s.confined hR h).line
  | noted s note, h => by simpa [lines] using (s.confined hR h.1).noted (h.2 hR.strict)
  | comment text, h => by simpa [lines] using Line.confined_comment (h hR.strict)
  | retList values t elems, h => by
    obtain ⟨hv, ht, he⟩ := h
    have hall : Expr.ValidAll R (values ++ [Expr.type t]) := by
      rw [Expr.validAll_iff] at hv ⊢
      simpa [or_imp, forall_and, Expr.Valid] using ⟨hv, ht⟩
    refine Confined.block ?_ (forall_mem_map.mpr fun e hmem => Confined.line ?_) (by decide)
      (by decide)
    · simp +decide [Expr.confinedAll hR _ hall]
    · simp +decide [e.confined hR (Expr.validAll_iff.mp he e hmem)]
  | ifThen init cond body, h => by
    refine Confined.block ?_ (linesAll_confined hR (d + 1) body h.2.2) (by decide) (by decide)
    cases init with
    | none => simp +decide [cond.confined hR h.2.1]
    | some s =>
      simp +decide [s.confined hR (h.1 s rfl), cond.confined hR h.2.1]
  | ifLine cond s, h => by
    rw [lines, forall_mem_singleton]
    refine Confined.line ?_
    simp +decide [cond.confined hR h.1, s.confined hR h.2]
  | typeSwitch var subject cases, h => by
    refine Confined.block ?_ (linesCases_confined hR d cases h.2.2.2) (by decide) (by decide)
    simp +decide [confined_name h.1, subject.confined hR h.2.1]
  | switchOn subject cases, h => by
    refine Confined.block ?_ (linesCases_confined hR d cases h.2) (by decide) (by decide)
    simp +decide [subject.confined hR h.1]
  | forRange key value subject body, h => by
    refine Confined.block ?_ (linesAll_confined hR (d + 1) body h.2.2.2) (by decide) (by decide)
    simp +decide [confined_name h.1, confined_name h.2.1, subject.confined hR h.2.2.1]

theorem linesAll_confined (hR : R.Tame) (d : Nat) :
    (ss : List Stmt) → ValidAll R ss → ∀ l ∈ linesAll d ss, l.Confined
  | [], _ => by simp [linesAll]
  | s :: ss, h => by
    rw [linesAll, forall_mem_append]
    exact ⟨lines_confined hR d s h.1, linesAll_confined hR d ss h.2⟩

theorem linesCase_confined (hR : R.Tame) (d : Nat) :
    (c : Case) → ValidCase R c → ∀ l ∈ linesCase d c, l.Confined
  | .on label body, h => by
    rw [linesCase, forall_mem_cons]
    refine ⟨Confined.line ?_, linesAll_confined hR (d + 1) body h.2⟩
    simp +decide [label.confined hR h.1]
  | .onNoted label note body, h => by
    rw [linesCase, forall_mem_cons]
    have hlabel : Confined (.ident "case" :: .blank ::
        (label.lexemes ++ [punct ":"])) := by
      simp +decide [label.confined hR h.1]
    exact ⟨by simpa using hlabel.noted (h.2.1 hR.strict), linesAll_confined hR (d + 1) body h.2.2⟩
  | .otherwise body, h => by
    rw [linesCase, forall_mem_cons]
    refine ⟨Confined.line ?_, linesAll_confined hR (d + 1) body h⟩
    simp +decide

theorem linesCases_confined (hR : R.Tame) (d : Nat) :
    (cs : List Case) → ValidCases R cs → ∀ l ∈ linesCases d cs, l.Confined
  | [], _ => by simp [linesCases]
  | c :: cs, h => by
    rw [linesCases, forall_mem_append]
    exact ⟨linesCase_confined hR d c h.1, linesCases_confined hR d cs h.2⟩

end

end Stmt

section Signatures

theorem confined_commaSeparated {parts : List (List Lexeme)} (h : ∀ part ∈ parts, Confined part) :
    Confined (commaSeparated parts) := by
  induction parts with
  | nil => exact confined_nil
  | cons part parts ih =>
    rw [forall_mem_cons] at h
    cases parts with
    | nil => exact h.1
    | cons part' parts => simp +decide [commaSeparated, h.1, ih h.2]

theorem Param.confined_list (hR : R.Tame) {ps : List Param} (h : ∀ p ∈ ps, p.Valid R) :
    Confined (Param.listLexemes ps) := by
  have hparams : Confined (commaSeparated (ps.map lexemes)) := by
    refine confined_commaSeparated (forall_mem_map.mpr fun p hp => ?_)
    have hnames : Confined (commaSeparated (p.names.map fun n => [.ident n])) :=
      confined_commaSeparated (forall_mem_map.mpr fun n hn => by
        simpa using confined_name ((h p hp).names n hn))
    simp [lexemes, hnames, TypeExpr.confined hR (h p hp).type]
  simp +decide [listLexemes, hparams]

theorem Results.confined {α : Type} {print : α → List Lexeme} {valid : α → Prop}
    (hprint : ∀ t, valid t → Confined (print t)) {r : Results α} (h : r.Valid valid) :
    Confined (r.lexemes print) := by
  cases r with
  | none => simp [lexemes]
  | one t => simpa [lexemes] using hprint t h
  | many ts =>
    have hlist : Confined (commaSeparated (ts.map print)) :=
      confined_commaSeparated (forall_mem_map.mpr fun t ht => hprint t (h t ht))
    simp +decide [lexemes, hlist]
  | named n t => simp +decide [lexemes, confined_name h.1, hprint t h.2]

theorem ResultType.confined (hR : R.Tame) {r : ResultType} (h : r.Valid R) :
    Confined r.lexemes := by
  cases r with
  | type t => exact TypeExpr.confined hR h
  | func f =>
    have hf : f.Valid R := h
    have hresults := Results.confined (fun _ ht => TypeExpr.confined hR ht) hf.results
    simp +decide [lexemes, FuncType.lexemes, Param.confined_list hR hf.params, hresults]

theorem Receiver.confined {r : Receiver} (h : r.Valid) : Confined r.lexemes := by
  obtain ⟨name, pointer, type⟩ := r
  have htype := confined_name h.type
  cases name with
  | none => cases pointer <;> simp +decide [lexemes, htype]
  | some n =>
    have hname := confined_name (h.name n rfl)
    cases pointer <;> simp +decide [lexemes, htype, hname]

theorem Func.confined_header (hR : R.Tame) (h : f.Valid R) : Confined f.header := by
  have hresults := Results.confined (fun _ ht => ResultType.confined hR ht) h.results
  have hrest : Confined (.ident f.name :: (Param.listLexemes f.params ++
      f.results.lexemes ResultType.lexemes ++ [blank])) := by
    simp [Param.confined_list hR h.params, hresults, confined_name h.name]
  rw [header]
  cases hr : f.receiver with
  | none => simpa +decide using hrest
  | some r => simpa +decide [Receiver.confined (h.receiver r hr)] using hrest

theorem Func.lines_confined (hR : R.Tame) (h : f.Valid R) : ∀ l ∈ f.lines, l.Confined := by
  have hheader := Func.confined_header hR h
  have hbody := h.body
  rw [Func.lines]
  split
  · rw [forall_mem_singleton]
    refine Confined.line ?_
    simp [hheader]
  · rename_i s hs
    rw [hs] at hbody
    rw [forall_mem_singleton]
    refine Confined.line ?_
    simp [hheader, Simple.confined hR hbody]
  · rename_i body hs
    rw [hs] at hbody
    refine Confined.block ?_ (Stmt.linesAll_confined hR 1 body hbody) (by decide) (by decide)
    simp [hheader]

end Signatures

section Declarations

theorem StructTag.confined (hR : R.Tame) {tag : StructTag} (h : R.Tag tag) : tag.lexeme.Confined :=
  confined_literal (stands_raw.mpr (h hR.strict)) rfl

theorem Member.confined (hR : R.Tame) {m : Member} (h : m.Valid R) : m.line.Confined := by
  cases m with
  | comment text => exact Line.confined_comment (h hR.strict)
  | field name type tag =>
    exact Confined.line (by
      simp [confined_name h.1, TypeExpr.confined hR h.2.1, StructTag.confined hR h.2.2])
  | union name interface tag =>
    exact Confined.line (by
      simp [confined_name h.1, confined_name h.2.1, StructTag.confined hR h.2.2])
  | embedded type tag =>
    exact Confined.line (by simp [TypeExpr.confined hR h.1, StructTag.confined hR h.2])
  | unrecognized name tag =>
    have hbytes : TypeExpr.bytes.Valid R := (by decide : IsName "byte")
    refine Confined.line ?_
    simp only [confined_cons, confined_append, confined_name h.1, TypeExpr.confined hR hbytes,
      StructTag.confined hR h.2, confined_tab, confined_blank, confined_nil, and_self]

theorem ConstEntry.confined (hR : R.Tame) {e : ConstEntry} (h : e.Valid R) : e.line.Confined := by
  cases e with
  | comment text => exact Line.confined_comment (h hR.strict)
  | constant name type n =>
    have hnumber := confined_number (isNumber_int n.toInt)
    refine Confined.line ?_
    simp +decide only [confined_cons, confined_name h.1, confined_name h.2, hnumber,
      confined_blank, confined_punct]

theorem Entry.confined (hR : R.Tame) {e : Entry} (h : e.Valid R) : e.line.Confined := by
  cases e with
  | comment text => exact Line.confined_comment (h hR.strict)
  | keyed key value =>
    exact Confined.line (by
      simp +decide [key.confined hR h.1, value.confined hR h.2])
  | group values =>
    exact Confined.line (by
      simp +decide [Expr.confinedAll hR values h])
  | row values =>
    refine Confined.line fun x hx => ?_
    obtain ⟨v, hv, hx⟩ := mem_flatMap.mp hx
    have hvalue : Confined (v.lexemes ++ [punct ","]) := by
      simp +decide [v.confined hR (Expr.validAll_iff.mp h v hv)]
    exact hvalue x hx

/-- The package of an import has a name without marks, or is only mentioned in a comment. -/
def ImportEntry.Tame : ImportEntry → Prop
  | named name _ => IsTail name
  | weak name _ => OneLine name

theorem ImportEntry.confined {e : ImportEntry} (h : e.Tame) : e.line.Confined := by
  cases e with
  | named name path =>
    exact Confined.line (by
      simp [confined_ident h, confined_literal (stands_quote path) rfl])
  | weak name path =>
    have hname : OneLine name := h
    have htext : OneLine (" skipping weak import " ++ name ++ " " ++ Text.quote path) := by
      simp +decide [hname]
    exact Line.confined_comment htext

theorem Decl.package_confined {name : String} (h : IsTail name) :
    ∀ l ∈ (Decl.package name).lines, l.Confined := by
  rw [lines, forall_mem_singleton]
  exact Confined.line (by simp +decide [confined_ident h])

theorem Decl.imports_confined {entries : List ImportEntry} (h : ∀ e ∈ entries, e.Tame) :
    ∀ l ∈ (Decl.imports entries).lines, l.Confined := by
  refine Confined.block ?_ (forall_mem_map.mpr fun e he => e.confined (h e he)) (by decide)
    (by decide)
  simp +decide

theorem Decl.lines_confined (hR : R.Tame) {d : Decl} (h : d.Valid R) :
    ∀ l ∈ d.lines, l.Confined := by
  cases d with
  | blank =>
    rw [lines, forall_mem_singleton]
    exact Confined.line confined_nil
  | comment text => simpa [lines] using Line.confined_comment (h hR.strict)
  | blockComment ls =>
    rw [lines, forall_mem_singleton]
    refine ⟨[], some _, rfl, confined_nil, ?_⟩
    rintro _ ⟨⟩
    exact ⟨rfl, h⟩
  | package name => exact package_confined (IsName.isTail h)
  | imports entries =>
    refine imports_confined fun e he => ?_
    have hentry : e.Valid R := h e he
    cases e with
    | named name path => exact IsName.isTail hentry
    | weak name path => exact hentry hR.strict
  | value sort name type e note =>
    obtain ⟨hname, htype, he, -, hnote⟩ := h
    have hkeyword : IsName sort.keyword := by cases sort <;> decide
    have hvalue {ts : List Lexeme} (hts : Confined ts) : Confined (.ident sort.keyword ::
        .blank :: .ident name :: (ts ++ .blank :: .punct "=" :: .blank :: e.lexemes)) := by
      simp +decide [confined_name hkeyword, confined_name hname, hts, e.confined hR he]
    have htypes : ∃ ts, Confined ts ∧ (Decl.value sort name type e note).lines =
        [⟨0, .ident sort.keyword :: .blank :: .ident name :: (ts ++ .blank :: .punct "=" ::
          .blank :: e.lexemes) ++ (note.map Stmt.noteLexemes).getD []⟩] := by
      cases type with
      | none => exact ⟨[], confined_nil, by cases note <;> simp [lines]⟩
      | some t =>
        refine ⟨.blank :: t.lexemes, ?_, by cases note <;> simp [lines]⟩
        simpa using TypeExpr.confined hR (htype t rfl)
    obtain ⟨ts, hts, hlines⟩ := htypes
    rw [hlines, forall_mem_singleton]
    cases note with
    | none => simpa using (hvalue hts).line
    | some text => exact (hvalue hts).noted (hnote text rfl hR.strict)
  | constants entries =>
    refine Confined.block ?_ (forall_mem_map.mpr fun e he => ConstEntry.confined hR (h e he))
      (by decide)
      (by decide)
    simp +decide
  | typeDef name type =>
    rw [lines, forall_mem_singleton]
    exact Confined.line (by simp +decide [confined_name h.1, TypeExpr.confined hR h.2])
  | struct name members =>
    refine Confined.block ?_ (forall_mem_map.mpr fun m hm => Member.confined hR (h.2 m hm))
      (by decide)
      (by decide)
    simp +decide [confined_name h.1]
  | wrapper name field type tag =>
    rw [lines, forall_mem_singleton]
    exact Confined.line (by
      simp +decide [confined_name h.1, confined_name h.2.1, TypeExpr.confined hR h.2.2.1,
        StructTag.confined hR h.2.2.2])
  | interface name method =>
    rw [lines, forall_mem_singleton]
    exact Confined.line (by
      simp +decide [confined_name h.1, confined_name h.2])
  | table name pointer type entries =>
    refine Confined.block ?_ (forall_mem_map.mpr fun e he => Entry.confined hR (h.2.2 e he))
      (by decide) (by decide)
    cases pointer <;>
      simp +decide [confined_name h.1, TypeExpr.confined hR h.2.1]
  | func f => exact Func.lines_confined hR h

end Declarations

end Trees

end GoBindings.Go

namespace GoBindings.Binder

open List Go

variable {b : Binder} {files : List Descriptor.File}

theorem sourceLines_confined (hs : b.setup.Sound files) (htidy : ∀ f ∈ files, f.Tidy)
    (hexports : b.exports.Sound b.schema IsTail) (hgenerated : b.setup.isGenerated b.file = true)
    {part : Part} (hpart : b.declarations = .ok part) {isUsed : String → Bool}
    {indirect : List Schema.FileId} {imports : List Decl}
    (himports : b.importDecls isUsed indirect = .ok imports) :
    ∀ l ∈ b.sourceLines part imports, l.Confined := by
  have hR : Rules.Tame ⟨IsTail, True⟩ := ⟨fun _ h => h, trivial⟩
  have hnames := hs.packages.tail
  have hdecls {ds : List Decl} (h : ∀ d ∈ ds, ∀ l ∈ d.lines, l.Confined) :
      ∀ l ∈ ds.flatMap Decl.lines, l.Confined := by
    intro l hl
    obtain ⟨d, hd, hl⟩ := mem_flatMap.mp hl
    exact h d hd l hl
  have hblank : ∀ l ∈ Decl.blank.lines, l.Confined := Decl.lines_confined hR trivial
  have hheader : ∀ d ∈ b.headerDecls, ∀ l ∈ d.lines, l.Confined := by
    obtain ⟨remarks, hheader, hremarks⟩ := (plainHead hs htidy).headerDecls_eq
    rw [hheader]
    simp only [forall_mem_append, forall_mem_cons]
    exact ⟨fun d hd => Decl.lines_confined hR (hremarks d hd).1,
      Decl.package_confined (hnames _ (inUse_packageName hs)), hblank, by simp⟩
  have himported : ∀ d ∈ imports, ∀ l ∈ d.lines, l.Confined := by
    rcases importDecls_names hs hnames (by decide) himports with rfl | ⟨entries, rfl, hentries⟩
    · simp
    · rw [forall_mem_singleton]
      refine Decl.imports_confined fun e he => ?_
      have hname := hentries e he
      cases e with
      | named name path => exact hname
      | weak name path => exact IsTail.oneLine hname
  have hbody : ∀ d ∈ b.bodyDecls part, ∀ l ∈ d.lines, l.Confined := fun d hd =>
    Decl.lines_confined hR (bodyDecls_valid hs hnames htidy hexports hgenerated hpart d hd).1
  rw [sourceLines]
  simp only [forall_mem_append, forall_mem_cons]
  refine ⟨hdecls (forall_mem_append.mpr ⟨hheader, himported⟩), ?_, hdecls hbody⟩
  exact hblank _ (by simp [Decl.lines])

end GoBindings.Binder
