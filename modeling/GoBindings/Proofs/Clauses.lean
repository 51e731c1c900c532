import GoBindings.Proofs.ConfinedLines

/-!
# Package clauses

The name in the package clause of a generated file is the name of the generated package, unless the
comments before the clause end too early.
-/

namespace GoBindings.Go

open List Lexeme

/-- The name in the package clause that a source begins with. -/
def packageClause? (source : String) : Option String :=
  match scan source with
  | .error _ => none
  | .ok tokens =>
    match codeOf tokens with
    | keyword :: name :: _ =>
      if keyword.is "package" && name.kind = .ident then some name.text else none
    | _ => none

section Clauses

variable {name : String} {xs : List Lexeme}
variable {words : List Lexeme} {cs : List Char}

private theorem operators_rest :
    ∀ op ∈ operators, op.toList.head?.all (fun c => !isIdentRest c) = true := by
  decide

private theorem kind_of_cut (hcs : cs.all isIdentRest = true) (h : cut cs = some xs) :
    ∀ x ∈ xs, x.kind = .ident ∨ x.kind = .number := by
  fun_induction cut cs generalizing xs with
  | case1 =>
    cases h
    simp
  | case2 => cases h
  | case3 c cs kind n hextent ih =>
    obtain ⟨ys, hys, rfl⟩ := Option.map_eq_some_iff.mp h
    rw [all_cons, Bool.and_eq_true] at hcs
    have hrest : (cs.drop n).all isIdentRest = true :=
      all_eq_true.mpr fun d hd => all_eq_true.mp hcs.2 d (mem_of_mem_drop hd)
    rw [forall_mem_cons]
    refine ⟨?_, ih hrest hys⟩
    have hother (d : Char) (hd : isIdentRest d = false) : c ≠ d := by
      rintro rfl
      simp [hd] at hcs
    cases Extent.of_extent? hextent with
    | lineComment | blockComment => exact absurd rfl (hother '/' (by decide))
    | literal hc _ =>
      rcases hc with hc | hc <;> exact absurd hc (hother _ (by decide))
    | raw => exact absurd rfl (hother rawQuote (by decide))
    | newline => exact absurd rfl (hother '\n' (by decide))
    | space _ hc =>
      simp only [isBlank, Bool.or_eq_true, decide_eq_true_eq] at hc
      rcases hc with (hc | hc) | hc <;> exact absurd hc (hother _ (by decide))
    | ident => exact .inl rfl
    | number => exact .inr rfl
    | fraction => exact absurd rfl (hother '.' (by decide))
    | operator hop =>
      obtain ⟨op, hmem, hlength, rest, hprefix⟩ := operatorLength_spec hop
      have hhead := operators_rest op hmem
      cases htext : op.toList with
      | nil =>
        rw [← String.length_toList, htext] at hlength
        cases hlength
      | cons d ds =>
        rw [htext] at hprefix
        rw [htext, (List.cons.inj hprefix).1] at hhead
        simp [hcs.1] at hhead

private theorem cut_package (hname : IsTail name) :
    cut ("package ".toList ++ name.toList) =
      (cut name.toList).map fun xs => .ident "package" :: .blank :: xs := by
  have hblank : runLength isBlank name.toList = 0 := by
    cases hcs : name.toList with
    | nil => rfl
    | cons c cs =>
      have hc : isIdentRest c = true := all_eq_true.mp hname c (by simp [hcs])
      have hne : isBlank c = false := by
        by_contra hc'
        simp only [isBlank, Bool.or_eq_true, decide_eq_true_eq, Bool.not_eq_false] at hc'
        rcases hc' with (rfl | rfl) | rfl <;> exact absurd hc (by decide)
      simp [runLength, hne]
  have hspace : extent? ' ' name.toList = some (.space, 0) := by
    rw [extent?_eq_some_iff, ← hblank]
    exact .space _ rfl
  have hkeyword : extent? 'p' ("ackage ".toList ++ name.toList) = some (.ident, 6) := by
    rw [extent?_eq_some_iff]
    exact .ident _ (by decide)
  have hfirst : cut ("package ".toList ++ name.toList) =
      (cut (' ' :: name.toList)).map (.ident "package" :: ·) := cut_cons_some hkeyword
  have hsecond : cut (' ' :: name.toList) = (cut name.toList).map (.blank :: ·) :=
    cut_cons_some hspace
  rw [hfirst, hsecond, Option.map_map]
  rfl

/-- An identifier or a number, which ends no line and no statement. -/
private structure IsOperand (x : Lexeme) : Prop where
  kind : x.kind = .ident ∨ x.kind = .number
  text : x.text ≠ ";"

private theorem isOperand_of_cut (hcs : cs.all isIdentRest = true) (h : cut cs = some xs) :
    ∀ x ∈ xs, IsOperand x := by
  intro x hx
  refine ⟨kind_of_cut hcs h x hx, fun htext => ?_⟩
  have hmem : ';' ∈ cs := by
    rw [← chars_of_cut h]
    exact mem_flatMap.mpr ⟨x, hx, by simp [htext]⟩
  exact absurd (all_eq_true.mp hcs ';' hmem) (by decide)

private theorem terminated_operands (h : ∀ x ∈ words, IsOperand x) {last : Lexeme}
    (hlast : endsStatement (bare last) = true) :
    terminated last (words ++ [lineFeed]) = words ++ [semicolon] := by
  induction words generalizing last with
  | nil => simp [terminated_line (x := lineFeed) rfl, hlast, terminated]
  | cons x words ih =>
    rw [forall_mem_cons] at h
    have hx : x.endsLine = false ∧ x.isTrivia = false ∧ endsStatement (bare x) = true := by
      rcases h.1.kind with hkind | hkind <;>
        simp [bare, endsLine, isTrivia, endsStatement, hkind]
    rw [cons_append, terminated_word hx.1 hx.2.1, ih h.2 hx.2.2, cons_append]

private theorem segmentsFrom_operands (h : ∀ x ∈ words, IsOperand x) (current rest : List Lexeme) :
    segmentsFrom 0 current (words ++ semicolon :: rest) =
      endSegment (words.reverse ++ current) (segments rest) := by
  induction words generalizing current with
  | nil => rfl
  | cons x words ih =>
    rw [forall_mem_cons] at h
    have hx : x.is ";" = false ∧ depthAfter 0 (bare x) = 0 := by
      rcases h.1.kind with hkind | hkind <;>
        simp [bare, is, depthAfter, isOpener, hkind, h.1.text]
    rw [cons_append, segmentsFrom, hx.1, hx.2, if_neg (by simp), ih h.2]
    simp

private theorem codes?_package (hname : IsTail name) {remarks rest : List Line}
    {code : List Lexeme × List Lexeme} (hremarks : ∀ l ∈ remarks, l.Confined ∧ l.isCode = false)
    (h : codes? (Printer.linesText (remarks ++ ((Decl.package name).lines ++ rest))).toList =
      some code) :
    ∃ words, ∃ more : List Lexeme × List Lexeme, cut name.toList = some words ∧
      code.1 = .ident "package" :: (words ++ semicolon :: more.1) ∧
      code.2 = .ident "package" :: (words ++ more.2) := by
  have hconfined := Decl.package_confined hname _ (mem_singleton.mpr rfl)
  have hnone : remarks.filter Line.isCode = [] :=
    filter_eq_nil_iff.mpr fun l hl => by simp [(hremarks l hl).2]
  have hbody : Line.body ⟨0, [.ident "package", .blank, .ident name]⟩ =
      "package ".toList ++ name.toList := by
    have htext : Line.text ⟨0, [.ident "package", .blank, .ident name]⟩ ≠ "" := by
      intro hempty
      have hchars := congrArg String.toList hempty
      rw [Line.text, toList_spell] at hchars
      cases hchars
    rw [Line.body, if_neg htext]
    simp [ident, blank]
  rw [← codes?_filter fun l hl => (hremarks l hl).1, hnone, nil_append, Decl.lines,
    singleton_append, toList_linesText_cons, codes?_line hconfined, hbody,
    cut_package hname] at h
  obtain ⟨ys, more, hys, -, rfl⟩ := Option.map₂_eq_some_iff.mp h
  obtain ⟨words, hwords, rfl⟩ := Option.map_eq_some_iff.mp hys
  have hoperands := isOperand_of_cut hname hwords
  have hcode : words.filter (·.isCode) = words := by
    rw [filter_eq_self]
    intro x hx
    rcases (hoperands x hx).kind with hkind | hkind <;> simp [isCode, hkind]
  refine ⟨words, more, hwords, ?_, ?_⟩
  · rw [cons_append, cons_append, terminated_word rfl rfl, terminated_trivia rfl rfl,
      terminated_operands hoperands rfl]
    simp
  · rw [filter_cons_of_pos (by decide), filter_cons_of_neg (by decide), hcode]
    rfl

private theorem exists_of_checkTokens {tokens : List Token} (hgenuine : ∀ t ∈ tokens, t.Genuine)
    (hcheck : checkTokens tokens = .ok ()) {more : List Lexeme} (hwords : ∀ x ∈ words, IsOperand x)
    (hcode : codeFrom tokens = .ident "package" :: (words ++ semicolon :: more)) :
    ∃ x, words = [x] ∧ x.kind = .ident := by
  have hoperand : IsOperand (.ident "package") := ⟨.inl rfl, by decide⟩
  have hfirst := segmentsFrom_operands (forall_mem_cons.mpr ⟨hoperand, hwords⟩) [] more
  obtain ⟨-, clause, imports, decls, bs, hsegments, hclause, -⟩ :=
    (checkTokens_eq_ok hgenuine).mp hcheck
  rw [hcode, segments, ← cons_append, hfirst] at hsegments
  have hsame : .ident "package" :: words = clause := by
    simp only [endSegment, append_nil, isEmpty_reverse, reverse_reverse] at hsegments
    exact (List.cons.inj hsegments).1
  rw [← hsame] at hclause
  cases words with
  | nil => cases hclause
  | cons x words =>
    cases words with
    | nil =>
      rw [isClause, Bool.and_eq_true] at hclause
      exact ⟨x, rfl, of_decide_eq_true hclause.2⟩
    | cons => cases hclause

/-- After lines without code, a package clause is the first of an accepted source. -/
theorem packageClause?_of_format (hname : IsTail name) {remarks rest : List Line}
    (hremarks : ∀ l ∈ remarks, l.Confined ∧ l.isCode = false) {text : String}
    (h : format (Printer.linesText (remarks ++ ((Decl.package name).lines ++ rest))) = .ok text) :
    packageClause? text = some name := by
  obtain ⟨tokens, hchecked, rfl⟩ := format_eq_ok.mp h
  obtain ⟨hscan, hcheck⟩ := checkedTokens_eq_ok.mp hchecked
  obtain ⟨xs, hchars, hxs, rfl⟩ := exists_lexed_of_scan hscan
  have hsource :
      codes? (Printer.linesText (remarks ++ ((Decl.package name).lines ++ rest))).toList =
        some (terminated semicolon xs, xs.filter (·.isCode)) := by
    rw [codes?, hchars, cut_of_lexed hxs]
    rfl
  obtain ⟨words, more, hwords, hterminated, hfiltered⟩ := codes?_package hname hremarks hsource
  obtain ⟨x, rfl, hkind⟩ := exists_of_checkTokens (genuine_placed hxs) hcheck
    (isOperand_of_cut hname hwords) (by rwa [codeFrom, placed_map])
  have hx : x.text = name := by
    have hchars := chars_of_cut hwords
    apply String.toList_injective
    simpa using hchars
  have hcode : codeOf (placed {} xs) = .ident "package" :: x :: more.2 := by
    rw [codeOf, placed_map]
    exact hfiltered
  obtain ⟨relaid, hrelaid, hsame⟩ := exists_scan_layout hchecked
  rw [packageClause?, hrelaid]
  dsimp only
  rw [hsame, hcode]
  simp [is, ident, hkind, hx]

theorem Decl.isCode_of_isRemark {d : Decl} (h : d.isRemark = true) : ∀ l ∈ d.lines,
    l.isCode = false := by
  cases d <;> simp_all [isRemark, lines, Line.isCode, Line.blank, Line.comment, lineComment]

end Clauses

end GoBindings.Go

namespace GoBindings.Binder

open Go

theorem PlainHead.packageClause? {b : Binder} (h : b.PlainHead) {part : Part} {imports : List Decl}
    {text : String} (hformat : format (Printer.linesText (b.sourceLines part imports)) = .ok text) :
    Go.packageClause? text = some b.setup.packageName := by
  have hR : Rules.Tame ⟨IsTail, True⟩ := ⟨fun _ h => h, trivial⟩
  obtain ⟨remarks, hheader, hremarks⟩ := h.headerDecls_eq
  have hlines : ∀ l ∈ remarks.flatMap Decl.lines, l.Confined ∧ l.isCode = false := by
    intro l hl
    obtain ⟨d, hd, hl⟩ := List.mem_flatMap.mp hl
    exact ⟨Decl.lines_confined hR (hremarks d hd).1 l hl,
      Decl.isCode_of_isRemark (hremarks d hd).2 l hl⟩
  rw [sourceLines, hheader] at hformat
  simp only [List.flatMap_append, List.append_assoc] at hformat
  exact packageClause?_of_format h.package hlines hformat

end GoBindings.Binder
