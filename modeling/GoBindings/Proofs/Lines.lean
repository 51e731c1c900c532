import GoBindings.Proofs.Syntax

/-!
# Lines of valid statements

Every line of a valid statement scans, and the lines of a statement are balanced.
-/

namespace GoBindings.Go

open List Lexeme

variable {op text : String} {xs pre : List Lexeme}

/-- A line with the tabs before it and the line feed after it. -/
def Line.full (l : Line) : List Lexeme :=
  (if l.lexemes = [] then [] else indent l.depth) ++ l.lexemes ++ [lineFeed]

/-- A line that scans after any blanks. -/
structure Line.Proper (l : Line) : Prop where
  row : Row l.lexemes
  solid : ∀ x ∈ l.lexemes.head?, x.kind ≠ .space

namespace Simple

def Valid (R : Rules) : Simple → Prop
  | eval e => e.Valid R
  | assign left op right => left ≠ [] ∧ right ≠ [] ∧ Expr.ValidAll R left ∧
      Expr.ValidAll R right ∧ op ∈ [":=", "=", "+="]
  | ret values => values ≠ [] ∧ Expr.ValidAll R values

end Simple

namespace Stmt

mutual

def Valid (R : Rules) : Stmt → Prop
  | simple s => s.Valid R
  | noted s note => s.Valid R ∧ R.Note note
  | comment text => R.Note text
  | retList values t elems => Expr.ValidAll R values ∧ t.Valid R ∧ Expr.ValidAll R elems
  | ifThen init cond body => (∀ s ∈ init, s.Valid R) ∧ cond.Valid R ∧ ValidAll R body
  | ifLine cond s => cond.Valid R ∧ s.Valid R
  | typeSwitch var subject cases => IsName var ∧ subject.Valid R ∧ subject.isOperand = true ∧
      ValidCases R cases
  | switchOn subject cases => subject.Valid R ∧ ValidCases R cases
  | forRange key value subject body => IsName key ∧ IsName value ∧ subject.Valid R ∧
      ValidAll R body

def ValidAll (R : Rules) : List Stmt → Prop
  | [] => True
  | s :: ss => s.Valid R ∧ ValidAll R ss

def ValidCase (R : Rules) : Case → Prop
  | .on label body => label.Valid R ∧ ValidAll R body
  | .onNoted label note body => label.Valid R ∧ R.Note note ∧ ValidAll R body
  | .otherwise body => ValidAll R body

def ValidCases (R : Rules) : List Case → Prop
  | [] => True
  | c :: cs => ValidCase R c ∧ ValidCases R cs

end

end Stmt

section Valid

variable {R : Rules}

theorem Expr.validAll_iff {es : List Expr} : ValidAll R es ↔ ∀ e ∈ es, e.Valid R := by
  induction es with
  | nil => simp [ValidAll]
  | cons e es ih => simp [ValidAll, ih]

theorem Stmt.validAll_iff {ss : List Stmt} : ValidAll R ss ↔ ∀ s ∈ ss, s.Valid R := by
  induction ss with
  | nil => simp [ValidAll]
  | cons s ss ih => simp [ValidAll, ih]

theorem Stmt.validCases_iff {cs : List Case} : ValidCases R cs ↔ ∀ c ∈ cs, ValidCase R c := by
  induction cs with
  | nil => simp [ValidCases]
  | cons c cs ih => simp [ValidCases, ih]

end Valid

section Phrases

variable {R : Rules}
variable {s : Simple} {note : String} {ys : List Lexeme}

theorem Phrase.solid_append (h : Phrase xs) (hne : xs ≠ []) (ys : List Lexeme) :
    ∀ x ∈ (xs ++ ys).head?, x.kind ≠ .space := by
  rw [head?_append_of_ne_nil _ hne]
  exact h.solid

theorem phrase_name {n : String} (h : IsName n) : Phrase [.ident n] := .word h.stands (.inl rfl)

theorem phrase_spaced {sep : Lexeme} (hsep : sep.Stands) (hclosed : Closed [sep])
    (hk : sep.kind = .space) (hx : Phrase xs) (hy : Phrase ys) (hxn : xs ≠ []) (hyn : ys ≠ []) :
    Phrase (xs ++ sep :: ys) := by
  refine hx.between [sep] hy hxn hyn (.cons hsep hy.row ?_) hclosed ?_
  · intro y hy'
    have := hy.solid y hy'
    cases hky : y.kind <;> simp_all [meets]
  · simp only [singleton_append, head?_cons, Option.mem_def, Option.some.injEq, forall_eq']
    intro x hx'
    rcases isTail_cases (hx.tails x hx') with hkx | hkx | hkx | ⟨hkx, -⟩ <;>
      simp [meets, hk, hkx]

theorem phrase_blank (hx : Phrase xs) (hy : Phrase ys) (hxn : xs ≠ []) (hyn : ys ≠ []) :
    Phrase (xs ++ .blank :: ys) :=
  phrase_spaced stands_blank closed_blank rfl hx hy hxn hyn

theorem phrase_tab (hx : Phrase xs) (hy : Phrase ys) (hxn : xs ≠ []) (hyn : ys ≠ []) :
    Phrase (xs ++ .tab :: ys) :=
  phrase_spaced stands_tab closed_tab rfl hx hy hxn hyn

theorem Phrase.after_keyword (h : Phrase xs) (keyword : String) (hne : xs ≠ [])
    (hk : IsName keyword) : Phrase (.ident keyword :: .blank :: xs) :=
  phrase_blank (phrase_name hk) h (by simp) hne

theorem Simple.phrase (hR : R.Proper) (h : s.Valid R) : Phrase s.lexemes := by
  cases s with
  | eval e => exact e.phrase hR h
  | assign left op right =>
    obtain ⟨hl, hr, hleft, hright, hop⟩ := h
    have hops : ∀ op ∈ [":=", "=", "+="], op ∈ operators ∧ op ≠ "/" ∧
        op ∉ ["(", ")", "[", "]", "\x7b", "\x7d", ";"] := by decide
    obtain ⟨hmem, hslash, hplain⟩ := hops op hop
    exact phrase_binary _ (Expr.phraseAll hR left hleft) (Expr.phraseAll hR right hright)
      (Expr.listLexemes_ne_nil hl) (Expr.listLexemes_ne_nil hr) hmem hslash hplain
  | ret values =>
    obtain ⟨hne, hv⟩ := h
    exact (Expr.phraseAll hR values hv).after_keyword _ (Expr.listLexemes_ne_nil hne) (by decide)

theorem Simple.lexemes_ne_nil : s.lexemes ≠ [] := by
  cases s with
  | eval e => exact e.lexemes_ne_nil
  | assign | ret => simp [lexemes]

theorem Phrase.opened (h : Phrase xs) : Row (xs ++ [blank, .openBrace]) := by
  have hbrace : Row [.blank, .openBrace] :=
    .blank (.single (stands_punct (by decide) (by decide)))
      (by simp [openBrace, punct])
  refine h.row.append hbrace ?_
  simpa using fun x hx => meets_blank_of_tail (h.tails x hx)

theorem Phrase.braced (h : Phrase xs) (hne : xs ≠ []) :
    Row (.openBrace :: .blank :: (xs ++ [blank, .closeBrace])) ∧
      Closed (.openBrace :: .blank :: (xs ++ [blank, .closeBrace])) := by
  have hclose : Row [.blank, .closeBrace] :=
    .blank (.single (stands_punct (by decide) (by decide)))
      (by simp [closeBrace, punct])
  constructor
  · refine .cons (stands_punct (by decide) (by decide)) (.blank (h.row.append hclose ?_)
      (h.solid_append hne _)) (by simp [openBrace])
    simpa using fun x hx => meets_blank_of_tail (h.tails x hx)
  · have hinner := closed_blank.append (h.closed.append closed_blank)
    have hwrap : Closed (.openBrace ::
        ([blank] ++ (xs ++ [blank]) ++ [closeBrace])) :=
      .wrap rfl rfl rfl hinner.balanced
    simpa using hwrap

theorem row_note (h : '\n' ∉ note.toList) : Row (Stmt.noteLexemes note) :=
  .blank (.single (stands_lineComment h)) (by simp [lineComment])

theorem row_semicolon (hx : Phrase xs) (hy : Row ys) (hsolid : ∀ y ∈ ys.head?, y.kind ≠ .space) :
    Row (xs ++ .punct ";" :: .blank :: ys) := by
  refine hx.row.append
    (.cons (stands_punct (by decide) (by decide)) (.blank hy hsolid) (by simp)) ?_
  simpa using fun x hx' => meets_closer (by decide) (hx.tails x hx')

theorem Phrase.noted (h : Phrase xs) (hn : '\n' ∉ note.toList) :
    Row (xs ++ Stmt.noteLexemes note) := by
  refine h.row.append (row_note hn) ?_
  simpa [Stmt.noteLexemes] using fun x hx => meets_blank_of_tail (h.tails x hx)

end Phrases

section ProperLines

variable {d : Nat} {xs : List Lexeme}

theorem Phrase.proper (h : Phrase xs) : Line.Proper ⟨d, xs⟩ := ⟨h.row, h.solid⟩

theorem Line.proper_comment (h : '\n' ∉ text.toList) : (Line.comment d text).Proper :=
  ⟨.single (stands_lineComment h), by simp [Line.comment, lineComment]⟩

theorem Line.proper_punct (hop : op ∈ operators) (hslash : op ≠ "/") :
    Line.Proper ⟨d, [.punct op]⟩ := ⟨.single (stands_punct hop hslash), by simp [punct]⟩

theorem Phrase.proper_opened (h : Phrase xs) (hne : xs ≠ []) :
    Line.Proper ⟨d, xs ++ [blank, .openBrace]⟩ := ⟨h.opened, h.solid_append hne _⟩

theorem Phrase.proper_ended (h : Phrase xs) (hne : xs ≠ []) (hop : op ∈ closers) :
    Line.Proper ⟨d, xs ++ [punct op]⟩ := by
  have hops : ∀ op ∈ closers, op ∈ operators ∧ op ≠ "/" := by decide
  refine ⟨h.row.append (.single (stands_punct (hops op hop).1 (hops op hop).2)) ?_,
    h.solid_append hne _⟩
  simpa using fun x hx => meets_closer hop (h.tails x hx)

end ProperLines

section Blocks

private theorem balanced_indent (d : Nat) : Balanced (indent d) := by
  unfold indent
  split
  · exact .nil
  · exact .plain rfl rfl

theorem Balanced.full {l : Line} (h : Balanced l.lexemes) : Balanced l.full := by
  refine .append (.append ?_ h) (.plain rfl rfl)
  split
  · exact .nil
  · exact balanced_indent _

theorem balanced_flatMap {lines : List Line} (h : ∀ l ∈ lines, Balanced l.lexemes) :
    Balanced (lines.flatMap Line.full) := by
  induction lines with
  | nil => exact .nil
  | cons l lines ih =>
    exact (h l (by simp)).full.append (ih fun l' hl => h l' (by simp [hl]))

theorem flatMap_block (d : Nat) (pre : List Lexeme) (o c : Lexeme) (lines : List Line) :
    (Line.mk d (pre ++ [o]) :: lines ++ [Line.mk d [c]]).flatMap Line.full =
      indent d ++ pre ++ (o :: (lineFeed :: (lines.flatMap Line.full ++ indent d) ++ [c]) ++
        [lineFeed]) := by
  simp [Line.full]

theorem balanced_inside (d : Nat) (h : Balanced xs) : Balanced (lineFeed :: (xs ++ indent d)) :=
  .append (.plain rfl rfl) (h.append (balanced_indent d))

theorem balanced_block (d : Nat) {header : List Lexeme} {lines : List Line}
    (hheader : header = pre ++ [openBrace]) (hpre : Balanced pre)
    (hlines : Balanced (lines.flatMap Line.full)) :
    Balanced ((Line.mk d header :: lines ++ [Line.mk d [closeBrace]]).flatMap
      Line.full) := by
  rw [hheader, flatMap_block]
  exact ((balanced_indent d).append hpre).append
    (.append (.wrap rfl rfl rfl (balanced_inside d hlines)) (.plain rfl rfl))

/-- Lines that scan, and brackets that nest over all of them. -/
structure Block (lines : List Line) : Prop where
  proper : ∀ l ∈ lines, l.Proper
  balanced : Balanced (lines.flatMap Line.full)

variable {d : Nat} {header xs : List Lexeme} {lines lines' : List Line}

namespace Block

theorem nil : Block [] := ⟨by simp, .nil⟩

theorem append (h : Block lines) (h' : Block lines') : Block (lines ++ lines') := by
  refine ⟨forall_mem_append.mpr ⟨h.proper, h'.proper⟩, ?_⟩
  rw [flatMap_append]
  exact h.balanced.append h'.balanced

theorem line {l : Line} (h : l.Proper) (hbalanced : Balanced l.lexemes) : Block [l] :=
  ⟨by simpa using h, by simpa using hbalanced.full⟩

theorem map {α : Type} {f : α → Line} {as : List α} (h : ∀ a ∈ as, Block [f a]) :
    Block (as.map f) := by
  induction as with
  | nil => exact .nil
  | cons a as ih =>
    rw [forall_mem_cons] at h
    exact h.1.append (ih h.2)

theorem braced (hpre : Balanced pre) (hheader : header = pre ++ [openBrace])
    (hopen : Line.Proper ⟨d, header⟩) (h : Block lines) :
    Block (⟨d, header⟩ :: lines ++ [⟨d, [.closeBrace]⟩]) := by
  refine ⟨?_, balanced_block d hheader hpre h.balanced⟩
  rw [forall_mem_append, forall_mem_cons, forall_mem_singleton]
  exact ⟨⟨hopen, h.proper⟩, Line.proper_punct (by decide) (by decide)⟩

theorem comment (h : '\n' ∉ text.toList) : Block [.comment d text] :=
  .line (Line.proper_comment h) (.plain rfl rfl)

end Block

theorem Phrase.line (h : Phrase xs) : Block [⟨d, xs⟩] := .line h.proper h.closed.balanced

theorem Phrase.ended (h : Phrase xs) (hne : xs ≠ []) (hop : op ∈ [":", ","]) :
    Block [⟨d, xs ++ [punct op]⟩] := by
  have hops : ∀ op ∈ [":", ","], op ∈ closers ∧
      op ∉ ["(", ")", "[", "]", "\x7b", "\x7d", ";"] := by decide
  exact .line (h.proper_ended hne (hops op hop).1)
    (h.closed.append (closed_punct (hops op hop).2)).balanced

theorem Phrase.block (h : Phrase xs) (hne : xs ≠ [])
    (hheader : header = xs ++ [blank, .openBrace]) (hlines : Block lines) :
    Block (⟨d, header⟩ :: lines ++ [⟨d, [.closeBrace]⟩]) :=
  .braced (h.closed.append closed_blank).balanced (by simp [hheader])
    (hheader ▸ h.proper_opened hne) hlines

end Blocks

namespace Stmt

variable {R : Rules}

private theorem balanced_note (note : String) : Balanced (noteLexemes note) :=
  .append (.plain rfl rfl) (.plain rfl rfl)

mutual

/-- The lines of a valid statement scan, and its brackets nest. -/
theorem lines_block (hR : R.Proper) (d : Nat) : (s : Stmt) → s.Valid R → Block (s.lines d)
  | simple s, h => (s.phrase hR h).line
  | noted s note, h => by
    have hs := s.phrase hR h.1
    exact .line ⟨hs.noted (h.2 hR.strict), hs.solid_append Simple.lexemes_ne_nil _⟩
      (hs.closed.balanced.append (balanced_note note))
  | comment text, h => .comment (h hR.strict)
  | retList values t elems, h => by
    obtain ⟨hv, ht, he⟩ := h
    have hall : Expr.ValidAll R (values ++ [Expr.type t]) := by
      rw [Expr.validAll_iff] at hv ⊢
      simpa [or_imp, forall_and, Expr.Valid] using ⟨hv, ht⟩
    have hlist := (Expr.phraseAll hR _ hall).after_keyword "return"
      (Expr.listLexemes_ne_nil (by simp)) (by decide)
    refine .braced hlist.closed.balanced rfl (hlist.proper_ended (by simp) (by decide))
      (.map fun e hmem => ?_)
    exact (e.phrase hR (Expr.validAll_iff.mp he e hmem)).ended e.lexemes_ne_nil (by decide)
  | ifThen init cond body, h => by
    have hc := cond.phrase hR h.2.1
    have hbody := linesAll_block hR (d + 1) body h.2.2
    cases init with
    | none =>
      exact (hc.after_keyword "if" cond.lexemes_ne_nil (by decide)).block (by simp) rfl hbody
    | some s =>
      have hs := (s.phrase hR (h.1 s rfl)).after_keyword "if" Simple.lexemes_ne_nil (by decide)
      have hopened := hc.proper_opened (d := d) cond.lexemes_ne_nil
      have hsemicolon : Balanced [.punct ";"] := .plain rfl rfl
      have hpre := hs.closed.balanced.append (hsemicolon.append
        (closed_blank.append (hc.closed.append closed_blank)).balanced)
      exact .braced hpre (by simp) ⟨by simpa using row_semicolon hs hopened.row hopened.solid,
        by simp [ident]⟩ hbody
  | ifLine cond s, h => by
    have hc := (cond.phrase hR h.1).after_keyword "if" cond.lexemes_ne_nil (by decide)
    obtain ⟨hs, hclosed⟩ := (s.phrase hR h.2).braced Simple.lexemes_ne_nil
    have hright := hs.blank (by simp [openBrace, punct])
    have hrow := hc.row.append hright (by
      simpa using fun x hx => meets_blank_of_tail (hc.tails x hx))
    refine .line ⟨by simpa using hrow, by simp [ident]⟩ ?_
    simpa using (hc.closed.append (closed_blank.append hclosed)).balanced
  | typeSwitch var subject cases, h => by
    have htype := phrase_assert (subject.phrase hR h.2.1) (phrase_name (n := "type") (by decide))
      subject.lexemes_ne_nil (Expr.isFirm_of_isOperand h.2.2.1)
    have hbind := phrase_binary ":=" (phrase_name h.1) htype (by simp) (by simp)
      (by decide) (by decide) (by decide)
    exact (hbind.after_keyword "switch" (by simp) (by decide)).block (by simp) (by simp)
      (linesCases_block hR d cases h.2.2.2)
  | switchOn subject cases, h =>
    ((subject.phrase hR h.1).after_keyword "switch" subject.lexemes_ne_nil (by decide)).block
      (by simp) rfl (linesCases_block hR d cases h.2)
  | forRange key value subject body, h => by
    have hrange := (subject.phrase hR h.2.2.1).after_keyword "range" subject.lexemes_ne_nil
      (by decide)
    have hbind := phrase_binary ":=" (phrase_name h.2.1) hrange (by simp)
      (by simp) (by decide) (by decide) (by decide)
    have hboth := phrase_comma (phrase_name h.1) hbind (by simp) (by simp)
    exact (hboth.after_keyword "for" (by simp) (by decide)).block (by simp) (by simp)
      (linesAll_block hR (d + 1) body h.2.2.2)

theorem linesAll_block (hR : R.Proper) (d : Nat) :
    (ss : List Stmt) → ValidAll R ss → Block (linesAll d ss)
  | [], _ => .nil
  | s :: ss, h => (lines_block hR d s h.1).append (linesAll_block hR d ss h.2)

theorem linesCase_block (hR : R.Proper) (d : Nat) :
    (c : Case) → ValidCase R c → Block (linesCase d c)
  | .on label body, h => by
    have hlabel := (label.phrase hR h.1).after_keyword "case" label.lexemes_ne_nil (by decide)
    exact (hlabel.ended (by simp) (by decide)).append (linesAll_block hR (d + 1) body h.2)
  | .onNoted label note body, h => by
    have hlabel := (label.phrase hR h.1).after_keyword "case" label.lexemes_ne_nil (by decide)
    have hcolon : Line.Proper ⟨d, _ ++ [punct ":"]⟩ :=
      hlabel.proper_ended (by simp) (by decide)
    have hrow := hcolon.row.append (row_note (h.2.1 hR.strict)) (by
      simp [noteLexemes, getLast?_cons])
    have hbalanced := (hlabel.closed.append closed_colon).balanced.append (balanced_note note)
    exact (Block.line (l := ⟨d, _⟩) ⟨by simpa using hrow, by simp [ident]⟩
      (by simpa using hbalanced)).append (linesAll_block hR (d + 1) body h.2.2)
  | .otherwise body, h =>
    ((phrase_name (n := "default") (by decide)).ended (by simp) (by decide)).append
      (linesAll_block hR (d + 1) body h)

theorem linesCases_block (hR : R.Proper) (d : Nat) :
    (cs : List Case) → ValidCases R cs → Block (linesCases d cs)
  | [], _ => .nil
  | c :: cs, h => (linesCase_block hR d c h.1).append (linesCases_block hR d cs h.2)

end

end Stmt

end GoBindings.Go
