import GoBindings.Proofs.Files
import Mathlib.Data.List.Find
import Mathlib.Data.Option.NAry

/-!
# Lines that keep to themselves

A text is cut into lexemes piece by piece where each piece ends before a mark: a quote, a slash, or
a line feed. A line that is made of such pieces is cut as if it stood alone, so that comments on
lines of their own change nothing but comments.
-/

namespace GoBindings.Go

open List Text Lexeme

variable {c : Char} {l : Line} {ls : List Line}

section Cutting

variable {cs : List Char} {xs : List Lexeme}
variable {before : Lexeme}

/-- The lexemes of a text, of which a star may follow a slash. -/
def cut : List Char → Option (List Lexeme)
  | [] => some []
  | c :: cs =>
    match extent? c cs with
    | none => none
    | some (kind, n) => (cut (cs.drop n)).map (⟨kind, String.ofList (c :: cs.take n)⟩ :: ·)
termination_by cs => cs.length
decreasing_by simp only [length_drop, length_cons]; omega

@[simp] theorem cut_nil : cut [] = some [] := by rw [cut]

theorem cut_cons_none (h : extent? c cs = none) : cut (c :: cs) = none := by
  rw [cut, h]

theorem cut_cons_some {kind : Kind} {n : Nat} (h : extent? c cs = some (kind, n)) :
    cut (c :: cs) = (cut (cs.drop n)).map (⟨kind, String.ofList (c :: cs.take n)⟩ :: ·) := by
  rw [cut, h]

theorem Lexeme.Fits.cut_append {x : Lexeme} {rest : List Char} (h : x.Fits rest) :
    cut (x.text.toList ++ rest) = (cut rest).map (x :: ·) := by
  obtain ⟨c, cs, htext, hextent⟩ := h
  have hx : x = ⟨x.kind, String.ofList (c :: cs)⟩ := by rw [← htext, String.ofList_toList]
  rw [htext, cons_append, cut_cons_some hextent, drop_left, take_left, ← hx]

theorem chars_of_cut (h : cut cs = some xs) : chars xs = cs := by
  fun_induction cut cs generalizing xs with
  | case1 => obtain rfl := Option.some.inj h; rfl
  | case2 => cases h
  | case3 c cs kind n hextent ih =>
    obtain ⟨ys, hys, rfl⟩ := Option.map_eq_some_iff.mp h
    simp [ih hys]

theorem lexed_of_cut (h : cut cs = some xs) (hbefore : before.is "/" = false)
    (hslash : ∀ x ∈ xs, x.is "/" = false) : Lexed before xs := by
  fun_induction cut cs generalizing before xs with
  | case1 => obtain rfl := Option.some.inj h; trivial
  | case2 => cases h
  | case3 c cs kind n hextent ih =>
    obtain ⟨ys, hys, rfl⟩ := Option.map_eq_some_iff.mp h
    rw [forall_mem_cons] at hslash
    refine ⟨⟨c, cs.take n, String.toList_ofList, ?_⟩, by simp [hbefore], ih hys hslash.1 hslash.2⟩
    have hn := (Extent.of_extent? hextent).le
    rw [chars_of_cut hys, take_append_drop, hextent, length_take, Nat.min_eq_left hn]

theorem cut_of_lexed (h : Lexed before xs) : cut (chars xs) = some xs := by
  induction xs generalizing before with
  | nil => exact cut_nil
  | cons x xs ih =>
    obtain ⟨hx, -, hxs⟩ := h
    rw [chars_cons, hx.cut_append, ih hxs]
    rfl

end Cutting

section Marks

variable {p : Char → Bool}

/-- Characters at which a literal, a comment or a line may begin. -/
def isMark (c : Char) : Bool :=
  c = '"' || c = '\'' || c = rawQuote || c = '/' || c = '\n'

/-- The text is over or goes on with a mark. -/
def AtMark (cs : List Char) : Prop := ∀ c ∈ cs.head?, isMark c = true

variable {rest : List Char}

theorem AtMark.append {cs : List Char} (h : AtMark cs) (hrest : AtMark rest) :
    AtMark (cs ++ rest) := by
  cases cs with
  | nil => exact hrest
  | cons c cs => exact h

private theorem isMark_cases (h : isMark c = true) : c ∈ ['"', '\'', rawQuote, '/', '\n'] := by
  simpa [isMark, or_assoc] using h

theorem eq_false_of_isMark (hp : ['"', '\'', rawQuote, '/', '\n'].all (fun c => !p c) = true)
    (h : isMark c = true) : p c = false := by
  simpa using all_eq_true.mp hp c (isMark_cases h)

private theorem runLength_append (hp : ∀ c, isMark c = true → p c = false) (u : List Char)
    (h : AtMark rest) : runLength p (u ++ rest) = runLength p u := by
  simp only [runLength]
  induction u with
  | nil =>
    cases rest with
    | nil => rfl
    | cons c rest => simp [hp c (h c rfl)]
  | cons c u ih =>
    rw [cons_append, takeWhile_cons, takeWhile_cons]
    split
    · simp [ih]
    · rfl

private theorem numberLength_append (u : List Char) (h : AtMark rest) :
    numberLength (u ++ rest) = numberLength u := by
  have hstop {c : Char} (hc : isMark c = true) : isNumberRest c = false ∧ isSign c = false ∧
      isExponent c = false :=
    ⟨eq_false_of_isMark (by decide) hc, eq_false_of_isMark (by decide) hc,
      eq_false_of_isMark (by decide) hc⟩
  have hrest : numberLength rest = 0 := by
    match rest, h with
    | [], _ => rfl
    | [c], h => simp [numberLength, hstop (h c rfl)]
    | c :: d :: rest, h => simp [numberLength, hstop (h c rfl)]
  fun_induction numberLength u with
  | case1 => exact hrest
  | case2 c hc | case3 c hc =>
    cases rest with
    | nil => simp [numberLength, hc]
    | cons d rest => simp [numberLength, hc, hrest, (hstop (h d rfl)).2.1]
  | case4 c d cs hcd ih => simp [numberLength, hcd, ih]
  | case5 c d cs hcd hc ih =>
    rw [cons_append, cons_append, numberLength, if_neg hcd, if_pos hc,
      ← cons_append, ih]
  | case6 c d cs hcd hc => simp [numberLength, hcd, hc]

private theorem operators_marks : ∀ op ∈ operators, op.toList.head? = some '/' ∨
    op.toList.all (fun c => !isMark c) = true := by
  decide

private theorem isSome_dropStart?_append {op : List Char} (hop : op.all (fun c => !isMark c) = true)
    (u : List Char) (h : AtMark rest) :
    (dropStart? op (u ++ rest)).isSome = (dropStart? op u).isSome := by
  induction op generalizing u with
  | nil => simp [dropStart?]
  | cons d ds ih =>
    rw [all_cons, Bool.and_eq_true] at hop
    cases u with
    | nil =>
      cases rest with
      | nil => rfl
      | cons c rest =>
        have hdc : d ≠ c := by
          rintro rfl
          simp [h d rfl] at hop
        simp [dropStart?, hdc]
    | cons c u =>
      rw [cons_append, dropStart?, dropStart?]
      split
      · exact ih hop.2 u
      · rfl

private theorem operatorLength_append (hc : isMark c = false) (u : List Char) (h : AtMark rest) :
    operatorLength? (c :: (u ++ rest)) = operatorLength? (c :: u) := by
  rw [operatorLength?]
  congr 1
  refine find?_congr fun op hop => ?_
  rcases operators_marks op hop with hslash | hplain
  · obtain ⟨ds, hds⟩ := head?_eq_some_iff.mp hslash
    have hne : '/' ≠ c := by rintro rfl; exact absurd hc (by decide)
    rw [hds, dropStart?, dropStart?, if_neg hne, if_neg hne]
  · exact isSome_dropStart?_append hplain (c :: u) h

theorem extent?_append (hc : isMark c = false) (u : List Char) (h : AtMark rest) :
    extent? c (u ++ rest) = extent? c u := by
  have hne : ∀ d ∈ ['"', '\'', rawQuote, '/', '\n'], c ≠ d := by
    rintro d hd rfl
    have hmarks : ['"', '\'', rawQuote, '/', '\n'].all isMark = true := by decide
    simp [all_eq_true.mp hmarks c hd] at hc
  simp only [forall_mem_cons] at hne
  obtain ⟨hquote, hrune, hraw, hslash, hline⟩ := hne
  have hblank := runLength_append (fun _ => eq_false_of_isMark (p := isBlank) (by decide)) u h
  have hident := runLength_append (fun _ => eq_false_of_isMark (p := isIdentRest) (by decide)) u h
  simp only [extent?, hslash, hquote, hrune, hraw, if_false, decide_false, Bool.or_self,
    Bool.false_eq_true, hblank, hident, numberLength_append u h, operatorLength_append hc u h]
  -- Only a dot looks at the next character.
  cases u with
  | nil =>
    cases rest with
    | nil => rfl
    | cons d rest =>
      have hdigit : d.isDigit = false := eq_false_of_isMark (by decide) (h d rfl)
      simp [hdigit]
  | cons d u => simp only [cons_append, numberLength_append u h]

end Marks

section Apart

/-- A text that is cut by itself where such a text follows, without a slash that stands alone. -/
structure Apart (follows : List Char → Prop) (cs : List Char) : Prop where
  cut_append : ∀ rest, follows rest →
    cut (cs ++ rest) = Option.map₂ (· ++ ·) (cut cs) (cut rest)
  slashless : ∀ xs, cut cs = some xs → ∀ x ∈ xs, x.is "/" = false

variable {follows : List Char → Prop} {cs ds : List Char}

theorem Apart.append (hcs : Apart AtMark cs) (hds : Apart follows ds) (hmark : AtMark ds)
    (hfollows : ∀ rest, follows rest → AtMark (ds ++ rest)) : Apart follows (cs ++ ds) := by
  have hcut := hcs.cut_append ds hmark
  refine ⟨fun rest hrest => ?_, fun xs hxs => ?_⟩
  · rw [append_assoc, hcs.cut_append _ (hfollows rest hrest), hds.cut_append rest hrest, hcut,
      Option.map₂_assoc append_assoc]
  · rw [hcut] at hxs
    obtain ⟨ys, zs, hys, hzs, rfl⟩ := Option.map₂_eq_some_iff.mp hxs
    exact forall_mem_append.mpr ⟨hcs.slashless ys hys, hds.slashless zs hzs⟩

/-- A text without marks. -/
def IsRun (cs : List Char) : Prop := ∀ c ∈ cs, isMark c = false

instance (cs : List Char) : Decidable (IsRun cs) :=
  decidable_of_iff (cs.all (fun c => !isMark c) = true) (by simp [IsRun])

theorem IsRun.cut_append (h : IsRun cs) {rest : List Char} (hrest : AtMark rest) :
    cut (cs ++ rest) = Option.map₂ (· ++ ·) (cut cs) (cut rest) := by
  fun_induction cut cs with
  | case1 => cases hcut : cut rest <;> simp [hcut]
  | case2 c cs hextent =>
    rw [cons_append, cut_cons_none (by rw [extent?_append (h c (by simp)) cs hrest, hextent])]
    rfl
  | case3 c cs kind n hextent ih =>
    have hn := (Extent.of_extent? hextent).le
    have hcons : extent? c (cs ++ rest) = some (kind, n) := by
      rw [extent?_append (h c (by simp)) cs hrest, hextent]
    rw [cons_append, cut_cons_some hcons, drop_append_of_le_length hn,
      take_append_of_le_length hn, ih fun d hd => h d (by simp [mem_of_mem_drop hd])]
    cases cut (cs.drop n) <;> cases cut rest <;> simp

theorem IsRun.apart (h : IsRun cs) : Apart AtMark cs := by
  refine ⟨fun rest hrest => h.cut_append hrest, fun xs hxs x hx => ?_⟩
  by_contra his
  have htext := text_of_is (by simpa using his)
  have hmem : '/' ∈ cs := by
    rw [← chars_of_cut hxs]
    exact mem_flatMap.mpr ⟨x, hx, by simp [htext]⟩
  exact absurd (h '/' hmem) (by decide)

theorem IsRun.append (hcs : IsRun cs) (hds : IsRun ds) : IsRun (cs ++ ds) :=
  forall_mem_append.mpr ⟨hcs, hds⟩

theorem Lexeme.Stands.cut {x : Lexeme} (h : x.Stands) : cut x.text.toList = some [x] := by
  rw [← append_nil x.text.toList, h.1.cut_append]
  simp

theorem Lexeme.Stands.apart {x : Lexeme} (h : x.Stands)
    (hfits : ∀ rest, follows rest → x.Fits rest) : Apart follows x.text.toList := by
  refine ⟨fun rest hrest => ?_, fun xs hxs => ?_⟩
  · rw [(hfits rest hrest).cut_append, h.cut]
    cases Go.cut rest <;> simp
  · cases h.cut.symm.trans hxs
    simpa using h.2

end Apart

section Confined

variable {x : Lexeme}

/-- A lexeme that begins with a mark and fits wherever it stands. -/
structure Lexeme.Sealed (x : Lexeme) : Prop where
  stands : x.Stands
  mark : AtMark x.text.toList
  fits : ∀ rest, x.Fits rest

/-- A lexeme of code that is sealed, or that has no marks, however it is cut. -/
structure Lexeme.Confined (x : Lexeme) : Prop where
  code : x.kind ≠ .comment
  closed : IsRun x.text.toList ∨ x.Sealed

theorem Lexeme.Stands.mark (h : x.Stands)
    (hkind : x.kind = .literal ∨ x.kind = .comment) : AtMark x.text.toList := by
  obtain ⟨c, cs, htext, hbegins⟩ := h.1.begins
  intro d hd
  obtain rfl : c = d := by simpa [htext] using hd
  rcases hkind with hkind | hkind <;> rw [hkind] at hbegins
  · rcases hbegins with rfl | rfl | rfl <;> decide
  · obtain rfl : c = '/' := hbegins
    decide

theorem Lexeme.Stands.sealed (h : x.Stands) (hkind : x.kind = .literal) : x.Sealed := by
  refine ⟨h, h.mark (.inl hkind), fun rest => ?_⟩
  cases rest with
  | nil => exact h.1
  | cons c rest =>
    refine h.followed rest ?_ ?_ ?_ ?_ ?_ <;> intro hother <;> simp [hkind] at hother

def Confined (xs : List Lexeme) : Prop := ∀ x ∈ xs, x.Confined

@[simp] theorem confined_nil : Confined [] := by simp [Confined]

@[simp] theorem confined_cons : Confined (x :: xs) ↔ x.Confined ∧ Confined xs := forall_mem_cons

@[simp] theorem confined_append {ys : List Lexeme} :
    Confined (xs ++ ys) ↔ Confined xs ∧ Confined ys := forall_mem_append

variable {xs : List Lexeme}

theorem apart_chars (h : Confined xs) {run : List Char} (hrun : IsRun run) :
    Apart AtMark (run ++ chars xs) := by
  induction xs generalizing run with
  | nil => simpa using hrun.apart
  | cons x xs ih =>
    obtain ⟨hx, hxs⟩ := confined_cons.mp h
    rw [chars_cons]
    rcases hx.closed with hx | hx
    · rw [← append_assoc]
      exact ih hxs (hrun.append hx)
    · have hrest : Apart AtMark (chars xs) := by
        simpa using ih hxs (by simp [IsRun] : IsRun [])
      have hmark {rest : List Char} : AtMark (x.text.toList ++ rest) := by
        obtain ⟨c, cs, htext, -⟩ := hx.fits []
        have := hx.mark
        rw [htext] at this ⊢
        exact this
      refine hrun.apart.append ⟨fun rest hfollows => ?_, fun ys hys => ?_⟩ hmark ?_
      · rw [append_assoc, (hx.fits _).cut_append, (hx.fits _).cut_append,
          hrest.cut_append rest hfollows]
        cases cut (chars xs) <;> cases cut rest <;> simp
      · rw [(hx.fits _).cut_append] at hys
        obtain ⟨zs, hzs, rfl⟩ := Option.map_eq_some_iff.mp hys
        exact forall_mem_cons.mpr ⟨hx.stands.2, hrest.slashless zs hzs⟩
      · intro rest _
        rw [append_assoc]
        exact hmark

/-- The text goes on with a line feed. -/
def AtLineFeed (cs : List Char) : Prop := ∃ rest, cs = '\n' :: rest

theorem Lexeme.Stands.apart_comment (h : x.Stands) (hkind : x.kind = .comment) :
    Apart AtLineFeed x.text.toList := by
  refine h.apart ?_
  rintro _ ⟨rest, rfl⟩
  refine h.followed rest ?_ ?_ ?_ (fun _ => rfl) ?_ <;> intro hother <;> simp [hkind] at hother

/-- A line of confined lexemes, with or without a comment at its end. -/
def Line.Confined (l : Line) : Prop :=
  ∃ xs, ∃ note : Option Lexeme, l.lexemes = xs ++ note.toList ∧ Go.Confined xs ∧
    ∀ x ∈ note, x.kind = .comment ∧ x.Stands

/-- Whether there is more than a comment on a line. -/
def Line.isCode (l : Line) : Bool := l.lexemes.any (·.kind ≠ .comment)

/-- A line without its line feed. -/
def Line.body (l : Line) : List Char :=
  if l.text = "" then [] else replicate l.depth '\t' ++ chars l.lexemes

private theorem isRun_tabs (n : Nat) : IsRun (replicate n '\t') := by
  intro c hc
  rw [eq_of_mem_replicate hc]
  decide

private theorem atMark_of_atLineFeed {cs : List Char} (h : AtLineFeed cs) : AtMark cs := by
  obtain ⟨rest, rfl⟩ := h
  simp +decide [AtMark]

theorem Line.Confined.apart (h : l.Confined) : Apart AtLineFeed l.body := by
  have hline {cs : List Char} (hcs : Apart AtMark cs) : Apart AtLineFeed cs :=
    ⟨fun rest hrest => hcs.cut_append rest (atMark_of_atLineFeed hrest), hcs.slashless⟩
  obtain ⟨xs, note, hlexemes, hxs, hnote⟩ := h
  rw [Line.body]
  split
  · exact hline (IsRun.apart (by simp [IsRun]))
  · have hcode := apart_chars hxs (isRun_tabs l.depth)
    rw [hlexemes]
    cases note with
    | none => simpa using hline hcode
    | some x =>
      obtain ⟨hkind, hstands⟩ := hnote x rfl
      have hmark := hstands.mark (.inr hkind)
      simpa using hcode.append (hstands.apart_comment hkind) hmark
        fun rest hrest => hmark.append (atMark_of_atLineFeed hrest)

theorem toList_linesText_cons (l : Line) (ls : List Line) :
    (Printer.linesText (l :: ls)).toList =
      l.body ++ '\n' :: (Printer.linesText ls).toList := by
  have htext : l.text.toList = chars l.lexemes := toList_spell _
  rw [Line.body]
  by_cases hempty : l.text = "" <;>
    simp [Printer.linesText, Printer.lineText, hempty, htext, repeated]

theorem cut_lineFeed (rest : List Char) : cut ('\n' :: rest) = (cut rest).map (lineFeed :: ·) := by
  have hfits : lineFeed.Fits rest := by
    refine ⟨'\n', [], rfl, ?_⟩
    rw [extent?_eq_some_iff]
    exact .newline _
  exact hfits.cut_append

theorem Line.Confined.cut (h : l.Confined) (rest : List Char) :
    cut (l.body ++ '\n' :: rest) =
      Option.map₂ (fun xs ys => xs ++ lineFeed :: ys) (cut l.body) (cut rest) := by
  rw [h.apart.cut_append _ ⟨rest, rfl⟩, cut_lineFeed]
  cases Go.cut l.body <;> cases Go.cut rest <;> rfl

theorem slashless_linesText (h : ∀ l ∈ ls, l.Confined)
    (hcut : cut (Printer.linesText ls).toList = some xs) : ∀ x ∈ xs, x.is "/" = false := by
  induction ls generalizing xs with
  | nil =>
    obtain rfl : [] = xs := by simpa [Printer.linesText] using hcut
    simp
  | cons l ls ih =>
    rw [forall_mem_cons] at h
    rw [toList_linesText_cons, h.1.cut] at hcut
    obtain ⟨ys, zs, hys, hzs, rfl⟩ := Option.map₂_eq_some_iff.mp hcut
    simp only [forall_mem_append, forall_mem_cons]
    exact ⟨h.1.apart.slashless ys hys, rfl, ih h.2 hzs⟩

end Confined

section Code

variable {ls' : List Line} {tokens : List Token}

/-- Whether the lexeme is neither a comment nor a blank nor a line feed. -/
def Lexeme.isCode (x : Lexeme) : Bool :=
  x.kind ≠ .comment && x.kind ≠ .space && x.kind ≠ .newline

/-- The tokens of a source without comments, blanks and line feeds, and without their places. -/
def codeOf (tokens : List Token) : List Lexeme := (tokens.map (·.toLexeme)).filter (·.isCode)

theorem filter_wordsOf (tokens : List Token) :
    (wordsOf tokens).filter (·.isCode) = codeOf tokens := by
  rw [wordsOf, filter_filter]
  congr 1
  funext x
  cases hkind : x.kind <;> simp [isCode, isWord, hkind]

/-- The code of a text from the beginning of a statement on, with a semicolon at each line end that
ends a statement and without. -/
def codes? (cs : List Char) : Option (List Lexeme × List Lexeme) :=
  (cut cs).map fun xs => (terminated semicolon xs, xs.filter (·.isCode))

theorem codes?_line (h : l.Confined) (rest : List Char) :
    codes? (l.body ++ '\n' :: rest) =
      Option.map₂ (fun xs code => (terminated semicolon (xs ++ [lineFeed]) ++ code.1,
        xs.filter (·.isCode) ++ code.2)) (cut l.body) (codes? rest) := by
  have hcode (xs ys : List Lexeme) : (xs ++ lineFeed :: ys).filter (·.isCode) =
      xs.filter (·.isCode) ++ ys.filter (·.isCode) := by
    rw [filter_append, filter_cons_of_neg (by decide)]
  rw [codes?, codes?, h.cut]
  cases cut l.body with
  | none => rfl
  | some xs =>
    cases cut rest with
    | none => rfl
    | some ys => exact congrArg some (Prod.ext (terminated_append_line xs ys rfl) (hcode xs ys))

private theorem cut_tabs (n : Nat) :
    ∃ xs, cut (replicate n '\t') = some xs ∧ ∀ x ∈ xs, x.isTrivia = true := by
  cases n with
  | zero => exact ⟨[], cut_nil, by simp⟩
  | succ n =>
    have hrun : runLength isBlank (replicate n '\t') = n := by
      simp [runLength, isBlank]
    have hextent : extent? '\t' (replicate n '\t') = some (.space, n) := by
      rw [extent?_eq_some_iff]
      simpa only [hrun] using Extent.space (replicate n '\t') rfl
    rw [replicate_succ, cut_cons_some hextent, drop_of_length_le (by simp), cut_nil]
    exact ⟨_, rfl, by simp [isTrivia]⟩

private theorem cut_remark (h : l.Confined) (hcode : l.isCode = false) :
    ∃ xs, cut l.body = some xs ∧ ∀ x ∈ xs, x.isTrivia = true := by
  obtain ⟨xs, note, hlexemes, hxs, hnote⟩ := h
  obtain rfl : xs = [] := by
    cases xs with
    | nil => rfl
    | cons x xs => simp [Line.isCode, hlexemes, (hxs x (by simp)).code] at hcode
  rw [Line.body]
  split
  · exact ⟨[], cut_nil, by simp⟩
  · rename_i htext
    cases note with
    | none => exact absurd (by rw [Line.text, hlexemes]; rfl) htext
    | some x =>
      obtain ⟨hkind, hstands⟩ := hnote x rfl
      obtain ⟨tabs, htabs, htrivia⟩ := cut_tabs l.depth
      have hchars : chars l.lexemes = x.text.toList := by simp [hlexemes]
      refine ⟨tabs ++ [x], ?_, ?_⟩
      · rw [hchars, (isRun_tabs l.depth).cut_append (hstands.mark (.inr hkind)), htabs,
          hstands.cut]
        rfl
      · rw [forall_mem_append]
        exact ⟨htrivia, by simp [isTrivia, hkind]⟩

/-- Lines without code are read as if they were not there. -/
theorem codes?_filter (h : ∀ l ∈ ls, l.Confined) (rest : List Line) :
    codes? (Printer.linesText (ls.filter Line.isCode ++ rest)).toList =
      codes? (Printer.linesText (ls ++ rest)).toList := by
  induction ls with
  | nil => rfl
  | cons l ls ih =>
    rw [forall_mem_cons] at h
    rw [cons_append, toList_linesText_cons, codes?_line h.1, ← ih h.2]
    cases hcode : l.isCode with
    | true =>
      rw [filter_cons_of_pos hcode, cons_append, toList_linesText_cons, codes?_line h.1]
    | false =>
      obtain ⟨xs, hcut, htrivia⟩ := cut_remark h.1 hcode
      have hnone : terminated semicolon (xs ++ [lineFeed]) = [] :=
        terminated_of_trivia (forall_mem_append.mpr
          ⟨fun x hx => .inr (htrivia x hx), forall_mem_singleton.mpr (.inl rfl)⟩)
      have hfilter : xs.filter (·.isCode) = [] := by
        rw [filter_eq_nil_iff]
        intro x hx
        have := htrivia x hx
        cases hkind : x.kind <;> simp_all [isTrivia, isCode]
      rw [filter_cons_of_neg (by simp [hcode]), hcut]
      cases codes? (Printer.linesText (ls.filter Line.isCode ++ rest)).toList <;>
        simp [hnone, hfilter]

/-- Sources with the same lines of code are accepted alike, and have the same code. -/
theorem checkedTokens_of_code (h : ∀ l ∈ ls, l.Confined) (h' : ∀ l ∈ ls', l.Confined)
    (hcode : ls.filter Line.isCode = ls'.filter Line.isCode)
    (hchecked : checkedTokens (Printer.linesText ls) = .ok tokens) :
    ∃ tokens', checkedTokens (Printer.linesText ls') = .ok tokens' ∧
      codeOf tokens' = codeOf tokens := by
  obtain ⟨hscan, hcheck⟩ := checkedTokens_eq_ok.mp hchecked
  obtain ⟨xs, hchars, hxs, rfl⟩ := exists_lexed_of_scan hscan
  have hcodes : codes? (Printer.linesText ls').toList =
      some (terminated semicolon xs, xs.filter (·.isCode)) := by
    have hfilter := codes?_filter h []
    have hfilter' := codes?_filter h' []
    simp only [append_nil] at hfilter hfilter'
    rw [← hfilter', ← hcode, hfilter, codes?, hchars, cut_of_lexed hxs]
    rfl
  obtain ⟨ys, hcut, hys⟩ := Option.map_eq_some_iff.mp hcodes
  obtain ⟨hterminated, hfiltered⟩ := Prod.mk.inj hys
  have hlexed : Lexed sourceStart ys := lexed_of_cut hcut rfl (slashless_linesText h' hcut)
  refine ⟨placed {} ys,
    checkedTokens_eq_ok.mpr ⟨scan_spell (chars_of_cut hcut).symm hlexed, ?_⟩, ?_⟩
  · refine checkTokens_of_code (genuine_placed hxs) (genuine_placed hlexed) ?_ hcheck
    rw [codeFrom, codeFrom, placed_map, placed_map, hterminated]
  · rw [codeOf, codeOf, placed_map, placed_map, hfiltered]

theorem exists_scan_layout {source : String} (h : checkedTokens source = .ok tokens) :
    ∃ relaid, scan (layout tokens) = .ok relaid ∧ codeOf relaid = codeOf tokens := by
  have hwords : gappedWords ((placed {} (relaid (tokens.map (·.toLexeme)))).map (·.toLexeme)) =
      gappedWords (tokens.map (·.toLexeme)) := by
    rw [placed_map, gappedWords_relaid]
  refine ⟨_, (checkedTokens_eq_ok.mp (checkedTokens_layout h)).1, ?_⟩
  rw [← filter_wordsOf, ← filter_wordsOf, ← map_snd_gappedWords, ← map_snd_gappedWords, hwords]

theorem format_of_code (h : ∀ l ∈ ls, l.Confined) (h' : ∀ l ∈ ls', l.Confined)
    (hcode : ls.filter Line.isCode = ls'.filter Line.isCode) {text : String}
    (hformat : format (Printer.linesText ls) = .ok text) :
    ∃ text' tokens tokens', format (Printer.linesText ls') = .ok text' ∧ scan text = .ok tokens ∧
      scan text' = .ok tokens' ∧ codeOf tokens' = codeOf tokens := by
  obtain ⟨tokens, hchecked, rfl⟩ := format_eq_ok.mp hformat
  obtain ⟨tokens', hchecked', hsame⟩ := checkedTokens_of_code h h' hcode hchecked
  obtain ⟨relaid, hrelaid, hcode⟩ := exists_scan_layout hchecked
  obtain ⟨relaid', hrelaid', hcode'⟩ := exists_scan_layout hchecked'
  exact ⟨layout tokens', relaid, relaid', format_eq_ok.mpr ⟨tokens', hchecked', rfl⟩, hrelaid,
    hrelaid', by rw [hcode', hsame, hcode]⟩

end Code

end GoBindings.Go
