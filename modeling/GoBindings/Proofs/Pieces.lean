import GoBindings.Go.Decl
import GoBindings.Proofs.Nesting
import GoBindings.Proofs.QuotedText

/-!
# Pieces of lines

The lexemes that generated code is made of scan by themselves, and pieces of a line can be put
together where the lexemes at the joint do not run into each other.
-/

namespace GoBindings.Go

open List Lexeme

variable {xs : List Lexeme} {x : Lexeme} {o c : String}
variable {op : String} {ys : List Lexeme}

/-- Whether the lexeme scans by itself. -/
def Lexeme.scansAlone (x : Lexeme) : Bool :=
  match x.text.toList with
  | [] => false
  | c :: cs => extent? c cs = some (x.kind, cs.length)

theorem Lexeme.scansAlone_iff : x.scansAlone = true ↔ x.Fits [] := by
  rw [scansAlone, Fits]
  cases x.text.toList with
  | nil => simp
  | cons c cs => simp

theorem Lexeme.text_of_is {text : String} (h : x.is text = true) : x.text = text := by
  simp only [is, Bool.and_eq_true, decide_eq_true_eq] at h
  exact h.2

/-- A text that is an identifier. -/
def IsName (text : String) : Prop := (ident text).scansAlone = true

instance (text : String) : Decidable (IsName text) := inferInstanceAs (Decidable (_ = true))

/-- A text that is a number, with a sign or without. -/
def IsNumber (text : String) : Prop := (number text).all scansAlone = true

instance (text : String) : Decidable (IsNumber text) := inferInstanceAs (Decidable (_ = true))

section Standing

variable {c : Char} {cs : List Char} {s text : String}

theorem isName_iff : IsName text ↔
    ∃ c cs, text.toList = c :: cs ∧ isIdentStart c = true ∧ ∀ d ∈ cs, isIdentRest d = true := by
  rw [IsName, scansAlone_iff, fits_iff]
  change InClass .ident text.toList ∧ EndsBefore .ident text.toList [] ↔ _
  constructor
  · rintro ⟨hclass, -⟩
    generalize text.toList = cs at hclass
    cases hclass with
    | ident hc h => exact ⟨_, _, rfl, hc, h⟩
  · rintro ⟨c, cs, ht, hc, hcs⟩
    rw [ht]
    exact ⟨.ident hc hcs, fun _ h => nomatch h⟩

private theorem operators_scan : ∀ op ∈ operators, (punct op).scansAlone = true := by decide

theorem Lexeme.Fits.kind_of_is (h : x.Fits []) (hop : op ∈ operators) (his : x.is op = true) :
    x.kind = .punct := by
  obtain ⟨c, cs, ht, he⟩ := h
  obtain ⟨d, ds, ht', he'⟩ := scansAlone_iff.mp (operators_scan op hop)
  rw [text_of_is his] at ht
  obtain ⟨rfl, rfl⟩ := cons.inj (ht.symm.trans ht')
  exact (Prod.mk.inj (Option.some.inj (he.symm.trans he'))).1

theorem Lexeme.Fits.stands (h : x.Fits []) (hk : x.kind ≠ .punct) : x.Stands :=
  ⟨h, Bool.eq_false_iff.mpr fun his => hk (h.kind_of_is (by decide) his)⟩

theorem IsName.stands (h : IsName text) : (ident text).Stands :=
  (scansAlone_iff.mp h).stands (by simp [ident])

theorem stands_punct (h : op ∈ operators) (hne : op ≠ "/") : (punct op).Stands :=
  ⟨scansAlone_iff.mp (operators_scan op h), by simp [is, punct, hne]⟩

private theorem numberTail_of_forall (h : ∀ c ∈ cs, isNumberRest c = true) : NumberTail cs := by
  induction cs with
  | nil => exact .nil
  | cons c cs ih =>
    obtain ⟨hc, hcs⟩ := forall_mem_cons.mp h
    exact .rest hc (ih hcs)

theorem scansAlone_number (hc : c.isDigit = true) (hcs : ∀ d ∈ cs, isNumberRest d = true) :
    (⟨.number, String.ofList (c :: cs)⟩ : Lexeme).scansAlone = true := by
  rw [scansAlone_iff, fits_iff]
  refine ⟨?_, fun _ h => nomatch h⟩
  rw [String.toList_ofList]
  exact .number hc (numberTail_of_forall hcs)

theorem isNumber_ofList (hc : c.isDigit = true) (hcs : ∀ d ∈ cs, isNumberRest d = true) :
    IsNumber (String.ofList (c :: cs)) := by
  have hminus : c ≠ '-' := by rintro rfl; exact absurd hc (by decide)
  have hplus : c ≠ '+' := by rintro rfl; exact absurd hc (by decide)
  have hnumber : number (String.ofList (c :: cs)) = [⟨.number, String.ofList (c :: cs)⟩] := by
    unfold number
    split
    · rename_i heq
      rw [String.toList_ofList] at heq
      exact absurd (cons.inj heq).1 hminus
    · rename_i heq
      rw [String.toList_ofList] at heq
      exact absurd (cons.inj heq).1 hplus
    · rfl
  rw [IsNumber, hnumber]
  simpa using scansAlone_number hc hcs

private theorem isNumberRest_of_isDigit (h : c.isDigit = true) :
    isNumberRest c = true := by simp [isNumberRest, Char.isAlphanum, h]

private theorem toDigits_spec (n : Nat) : ∃ c cs, Nat.toDigits 10 n = c :: cs ∧
    c.isDigit = true ∧ ∀ d ∈ cs, isNumberRest d = true := by
  cases hd : Nat.toDigits 10 n with
  | nil => exact absurd hd Nat.toDigits_ne_nil
  | cons c cs =>
    have hall : ∀ d ∈ c :: cs, d.isDigit = true := fun d h =>
      Nat.isDigit_of_mem_toDigits (by decide) (by decide) (hd ▸ h)
    exact ⟨c, cs, rfl, hall c (by simp), fun d h => isNumberRest_of_isDigit (hall d (by simp [h]))⟩

theorem isNumber_nat (n : Nat) : IsNumber (toString n) := by
  obtain ⟨c, cs, hd, hc, hcs⟩ := toDigits_spec n
  rw [Nat.toString_eq_ofList_toDigits, hd]
  exact isNumber_ofList hc hcs

theorem isNumber_int (n : Int) : IsNumber (toString n) := by
  cases n with
  | ofNat n => exact isNumber_nat n
  | negSucc n =>
    obtain ⟨c, cs, hd, hc, hcs⟩ := toDigits_spec (n + 1)
    have htext : toString (Int.negSucc n) = "-" ++ toString (n + 1) := rfl
    have hnumber : number (toString (Int.negSucc n)) =
        [⟨.punct, "-"⟩, ⟨.number, String.ofList (c :: cs)⟩] := by
      simp [number, htext, hd]
    have hminus : (⟨.punct, "-"⟩ : Lexeme).scansAlone = true := by decide
    rw [IsNumber, hnumber, all_cons, all_cons, hminus, scansAlone_number hc hcs]
    rfl

private theorem NumberTail.mem (h : NumberTail cs) :
    ∀ c ∈ cs, isNumberRest c = true ∨ isSign c = true := by
  induction h with
  | nil => simp
  | @exponent c d cs hc hd _ ih =>
    have hrest : isNumberRest c = true := by
      simp only [isExponent, Bool.or_eq_true, decide_eq_true_eq] at hc
      rcases hc with ((rfl | rfl) | rfl) | rfl <;> decide
    exact forall_mem_cons.mpr ⟨.inl hrest, forall_mem_cons.mpr ⟨.inr hd, ih⟩⟩
  | rest hc _ ih => exact forall_mem_cons.mpr ⟨.inl hc, ih⟩

theorem IsNumber.mem (h : IsNumber text) :
    ∀ c ∈ text.toList, isNumberRest c = true ∨ isSign c = true := by
  have hscan : ∀ cs, (⟨.number, String.ofList cs⟩ : Lexeme).scansAlone = true →
      ∀ c ∈ cs, isNumberRest c = true ∨ isSign c = true := by
    intro cs hcs
    have hclass := (scansAlone_iff.mp hcs).inClass
    rw [String.toList_ofList] at hclass
    cases hclass with
    | number hc h => exact forall_mem_cons.mpr ⟨.inl (isNumberRest_of_isDigit hc), h.mem⟩
    | fraction hc h =>
      exact forall_mem_cons.mpr ⟨.inl (by decide),
        forall_mem_cons.mpr ⟨.inl (isNumberRest_of_isDigit hc), h.mem⟩⟩
  rw [IsNumber, number] at h
  split at h
  · rename_i digits ht
    simp only [all_cons, all_nil, Bool.and_true, Bool.and_eq_true] at h
    simpa [ht, show isSign '-' = true by decide] using hscan _ h.2
  · rename_i digits ht
    simp only [all_cons, all_nil, Bool.and_true, Bool.and_eq_true] at h
    simpa [ht, show isSign '+' = true by decide] using hscan _ h.2
  · exact hscan _ (by simpa using h)

theorem stands_quote (s : String) : (literal (Text.quote s)).Stands :=
  ⟨Text.fits_quote s [], rfl⟩

theorem scansAlone_plainLiteral (h : '"' ∉ s.toList ∧ '\\' ∉ s.toList ∧ '\n' ∉ s.toList) :
    (literal ("\"" ++ s ++ "\"")).scansAlone = true := by
  have hplain : ∀ c ∈ s.toList, c ≠ '"' ∧ c ≠ '\n' ∧ c ≠ '\\' := by
    intro c hc
    refine ⟨?_, ?_, ?_⟩ <;> rintro rfl
    · exact h.1 hc
    · exact h.2.2 hc
    · exact h.2.1 hc
  have htext : (literal ("\"" ++ s ++ "\"")).text.toList = '"' :: (s.toList ++ ['"']) := by
    simp [literal]
  rw [scansAlone_iff, fits_iff, htext]
  exact ⟨.literal (.inl rfl) (Text.literalTail_append hplain .close), trivial⟩

theorem stands_raw : (literal ("`" ++ s ++ "`")).Stands ↔ rawQuote ∉ s.toList := by
  have htext : (literal ("`" ++ s ++ "`")).text.toList =
      rawQuote :: (s.toList ++ [rawQuote]) := by
    simp [literal]
    decide
  constructor
  · rintro ⟨h, -⟩
    have hclass := h.inClass
    rw [htext] at hclass
    generalize hcs : s.toList ++ [rawQuote] = cs at hclass
    cases hclass with
    | literal hquote => exact absurd hquote (by decide)
    | raw h => exact (append_inj_left' hcs rfl) ▸ h
  · intro h
    exact ⟨fits_iff.mpr ⟨htext ▸ .raw h, trivial⟩, rfl⟩

theorem stands_lineComment (h : '\n' ∉ s.toList) : (lineComment s).Stands := by
  have htext : (lineComment s).text.toList = '/' :: '/' :: s.toList := by
    simp [lineComment]
  exact ⟨fits_iff.mpr ⟨htext ▸ .lineComment h, fun _ _ hc => nomatch hc⟩, rfl⟩

theorem stands_blank : blank.Stands := ⟨scansAlone_iff.mp (by decide), rfl⟩

theorem stands_tab : tab.Stands := ⟨scansAlone_iff.mp (by decide), rfl⟩

theorem stands_lineFeed : lineFeed.Stands := ⟨scansAlone_iff.mp (by decide), rfl⟩

end Standing

/-- Lexemes that scan one by one. -/
structure Row (xs : List Lexeme) : Prop where
  stands : ∀ x ∈ xs, x.Stands
  chain : xs.IsChain (fun x y => meets x y = true)

/-- What an expression may begin with. -/
def Lexeme.isStart (x : Lexeme) : Bool :=
  x.kind = .ident || x.kind = .number || x.kind = .literal ||
    (x.kind = .punct && ["*", "[", "(", "-", "+", "&"].contains x.text)

/-- What an expression may end with. -/
def Lexeme.isTail (x : Lexeme) : Bool :=
  x.kind = .ident || x.kind = .number || x.kind = .literal ||
    (x.kind = .punct && [")", "]", "\x7d", "..."].contains x.text)

/-- What an operand ends with. -/
def Lexeme.isFirm (x : Lexeme) : Bool :=
  x.kind = .ident || (x.kind = .punct && [")", "]", "\x7d"].contains x.text)

namespace Row

variable {x : Lexeme} {xs ys : List Lexeme}

theorem nil : Row [] := ⟨by simp, .nil⟩

theorem single (h : x.Stands) : Row [x] := ⟨by simpa using h, .singleton _⟩

theorem append (hx : Row xs) (hy : Row ys)
    (h : ∀ x ∈ xs.getLast?, ∀ y ∈ ys.head?, meets x y = true) : Row (xs ++ ys) := by
  refine ⟨fun z hz => ?_, isChain_append.mpr ⟨hx.chain, hy.chain, h⟩⟩
  rcases mem_append.mp hz with hz | hz
  · exact hx.stands z hz
  · exact hy.stands z hz

theorem cons (hx : x.Stands) (hy : Row ys) (h : ∀ y ∈ ys.head?, meets x y = true) :
    Row (x :: ys) :=
  (single hx).append hy (by simpa using h)

end Row

section Joints

variable {x y : Lexeme}
variable {p : String}

theorem meets_blank (hs : x.kind ≠ .space) (hc : x.kind ≠ .comment) : meets x .blank = true := by
  cases hk : x.kind <;> simp_all [meets, blank]

theorem blank_meets (h : x.kind ≠ .space) : meets .blank x = true := by
  cases hk : x.kind <;> simp_all [meets, blank]

@[simp] theorem meets_punct_blank (p : String) : meets (.punct p) .blank = true :=
  meets_blank (by simp [punct]) (by simp [punct])

@[simp] theorem meets_ident_blank (n : String) : meets (.ident n) .blank = true :=
  meets_blank (by simp [ident]) (by simp [ident])

theorem Row.blank (h : Row ys) (hsolid : ∀ y ∈ ys.head?, y.kind ≠ .space) : Row (.blank :: ys) :=
  .cons stands_blank h fun y hy => blank_meets (hsolid y hy)

theorem meets_lineFeed (x : Lexeme) : meets x lineFeed = true := by
  cases hk : x.kind <;> simp [meets, lineFeed, hk]

theorem lineFeed_meets (x : Lexeme) : meets lineFeed x = true := by
  cases hk : x.kind <;> simp [meets, lineFeed]

theorem Lexeme.isStart_cases (h : x.isStart = true) :
    x.kind = .ident ∨ x.kind = .number ∨ x.kind = .literal ∨
      x.kind = .punct ∧ x.text ∈ ["*", "[", "(", "-", "+", "&"] := by
  simpa only [isStart, Bool.or_eq_true, Bool.and_eq_true, decide_eq_true_eq, contains_iff_mem,
    or_assoc] using h

theorem Lexeme.isTail_cases (h : x.isTail = true) :
    x.kind = .ident ∨ x.kind = .number ∨ x.kind = .literal ∨
      x.kind = .punct ∧ x.text ∈ [")", "]", "\x7d", "..."] := by
  simpa only [isTail, Bool.or_eq_true, Bool.and_eq_true, decide_eq_true_eq, contains_iff_mem,
    or_assoc] using h

/-- The operators that may stand right before any expression. -/
def openers : List String := ["(", "[", "]", "\x7b", ",", "*"]

/-- The operators that may stand right after any expression. -/
def closers : List String := [")", "]", "\x7d", ",", ":", ";", "(", "[", "\x7b", "<<"]

private theorem openers_start : ∀ p ∈ openers, ∀ t ∈ ["*", "[", "(", "-", "+", "&"],
    t.toList.head?.all (endsOperator p) = true := by decide

private theorem tails_closers : ∀ t ∈ [")", "]", "\x7d", "..."], ∀ p ∈ closers,
    p.toList.head?.all (endsOperator t) = true := by decide

private theorem number_closers : ∀ p ∈ closers,
    p.toList.head?.all (fun c => c ≠ '.' && !isSign c) = true := by decide

theorem punct_meets (hdot : p ≠ ".") (h : x.isStart = true)
    (hop : x.kind = .punct → x.text ∈ ["*", "[", "(", "-", "+", "&"] →
      x.text.toList.head?.all (endsOperator p) = true) : meets (.punct p) x = true := by
  rcases isStart_cases h with hk | hk | hk | ⟨hk, ht⟩
  · simp [meets, punct, hk]
  · simp [meets, punct, hk, hdot]
  · simp [meets, punct, hk]
  · simpa [meets, punct, hk] using hop hk ht

theorem opener_meets (hp : p ∈ openers) (h : x.isStart = true) : meets (.punct p) x = true := by
  have hdot : p ≠ "." := by rintro rfl; exact absurd hp (by decide)
  exact punct_meets hdot h fun _ ht => openers_start p hp x.text ht

theorem meets_closer (hp : p ∈ closers) (h : x.isTail = true) : meets x (.punct p) = true := by
  rcases isTail_cases h with hk | hk | hk | ⟨hk, ht⟩
  · simp [meets, punct, hk]
  · simpa [meets, punct, hk] using number_closers p hp
  · simp [meets, hk]
  · simpa [meets, punct, hk] using tails_closers x.text ht p hp

private theorem brackets_dots : ∀ t ∈ [")", "]", "\x7d"], ∀ p ∈ [".", "..."],
    p.toList.head?.all (endsOperator t) = true := by decide

private theorem ampersand_starts : ∀ t ∈ ["*", "[", "(", "-", "+", "&"], t ≠ "&" →
    t.toList.head?.all (endsOperator "&") = true := by decide

theorem Lexeme.isFirm_cases (h : x.isFirm = true) :
    x.kind = .ident ∨ x.kind = .punct ∧ x.text ∈ [")", "]", "\x7d"] := by
  simpa only [isFirm, Bool.or_eq_true, Bool.and_eq_true, decide_eq_true_eq, contains_iff_mem]
    using h

theorem meets_dots (hp : p ∈ [".", "..."]) (h : x.isFirm = true) : meets x (.punct p) = true := by
  rcases isFirm_cases h with hk | ⟨hk, ht⟩
  · simp [meets, punct, hk]
  · simpa [meets, punct, hk] using brackets_dots x.text ht p hp

theorem ampersand_meets (h : x.isStart = true) (hne : x ≠ .punct "&") :
    meets (.punct "&") x = true := by
  refine punct_meets (by decide) h fun hk ht => ampersand_starts x.text ht fun htext => ?_
  exact hne (by cases x; simp_all [punct])

end Joints

/-- A piece of a line that may stand between brackets or blanks. -/
structure Phrase (xs : List Lexeme) : Prop where
  row : Row xs
  closed : Closed xs
  starts : ∀ x ∈ xs.head?, x.isStart = true
  tails : ∀ x ∈ xs.getLast?, x.isTail = true

section Closing

variable {x : Lexeme}

theorem closed_word (h : x.Stands) (hk : x.kind = .ident ∨ x.kind = .number ∨ x.kind = .literal) :
    Closed [x] := by
  have hpunct : x.kind ≠ .punct := by rcases hk with hk | hk | hk <;> simp [hk]
  refine .plain (by simp [isOpener, hpunct]) (by simp [isCloser, hpunct]) ?_ ?_
  · rcases hk with hk | hk | hk <;> simp [endsLine, hk]
  · exact Bool.eq_false_iff.mpr fun his => hpunct (h.1.kind_of_is (by decide) his)

theorem closed_blank : Closed [.blank] := .plain rfl rfl rfl rfl

theorem closed_tab : Closed [.tab] := .plain rfl rfl rfl rfl

theorem closed_punct (h : op ∉ ["(", ")", "[", "]", "\x7b", "\x7d", ";"]) : Closed [.punct op] := by
  simp only [mem_cons, not_or] at h
  refine .plain ?_ ?_ rfl ?_ <;>
    simp [isOpener, isCloser, is, punct, h]

end Closing

theorem closed_comma : Closed [.punct ","] := closed_punct (by decide)

theorem closed_colon : Closed [.punct ":"] := closed_punct (by decide)

theorem Phrase.word (h : x.Stands) (hk : x.kind = .ident ∨ x.kind = .number ∨ x.kind = .literal) :
    Phrase [x] := by
  refine ⟨.single h, closed_word h hk, ?_, ?_⟩ <;>
    · rcases hk with hk | hk | hk <;> simp [isStart, isTail, hk]

theorem Phrase.nil : Phrase [] := ⟨.nil, .nil, by simp, by simp⟩

def bracketPairs : List (String × String) := [("(", ")"), ("[", "]"), ("\x7b", "\x7d")]

theorem bracketPairs_spec : ∀ p ∈ bracketPairs,
    p.1 ∈ openers ∧ p.2 ∈ closers ∧ p.1 ∈ operators ∧ p.2 ∈ operators ∧ p.1 ≠ "/" ∧ p.2 ≠ "/" ∧
    (punct p.1).isOpener = true ∧ (punct p.2).isCloser = true ∧
    closerOf p.1 = p.2 ∧ meets (.punct p.1) (.punct p.2) = true := by decide

theorem Phrase.wrap (h : Phrase xs) (hp : (o, c) ∈ bracketPairs) :
    Row (.punct o :: (xs ++ [punct c])) ∧ Closed (.punct o :: (xs ++ [punct c])) := by
  obtain ⟨ho, hc, hoo, hco, hon, hcn, hopen, hclose, hm, hmeets⟩ := bracketPairs_spec _ hp
  refine ⟨.cons (stands_punct hoo hon) (h.row.append (.single (stands_punct hco hcn)) ?_) ?_,
    .wrap hopen hclose hm h.closed.balanced⟩
  · simpa using fun x hx => meets_closer hc (h.tails x hx)
  · cases xs with
    | nil => simpa using hmeets
    | cons x xs => simpa using opener_meets ho (h.starts x rfl)

theorem Phrase.between (sep : List Lexeme) (hx : Phrase xs) (hy : Phrase ys) (hxn : xs ≠ [])
    (hyn : ys ≠ []) (hrow : Row (sep ++ ys)) (hclosed : Closed sep)
    (h : ∀ x ∈ xs.getLast?, ∀ y ∈ (sep ++ ys).head?, meets x y = true) :
    Phrase (xs ++ (sep ++ ys)) := by
  refine ⟨hx.row.append hrow h, hx.closed.append (hclosed.append hy.closed), ?_, ?_⟩
  · rw [head?_append_of_ne_nil _ hxn]
    exact hx.starts
  · rw [← append_assoc, getLast?_append_of_ne_nil _ hyn]
    exact hy.tails

theorem Phrase.append (hx : Phrase xs) (hy : Phrase ys) (hxn : xs ≠ []) (hyn : ys ≠ [])
    (h : ∀ x ∈ xs.getLast?, ∀ y ∈ ys.head?, meets x y = true) : Phrase (xs ++ ys) :=
  hx.between [] hy hxn hyn hy.row .nil h

private theorem bracketPairs_edges : ∀ p ∈ bracketPairs,
    (punct p.2).isTail = true ∧ (p.1 ≠ "\x7b" → (punct p.1).isStart = true) ∧
      p.1 ∈ closers := by decide

theorem Phrase.bracketed (h : Phrase xs) (hp : (o, c) ∈ bracketPairs) (hbrace : o ≠ "\x7b") :
    Phrase (.punct o :: (xs ++ [punct c])) := by
  obtain ⟨htail, hstart, -⟩ := bracketPairs_edges _ hp
  obtain ⟨hrow, hclosed⟩ := h.wrap hp
  refine ⟨hrow, hclosed, by simpa using hstart hbrace, ?_⟩
  rw [← cons_append, getLast?_concat]
  simpa using htail

theorem Phrase.applied (hx : Phrase xs) (hne : xs ≠ []) (hy : Phrase ys)
    (hp : (o, c) ∈ bracketPairs) : Phrase (xs ++ .punct o :: (ys ++ [punct c])) := by
  obtain ⟨htail, -, hjoint⟩ := bracketPairs_edges _ hp
  obtain ⟨hrow, hclosed⟩ := hy.wrap hp
  refine ⟨hx.row.append hrow ?_, hx.closed.append hclosed, ?_, ?_⟩
  · simpa using fun x hx' => meets_closer hjoint (hx.tails x hx')
  · rw [head?_append_of_ne_nil _ hne]
    exact hx.starts
  · rw [← cons_append, ← append_assoc, getLast?_concat]
    simpa using htail

end GoBindings.Go
