import GoBindings.Go.Scan
import GoBindings.Go.TypeExpr

/-!
# Texts and their lexemes

A text scans exactly when it can be cut into lexemes each of which is what the lexical rules find
at its place. The cut is then the result of the scan, with the places counted along.
-/

namespace GoBindings

open List Go

theorem Text.dropStart?_eq_some {start cs rest : List Char} (h : dropStart? start cs = some rest) :
    cs = start ++ rest := by
  fun_induction dropStart? start cs with
  | case1 cs => simpa using h
  | case2 => simp at h
  | case3 d ds cs ih => rw [ih h, cons_append]
  | case4 => simp at h

namespace Go

variable {kind : Kind} {x before : Lexeme} {source : String} {xs : List Lexeme}
  {tokens : List Token}

/-- The characters of the lexemes one after the other. -/
def Lexeme.chars (xs : List Lexeme) : List Char := xs.flatMap (·.text.toList)

/-- The lexical rules find the lexeme where its text is followed by `rest`. -/
def Lexeme.Fits (x : Lexeme) (rest : List Char) : Prop :=
  ∃ c cs, x.text.toList = c :: cs ∧ extent? c (cs ++ rest) = some (x.kind, cs.length)

/-- Every lexeme fits where it stands, and no star follows a slash, which is the lexeme before the
first one at the beginning. -/
def Lexed (before : Lexeme) : List Lexeme → Prop
  | [] => True
  | x :: xs => x.Fits (Lexeme.chars xs) ∧ ¬(x.text = "*" ∧ before.is "/") ∧ Lexed x xs

/-- The lexemes as tokens of a text that stands at `p`. -/
def placed (p : Position) : List Lexeme → List Token
  | [] => []
  | x :: xs => ⟨x, p⟩ :: placed (p.after x.text.toList) xs

/-- What stands before the first token of a source. -/
def sourceStart : Lexeme := ⟨.newline, ""⟩

namespace Lexeme

@[simp] theorem chars_nil : chars [] = [] := rfl

@[simp] theorem chars_cons (x : Lexeme) (xs : List Lexeme) :
    chars (x :: xs) = x.text.toList ++ chars xs := rfl

@[simp] theorem chars_append (xs ys : List Lexeme) : chars (xs ++ ys) = chars xs ++ chars ys := by
  simp only [chars, flatMap_append]

theorem toList_spell (xs : List Lexeme) : (spell xs).toList = chars xs := by
  induction xs with
  | nil => rfl
  | cons x xs ih => simp only [spell, String.toList_append, ih, chars_cons]

theorem Fits.text_ne_nil {rest : List Char} (h : x.Fits rest) : x.text.toList ≠ [] := by
  obtain ⟨c, cs, ht, -⟩ := h
  rw [ht]
  exact cons_ne_nil c cs

end Lexeme

@[simp] theorem placed_map (p : Position) (xs : List Lexeme) :
    (placed p xs).map (·.toLexeme) = xs := by
  induction xs generalizing p with
  | nil => rfl
  | cons x xs ih => simp only [placed, map_cons, ih]

private theorem runLength_le (p : Char → Bool) (cs : List Char) : runLength p cs ≤ cs.length :=
  (takeWhile_sublist p).length_le

private theorem blockCommentLength_le {cs : List Char} {n : Nat}
    (h : blockCommentLength? cs = some n) : n ≤ cs.length := by
  fun_induction blockCommentLength? cs generalizing n with
  | case1 => simp at h
  | case2 cs =>
    have hn : 2 = n := by simpa using h
    simp only [length_cons]
    omega
  | case3 c cs _ ih =>
    obtain ⟨k, hk, rfl⟩ := Option.map_eq_some_iff.mp h
    have := ih hk
    simp only [length_cons]
    omega

private theorem literalLength_le {q : Char} {cs : List Char} {n : Nat}
    (h : literalLength? q cs = some n) : n ≤ cs.length := by
  fun_induction literalLength? q cs generalizing n with
  | case1 => simp at h
  | case2 c cs ih | case5 c cs _ _ _ ih =>
    obtain ⟨k, hk, rfl⟩ := Option.map_eq_some_iff.mp h
    have := ih hk
    simp only [length_cons]
    omega
  | case3 cs =>
    have hn : 1 = n := by simpa using h
    simp only [length_cons]
    omega
  | case4 => simp at h

private theorem rawLength_le {cs : List Char} {n : Nat} (h : rawLength? cs = some n) :
    n ≤ cs.length := by
  fun_induction rawLength? cs generalizing n with
  | case1 => simp at h
  | case2 cs =>
    have hn : 1 = n := by simpa using h
    simp only [length_cons]
    omega
  | case3 c cs _ ih =>
    obtain ⟨k, hk, rfl⟩ := Option.map_eq_some_iff.mp h
    have := ih hk
    simp only [length_cons]
    omega

private theorem numberLength_le (cs : List Char) : numberLength cs ≤ cs.length := by
  fun_induction numberLength cs <;> simp only [length_cons, length_nil] at * <;> omega

theorem operatorLength_spec {cs : List Char} {n : Nat} (h : operatorLength? cs = some n) :
    ∃ op ∈ operators, op.length = n ∧ op.toList <+: cs := by
  obtain ⟨op, hf, rfl⟩ := Option.map_eq_some_iff.mp h
  have hp := find?_some hf
  obtain ⟨rest, hr⟩ := Option.isSome_iff_exists.mp hp
  exact ⟨op, mem_of_find?_eq_some hf, rfl, rest, (Text.dropStart?_eq_some hr).symm⟩

/-- Characters that begin a token of another class than the operators. A slash and a dot may begin
both. -/
def isWordStart (c : Char) : Bool :=
  c = '"' || c = '\'' || c = rawQuote || c = '\n' || isBlank c || isIdentStart c || c.isDigit

theorem operators_start : ∀ op ∈ operators,
    ∃ c cs, op.toList = c :: cs ∧ isWordStart c = false := by
  have hall : ∀ op ∈ operators, op.toList ≠ [] ∧ op.toList.head?.all (!isWordStart ·) = true := by
    decide
  intro op hop
  obtain ⟨hne, hstart⟩ := hall op hop
  obtain ⟨c, cs, htext⟩ := exists_cons_of_ne_nil hne
  exact ⟨c, cs, htext, by simpa [htext] using hstart⟩

theorem isWordStart_of_operator {c : Char} {cs : List Char} {n : Nat}
    (h : operatorLength? (c :: cs) = some n) : isWordStart c = false ∧ 0 < n := by
  obtain ⟨op, hop, rfl, rest, hr⟩ := operatorLength_spec h
  obtain ⟨d, ds, htext, hstart⟩ := operators_start op hop
  rw [htext, cons_append, cons.injEq] at hr
  rw [← String.length_toList, htext, ← hr.1]
  exact ⟨hstart, Nat.succ_pos _⟩

/-- The lexical rules: a character, the text after it, the class of the token that begins there
and the number of its characters after the first. -/
inductive Extent : Char → List Char → Kind → Nat → Prop
  | lineComment (cs) : Extent '/' ('/' :: cs) .comment (runLength (· ≠ '\n') cs + 1)
  | blockComment {cs n} (h : blockCommentLength? cs = some n) :
      Extent '/' ('*' :: cs) .comment (n + 1)
  | literal {c cs n} (hc : c = '"' ∨ c = '\'') (h : literalLength? c cs = some n) :
      Extent c cs .literal n
  | raw {cs n} (h : rawLength? cs = some n) : Extent rawQuote cs .literal n
  | newline (cs) : Extent '\n' cs .newline 0
  | space {c} (cs) (hc : isBlank c = true) : Extent c cs .space (runLength isBlank cs)
  | ident {c} (cs) (hc : isIdentStart c = true) : Extent c cs .ident (runLength isIdentRest cs)
  | number {c} (cs) (hc : c.isDigit = true) : Extent c cs .number (numberLength cs)
  | fraction {d} (cs) (hd : d.isDigit = true) :
      Extent '.' (d :: cs) .number (numberLength cs + 1)
  | operator {c cs n} (h : operatorLength? (c :: cs) = some (n + 1))
      (hslash : c = '/' → (∀ rest, cs ≠ '/' :: rest) ∧
        ∀ rest, cs = '*' :: rest → blockCommentLength? rest = none)
      (hdot : c = '.' → ∀ d rest, cs = d :: rest → d.isDigit = false) :
      Extent c cs .punct n

variable {c : Char} {cs : List Char} {n : Nat}

private theorem extent_operator (hslash : c = '/' → (∀ rest, cs ≠ '/' :: rest) ∧
      ∀ rest, cs = '*' :: rest → blockCommentLength? rest = none)
    (hdot : c = '.' → ∀ d rest, cs = d :: rest → d.isDigit = false)
    (h : (operatorLength? (c :: cs)).map (fun n => (Kind.punct, n - 1)) = some (kind, n)) :
    Extent c cs kind n := by
  obtain ⟨m, hm, he⟩ := Option.map_eq_some_iff.mp h
  cases he
  have hpos := (isWordStart_of_operator hm).2
  exact .operator (by rw [hm]; congr 1; omega) hslash hdot

theorem Extent.of_extent? (h : extent? c cs = some (kind, n)) : Extent c cs kind n := by
  unfold extent? at h
  split at h
  · rename_i hc
    subst hc
    split at h
    · cases h
      exact .lineComment _
    · split at h
      · cases h
        exact .blockComment (by assumption)
      · refine extent_operator (fun _ => ⟨by simp, ?_⟩) (by simp) h
        intro rest hr
        obtain rfl := (cons.inj hr).2
        assumption
    · rename_i h1 h2
      refine extent_operator (fun _ => ⟨h1, ?_⟩) (by simp) h
      intro rest hr
      exact absurd hr (h2 rest)
  rename_i hslash
  split at h
  · rename_i hq
    obtain ⟨m, hm, he⟩ := Option.map_eq_some_iff.mp h
    cases he
    exact .literal (by simpa using hq) hm
  split at h
  · rename_i hq
    subst hq
    obtain ⟨m, hm, he⟩ := Option.map_eq_some_iff.mp h
    cases he
    exact .raw hm
  split at h
  · rename_i hq
    subst hq
    cases h
    exact .newline _
  split at h
  · cases h
    exact .space _ (by assumption)
  split at h
  · cases h
    exact .ident _ (by assumption)
  split at h
  · cases h
    exact .number _ (by assumption)
  split at h
  · rename_i hdot
    subst hdot
    split at h
    · split at h
      · cases h
        exact .fraction _ (by assumption)
      · rename_i hd
        refine extent_operator (fun hc => absurd hc hslash) (fun _ d rest hr => ?_) h
        cases hr
        simpa using hd
    · exact extent_operator (fun hc => absurd hc hslash) (fun _ d rest hr => by simp at hr) h
  · rename_i hdot
    exact extent_operator (fun hc => absurd hc hslash) (fun hc => absurd hc hdot) h

private theorem isIdentStart_others : ['/', '"', '\'', rawQuote, '\n', ' ', '\t', '\r'].all
    (fun c => !isIdentStart c) = true := by decide

theorem isIdentStart_plain (h : isIdentStart c = true) :
    c ≠ '/' ∧ c ≠ '"' ∧ c ≠ '\'' ∧ c ≠ rawQuote ∧ c ≠ '\n' ∧ isBlank c = false := by
  have hne : ∀ d ∈ ['/', '"', '\'', rawQuote, '\n', ' ', '\t', '\r'], c ≠ d := by
    rintro d hd rfl
    have := all_eq_true.mp isIdentStart_others c hd
    simp [h] at this
  simp only [mem_cons, forall_eq_or_imp] at hne
  simp [isBlank, hne]

theorem isDigit_mem (h : c.isDigit = true) :
    c ∈ ['0', '1', '2', '3', '4', '5', '6', '7', '8', '9'] := by
  simp only [Char.isDigit, Bool.and_eq_true, decide_eq_true_eq] at h
  have hle : c.toNat ≤ 57 := h.2
  have hge : 48 ≤ c.toNat := h.1
  have hc : c = Char.ofNat c.toNat := (Char.ofNat_toNat c).symm
  generalize c.toNat = n at hle hge hc
  subst hc
  have hn : n = 48 ∨ n = 49 ∨ n = 50 ∨ n = 51 ∨ n = 52 ∨ n = 53 ∨ n = 54 ∨ n = 55 ∨ n = 56 ∨
      n = 57 := by omega
  rcases hn with rfl | rfl | rfl | rfl | rfl | rfl | rfl | rfl | rfl | rfl <;> decide

@[elab_as_elim]
theorem of_isDigit {P : Char → Prop} [DecidablePred P] (h : c.isDigit = true)
    (hall : ['0', '1', '2', '3', '4', '5', '6', '7', '8', '9'].all (P ·) = true) : P c :=
  of_decide_eq_true (all_eq_true.mp hall c (isDigit_mem h))

theorem isDigit_toString (h : c ∈ (toString n).toList) : c.isDigit = true := by
  rw [Nat.toString_eq_ofList_toDigits, String.toList_ofList] at h
  exact Nat.isDigit_of_mem_toDigits (by decide) (by decide) h

theorem isDigit_plain (h : c.isDigit = true) :
    c ≠ '/' ∧ c ≠ '"' ∧ c ≠ '\'' ∧ c ≠ rawQuote ∧ c ≠ '\n' ∧ isBlank c = false ∧
      isIdentStart c = false :=
  of_isDigit h (by decide)

theorem Extent.extent? (h : Extent c cs kind n) : extent? c cs = some (kind, n) := by
  cases h with
  | lineComment cs => simp [extent?]
  | blockComment h => simp [extent?, h]
  | literal hc h =>
    rcases hc with rfl | rfl <;> simp [extent?, h]
  | raw h => simp [extent?, h, show rawQuote ≠ '/' by decide, show rawQuote ≠ '"' by decide,
      show rawQuote ≠ '\'' by decide]
  | newline cs => simp [extent?, show '\n' ≠ rawQuote by decide]
  | space cs hc =>
    simp only [isBlank, Bool.or_eq_true, decide_eq_true_eq] at hc
    rcases hc with (rfl | rfl) | rfl <;>
      simp [extent?, isBlank, show ' ' ≠ rawQuote by decide, show '\t' ≠ rawQuote by decide,
        show '\r' ≠ rawQuote by decide]
  | ident cs hc =>
    obtain ⟨h1, h2, h3, h4, h5, h6⟩ := isIdentStart_plain hc
    simp [extent?, h1, h2, h3, h4, h5, h6, hc]
  | number cs hc =>
    obtain ⟨h1, h2, h3, h4, h5, h6, h7⟩ := isDigit_plain hc
    simp [extent?, h1, h2, h3, h4, h5, h6, h7, hc]
  | fraction cs hd =>
    simp [extent?, hd, isBlank, show '.' ≠ rawQuote by decide,
      show isIdentStart '.' = false by decide]
  | operator h hslash hdot =>
    have hw := (isWordStart_of_operator h).1
    simp only [isWordStart, Bool.or_eq_false_iff, decide_eq_false_iff_not] at hw
    obtain ⟨⟨⟨⟨⟨⟨h1, h2⟩, h3⟩, h4⟩, h5⟩, h6⟩, h7⟩ := hw
    unfold extent?
    simp only [h, h1, h2, h5, h6, h7, Option.map_some, Nat.add_sub_cancel,
      decide_false, Bool.or_self, Bool.false_eq_true, ↓reduceIte]
    split
    · rename_i hc
      split
      · exact absurd rfl ((hslash hc).1 _)
      · rw [(hslash hc).2 _ rfl]
      · rfl
    · split
      · rename_i hc
        split
        · rw [hdot hc _ _ rfl]
          simp
        · rfl
      · rfl

theorem extent?_eq_some_iff : extent? c cs = some (kind, n) ↔ Extent c cs kind n :=
  ⟨Extent.of_extent?, Extent.extent?⟩

theorem Extent.le (h : Extent c cs kind n) : n ≤ cs.length := by
  cases h with
  | lineComment cs => exact Nat.succ_le_succ (runLength_le _ cs)
  | blockComment h => exact Nat.succ_le_succ (blockCommentLength_le h)
  | literal _ h => exact literalLength_le h
  | raw h => exact rawLength_le h
  | newline => exact Nat.zero_le _
  | space | ident => exact runLength_le _ cs
  | number => exact numberLength_le cs
  | fraction cs => exact Nat.succ_le_succ (numberLength_le cs)
  | operator h =>
    obtain ⟨op, -, hn, hp⟩ := operatorLength_spec h
    have hl := hp.length_le
    rw [String.length_toList, length_cons] at hl
    omega

theorem scanFrom_cons (p : Position) (before : Lexeme) {rest : List Char} (hx : x.Fits rest)
    (hb : ¬(x.text = "*" ∧ before.is "/")) :
    scanFrom p before (x.text.toList ++ rest) =
      match scanFrom (p.after x.text.toList) x rest with
      | .ok tokens => .ok (⟨x, p⟩ :: tokens)
      | .error fault => .error fault := by
  obtain ⟨c, cs, ht, he⟩ := hx
  have htext : String.ofList (c :: cs) = x.text := by rw [← ht, String.ofList_toList]
  rw [ht, cons_append, scanFrom, he]
  dsimp only
  rw [take_left, drop_left, htext]
  exact if_neg (by simpa using hb)

theorem scanFrom_chars (p : Position) (h : Lexed before xs) :
    scanFrom p before (Lexeme.chars xs) = .ok (placed p xs) := by
  induction xs generalizing p before with
  | nil => rw [Lexeme.chars_nil, scanFrom, placed]
  | cons x xs ih =>
    obtain ⟨hx, hb, hxs⟩ := h
    rw [Lexeme.chars_cons, scanFrom_cons p before hx hb, ih _ hxs, placed]

/-- The tokens of a text are lexemes that fit and together spell it. -/
theorem exists_lexed_of_scanFrom {p : Position} (h : scanFrom p before cs = .ok tokens) :
    ∃ xs, cs = Lexeme.chars xs ∧ Lexed before xs ∧ tokens = placed p xs := by
  fun_induction scanFrom p before cs generalizing tokens with
  | case1 p before =>
    cases h
    exact ⟨[], rfl, trivial, rfl⟩
  | case2 => cases h
  | case3 => cases h
  | case4 p before c cs kind n he text x hb rest hrest =>
    rename_i ih
    cases h
    obtain ⟨xs, hcs, hxs, rfl⟩ := ih hrest
    have hn := (Extent.of_extent? he).le
    have htext : x.text.toList = c :: cs.take n := String.toList_ofList
    refine ⟨x :: xs, ?_, ⟨⟨c, cs.take n, htext, ?_⟩, ?_, hxs⟩, ?_⟩
    · rw [Lexeme.chars_cons, htext, ← hcs, cons_append, take_append_drop]
    · rw [← hcs, take_append_drop, he, length_take, Nat.min_eq_left hn]
    · simpa using hb
    · rw [placed, htext]
  | case5 => cases h

theorem scan_spell (hs : source.toList = Lexeme.chars xs) (h : Lexed sourceStart xs) :
    scan source = .ok (placed {} xs) := by
  rw [scan, hs]
  exact scanFrom_chars {} h

theorem exists_lexed_of_scan (h : scan source = .ok tokens) :
    ∃ xs, source.toList = Lexeme.chars xs ∧ Lexed sourceStart xs ∧ tokens = placed {} xs :=
  exists_lexed_of_scanFrom h

end Go

end GoBindings
