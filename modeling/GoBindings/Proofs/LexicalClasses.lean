import GoBindings.Proofs.Lexing

/-!
# Lexical classes

The lexical rules find a lexeme exactly where its text is one of its class and the text after it
does not go on with it.
-/

namespace GoBindings.Go

open List

variable {rest : List Char} {quote : Char}
variable {x : Lexeme} {p : Char → Bool}

/-- What stands after the opening quote of a literal. -/
inductive LiteralTail (quote : Char) : List Char → Prop
  | close : LiteralTail quote [quote]
  | escaped (c) {cs} (h : LiteralTail quote cs) : LiteralTail quote ('\\' :: c :: cs)
  | plain {c cs} (hquote : c ≠ quote) (hline : c ≠ '\n') (hescape : c ≠ '\\')
      (h : LiteralTail quote cs) : LiteralTail quote (c :: cs)

/-- What stands after the first digit of a number. -/
inductive NumberTail : List Char → Prop
  | nil : NumberTail []
  | exponent {c d cs} (hc : isExponent c = true) (hd : isSign d = true) (h : NumberTail cs) :
      NumberTail (c :: d :: cs)
  | rest {c cs} (hc : isNumberRest c = true) (h : NumberTail cs) : NumberTail (c :: cs)

/-- The end of a block comment stands nowhere in the text. -/
def Unclosed (cs : List Char) : Prop := blockCommentLength? cs = none

/-- The text is over or goes on with a line feed. -/
def AtLineEnd (cs : List Char) : Prop := ∀ c ∈ cs.head?, c = '\n'

/-- The texts of a lexical class. -/
inductive InClass : Kind → List Char → Prop
  | lineComment {cs} (h : '\n' ∉ cs) : InClass .comment ('/' :: '/' :: cs)
  | blockComment {cs} (h : ¬ ['*', '/'] <:+: cs ++ ['*']) :
      InClass .comment ('/' :: '*' :: (cs ++ ['*', '/']))
  | literal {quote cs} (hquote : quote = '"' ∨ quote = '\'') (h : LiteralTail quote cs) :
      InClass .literal (quote :: cs)
  | raw {cs} (h : rawQuote ∉ cs) : InClass .literal (rawQuote :: (cs ++ [rawQuote]))
  | newline : InClass .newline ['\n']
  | space {c cs} (h : ∀ d ∈ c :: cs, isBlank d = true) : InClass .space (c :: cs)
  | ident {c cs} (hc : isIdentStart c = true) (h : ∀ d ∈ cs, isIdentRest d = true) :
      InClass .ident (c :: cs)
  | number {c cs} (hc : c.isDigit = true) (h : NumberTail cs) : InClass .number (c :: cs)
  | fraction {c cs} (hc : c.isDigit = true) (h : NumberTail cs) :
      InClass .number ('.' :: c :: cs)
  | operator {op} (h : op ∈ operators) : InClass .punct op.toList

/-- The class that the first characters of a text show, where some characters are alphabetic. -/
def Kind.ofText (isAlphabetic : Char → Bool) : List Char → Kind
  | [] => .punct
  | c :: cs =>
    if c = '\n' then .newline
    else if isBlank c then .space
    else if c = '"' || c = rawQuote || c = '\'' then .literal
    else if c = '/' && (cs.head? = some '/' || cs.head? = some '*') then .comment
    else if c.isDigit then .number
    else if c = '.' && cs ≠ [] && cs ≠ ['.', '.'] then .number
    else if c = '_' || isAlphabetic c then .ident
    else .punct

/-- Letters are alphabetic, and what operators begin with is not. -/
def IsAlphabet (isAlphabetic : Char → Bool) : Prop :=
  (∀ c, Text.isLetter c = true → isAlphabetic c = true) ∧
    ∀ op ∈ operators, ∀ c ∈ op.toList.head?, isAlphabetic c = false

/-- The text `rest` does not go on with a lexeme that it stands right after. -/
def EndsBefore (kind : Kind) (text rest : List Char) : Prop :=
  match kind with
  | .comment => ['/', '/'] <+: text → AtLineEnd rest
  | .space => ∀ c ∈ rest.head?, isBlank c = false
  | .ident => ∀ c ∈ rest.head?, isIdentRest c = false
  | .number => ∀ c ∈ rest.head?, isNumberRest c = false ∧
      (text.getLast?.any isExponent = true → isSign c = false)
  | .punct => operatorLength? (text ++ rest) = some text.length ∧
      (text = ['/'] → rest.head? ≠ some '/' ∧ (rest.head? = some '*' → Unclosed (rest.drop 1))) ∧
      (text = ['.'] → ∀ c ∈ rest.head?, c.isDigit = false)
  | .literal | .newline => True

variable {c : Char} {cs text : List Char} {k : Kind} {n : Nat}

theorem unclosed_cons : Unclosed (c :: cs) ↔ ¬(c = '*' ∧ cs.head? = some '/') ∧ Unclosed cs := by
  unfold Unclosed
  by_cases h : c = '*' ∧ cs.head? = some '/'
  · obtain ⟨rfl, hc⟩ := h
    cases cs with
    | nil => cases hc
    | cons d cs =>
      cases hc
      simp [blockCommentLength?]
  · rw [blockCommentLength?]
    · simp [h]
    · rintro ds rfl rfl
      exact h ⟨rfl, rfl⟩

theorem unclosed_append {u v : List Char} :
    Unclosed (u ++ v) ↔
      Unclosed u ∧ Unclosed v ∧ ¬(u.getLast? = some '*' ∧ v.head? = some '/') := by
  induction u with
  | nil => simp [Unclosed, blockCommentLength?]
  | cons c u ih =>
    rw [cons_append, unclosed_cons, unclosed_cons, ih]
    cases u with
    | nil =>
      simp only [getLast?_singleton]
      grind
    | cons d u =>
      simp only [cons_append, head?_cons, getLast?_cons_cons]
      grind

theorem unclosed_iff : Unclosed cs ↔ ¬ ['*', '/'] <:+: cs := by
  induction cs with
  | nil => simp [Unclosed, blockCommentLength?]
  | cons c cs ih =>
    rw [unclosed_cons, ih, infix_cons_iff]
    cases cs with
    | nil => simp
    | cons d cs => simp [eq_comm]

theorem blockCommentLength?_eq (h : Unclosed (text ++ ['*'])) (cs : List Char) :
    blockCommentLength? (text ++ '*' :: '/' :: cs) = some (text.length + 2) := by
  induction text with
  | nil => rfl
  | cons c text ih =>
    rw [cons_append, unclosed_cons] at h
    rw [cons_append, blockCommentLength?, ih h.2]
    · rfl
    · rintro ds rfl hds
      cases text with
      | nil => simp at hds
      | cons d text => simp_all

private theorem exists_of_blockCommentLength? (h : blockCommentLength? cs = some n) :
    ∃ text, cs.take n = text ++ ['*', '/'] ∧ Unclosed (text ++ ['*']) := by
  fun_induction blockCommentLength? cs generalizing n with
  | case1 => cases h
  | case2 cs =>
    cases h
    exact ⟨[], rfl, rfl⟩
  | case3 c cs hopen ih =>
    obtain ⟨m, hm, rfl⟩ := Option.map_eq_some_iff.mp h
    obtain ⟨text, htake, htext⟩ := ih hm
    refine ⟨c :: text, by simp [htake], ?_⟩
    rw [cons_append, unclosed_cons]
    refine ⟨fun hclose => ?_, htext⟩
    have hhead : cs.head? = some '/' := by
      cases text with
      | nil => exact absurd hclose.2 (by decide)
      | cons d text =>
        have hm0 : m ≠ 0 := by
          rintro rfl
          simp at htake
        have hfirst := congrArg head? htake
        rw [head?_take, if_neg hm0] at hfirst
        exact hfirst.trans hclose.2
    obtain ⟨ds, hds⟩ := head?_eq_some_iff.mp hhead
    exact hopen ds hclose.1 hds

theorem literalLength_plain (hc : c ≠ '\\') (cs : List Char) :
    literalLength? quote (c :: cs) =
      if c = quote then some 1
      else if c = '\n' then none else (literalLength? quote cs).map (· + 1) := by
  rw [literalLength?]
  · simp [hc]
  · simp [hc]

theorem literalLength?_eq (hquote : quote ≠ '\\') (h : LiteralTail quote text) (cs : List Char) :
    literalLength? quote (text ++ cs) = some text.length := by
  induction h with
  | close => rw [singleton_append, literalLength_plain hquote]; simp
  | escaped c _ ih => simp [literalLength?, ih]
  | plain hne hline hescape _ ih =>
    rw [cons_append, literalLength_plain hescape]
    simp [hne, hline, ih]

private theorem literalTail_of_literalLength? (h : literalLength? quote cs = some n) :
    LiteralTail quote (cs.take n) := by
  fun_induction literalLength? quote cs generalizing n with
  | case1 => cases h
  | case2 c cs ih =>
    obtain ⟨m, hm, rfl⟩ := Option.map_eq_some_iff.mp h
    exact .escaped c (ih hm)
  | case3 cs =>
    cases h
    exact .close
  | case4 => cases h
  | case5 c cs _ hquote hplain ih =>
    obtain ⟨m, hm, rfl⟩ := Option.map_eq_some_iff.mp h
    simp only [Bool.or_eq_true, decide_eq_true_eq, not_or] at hplain
    exact .plain hquote hplain.1 hplain.2 (ih hm)

theorem rawLength?_eq (h : rawQuote ∉ text) (cs : List Char) :
    rawLength? (text ++ rawQuote :: cs) = some (text.length + 1) := by
  induction text with
  | nil => simp [rawLength?]
  | cons c text ih =>
    obtain ⟨hc, htext⟩ := not_or.mp (mt mem_cons.mpr h)
    rw [cons_append, rawLength?, if_neg (Ne.symm hc), ih htext]
    rfl

private theorem exists_of_rawLength? (h : rawLength? cs = some n) :
    ∃ text, cs.take n = text ++ [rawQuote] ∧ rawQuote ∉ text := by
  fun_induction rawLength? cs generalizing n with
  | case1 => cases h
  | case2 cs =>
    cases h
    exact ⟨[], rfl, not_mem_nil⟩
  | case3 c cs hne ih =>
    obtain ⟨m, hm, rfl⟩ := Option.map_eq_some_iff.mp h
    obtain ⟨text, htake, htext⟩ := ih hm
    exact ⟨c :: text, by simp [htake], by simp [htext, Ne.symm hne]⟩

private theorem numberTail_take (cs : List Char) : NumberTail (cs.take (numberLength cs)) := by
  fun_induction numberLength cs with
  | case1 => exact .nil
  | case2 c hc => exact .rest hc .nil
  | case3 => exact .nil
  | case4 c d cs hsign ih =>
    rw [Bool.and_eq_true] at hsign
    exact .exponent hsign.1 hsign.2 ih
  | case5 c d cs _ hc ih => exact .rest hc ih
  | case6 => exact .nil

theorem isNumberRest_of_isExponent (h : isExponent c = true) : isNumberRest c = true := by
  simp only [isExponent, Bool.or_eq_true, decide_eq_true_eq] at h
  rcases h with ((rfl | rfl) | rfl) | rfl <;> decide

theorem isSign_cases (h : isSign c = true) : c = '+' ∨ c = '-' := by
  simpa only [isSign, Bool.or_eq_true, decide_eq_true_eq] using h

private theorem numberLength_stop (h : isNumberRest c = false) : numberLength (c :: cs) = 0 := by
  have hexponent : isExponent c = false := by
    rw [← Bool.not_eq_true] at h ⊢
    exact mt isNumberRest_of_isExponent h
  cases cs <;> simp [numberLength, h, hexponent]

private theorem numberLength_step {d : Char} (h : (isExponent c && isSign d) = false)
    (hc : isNumberRest c = true) : numberLength (c :: d :: cs) = numberLength (d :: cs) + 1 := by
  rw [numberLength, h, if_neg (by decide), if_pos hc]

private theorem isExponent_of_isDigit (h : c.isDigit = true) : isExponent c = false :=
  of_isDigit h (by decide)

private theorem any_isExponent_cons (h : isExponent c = false) :
    (c :: cs).getLast?.any isExponent = cs.getLast?.any isExponent := by
  cases cs <;> simp [h]

private theorem numberLength_eq (h : NumberTail text)
    (hstop : ∀ c ∈ cs.head?, isNumberRest c = false ∧
      (text.getLast?.any isExponent = true → isSign c = false)) :
    numberLength (text ++ cs) = text.length := by
  induction h with
  | nil =>
    cases cs with
    | nil => rfl
    | cons c cs => exact numberLength_stop (hstop c rfl).1
  | @exponent c d text hc hd _ ih =>
    rw [cons_append, cons_append, numberLength, hc, hd,
      ih fun e he => ⟨(hstop e he).1, fun hlast => (hstop e he).2 ?_⟩]
    · rfl
    · cases text with
      | nil => cases hlast
      | cons b text => simpa using hlast
  | @rest c text hc h ih =>
    have hcs := ih fun e he => ⟨(hstop e he).1, fun hlast => (hstop e he).2 (by
      cases text with
      | nil => cases hlast
      | cons b text => simpa using hlast)⟩
    cases htail : text ++ cs with
    | nil =>
      obtain ⟨rfl, rfl⟩ := append_eq_nil_iff.mp htail
      simp [numberLength, hc]
    | cons d ds =>
      have hsign : (isExponent c && isSign d) = false := by
        cases text with
        | nil =>
          cases hexp : isExponent c <;> simp_all
        | cons b text =>
          obtain ⟨rfl, -⟩ := cons.inj htail
          have hb : isSign b = false := by
            rw [← Bool.not_eq_true]
            intro hb
            rcases isSign_cases hb with rfl | rfl <;> cases h <;>
              simp_all [isExponent, isNumberRest]
          simp [hb]
      rw [cons_append, htail, numberLength_step hsign hc, ← htail, hcs, length_cons]

private theorem numberLength_pos (h : isNumberRest c = true) : numberLength (c :: cs) ≠ 0 := by
  cases cs with
  | nil => simp [numberLength, h]
  | cons d cs =>
    rw [numberLength]
    split <;> simp

private theorem stop_of_numberLength : ∀ text : List Char,
    numberLength (text ++ c :: cs) = text.length →
      isNumberRest c = false ∧ (text.getLast?.any isExponent = true → isSign c = false)
  | [], h => by
    refine ⟨?_, by simp⟩
    rw [← Bool.not_eq_true]
    exact fun hc => numberLength_pos hc h
  | [b], h => by
    rw [singleton_append, numberLength] at h
    split at h
    · simp at h
    · rename_i hsign
      split at h
      · have hstop := stop_of_numberLength [] (Nat.succ.inj h)
        exact ⟨hstop.1, by simpa using hsign⟩
      · simp at h
  | b :: d :: text, h => by
    rw [cons_append, cons_append, numberLength] at h
    split at h
    · rename_i hsign
      have hstop := stop_of_numberLength text (by simpa using h)
      refine ⟨hstop.1, fun hlast => hstop.2 ?_⟩
      cases text with
      | nil =>
        rcases isSign_cases (Bool.and_eq_true_iff.mp hsign).2 with rfl | rfl <;> cases hlast
      | cons e text => simpa using hlast
    · split at h
      · have hstop := stop_of_numberLength (d :: text) (Nat.succ.inj h)
        exact ⟨hstop.1, fun hlast => hstop.2 (by simpa using hlast)⟩
      · simp at h

theorem runLength_append_eq :
    runLength p (text ++ cs) = text.length ↔
      (∀ c ∈ text, p c = true) ∧ ∀ c ∈ cs.head?, p c = false := by
  unfold runLength
  induction text with
  | nil => cases cs <;> simp [takeWhile_cons]
  | cons c text ih =>
    cases hc : p c with
    | true => simpa [hc] using ih
    | false => simp [hc]

private theorem of_mem_take_runLength : ∀ c ∈ cs.take (runLength p cs), p c = true := by
  have htake : cs.takeWhile p <+: cs := takeWhile_prefix p
  rw [runLength, ← prefix_iff_eq_take.mp htake]
  intro c hc
  exact (all_eq_true.mp all_takeWhile) c hc

theorem Extent.inClass (h : Extent c cs k n) : InClass k (c :: cs.take n) := by
  cases h with
  | lineComment cs =>
    apply InClass.lineComment
    intro hmem
    simpa using of_mem_take_runLength _ hmem
  | blockComment h =>
    obtain ⟨text, htake, htext⟩ := exists_of_blockCommentLength? h
    rw [take_succ_cons, htake]
    exact .blockComment (unclosed_iff.mp htext)
  | literal hc h => exact .literal hc (literalTail_of_literalLength? h)
  | raw h =>
    obtain ⟨text, htake, htext⟩ := exists_of_rawLength? h
    rw [htake]
    exact .raw htext
  | newline => exact .newline
  | space cs hc => exact .space (forall_mem_cons.mpr ⟨hc, of_mem_take_runLength⟩)
  | ident cs hc => exact .ident hc of_mem_take_runLength
  | number cs hc => exact .number hc (numberTail_take cs)
  | fraction cs hd => exact .fraction hd (numberTail_take cs)
  | operator h =>
    obtain ⟨op, hop, hlen, hpre⟩ := operatorLength_spec h
    have htake : op.toList = c :: cs.take n := by
      rw [← take_succ_cons, ← hlen]
      exact prefix_iff_eq_take.mp hpre
    rw [← htake]
    exact .operator hop

theorem isAlphabet_isLetter : IsAlphabet Text.isLetter := by
  have hheads : ∀ op ∈ operators, op.toList.head?.all (!Text.isLetter ·) = true := by decide
  refine ⟨fun _ h => h, fun op hop c hc => ?_⟩
  simpa [Option.mem_def.mp hc] using hheads op hop

private theorem ofText_operator {isAlphabetic : Char → Bool} {op : String} (hop : op ∈ operators)
    (hhead : ∀ c ∈ op.toList.head?, isAlphabetic c = false) :
    Kind.ofText isAlphabetic op.toList = .punct := by
  have hpunct : ∀ op ∈ operators, Kind.ofText (fun _ => false) op.toList = .punct := by decide
  replace hpunct := hpunct op hop
  cases htext : op.toList with
  | nil => rfl
  | cons c cs =>
    rw [htext, Kind.ofText] at hpunct
    rw [Kind.ofText, hhead c (by simp [htext])]
    exact hpunct

/-- The classes have no text in common. -/
theorem InClass.ofText {isAlphabetic : Char → Bool} (halphabet : IsAlphabet isAlphabetic)
    (h : InClass k text) : Kind.ofText isAlphabetic text = k := by
  cases h with
  | lineComment | blockComment | newline => rfl
  | literal hquote h => rcases hquote with rfl | rfl <;> rfl
  | raw h => rfl
  | @space c cs h =>
    have hc := h c mem_cons_self
    simp only [isBlank, Bool.or_eq_true, decide_eq_true_eq] at hc
    rcases hc with (rfl | rfl) | rfl <;> rfl
  | @ident c cs hc h =>
    obtain ⟨hslash, hdouble, hsingle, hraw, hline, hblank⟩ := isIdentStart_plain hc
    have hdigit : c.isDigit = false := by
      rw [← Bool.not_eq_true]
      intro hdigit
      simp [(isDigit_plain hdigit).2.2.2.2.2.2] at hc
    have hdot : c ≠ '.' := by
      rintro rfl
      cases hc
    have hletter : c = '_' ∨ isAlphabetic c = true := by
      rw [isIdentStart, Bool.or_eq_true, decide_eq_true_eq] at hc
      exact hc.imp_right (halphabet.1 c)
    simp [Kind.ofText, hletter, hslash, hdouble, hsingle, hraw, hline, hblank, hdigit, hdot]
  | number hc h =>
    obtain ⟨hslash, hdouble, hsingle, hraw, hline, hblank, -⟩ := isDigit_plain hc
    simp [Kind.ofText, hc, hslash, hdouble, hsingle, hraw, hline, hblank]
  | @fraction c cs hc h =>
    have hdot : c ≠ '.' := by
      rintro rfl
      cases hc
    simp [Kind.ofText, hdot, isBlank, rawQuote, Char.isDigit]
  | operator h => exact ofText_operator h (halphabet.2 _ h)

private theorem operators_slash_toList : ∀ op ∈ operators, op.toList.head? = some '/' →
    op.toList = ['/'] ∨ op.toList = ['/', '='] := by decide

private theorem operators_dot_toList : ∀ op ∈ operators, op.toList.head? = some '.' →
    op.toList = ['.'] ∨ op.toList = ['.', '.', '.'] := by decide

private theorem Extent.endsBefore (h : Extent c (cs ++ rest) k cs.length) :
    EndsBefore k (c :: cs) rest := by
  generalize hu : cs ++ rest = u at h
  generalize hn : cs.length = n at h
  cases h with
  | lineComment u =>
    intro _
    cases cs with
    | nil => cases hn
    | cons d cs =>
      cases hu
      have hstop := (runLength_append_eq.mp (Nat.succ.inj hn).symm).2
      intro c hc
      simpa using hstop c hc
  | blockComment h =>
    cases cs with
    | nil => cases hn
    | cons d cs =>
      cases hu
      intro hline
      simp at hline
  | literal | raw | newline => trivial
  | space _ hc | ident _ hc =>
    subst hu
    exact (runLength_append_eq.mp hn.symm).2
  | number _ hc =>
    subst hu
    intro d hd
    obtain ⟨rest, rfl⟩ := head?_eq_some_iff.mp hd
    rw [any_isExponent_cons (isExponent_of_isDigit hc)]
    exact stop_of_numberLength cs hn.symm
  | fraction _ hc =>
    cases cs with
    | nil => cases hn
    | cons b cs =>
      cases hu
      intro d hd
      obtain ⟨rest, rfl⟩ := head?_eq_some_iff.mp hd
      rw [any_isExponent_cons rfl, any_isExponent_cons (isExponent_of_isDigit hc)]
      exact stop_of_numberLength cs (Nat.succ.inj hn).symm
  | operator h hslash hdot =>
    subst hu hn
    refine ⟨h, fun hc => ?_, fun hc d hd => ?_⟩
    · cases hc
      obtain ⟨hline, hblock⟩ := hslash rfl
      refine ⟨fun hhead => ?_, fun hhead => ?_⟩
      · obtain ⟨rest, rfl⟩ := head?_eq_some_iff.mp hhead
        exact hline _ rfl
      · obtain ⟨rest, rfl⟩ := head?_eq_some_iff.mp hhead
        exact hblock _ rfl
    · cases hc
      obtain ⟨rest, rfl⟩ := head?_eq_some_iff.mp hd
      exact hdot rfl _ _ rfl

private theorem InClass.extent (h : InClass k text) (hends : EndsBefore k text rest) :
    ∃ c cs, text = c :: cs ∧ Extent c (cs ++ rest) k cs.length := by
  cases h with
  | @lineComment cs h =>
    refine ⟨'/', '/' :: cs, rfl, ?_⟩
    have hstop := hends (by simp)
    have hrun : runLength (· ≠ '\n') (cs ++ rest) = cs.length := by
      apply runLength_append_eq.mpr
      constructor
      · rintro c hc
        exact decide_eq_true fun he => h (he ▸ hc)
      · intro c hc
        simpa using hstop c hc
    rw [length_cons, ← hrun]
    exact .lineComment _
  | @blockComment cs h =>
    refine ⟨'/', '*' :: (cs ++ ['*', '/']), rfl, ?_⟩
    have hclosed := blockCommentLength?_eq (unclosed_iff.mpr h) rest
    simpa using Extent.blockComment hclosed
  | literal hquote h =>
    refine ⟨_, _, rfl, .literal hquote (literalLength?_eq ?_ h rest)⟩
    rcases hquote with rfl | rfl <;> decide
  | @raw cs h =>
    refine ⟨_, _, rfl, .raw ?_⟩
    simpa using rawLength?_eq h rest
  | newline => exact ⟨_, _, rfl, .newline _⟩
  | @space c cs h =>
    refine ⟨c, cs, rfl, ?_⟩
    obtain ⟨hc, hcs⟩ := forall_mem_cons.mp h
    rw [← runLength_append_eq.mpr ⟨hcs, hends⟩]
    exact .space _ hc
  | @ident c cs hc h =>
    refine ⟨c, cs, rfl, ?_⟩
    rw [← runLength_append_eq.mpr ⟨h, hends⟩]
    exact .ident _ hc
  | @number c cs hc h =>
    refine ⟨c, cs, rfl, ?_⟩
    have hstop := hends
    simp only [EndsBefore, any_isExponent_cons (isExponent_of_isDigit hc)] at hstop
    rw [← numberLength_eq h hstop]
    exact .number _ hc
  | @fraction c cs hc h =>
    refine ⟨'.', c :: cs, rfl, ?_⟩
    have hstop := hends
    simp only [EndsBefore, any_isExponent_cons (show isExponent '.' = false from rfl),
      any_isExponent_cons (isExponent_of_isDigit hc)] at hstop
    rw [length_cons, ← numberLength_eq h hstop]
    exact .fraction _ hc
  | @operator op h =>
    obtain ⟨hlength, hslash, hdot⟩ := hends
    have hstart := operators_slash_toList op h
    have hpoint := operators_dot_toList op h
    obtain ⟨c, cs, htext, -⟩ := operators_start op h
    rw [htext] at hlength hslash hdot hstart hpoint
    refine ⟨c, cs, htext, .operator hlength ?_ ?_⟩
    · rintro rfl
      rcases hstart rfl with hcs | hcs
      · cases hcs
        obtain ⟨hline, hblock⟩ := hslash rfl
        constructor
        · rintro ds rfl
          exact hline rfl
        · rintro ds rfl
          exact hblock rfl
      · cases hcs
        simp
    · rintro rfl d ds hds
      rcases hpoint rfl with hcs | hcs
      · cases hcs
        obtain rfl : rest = d :: ds := hds
        exact hdot rfl d rfl
      · cases hcs
        cases hds
        decide

/-- The lexical rules find a lexeme of its class where the text after it does not go on with it. -/
theorem Lexeme.fits_iff :
    x.Fits rest ↔
      InClass x.kind x.text.toList ∧ EndsBefore x.kind x.text.toList rest := by
  constructor
  · rintro ⟨c, cs, htext, hextent⟩
    rw [extent?_eq_some_iff] at hextent
    have hclass := hextent.inClass
    rw [take_left] at hclass
    rw [htext]
    exact ⟨hclass, hextent.endsBefore⟩
  · rintro ⟨hclass, hends⟩
    obtain ⟨c, cs, htext, hextent⟩ := hclass.extent hends
    exact ⟨c, cs, htext, hextent.extent?⟩

theorem Lexeme.Fits.inClass (h : x.Fits rest) : InClass x.kind x.text.toList :=
  (Lexeme.fits_iff.mp h).1

end GoBindings.Go
