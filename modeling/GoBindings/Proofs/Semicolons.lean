import GoBindings.Go.Identifier
import GoBindings.Proofs.Relaid
import GoBindings.Proofs.TokenPlaces

/-!
# Statements and semicolons

A line end stands for a semicolon where it ends a statement and for nothing where it does not. The
statements of a token list are what stands between its outermost semicolons.
-/

namespace GoBindings.Go

open List Lexeme

def semicolon : Lexeme := .punct ";"

/-- The keywords that a statement may end in. -/
def lastKeywords : List String := ["break", "continue", "fallthrough", "return"]

/-- Whether a line end after the lexeme stands for a semicolon in Go. -/
def endsGoStatement (x : Lexeme) : Bool :=
  match x.kind with
  | .ident => !isKeyword x.text || lastKeywords.contains x.text
  | .number | .literal => true
  | .punct => ["++", "--", ")", "]", "\x7d"].contains x.text
  | _ => false

/-- A keyword that no statement ends in. -/
def goesOn (x : Lexeme) : Bool :=
  x.kind = .ident && isKeyword x.text && !lastKeywords.contains x.text

/-- No line ends right after a keyword that no statement ends in. -/
def KeywordsGoOn (xs : List Lexeme) : Prop :=
  (xs.filter fun x => !x.isTrivia || x.endsLine).IsChain fun x y => goesOn x = true →
    y.endsLine = false

/-- The lexemes after `last`, with a semicolon for every line end that ends a statement, and without
other line ends, blanks and comments. -/
def terminated (last : Lexeme) (xs : List Lexeme)
    (ends : Lexeme → Bool := fun x => endsStatement (bare x)) : List Lexeme :=
  match xs with
  | [] => []
  | x :: xs =>
    if x.endsLine then
      if ends last then semicolon :: terminated semicolon xs ends
      else terminated last xs ends
    else if x.isTrivia then terminated last xs ends
    else x :: terminated x xs ends

/-- The code of tokens that stand at the beginning of a statement. -/
def codeFrom (tokens : List Token) : List Lexeme := terminated semicolon (tokens.map (·.toLexeme))

/-- The code by the rule of Go. -/
def goCode (tokens : List Token) : List Lexeme :=
  terminated semicolon (tokens.map (·.toLexeme)) endsGoStatement

def endSegment (current : List Lexeme) (rest : List (List Lexeme)) : List (List Lexeme) :=
  if current.isEmpty then rest else current.reverse :: rest

/-- The parts between semicolons outside of brackets, the empty ones left out. The one begun is
given last first, with the number of brackets open in it. -/
def segmentsFrom (depth : Nat) (current : List Lexeme) : List Lexeme → List (List Lexeme)
  | [] => endSegment current []
  | x :: xs =>
    if depth = 0 && x.is ";" then endSegment current (segmentsFrom 0 [] xs)
    else segmentsFrom (depthAfter depth (bare x)) (x :: current) xs

def segments (xs : List Lexeme) : List (List Lexeme) := segmentsFrom 0 [] xs

section Genuine

/-- The lexeme is a text of its class. -/
def Lexeme.Genuine (x : Lexeme) : Prop := InClass x.kind x.text.toList

variable {x : Lexeme}

/-- What the words and operators are that the statements of a source are told by. -/
def marks : List Lexeme :=
  [.ident "package", .ident "import", .ident "func", .ident "type", .ident "var", .ident "const",
   .ident "init", .punct "(", .punct ")", .punct ",", .punct ".", semicolon]

theorem Lexeme.Genuine.is_eq (h : x.Genuine) {y : Lexeme} (hy : y ∈ marks) :
    x.is y.text = decide (x = y) := by
  have hmarks : ∀ y ∈ marks, Kind.ofText Text.isLetter y.text.toList = y.kind ∧ y.kind ≠ .literal ∧
      y.kind ≠ .comment := by
    decide
  obtain ⟨hkind, hliteral, hcomment⟩ := hmarks y hy
  by_cases htext : x.text = y.text
  · have hsame : x.kind = y.kind := by rw [← h.ofText isAlphabet_isLetter, htext, hkind]
    have hx : x = y := by
      cases x
      simp_all
    simp [is, hx, hliteral, hcomment]
  · have hne : x ≠ y := fun hx => htext (congrArg text hx)
    simp [is, htext, hne]

end Genuine

section Terminated

variable {last x : Lexeme} {xs : List Lexeme} {ends : Lexeme → Bool}

theorem terminated_line (h : x.endsLine = true) :
    terminated last (x :: xs) ends =
      if ends last then semicolon :: terminated semicolon xs ends else terminated last xs ends := by
  rw [terminated, if_pos h]

theorem terminated_trivia (h : x.endsLine = false) (ht : x.isTrivia = true) :
    terminated last (x :: xs) ends = terminated last xs ends := by
  simp [terminated, h, ht]

theorem terminated_word (h : x.endsLine = false) (ht : x.isTrivia = false) :
    terminated last (x :: xs) ends = x :: terminated x xs ends := by
  simp [terminated, h, ht]

theorem terminated_line_line {y : Lexeme} (hx : x.endsLine = true) (hy : y.endsLine = true) :
    terminated last (x :: y :: xs) = terminated last (x :: xs) := by
  rw [terminated_line hx, terminated_line hx, terminated_line hy, terminated_line hy]
  split <;> rfl

theorem terminated_congr {last' : Lexeme}
    (h : endsStatement (bare last) = endsStatement (bare last')) (xs : List Lexeme) :
    terminated last xs = terminated last' xs := by
  induction xs with
  | nil => rfl
  | cons x xs ih => simp only [terminated, h, ih]

theorem terminated_append (last : Lexeme) (xs ys : List Lexeme) :
    terminated last (xs ++ ys) =
      terminated last xs ++ terminated ((terminated last xs).getLastD last) ys := by
  induction xs generalizing last with
  | nil => rfl
  | cons x xs ih =>
    simp only [cons_append, terminated]
    split
    · split
      · rw [ih, cons_append, getLastD_cons]
      · exact ih last
    · split
      · exact ih last
      · rw [ih, cons_append, getLastD_cons]

theorem terminated_append_line (xs ys : List Lexeme) (hx : x.endsLine = true) :
    terminated semicolon (xs ++ x :: ys) =
      terminated semicolon (xs ++ [x]) ++ terminated semicolon ys := by
  rw [← singleton_append, ← List.append_assoc, terminated_append]
  congr 1
  apply terminated_congr
  rw [terminated_append, terminated_line hx]
  split
  · simp [terminated]
  · rename_i hends
    rw [Bool.not_eq_true] at hends
    rw [terminated, append_nil, hends]
    rfl

theorem terminated_of_trivia (h : ∀ x ∈ xs, x.endsLine = true ∨ x.isTrivia = true) :
    terminated semicolon xs = [] := by
  induction xs with
  | nil => rfl
  | cons x xs ih =>
    rw [forall_mem_cons] at h
    rw [terminated, ih h.2]
    rcases h.1 with hx | hx
    · rw [if_pos hx]
      rfl
    · split <;> rfl

private theorem endsGoStatement_eq (h : goesOn x = false) :
    endsGoStatement x = endsStatement (bare x) := by
  rw [endsGoStatement, endsStatement, bare]
  cases hkind : x.kind with
  | ident => simpa [goesOn, hkind, or_iff_not_imp_left] using h
  | punct => simp [isCloser, hkind, Bool.or_assoc]
  | number | literal | comment | space | newline => rfl

private theorem terminated_goRule
    (h : IsChain (fun x y => goesOn x = true → y.endsLine = false)
      (last :: xs.filter fun x => !x.isTrivia || x.endsLine)) :
    terminated last xs endsGoStatement = terminated last xs := by
  induction xs generalizing last with
  | nil => rfl
  | cons x xs ih =>
    by_cases hline : x.endsLine = true
    · rw [filter_cons_of_pos (by simp [hline]), isChain_cons_cons] at h
      have hlast : goesOn last = false := by
        rw [← Bool.not_eq_true]
        intro hlast
        rw [h.1 hlast] at hline
        cases hline
      have hnext {y : Lexeme} (hy : goesOn y = false) :
          terminated y xs endsGoStatement = terminated y xs := by
        apply ih
        rw [isChain_cons]
        exact ⟨fun _ _ hgoes => absurd hgoes (by simp [hy]), (isChain_cons.mp h.2).2⟩
      rw [terminated_line hline, terminated_line hline, endsGoStatement_eq hlast, hnext hlast,
        hnext rfl]
    rw [Bool.not_eq_true] at hline
    by_cases htrivia : x.isTrivia = true
    · rw [filter_cons_of_neg (by simp [hline, htrivia])] at h
      rw [terminated_trivia hline htrivia, terminated_trivia hline htrivia, ih h]
    · rw [filter_cons_of_pos (by simp [htrivia]), isChain_cons_cons] at h
      rw [Bool.not_eq_true] at htrivia
      rw [terminated_word hline htrivia, terminated_word hline htrivia, ih h.2]

/-- Where keywords go on, the line ends that end a statement are those of Go. -/
theorem KeywordsGoOn.terminated_eq (h : KeywordsGoOn xs) :
    terminated semicolon xs endsGoStatement = terminated semicolon xs := by
  apply terminated_goRule
  rw [isChain_cons]
  exact ⟨nofun, h⟩

end Terminated

section Statements

variable {t : Token} {cur ts : List Token} {d : Nat}
variable {s : List Token}

theorem codeFrom_concat (cur : List Token) (t : Token) :
    codeFrom ((t :: cur).reverse) = codeFrom cur.reverse ++
      terminated ((codeFrom cur.reverse).getLastD semicolon) [t.toLexeme] := by
  rw [reverse_cons, codeFrom, map_append, terminated_append]
  rfl

/-- What is known of a statement begun: it has code, and outside of brackets its last token is its
last lexeme of code. -/
private structure Begun (d : Nat) (cur : List Token) : Prop where
  empty : codeFrom cur.reverse = [] → cur = []
  inside : d ≠ 0 → cur ≠ []
  last : d = 0 → endsStatement (bare ((codeFrom cur.reverse).getLastD semicolon)) =
    cur.head?.any endsStatement

private theorem begun_nil : Begun 0 [] := ⟨fun _ => rfl, fun h => absurd rfl h, fun _ => rfl⟩

private theorem codeFrom_word (hline : t.endsLine = false) (htrivia : t.isTrivia = false) :
    codeFrom (t :: cur).reverse = codeFrom cur.reverse ++ [t.toLexeme] := by
  rw [codeFrom_concat, terminated_word hline htrivia]
  rfl

private theorem begun_word (hline : t.endsLine = false) (htrivia : t.isTrivia = false) :
    Begun d (t :: cur) := by
  refine ⟨fun h => ?_, fun _ => cons_ne_nil _ _, fun _ => ?_⟩
  · rw [codeFrom_word hline htrivia] at h
    simp at h
  · rw [codeFrom_word hline htrivia, getLastD_concat]
    rfl

private theorem map_endStatement {rest : List (List Token)} {rest' : List (List Lexeme)}
    (hcur : Begun d cur) (hrest : rest.map codeFrom = rest') :
    (endStatement cur rest).map codeFrom = endSegment (codeFrom cur.reverse).reverse rest' := by
  by_cases h : cur = []
  · simp [endStatement, endSegment, h, hrest, codeFrom, terminated]
  · have hne := mt hcur.empty h
    simp [endStatement, endSegment, h, hne, hrest]

private theorem map_codeFrom_statementsFrom (hts : ∀ t ∈ ts, t.Genuine) (hcur : Begun d cur) :
    (statementsFrom d cur ts).map codeFrom =
      segmentsFrom d (codeFrom cur.reverse).reverse
        (terminated ((codeFrom cur.reverse).getLastD semicolon) (ts.map (·.toLexeme))) := by
  induction ts generalizing d cur with
  | nil => exact map_endStatement hcur rfl
  | cons t ts ih =>
    rw [forall_mem_cons] at hts
    have hfresh := ih hts.2 begun_nil
    rw [statementsFrom, map_cons]
    by_cases hline : t.endsLine = true
    · rw [if_pos hline, terminated_line hline]
      by_cases hd : d = 0
      · subst hd
        rw [if_pos rfl, hcur.last rfl]
        split
        · exact map_endStatement hcur hfresh
        · exact ih hts.2 hcur
      · have hnext : Begun d (t :: cur) := by
          refine ⟨fun h => ?_, fun _ => cons_ne_nil _ _, fun h => absurd h hd⟩
          rw [codeFrom_concat, append_eq_nil_iff] at h
          exact absurd (hcur.empty h.1) (hcur.inside hd)
        rw [if_neg hd, ih hts.2 hnext, codeFrom_concat, terminated_line hline]
        -- Within brackets a semicolon ends no statement.
        have hsemicolon : depthAfter d (bare semicolon) = d := rfl
        split
        · simp [segmentsFrom, hd, hsemicolon, terminated]
        · simp [terminated]
    · rw [if_neg hline]
      simp only [Bool.not_eq_true] at hline
      by_cases htrivia : t.isTrivia = true
      · rw [if_pos htrivia, terminated_trivia hline htrivia]
        exact ih hts.2 hcur
      · rw [if_neg htrivia]
        simp only [Bool.not_eq_true] at htrivia
        rw [terminated_word hline htrivia, segmentsFrom]
        have hsemicolon : t.is ";" = decide (t.toLexeme = semicolon) :=
          hts.1.is_eq (y := semicolon) (by decide)
        split
        · rename_i hcut
          rw [hsemicolon, Bool.and_eq_true, decide_eq_true_eq, decide_eq_true_eq] at hcut
          rw [hcut.2]
          exact map_endStatement hcur hfresh
        · rw [ih hts.2 (begun_word hline htrivia), codeFrom_word hline htrivia]
          rw [reverse_append, getLastD_concat]
          rfl

theorem statementsFrom_filter (d : Nat) (cur ts : List Token) :
    statementsFrom d cur (ts.filter fun t => !t.isTrivia || t.endsLine) =
      statementsFrom d cur ts := by
  induction ts generalizing d cur with
  | nil => rfl
  | cons t ts ih =>
    cases he : t.endsLine with
    | true =>
      rw [filter_cons_of_pos (by simp [he])]
      simp only [statementsFrom, ih]
    | false =>
      cases ht : t.isTrivia with
      | true =>
        simp [statementsFrom, he, ht, ih]
      | false =>
        rw [filter_cons_of_pos (by simp [ht])]
        simp [statementsFrom, ih]

/-- The code of the statements is what stands between the semicolons of the code. -/
theorem map_codeFrom_statements (hts : ∀ t ∈ ts, t.Genuine) :
    (statements ts).map codeFrom = segments (codeFrom ts) :=
  map_codeFrom_statementsFrom hts begun_nil

/-- Tokens after some brackets are open: no blanks or comments, and line ends in brackets only. -/
def Tight (depth : Nat) : List Token → Prop
  | [] => True
  | t :: ts =>
    (if t.endsLine then depth ≠ 0 else t.isTrivia = false) ∧ Tight (depthAfter depth t) ts

structure IsStatement (s : List Token) : Prop where
  tight : Tight 0 s
  genuine : ∀ t ∈ s, t.Genuine

private theorem tight_concat (d : Nat) (ts : List Token) (t : Token) :
    Tight d (ts ++ [t]) ↔ Tight d ts ∧
      if t.endsLine then depthAfterAll d ts ≠ 0 else t.isTrivia = false := by
  induction ts generalizing d with
  | nil => simp [Tight, depthAfterAll]
  | cons u ts ih =>
    rw [cons_append, Tight, Tight, ih, and_assoc]
    rfl

private theorem depthAfterAll_concat (d : Nat) (ts : List Token) (t : Token) :
    depthAfterAll d (ts ++ [t]) = depthAfter (depthAfterAll d ts) t := by
  simp [depthAfterAll]

theorem Lexeme.not_bracket {x : Lexeme}
    (h : x.isTrivia = true ∨ x.endsLine = true ∨ x.is ";" = true) :
    x.isOpener = false ∧ x.isCloser = false := by
  simp only [isTrivia, endsLine, is, Bool.or_eq_true, Bool.and_eq_true,
    decide_eq_true_eq] at h
  rcases h with (h | h) | (h | h) | h <;> simp [isOpener, isCloser, h]

theorem depthAfter_end (h : t.isTrivia = true ∨ t.endsLine = true ∨ t.is ";" = true) :
    depthAfter d t = d := by
  simp [depthAfter, not_bracket h]

private theorem IsStatement.concat (h : IsStatement cur.reverse) (ht : t.Genuine)
    (htight : if t.endsLine then depthAfterAll 0 cur.reverse ≠ 0 else t.isTrivia = false) :
    IsStatement (t :: cur).reverse := by
  rw [reverse_cons]
  refine ⟨(tight_concat 0 _ t).mpr ⟨h.tight, htight⟩, ?_⟩
  rw [forall_mem_append, forall_mem_singleton]
  exact ⟨h.genuine, ht⟩

theorem endStatement_eq (cur : List Token) (rest : List (List Token)) :
    endStatement cur rest = (if cur = [] then [] else [cur.reverse]) ++ rest := by
  cases cur <;> rfl

/-- What holds of every state that the splitting comes to holds where a statement ends: at the end,
or outside of brackets. -/
theorem exists_of_mem_statementsFrom {I : Nat → List Token → List Token → Prop}
    (hskip : ∀ {d cur t ts}, I d cur (t :: ts) →
      t.isTrivia = true ∨ t.endsLine = true ∨ t.is ";" = true → I d cur ts)
    (hfresh : ∀ {cur ts}, I 0 cur ts → I 0 [] ts)
    (hpush : ∀ {d cur t ts}, I d cur (t :: ts) →
      (if t.endsLine then d ≠ 0 else t.isTrivia = false) → I (depthAfter d t) (t :: cur) ts)
    (h : I d cur ts) (hs : s ∈ statementsFrom d cur ts) :
    s ≠ [] ∧ ∃ d' cur' rest, s = cur'.reverse ∧ I d' cur' rest ∧ (rest = [] ∨ d' = 0) := by
  have hend {d : Nat} {cur ts : List Token} {rest : List (List Token)} (h : I d cur ts)
      (hstop : ts = [] ∨ d = 0) (hs : s ∈ endStatement cur rest) :
      s ∈ rest ∨ s ≠ [] ∧ ∃ d' cur' rest, s = cur'.reverse ∧ I d' cur' rest ∧
        (rest = [] ∨ d' = 0) := by
    rw [endStatement_eq, mem_append] at hs
    rcases hs with hs | hs
    · split at hs
      · cases hs
      · rename_i hne
        rw [mem_singleton] at hs
        exact .inr ⟨by simpa [hs] using hne, d, cur, ts, hs, h, hstop⟩
    · exact .inl hs
  fun_induction statementsFrom d cur ts with
  | case1 => exact (hend h (.inl rfl) hs).resolve_left not_mem_nil
  | case2 cur t ts hline _ ih =>
    exact (hend h (.inr rfl) hs).elim (ih (hfresh (hskip h (.inr (.inl hline))))) id
  | case3 cur t ts hline _ ih => exact ih (hskip h (.inr (.inl hline))) hs
  | case4 d cur t ts hline hd ih =>
    have hnext := hpush h (by rwa [if_pos hline])
    rw [depthAfter_end (.inr (.inl hline))] at hnext
    exact ih hnext hs
  | case5 d cur t ts _ htrivia ih => exact ih (hskip h (.inl htrivia)) hs
  | case6 d cur t ts _ _ hcut ih =>
    rw [Bool.and_eq_true, decide_eq_true_eq] at hcut
    obtain rfl := hcut.1
    exact (hend h (.inr rfl) hs).elim (ih (hfresh (hskip h (.inr (.inr hcut.2))))) id
  | case7 d cur t ts hline htrivia _ ih =>
    exact ih (hpush h (by simpa [hline] using htrivia)) hs

theorem isStatement_of_mem (hts : ∀ t ∈ ts, t.Genuine) (hs : s ∈ statements ts) :
    IsStatement s ∧ s ≠ [] := by
  let I (d : Nat) (cur ts : List Token) : Prop :=
    (∀ t ∈ ts, t.Genuine) ∧ IsStatement cur.reverse ∧ depthAfterAll 0 cur.reverse = d
  have hnil : IsStatement [] := ⟨trivial, by simp⟩
  obtain ⟨hne, -, cur, -, rfl, ⟨-, hcur, -⟩, -⟩ := exists_of_mem_statementsFrom
    (fun h _ => ⟨(forall_mem_cons.mp h.1).2, h.2⟩)
    (fun h => ⟨h.1, hnil, rfl⟩)
    (fun ⟨hts, hcur, hd⟩ htight => by
      rw [forall_mem_cons] at hts
      rw [← hd] at htight ⊢
      exact ⟨hts.2, hcur.concat hts.1 htight, by rw [reverse_cons, depthAfterAll_concat]⟩)
    (show I 0 [] ts from ⟨hts, hnil, rfl⟩) hs
  exact ⟨hcur, hne⟩

namespace IsStatement

variable {s : List Token}

theorem head (h : IsStatement (t :: s)) : t.endsLine = false ∧ t.isTrivia = false := by
  have htight := h.tight.1
  split at htight
  · exact absurd rfl htight
  · rename_i hline
    exact ⟨by simpa using hline, htight⟩

theorem word (h : IsStatement s) : ∀ t ∈ s, t.endsLine = false → t.isTrivia = false := by
  have hall {d : Nat} (htight : Tight d s) : ∀ t ∈ s, t.endsLine = false → t.isTrivia = false := by
    clear h
    induction s generalizing d with
    | nil => simp
    | cons t s ih =>
      refine forall_mem_cons.mpr ⟨fun hline => ?_, ih htight.2⟩
      simpa [hline] using htight.1
  exact hall h.tight

theorem codeFrom_cons (h : IsStatement (t :: s)) :
    codeFrom (t :: s) = t.toLexeme :: terminated t.toLexeme (s.map (·.toLexeme)) :=
  terminated_word h.head.1 h.head.2

theorem tail (h : IsStatement (t :: s)) (hopener : t.isOpener = false) :
    IsStatement s ∧ codeFrom (t :: s) = t.toLexeme :: codeFrom s := by
  have hs : IsStatement s := by
    have htight := h.tight.2
    rw [depthAfter, if_neg (by simp [hopener]), ite_self] at htight
    exact ⟨htight, fun u hu => h.genuine u (mem_cons_of_mem _ hu)⟩
  refine ⟨hs, ?_⟩
  rw [h.codeFrom_cons]
  cases s with
  | nil => rfl
  | cons u s => rw [hs.codeFrom_cons, map_cons, terminated_word hs.head.1 hs.head.2]

end IsStatement

end Statements

end GoBindings.Go
