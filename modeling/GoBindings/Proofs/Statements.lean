import GoBindings.Proofs.Nesting

/-!
# The statements of nested tokens

Brackets nest when they are matched in pairs. The statements of such tokens nest again, and hold all
but blanks, comments, and the semicolons and line ends between them. A line end outside of brackets
ends a statement by the last token before it, so that a run of line ends does what one does.
-/

namespace GoBindings.Go

open List

section Pairs

variable {xs : List Lexeme} {opened : List String}

/-- Lexemes that close the open brackets one after the other. -/
private def Closes : List String → List Lexeme → Prop
  | [], xs => Balanced xs
  | opener :: outer, xs => ∃ ys c zs, xs = ys ++ c :: zs ∧ Balanced ys ∧ c.isCloser = true ∧
      closerOf opener = c.text ∧ Closes outer zs

private theorem Balanced.closes_append {ys : List Lexeme} (hx : Balanced xs)
    (hy : Closes opened ys) :
    Closes opened (xs ++ ys) := by
  cases opened with
  | nil => exact hx.append hy
  | cons opener outer =>
    obtain ⟨us, c, vs, rfl, hus, hc, hm, hvs⟩ := hy
    exact ⟨xs ++ us, c, vs, (append_assoc ..).symm, hx.append hus, hc, hm, hvs⟩

private theorem closes_of_nests (h : nests opened xs = true) : Closes opened xs := by
  induction xs generalizing opened with
  | nil =>
    have hnil : opened = [] := by simpa [nests] using h
    rw [hnil]
    exact .nil
  | cons x xs ih =>
    by_cases ho : x.isOpener = true
    · rw [nests_opener _ _ ho] at h
      obtain ⟨ys, c, zs, rfl, hys, hc, hm, hzs⟩ := ih h
      have hpair := (Balanced.wrap ho hc hm hys).closes_append hzs
      rwa [cons_append, append_assoc] at hpair
    rw [Bool.not_eq_true] at ho
    by_cases hc : x.isCloser = true
    · cases opened with
      | nil =>
        rw [nests_closer_nil _ hc] at h
        cases h
      | cons opener outer =>
        rw [nests_closer_cons _ _ _ hc, Bool.and_eq_true, decide_eq_true_eq] at h
        exact ⟨[], x, xs, rfl, .nil, hc, h.1, ih h.2⟩
    · rw [Bool.not_eq_true] at hc
      rw [nests_plain _ _ ho hc] at h
      exact (Balanced.plain ho hc).closes_append (ih h)

theorem nests_iff_balanced : nests [] xs = true ↔ Balanced xs := by
  constructor
  · exact closes_of_nests
  · intro h
    simpa [nests] using h.nests_append [] []

end Pairs

section Splitting

variable {s cur pre run ts : List Token} {t : Token} {d : Nat}

/-- The tokens but for blanks, comments on one line, and the semicolons and line ends outside of
brackets, of which some may be open before. -/
def kept (depth : Nat) : List Token → List Token
  | [] => []
  | t :: ts =>
    if t.isTrivia && !t.endsLine || depth = 0 && (t.is ";" || t.endsLine) then kept depth ts
    else t :: kept (depthAfter depth t) ts

private theorem flatten_statementsFrom (d : Nat) (cur ts : List Token) :
    (statementsFrom d cur ts).flatten = cur.reverse ++ kept d ts := by
  have hend (cur : List Token) (rest : List (List Token)) :
      (endStatement cur rest).flatten = cur.reverse ++ rest.flatten := by
    cases cur <;> rfl
  fun_induction statementsFrom d cur ts with
  | case1 => exact hend _ _
  | case2 cur t ts hline _ ih => simp [hend, ih, kept, hline]
  | case3 cur t ts hline _ ih => simp [ih, kept, hline]
  | case4 d cur t ts hline hd ih => simp [ih, kept, hline, hd, depthAfter_end (.inr (.inl hline))]
  | case5 d cur t ts hline htrivia ih => simp [ih, kept, hline, htrivia]
  | case6 d cur t ts hline htrivia hcut ih =>
    rw [Bool.and_eq_true, decide_eq_true_eq] at hcut
    simp [hend, ih, kept, hcut]
  | case7 d cur t ts hline htrivia hcut ih =>
    have hkept : kept d (t :: ts) = t :: kept (depthAfter d t) ts := by
      rw [kept, if_neg]
      simpa [hline, htrivia] using hcut
    simp [ih, hkept]

private theorem balanced_of_mem_statements (h : Balanced (ts.map (·.toLexeme)))
    (hs : s ∈ statements ts) : s ≠ [] ∧ Balanced (s.map (·.toLexeme)) := by
  -- the statement begun leaves open what the tokens ahead close
  let I (d : Nat) (cur ts : List Token) : Prop := ∃ opened : List String, opened.length = d ∧
    nests opened (ts.map (·.toLexeme)) = true ∧
    ∀ rest, nests [] (cur.reverse.map (·.toLexeme) ++ rest) = nests opened rest
  obtain ⟨hne, d, cur, rest, rfl, ⟨opened, hlength, hrest, hcur⟩, hstop⟩ :=
    exists_of_mem_statementsFrom
      (fun ⟨opened, hlength, hts, hcur⟩ ht =>
        ⟨opened, hlength, by rwa [map_cons, nests_end _ _ ht] at hts, hcur⟩)
      (fun ⟨opened, hlength, hts, _⟩ => by
        obtain rfl := length_eq_zero_iff.mp hlength
        exact ⟨[], rfl, hts, fun _ => rfl⟩)
      (fun ⟨opened, hlength, hts, hcur⟩ _ => by
        obtain ⟨opened', hlength', hts', hnext⟩ := exists_nests_tail hts
        refine ⟨opened', hlength'.trans (by rw [hlength]; rfl), hts', fun rest => ?_⟩
        rw [hnext, ← hcur]
        simp)
      (show I 0 [] ts from ⟨[], rfl, nests_iff_balanced.mpr h, fun _ => rfl⟩) hs
  refine ⟨hne, nests_iff_balanced.mp ?_⟩
  have hnil : opened = [] := by
    rcases hstop with rfl | rfl
    · simpa [nests] using hrest
    · exact length_eq_zero_iff.mp hlength
  rw [← append_nil (map _ _), hcur, hnil]
  rfl

private theorem exists_statementsFrom_cons (d : Nat) (cur : List Token) (t : Token) :
    ∃ done cur', ∀ post, statementsFrom d cur (t :: post) =
      done ++ statementsFrom (depthAfter d t) cur' post := by
  by_cases hline : t.endsLine = true
  · rw [depthAfter_end (.inr (.inl hline))]
    by_cases hd : d = 0
    · by_cases hlast : cur.head?.any endsStatement = true
      · exact ⟨endStatement cur [], [], fun post => by
          simp [statementsFrom, hline, hd, hlast, endStatement_eq]⟩
      · exact ⟨[], cur, fun post => by simp [statementsFrom, hline, hd, hlast]⟩
    · exact ⟨[], t :: cur, fun post => by simp [statementsFrom, hline, hd]⟩
  by_cases htrivia : t.isTrivia = true
  · rw [depthAfter_end (.inl htrivia)]
    exact ⟨[], cur, fun post => by simp [statementsFrom, hline, htrivia]⟩
  by_cases hcut : d = 0 ∧ t.is ";" = true
  · rw [depthAfter_end (.inr (.inr hcut.2))]
    exact ⟨endStatement cur [], [], fun post => by
      simp [statementsFrom, hline, htrivia, hcut, endStatement_eq]⟩
  · have hcut' : (decide (d = 0) && t.is ";") = false := by simpa using hcut
    exact ⟨[], t :: cur, fun post => by simp [statementsFrom, hline, htrivia, hcut']⟩

private theorem exists_statementsFrom_append (d : Nat) (cur pre : List Token) :
    ∃ done cur', ∀ post, statementsFrom d cur (pre ++ post) =
      done ++ statementsFrom (depthAfterAll d pre) cur' post := by
  induction pre generalizing d cur with
  | nil => exact ⟨[], cur, fun _ => rfl⟩
  | cons t pre ih =>
    obtain ⟨done, cur₁, hdone⟩ := exists_statementsFrom_cons d cur t
    obtain ⟨done', cur₂, hdone'⟩ := ih (depthAfter d t) cur₁
    refine ⟨done ++ done', cur₂, fun post => ?_⟩
    rw [cons_append, hdone, hdone', append_assoc]
    rfl

private theorem statementsFrom_run (hrun : ∀ u ∈ run, u.endsLine = true ∨ u.isTrivia = true)
    (hcur : cur.head?.any endsStatement = false) (post : List Token) :
    statementsFrom 0 cur (run ++ post) = statementsFrom 0 cur post := by
  induction run with
  | nil => rfl
  | cons u run ih =>
    rw [forall_mem_cons] at hrun
    rw [cons_append, statementsFrom, ih hrun.2, hcur]
    by_cases hline : u.endsLine = true
    · simp [hline]
    · simp [hrun.1.resolve_left hline]

/-- The statements of nested tokens, what they hold and where a line end splits them. -/
theorem statements_spec (h : Balanced (ts.map (·.toLexeme))) :
    (∀ s ∈ statements ts, s ≠ [] ∧ Balanced (s.map (·.toLexeme))) ∧
    (statements ts).flatten = kept 0 ts ∧
    ∀ pre t post, ts = pre ++ t :: post → Balanced (pre.map (·.toLexeme)) → t.endsLine = true →
      (∃ done current,
        -- the statement that a further token would join
        (∀ x : Token, x.endsLine = false → x.isTrivia = false → x.is ";" = false →
          statements (pre ++ [x]) = done ++ [current ++ [x]]) ∧
        statements ts =
          if current.getLast?.any endsStatement then done ++ current :: statements post
          else statements (pre ++ post)) ∧
      ∀ run, (∀ u ∈ run, u.endsLine = true ∨ u.isTrivia = true) →
        statements (pre ++ t :: (run ++ post)) = statements ts := by
  refine ⟨fun s => balanced_of_mem_statements h, flatten_statementsFrom 0 [] ts, ?_⟩
  rintro pre t post rfl hpre hline
  obtain ⟨done, cur, hdone⟩ := exists_statementsFrom_append 0 [] pre
  have hzero : depthAfterAll 0 pre = 0 :=
    depthAfterAll_of_nests (nests_iff_balanced.mpr hpre)
  simp only [hzero] at hdone
  have hstep (post : List Token) : statements (pre ++ t :: post) =
      if cur.head?.any endsStatement then done ++ cur.reverse :: statements post
      else statements (pre ++ post) := by
    rw [statements, hdone, statementsFrom, if_pos hline, if_pos rfl]
    split
    · cases cur with
      | nil => simp at *
      | cons => rfl
    · exact (hdone post).symm
  refine ⟨⟨done, cur.reverse, fun x hxline hxtrivia hx => ?_, ?_⟩, fun run hrun => ?_⟩
  · rw [statements, hdone]
    simp [statementsFrom, hxline, hxtrivia, hx, endStatement]
  · rw [hstep, getLast?_reverse]
  · rw [hstep, hstep]
    split
    · rw [statements, statementsFrom_run hrun rfl]
      rfl
    · rename_i hopen
      rw [statements, hdone, statementsFrom_run hrun (by simpa using hopen), ← hdone]
      rfl

def callTokens : List Token :=
  [.ident "f", .punct "(", lineFeed, .punct ")", lineFeed, lineFeed, .punct ";",
    .ident "y"].map bare

theorem statements_spec_call :
    Balanced (callTokens.map (·.toLexeme)) ∧
      (∀ s ∈ statements callTokens, s ≠ [] ∧ Balanced (s.map (·.toLexeme))) ∧
      (statements callTokens).flatten = kept 0 callTokens ∧
      statements callTokens = [callTokens.take 4, callTokens.drop 7] :=
  have h : Balanced (callTokens.map (·.toLexeme)) := nests_iff_balanced.mp (by decide)
  ⟨h, (statements_spec h).1, (statements_spec h).2.1, by decide⟩

end Splitting

section Acceptance

private theorem funcBinds?_receiver {inside : List Lexeme} (h : .punct ")" ∉ inside)
    (name : Lexeme) (rest : List Lexeme) :
    funcBinds? (.punct "(" :: (inside ++ .punct ")" :: name :: rest)) =
      if name.kind = .ident then some [.method (lastName inside) name.text] else none := by
  have hopen : ∀ x ∈ inside, decide (x ≠ .punct ")") = true := by
    intro x hx
    rw [decide_eq_true_eq]
    rintro rfl
    exact h hx
  rw [funcBinds?, dropWhile_append_of_pos hopen, takeWhile_append_of_pos hopen]
  simp

/-- A source is accepted if and only if it can be read, its brackets nest, and the parts between its
semicolons, those that line ends stand for included, are a package clause, imports and declarations
that bind nothing twice. A line end is taken to end a statement after any keyword: where none stands
after a keyword that Go reads on from, the semicolons are those of Go. A receiver is taken to end at
the first parenthesis that closes. -/
theorem check_accepts_iff (source : String) :
    (check source = .ok () ↔ ∃ tokens, scan source = .ok tokens ∧
      Balanced (tokens.map (·.toLexeme)) ∧ Admitted (segments (codeFrom tokens))) ∧
    (∀ tokens, scan source = .ok tokens → KeywordsGoOn (tokens.map (·.toLexeme)) →
      (check source = .ok () ↔ Balanced (tokens.map (·.toLexeme)) ∧
        Admitted (segments (goCode tokens)))) ∧
    ∀ inside name rest, .punct ")" ∉ inside →
      funcBinds? (.punct "(" :: (inside ++ .punct ")" :: name :: rest)) =
        if name.kind = .ident then some [.method (lastName inside) name.text] else none := by
  have hcheck : check source = .ok () ↔ ∃ tokens, scan source = .ok tokens ∧
      Balanced (tokens.map (·.toLexeme)) ∧ Admitted (segments (codeFrom tokens)) := by
    rw [check_eq_ok]
    refine exists_congr fun tokens => ?_
    rw [checkedTokens_eq_ok]
    refine and_congr_right fun hscan => ?_
    obtain ⟨xs, -, hxs, rfl⟩ := exists_lexed_of_scan hscan
    rw [checkTokens_eq_ok (genuine_placed hxs), ← nests_iff_balanced]
    exact and_congr_left fun _ => by rw [codeFrom, nests_terminated]
  refine ⟨hcheck, ?_, fun inside name rest h => funcBinds?_receiver h name rest⟩
  intro tokens hscan hkeywords
  rw [hcheck, goCode, hkeywords.terminated_eq]
  constructor
  · rintro ⟨tokens', hscan', h⟩
    rwa [← Except.ok.inj (hscan'.symm.trans hscan)]
  · intro h
    exact ⟨tokens, hscan, h⟩

def nestedReceiver : String := "package p\nfunc (m (T)) F() \x7b\x7d\n"

def brokenClause : String := "package\np\n"

/-- A receiver with a parenthesis in it is refused, and so is a package clause on two lines, after
whose keyword Go puts no semicolon. -/
theorem check_refuses_valid :
    (∃ tokens, scan nestedReceiver = .ok tokens ∧ Balanced (tokens.map (·.toLexeme)) ∧
      KeywordsGoOn (tokens.map (·.toLexeme)) ∧
      (segments (goCode tokens)).map (·.map (·.text)) = [["package", "p"],
        ["func", "(", "m", "(", "T", ")", ")", "F", "(", ")", "\x7b", "\x7d"]] ∧
      check nestedReceiver ≠ .ok ()) ∧
    ∃ tokens, scan brokenClause = .ok tokens ∧ Balanced (tokens.map (·.toLexeme)) ∧
      Admitted (segments (goCode tokens)) ∧ check brokenClause ≠ .ok () := by
  have hrefused (source : String) (h : (check source).isOk = false) : check source ≠ .ok () := by
    intro hok
    rw [hok] at h
    cases h
  have hreceiver : (scan nestedReceiver).isOk = true := by decide +kernel
  have hclause : (scan brokenClause).isOk = true := by decide +kernel
  refine ⟨⟨_, eq_ok_of_isOk [] hreceiver, nests_iff_balanced.mp (by decide +kernel), ?_,
    by decide +kernel, hrefused _ (by decide +kernel)⟩, _, eq_ok_of_isOk [] hclause,
    nests_iff_balanced.mp (by decide +kernel), ?_, hrefused _ (by decide +kernel)⟩
  · rw [KeywordsGoOn]
    decide +kernel
  · exact ⟨[.ident "package", .ident "p"], [], [], [], by decide +kernel, rfl, nofun, rfl,
      nodup_nil⟩

end Acceptance

end GoBindings.Go
