import GoBindings.Proofs.Admission

/-!
# Formatting keeps a source and its lines

A source that is accepted can be formatted. Formatting keeps its words, keeps a line end between
two of them exactly where there was one, and changes nothing when it is done again.
-/

namespace GoBindings.Go

open List Lexeme

variable {tokens : List Token} {formatted : String} {n : Nat}

section Words

theorem map_snd_wordsFrom (gap : Gap) (xs : List Lexeme) :
    (wordsFrom gap xs).map Prod.snd = xs.filter (·.isWord) := by
  induction xs generalizing gap with
  | nil => rfl
  | cons x xs ih =>
    rcases x.isWord_cases with hx | hx | hx
    · rw [wordsFrom_newline hx, ih, filter_cons_of_neg (by simp [isWord, hx])]
    · rw [wordsFrom_space hx, ih, filter_cons_of_neg (by simp [isWord, hx])]
    · rw [wordsFrom_word hx, map_cons, ih, filter_cons_of_pos hx]

def Gap.feed (gap : Gap) : List Lexeme := if gap = .line then [lineFeed] else []

def fedWords (words : List (Gap × Lexeme)) : List Lexeme :=
  words.flatMap fun w => w.1.feed ++ [w.2]

def fedCode (words : List (Gap × Lexeme)) : List Lexeme := terminated semicolon (fedWords words)

private theorem terminated_fedWords (last : Lexeme) (gap : Gap) (xs : List Lexeme) :
    ∃ tail, (tail = [] ∨ tail = [semicolon]) ∧
      terminated last (gap.feed ++ xs) = terminated last (fedWords (wordsFrom gap xs)) ++ tail := by
  induction xs generalizing last gap with
  | nil =>
    refine ⟨terminated last gap.feed, ?_, by simp [fedWords, terminated]⟩
    rw [Gap.feed]
    split
    · rw [terminated_line rfl]
      split <;> simp [terminated]
    · exact .inl rfl
  | cons x xs ih =>
    rcases x.isWord_cases with hx | hx | hx
    · have hends : x.endsLine = true := by simp [endsLine, hx]
      have hfeed : terminated last (gap.feed ++ x :: xs) =
          terminated last (Gap.feed .line ++ xs) := by
        cases gap with
        | line => exact terminated_line_line rfl hends
        | none | blank =>
          show terminated last (x :: xs) = terminated last (lineFeed :: xs)
          rw [terminated_line hends, terminated_line rfl]
      rw [wordsFrom_newline hx, hfeed]
      exact ih last .line
    · have hblank : x.endsLine = false ∧ x.isTrivia = true := by
        simp [endsLine, isTrivia, hx]
      have hfeed : gap.spaced.feed = gap.feed := by cases gap <;> rfl
      rw [wordsFrom_space hx, terminated_append, terminated_trivia hblank.1 hblank.2,
        ← terminated_append, ← hfeed]
      exact ih last gap.spaced
    · have hwords : fedWords (wordsFrom gap (x :: xs)) =
          (gap.feed ++ [x]) ++ (Gap.feed .none ++ fedWords (wordsFrom .none xs)) := by
        rw [wordsFrom_word hx]
        rfl
      have hxs : gap.feed ++ x :: xs = (gap.feed ++ [x]) ++ (Gap.feed .none ++ xs) := by
        rw [append_assoc]
        rfl
      rw [hwords, hxs, terminated_append, terminated_append last (gap.feed ++ [x])]
      obtain ⟨tail, htail, heq⟩ := ih ((terminated last (gap.feed ++ [x])).getLastD last) .none
      refine ⟨tail, htail, ?_⟩
      rw [heq, append_assoc]
      rfl

end Words

section Acceptance

variable {xs : List Lexeme} {tokens tokens' : List Token} {words : List (Gap × Lexeme)}

theorem depthAfterAll_of_nests {opened : List String}
    (h : nests opened (tokens.map (·.toLexeme)) = true) :
    depthAfterAll opened.length tokens = 0 := by
  induction tokens generalizing opened with
  | nil =>
    have hnil : opened = [] := by simpa [nests] using h
    rw [hnil]
    rfl
  | cons t ts ih =>
    obtain ⟨opened', hlength, hts, -⟩ := exists_nests_tail h
    have hlater := ih hts
    rw [hlength] at hlater
    exact hlater

private theorem segmentsFrom_concat {depth : Nat} (current : List Lexeme)
    (h : depthAfterAll depth (xs.map bare) = 0) :
    segmentsFrom depth current (xs ++ [semicolon]) = segmentsFrom depth current xs := by
  induction xs generalizing depth current with
  | nil =>
    obtain rfl : depth = 0 := h
    rfl
  | cons x xs ih =>
    have hstep : depthAfterAll (depthAfter depth (bare x)) (xs.map bare) = 0 := h
    rw [cons_append, segmentsFrom, segmentsFrom]
    split
    · rename_i hcut
      simp only [is, Bool.and_eq_true, decide_eq_true_eq] at hcut
      have hzero : depthAfter depth (bare x) = 0 := by
        simp [depthAfter, bare, isOpener, hcut]
      rw [ih [] (hzero ▸ hstep)]
    · exact ih _ hstep

theorem checkTokens_of_code (hs : ∀ t ∈ tokens, t.Genuine) (hs' : ∀ t ∈ tokens', t.Genuine)
    (hcode : codeFrom tokens = codeFrom tokens') (h : checkTokens tokens = .ok ()) :
    checkTokens tokens' = .ok () := by
  rw [checkTokens_eq_ok hs, hcode] at h
  exact (checkTokens_eq_ok hs').mpr h

private theorem checkTokens_iff_fedCode (h : ∀ t ∈ tokens, t.Genuine)
    (hwords : gappedWords (tokens.map (·.toLexeme)) = words) :
    checkTokens tokens = .ok () ↔
      nests [] (fedCode words) = true ∧ Admitted (segments (fedCode words)) := by
  obtain ⟨tail, htail, heq⟩ := terminated_fedWords semicolon .line (tokens.map (·.toLexeme))
  have hcode : codeFrom tokens = fedCode words ++ tail := by
    rw [← hwords]
    exact heq
  rw [checkTokens_eq_ok h, hcode]
  rcases htail with rfl | rfl
  · rw [append_nil]
  · rw [nests_concat_semicolon]
    refine and_congr_right fun hnests => ?_
    have hdepth : depthAfterAll 0 ((fedCode words).map bare) = 0 := by
      have hbare : nests [] (((fedCode words).map bare).map (·.toLexeme)) = true := by
        simpa [bare, Function.comp_def] using hnests
      exact depthAfterAll_of_nests hbare
    rw [segments, segmentsFrom_concat [] hdepth]
    rfl

end Acceptance

section Format

variable {source : String} {xs : List Lexeme}

theorem checkedTokens_eq_ok :
    checkedTokens source = .ok tokens ↔ scan source = .ok tokens ∧ checkTokens tokens = .ok () := by
  rw [checkedTokens]
  cases hs : scan source with
  | error fault => simp
  | ok ts =>
    cases hc : checkTokens ts with
    | error fault =>
      simp only [bind, Except.bind, hc, reduceCtorEq, false_iff, not_and, Except.ok.injEq]
      rintro rfl
      simp [hc]
    | ok u =>
      simp only [bind, Except.bind, hc, pure, Except.pure, Except.ok.injEq]
      constructor
      · rintro rfl
        exact ⟨rfl, hc⟩
      · exact fun h => h.1

theorem check_eq_ok : check source = .ok () ↔ ∃ tokens, checkedTokens source = .ok tokens := by
  rw [check]
  cases checkedTokens source <;> simp

private theorem mem_of_mem_placed {p : Position} {t : Token} (h : t ∈ placed p xs) :
    t.toLexeme ∈ xs := by
  rw [← placed_map p xs]
  exact mem_map_of_mem h

theorem genuine_placed (h : Lexed sourceStart xs) : ∀ t ∈ placed {} xs, t.Genuine :=
  fun _ ht => h.inClass _ (mem_of_mem_placed ht)

theorem toList_layout_placed (h : Lexed sourceStart xs) :
    (layout (placed {} xs)).toList = chars (relaid xs) := by
  rw [toList_layout (fun t ht => h.text_ne_nil _ (mem_of_mem_placed ht)), placed_map]

private theorem lexed_relaid (h : Lexed sourceStart xs) : Lexed sourceStart (relaid xs) := by
  have hwords : wordsFrom .line xs = wordsFrom .line (relaid xs) := (gappedWords_relaid xs).symm
  exact h.respaced (tidy_relaid xs) hwords (fun _ => rfl) (fun _ => rfl)

/-- The canonical layout of the tokens of an accepted source is accepted, with known tokens. -/
theorem checkedTokens_layout (h : checkedTokens source = .ok tokens) :
    checkedTokens (layout tokens) = .ok (placed {} (relaid (tokens.map (·.toLexeme)))) := by
  obtain ⟨hscan, hcheck⟩ := checkedTokens_eq_ok.mp h
  obtain ⟨xs, -, hxs, rfl⟩ := exists_lexed_of_scan hscan
  rw [placed_map]
  refine checkedTokens_eq_ok.mpr ⟨scan_spell (toList_layout_placed hxs) (lexed_relaid hxs), ?_⟩
  have hwords : gappedWords ((placed {} (relaid xs)).map (·.toLexeme)) = gappedWords xs := by
    rw [placed_map, gappedWords_relaid]
  rw [checkTokens_iff_fedCode (genuine_placed hxs) (by rw [placed_map])] at hcheck
  exact (checkTokens_iff_fedCode (genuine_placed (lexed_relaid hxs)) hwords).mpr hcheck

theorem format_eq_ok :
    format source = .ok formatted ↔
      ∃ tokens, checkedTokens source = .ok tokens ∧ formatted = layout tokens := by
  rw [format]
  cases h : checkedTokens source with
  | error fault => simp
  | ok tokens =>
    have hcheck : check (layout tokens) = .ok () := check_eq_ok.mpr ⟨_, checkedTokens_layout h⟩
    simp [hcheck, eq_comm]

/-- Formatting what is formatted changes nothing. -/
theorem format_idempotent {source formatted : String} (h : format source = .ok formatted) :
    format formatted = .ok formatted := by
  obtain ⟨tokens, htokens, rfl⟩ := format_eq_ok.mp h
  obtain ⟨xs, -, hxs, rfl⟩ := exists_lexed_of_scan (checkedTokens_eq_ok.mp htokens).1
  refine format_eq_ok.mpr ⟨_, checkedTokens_layout htokens, ?_⟩
  apply String.toList_injective
  rw [placed_map, toList_layout_placed hxs, toList_layout_placed (lexed_relaid hxs), relaid_relaid]

theorem format_idempotent_sample :
    format "package  a;\n\n\n\nvar  x = 'b'" = .ok "package a;\n\nvar x = 'b'\n" ∧
      format "package a;\n\nvar x = 'b'\n" = .ok "package a;\n\nvar x = 'b'\n" := by
  have h : format "package  a;\n\n\n\nvar  x = 'b'" = .ok "package a;\n\nvar x = 'b'\n" :=
    eq_ok_of_toOption (by decide +kernel)
  exact ⟨h, format_idempotent h⟩

end Format

section Lines

/-- The words of a source in their order, without their places. -/
def wordsOf (tokens : List Token) : List Lexeme := (tokens.map (·.toLexeme)).filter (·.isWord)

/-- A line feed stands between the words number `n` and `n + 1`, counted from zero. -/
def LineFeedAfter (n : Nat) (tokens : List Token) : Prop :=
  ∃ before u gap v after, tokens = before ++ u :: (gap ++ v :: after) ∧
    (wordsOf before).length = n ∧ u.isWord = true ∧ v.isWord = true ∧ wordsOf gap = [] ∧
    ∃ t ∈ gap, t.kind = .newline

private theorem wordsFrom_gap_append (gap : Gap) {mid : List Lexeme}
    (hmid : mid.filter (·.isWord) = []) {v : Lexeme} (hv : v.isWord = true) (after : List Lexeme) :
    ∃ first, wordsFrom gap (mid ++ v :: after) = (first, v) :: wordsFrom .none after ∧
      (first = .line ↔ gap = .line ∨ ∃ x ∈ mid, x.kind = .newline) := by
  induction mid generalizing gap with
  | nil => exact ⟨gap, wordsFrom_word hv, by simp⟩
  | cons x mid ih =>
    have hx : x.isWord = false := by
      cases hx : x.isWord with
      | false => rfl
      | true => simp [hx] at hmid
    rw [filter_cons_of_neg (by simp [hx])] at hmid
    rcases x.isWord_cases with hk | hk | hk
    · obtain ⟨first, hf, hl⟩ := ih .line hmid
      refine ⟨first, ?_, ?_⟩
      · rw [cons_append, wordsFrom_newline hk, hf]
      · simp [hl, hk]
    · obtain ⟨first, hf, hl⟩ := ih gap.spaced hmid
      refine ⟨first, ?_, ?_⟩
      · rw [cons_append, wordsFrom_space hk, hf]
      · rw [hl]
        cases gap <;> simp [Gap.spaced, hk]
    · rw [hx] at hk
      cases hk

private theorem wordsFrom_word_append {gap : Gap} {u : Lexeme} (hu : u.isWord = true)
    (before after : List Lexeme) :
    wordsFrom gap (before ++ u :: after) =
      wordsFrom gap (before ++ [u]) ++ wordsFrom .none after := by
  induction before generalizing gap with
  | nil => simp [wordsFrom_word hu]
  | cons x before ih =>
    rcases x.isWord_cases with hk | hk | hk
    · rw [cons_append, cons_append, wordsFrom_newline hk, wordsFrom_newline hk, ih]
    · rw [cons_append, cons_append, wordsFrom_space hk, wordsFrom_space hk, ih]
    · rw [cons_append, cons_append, wordsFrom_word hk, wordsFrom_word hk, ih,
        cons_append]

@[simp] theorem wordsOf_nil : wordsOf [] = [] := rfl

theorem wordsOf_cons (t : Token) (ts : List Token) :
    wordsOf (t :: ts) = if t.isWord then t.toLexeme :: wordsOf ts else wordsOf ts := by
  simp only [wordsOf, map_cons, filter_cons]

theorem map_snd_gappedWords (tokens : List Token) :
    (gappedWords (tokens.map (·.toLexeme))).map Prod.snd = wordsOf tokens :=
  map_snd_wordsFrom _ _

private theorem exists_of_getElem?_wordsOf {x : Lexeme} (h : (wordsOf tokens)[n]? = some x) :
    ∃ before v after, tokens = before ++ v :: after ∧ (wordsOf before).length = n ∧
      v.isWord = true := by
  induction tokens generalizing n with
  | nil => simp at h
  | cons t ts ih =>
    rw [wordsOf_cons] at h
    cases ht : t.isWord with
    | false =>
      simp only [ht] at h
      obtain ⟨before, v, after, rfl, hn, hv⟩ := ih h
      exact ⟨t :: before, v, after, rfl, by simp [wordsOf_cons, ht, hn], hv⟩
    | true =>
      cases n with
      | zero => exact ⟨[], t, ts, rfl, rfl, ht⟩
      | succ n =>
        simp only [ht] at h
        obtain ⟨before, v, after, rfl, hn, hv⟩ := ih h
        exact ⟨t :: before, v, after, rfl, by simp [wordsOf_cons, ht, hn], hv⟩

private theorem exists_last_word (h : (wordsOf tokens).length = n + 1) :
    ∃ before u gap, tokens = before ++ u :: gap ∧ (wordsOf before).length = n ∧
      u.isWord = true ∧ wordsOf gap = [] := by
  induction tokens generalizing n with
  | nil => simp at h
  | cons t ts ih =>
    cases hw : wordsOf ts with
    | nil =>
      rw [wordsOf_cons, hw] at h
      cases ht : t.isWord with
      | false => simp [ht] at h
      | true =>
        obtain rfl : n = 0 := by simpa [ht] using h
        exact ⟨[], t, ts, rfl, rfl, ht, hw⟩
    | cons x xs =>
      obtain ⟨before, u, gap, rfl, hn, hu, hg⟩ := ih (by rw [hw]; rfl)
      refine ⟨t :: before, u, gap, rfl, ?_, hu, hg⟩
      rw [wordsOf_cons, hw] at h
      rw [wordsOf_cons]
      cases ht : t.isWord with
      | false =>
        simp only [ht, Bool.false_eq_true, if_false, length_cons] at h ⊢
        omega
      | true =>
        simp only [ht, if_true, length_cons] at h ⊢
        omega

private theorem getElem?_gappedWords (before after : List Token) {gap : List Token} {u v : Token}
    (hu : u.isWord = true) (hv : v.isWord = true) (hg : wordsOf gap = []) :
    ∃ first,
      (gappedWords ((before ++ u :: (gap ++ v :: after)).map (·.toLexeme)))[
        (wordsOf before).length + 1]? = some (first, v.toLexeme) ∧
      (first = .line ↔ ∃ t ∈ gap, t.kind = .newline) := by
  obtain ⟨first, hf, hl⟩ :=
    wordsFrom_gap_append .none hg hv (after.map (·.toLexeme))
  refine ⟨first, ?_, ?_⟩
  · have hlen : (wordsFrom .line (before.map (·.toLexeme) ++ [u.toLexeme])).length =
        (wordsOf before).length + 1 := by
      rw [← length_map Prod.snd, map_snd_wordsFrom]
      simp [wordsOf, hu]
    simp only [gappedWords, map_append, map_cons]
    rw [wordsFrom_word_append hu, getElem?_append_right (Nat.le_of_eq hlen), hlen, Nat.sub_self,
      hf]
    rfl
  · rw [hl]
    constructor
    · rintro (hnone | ⟨x, hx, hk⟩)
      · cases hnone
      · obtain ⟨t, ht, rfl⟩ := mem_map.mp hx
        exact ⟨t, ht, hk⟩
    · rintro ⟨t, ht, hk⟩
      exact .inr ⟨t.toLexeme, mem_map_of_mem ht, hk⟩

theorem lineFeedAfter_iff (n : Nat) (tokens : List Token) :
    LineFeedAfter n tokens ↔
      ((gappedWords (tokens.map (·.toLexeme)))[n + 1]?.any (·.1 = .line)) = true := by
  constructor
  · rintro ⟨before, u, gap, v, after, rfl, rfl, hu, hv, hg, hnl⟩
    obtain ⟨first, hf, hl⟩ := getElem?_gappedWords before after hu hv hg
    rw [hf]
    simp [hl.mpr hnl]
  · intro h
    obtain ⟨⟨first, x⟩, hx, hfirst⟩ := Option.any_eq_true _ _ |>.mp h
    have hword : (wordsOf tokens)[n + 1]? = some x := by
      rw [← map_snd_gappedWords, getElem?_map, hx]
      rfl
    obtain ⟨before', v, after, rfl, hn, hv⟩ := exists_of_getElem?_wordsOf hword
    obtain ⟨before, u, gap, rfl, rfl, hu, hg⟩ := exists_last_word hn
    rw [append_assoc, cons_append] at hx ⊢
    obtain ⟨first', hf, hl⟩ := getElem?_gappedWords before after hu hv hg
    rw [hf] at hx
    cases hx
    exact ⟨before, u, gap, v, after, rfl, rfl, hu, hv, hg, hl.mp (by simpa using hfirst)⟩

/-- An accepted source can be formatted; its words stay, and so do the line feeds between them. -/
theorem format_keeps_words {source : String} (h : check source = .ok ()) :
    ∃ formatted tokens tokens', format source = .ok formatted ∧ scan source = .ok tokens ∧
      scan formatted = .ok tokens' ∧ wordsOf tokens' = wordsOf tokens ∧
      ∀ n, LineFeedAfter n tokens' ↔ LineFeedAfter n tokens := by
  obtain ⟨tokens, htokens⟩ := check_eq_ok.mp h
  have hrelaid := checkedTokens_layout htokens
  have hwords : gappedWords ((placed {} (relaid (tokens.map (·.toLexeme)))).map (·.toLexeme)) =
      gappedWords (tokens.map (·.toLexeme)) := by
    rw [placed_map, gappedWords_relaid]
  refine ⟨layout tokens, tokens, _, format_eq_ok.mpr ⟨tokens, htokens, rfl⟩,
    (checkedTokens_eq_ok.mp htokens).1, (checkedTokens_eq_ok.mp hrelaid).1, ?_, fun n => ?_⟩
  · rw [← map_snd_gappedWords, ← map_snd_gappedWords, hwords]
  · rw [lineFeedAfter_iff, lineFeedAfter_iff, hwords]

theorem format_keeps_words_sample :
    check "package a\n\n\nvar (x  = `\n`; y)" = .ok () ∧
      ∃ formatted tokens tokens', format "package a\n\n\nvar (x  = `\n`; y)" = .ok formatted ∧
        scan "package a\n\n\nvar (x  = `\n`; y)" = .ok tokens ∧ scan formatted = .ok tokens' ∧
        wordsOf tokens' = wordsOf tokens ∧
          ∀ n, LineFeedAfter n tokens' ↔ LineFeedAfter n tokens := by
  have h : check "package a\n\n\nvar (x  = `\n`; y)" = .ok () :=
    eq_ok_of_toOption (by decide +kernel)
  exact ⟨h, format_keeps_words h⟩

end Lines

section Solid

variable {c : Char}
variable {source : String}

theorem count_chars_words {xs : List Lexeme} (h : ∀ x ∈ xs, x.GapSpelled) (hc : isSolid c = true) :
    (chars xs).count c = (chars (xs.filter (·.isWord))).count c := by
  induction xs with
  | nil => rfl
  | cons x xs ih =>
    rw [forall_mem_cons] at h
    cases hx : x.isWord with
    | true => simp [hx, ih h.2]
    | false =>
      have hnone : c ∉ x.text.toList := by
        intro hmem
        rw [GapSpelled.loose h.1 hx c hmem] at hc
        cases hc
      simp [hx, ih h.2, count_eq_zero.mpr hnone]

theorem count_of_scan (h : scan source = .ok tokens) (hc : isSolid c = true) :
    source.toList.count c = (chars (wordsOf tokens)).count c := by
  obtain ⟨xs, hsource, hxs, rfl⟩ := exists_lexed_of_scan h
  rw [hsource, count_chars_words hxs.gapSpelled hc, wordsOf, placed_map]

/-- Formatting changes blanks and line feeds only. -/
theorem format_count (h : format source = .ok formatted) (hc : isSolid c = true) :
    formatted.toList.count c = source.toList.count c := by
  obtain ⟨tokens, htokens, rfl⟩ := format_eq_ok.mp h
  have hlayout := (checkedTokens_eq_ok.mp (checkedTokens_layout htokens)).1
  rw [count_of_scan (checkedTokens_eq_ok.mp htokens).1 hc, count_of_scan hlayout hc,
    ← map_snd_gappedWords, ← map_snd_gappedWords, placed_map, gappedWords_relaid]

end Solid

end GoBindings.Go
