import GoBindings.Proofs.Respacing

/-!
# Words and the gaps between them

The words of a lexeme list are its lexemes other than blanks and line feeds. Each is taken with
the gap before it, of which only counts whether it is empty and whether it holds a line feed.
A list of lexemes that fit keeps fitting under any tidy change of its gaps.
-/

namespace GoBindings.Go

open List Lexeme

variable {xs ys : List Lexeme} {before w : Lexeme} {gap : Gap}
variable {x : Lexeme}

/-- What stands before a word: nothing, blanks, or at least one line feed. -/
inductive Gap where
  | none
  | blank
  | line
  deriving DecidableEq, Repr

/-- The gap after some more blanks. -/
def Gap.spaced : Gap → Gap
  | .none => .blank
  | g => g

namespace Lexeme

def isWord (x : Lexeme) : Bool := x.kind ≠ .space && x.kind ≠ .newline

/-- A line feed is spelled as such, and blanks are spelled by blanks. -/
def GapSpelled (x : Lexeme) : Prop :=
  (x.kind = .newline → x.text.toList = ['\n']) ∧
    (x.kind = .space → x.text.toList ≠ [] ∧ ∀ c ∈ x.text.toList, isBlank c = true)

end Lexeme

/-- The words, each with the gap before it; `gap` is what stands before the list. -/
def wordsFrom (gap : Gap) : List Lexeme → List (Gap × Lexeme)
  | [] => []
  | x :: xs =>
    if x.kind = .newline then wordsFrom .line xs
    else if x.kind = .space then wordsFrom gap.spaced xs
    else (gap, x) :: wordsFrom .none xs

/-- The words of a source, whose beginning counts as the beginning of a line. -/
def gappedWords (xs : List Lexeme) : List (Gap × Lexeme) := wordsFrom .line xs

/-- Gaps are spelled properly, and blanks stand before words only. -/
def Tidy : List Lexeme → Prop
  | [] => True
  | x :: xs => x.GapSpelled ∧ (x.kind = .space → ∃ y ys, xs = y :: ys ∧ y.isWord = true) ∧ Tidy xs

section Words

variable {gap : Gap} {x : Lexeme} {xs : List Lexeme}

@[simp] theorem wordsFrom_nil : wordsFrom gap [] = [] := rfl

theorem wordsFrom_newline (h : x.kind = .newline) :
    wordsFrom gap (x :: xs) = wordsFrom .line xs := by
  simp [wordsFrom, h]

theorem wordsFrom_space (h : x.kind = .space) :
    wordsFrom gap (x :: xs) = wordsFrom gap.spaced xs := by
  simp [wordsFrom, h]

theorem Lexeme.isWord_iff : x.isWord = true ↔ x.kind ≠ .space ∧ x.kind ≠ .newline := by
  simp [isWord]

theorem wordsFrom_word (h : x.isWord = true) :
    wordsFrom gap (x :: xs) = (gap, x) :: wordsFrom .none xs := by
  simp [wordsFrom, isWord_iff.mp h]

theorem Lexeme.isWord_cases (x : Lexeme) :
    x.kind = .newline ∨ x.kind = .space ∨ x.isWord = true := by
  rw [isWord_iff]
  cases x.kind <;> simp

theorem Lexeme.gap_cases (h : x.isWord = false) : x.kind = .newline ∨ x.kind = .space := by
  simpa [h] using x.isWord_cases

end Words

theorem exists_of_wordsFrom_cons {first : Gap} {rest : List (Gap × Lexeme)}
    (h : wordsFrom gap xs = (first, w) :: rest) :
    ∃ pre xs', xs = pre ++ w :: xs' ∧ w.isWord = true ∧ wordsFrom .none xs' = rest ∧
      (first = .none → pre = [] ∧ gap = .none) := by
  induction xs generalizing gap with
  | nil => cases h
  | cons x xs ih =>
    rcases x.isWord_cases with hx | hx | hx
    · rw [wordsFrom_newline hx] at h
      obtain ⟨pre, xs', rfl, hw, hr, hf⟩ := ih h
      exact ⟨x :: pre, xs', rfl, hw, hr, fun he => by cases (hf he).2⟩
    · rw [wordsFrom_space hx] at h
      obtain ⟨pre, xs', rfl, hw, hr, hf⟩ := ih h
      refine ⟨x :: pre, xs', rfl, hw, hr, fun he => ?_⟩
      have hs := (hf he).2
      cases gap <;> cases hs
    · rw [wordsFrom_word hx] at h
      obtain ⟨hg, rfl⟩ := List.cons.inj h
      cases hg
      exact ⟨[], xs, rfl, hx, rfl, fun he => ⟨rfl, he⟩⟩

theorem Tidy.gapSpelled (h : Tidy xs) : ∀ x ∈ xs, x.GapSpelled := by
  induction xs with
  | nil => simp
  | cons x xs ih =>
    intro y hy
    rcases mem_cons.mp hy with rfl | hy
    · exact h.1
    · exact ih h.2.2 y hy

section Fitting

variable {x : Lexeme} {rest : List Char}

theorem Lexeme.Fits.start (h : x.Fits rest) : ∃ c cs, x.text.toList = c :: cs ∧
    (x.kind = .newline → cs = []) ∧
    (x.kind = .newline ↔ c = '\n') ∧ (x.kind = .space ↔ isBlank c = true) := by
  have hclass := h.inClass
  generalize x.kind = k at hclass
  generalize x.text.toList = text at hclass
  cases hclass with
  | lineComment | blockComment | fraction | raw => exact ⟨_, _, rfl, by simp; decide⟩
  | literal hquote => exact ⟨_, _, rfl, by rcases hquote with rfl | rfl <;> simp <;> decide⟩
  | newline => exact ⟨_, _, rfl, by decide⟩
  | @space c cs h =>
    have hc := h c mem_cons_self
    have hne : c ≠ '\n' := by rintro rfl; cases hc
    exact ⟨c, cs, rfl, by simp [hne, hc]⟩
  | @ident c cs hc =>
    obtain ⟨-, -, -, -, hne, hb⟩ := isIdentStart_plain hc
    exact ⟨c, cs, rfl, by simp [hne, hb]⟩
  | @number c cs hc =>
    obtain ⟨-, -, -, -, hne, hb, -⟩ := isDigit_plain hc
    exact ⟨c, cs, rfl, by simp [hne, hb]⟩
  | operator hop =>
    obtain ⟨c, cs, htext, hc⟩ := operators_start _ hop
    exact ⟨c, cs, htext, by simp_all [isWordStart]⟩

theorem Lexeme.Fits.gapSpelled (h : x.Fits rest) : x.GapSpelled := by
  have hclass := h.inClass
  constructor
  · intro hk
    rw [hk] at hclass
    generalize x.text.toList = text at hclass ⊢
    cases hclass with
    | newline => rfl
  · intro hk
    rw [hk] at hclass
    generalize x.text.toList = text at hclass ⊢
    cases hclass with
    | space h => exact ⟨cons_ne_nil _ _, h⟩

theorem Lexeme.Fits.solid (h : x.Fits rest) (hw : x.isWord = true) :
    ∃ c cs, x.text.toList = c :: cs ∧ isSolid c = true := by
  obtain ⟨c, cs, ht, -, hn, hs⟩ := h.start
  rw [isWord_iff] at hw
  refine ⟨c, cs, ht, ?_⟩
  have hb : isBlank c = false := by
    cases hb : isBlank c with
    | false => rfl
    | true => exact absurd (hs.mpr hb) hw.1
  have hne : c ≠ '\n' := fun hc => hw.2 (hn.mpr hc)
  simp [isSolid, hb, hne]

theorem Lexeme.fits_newline (hk : x.kind = .newline) (ht : x.text.toList = ['\n'])
    (rest : List Char) : x.Fits rest := by
  rw [fits_iff, hk, ht]
  exact ⟨.newline, trivial⟩

theorem Lexeme.fits_space (hk : x.kind = .space) (hne : x.text.toList ≠ [])
    (hb : ∀ c ∈ x.text.toList, isBlank c = true) (hr : ∀ c ∈ rest.head?, isBlank c = false) :
    x.Fits rest := by
  rw [fits_iff, hk]
  refine ⟨?_, hr⟩
  cases ht : x.text.toList with
  | nil => exact absurd ht hne
  | cons c cs => exact .space (ht ▸ hb)

end Fitting

theorem Lexed.gapSpelled (h : Lexed before xs) : ∀ x ∈ xs, x.GapSpelled := by
  induction xs generalizing before with
  | nil => simp
  | cons x xs ih =>
    intro y hy
    rcases mem_cons.mp hy with rfl | hy
    · exact h.1.gapSpelled
    · exact ih h.2.2 y hy

theorem Lexed.of_append {pre : List Lexeme} (h : Lexed before (pre ++ xs)) :
    ∃ b, Lexed b xs ∧ (pre = [] → b = before) := by
  induction pre generalizing before with
  | nil => exact ⟨before, h, fun _ => rfl⟩
  | cons x pre ih =>
    obtain ⟨b, hb, -⟩ := ih h.2.2
    exact ⟨b, hb, by simp⟩

/-- The lead of a text in terms of its words. -/
def leadOfWords : List (Gap × Lexeme) → List Char
  | (.none, w) :: rest => lead (w.text.toList ++ leadOfWords rest)
  | _ => []

private theorem lead_lead (cs : List Char) : lead (lead cs) = lead cs := by
  induction cs with
  | nil => rfl
  | cons c cs ih =>
    cases hc : isSolid c with
    | true => rw [lead_cons_solid hc, lead_cons_solid hc, ih]
    | false => rw [lead_cons_loose hc, lead_nil]

private theorem loose_of_gapSpelled (h : x.GapSpelled) (hw : x.isWord = false) :
    ∃ c cs, x.text.toList = c :: cs ∧ isSolid c = false := by
  rcases Lexeme.gap_cases hw with hk | hk
  · exact ⟨'\n', [], h.1 hk, by decide⟩
  · obtain ⟨hne, hb⟩ := h.2 hk
    cases ht : x.text.toList with
    | nil => exact absurd ht hne
    | cons c cs => exact ⟨c, cs, rfl, by simp [isSolid, hb c (by simp [ht])]⟩

theorem wordsFrom_head_ne (hg : gap ≠ .none) (xs : List Lexeme) :
    ∀ e ∈ (wordsFrom gap xs).head?, e.1 ≠ .none := by
  intro e he hn
  cases hw : wordsFrom gap xs with
  | nil => rw [hw] at he; cases he
  | cons d ds =>
    rw [hw, head?_cons, Option.mem_some_iff] at he
    subst he
    obtain ⟨pre, xs', -, -, -, hf⟩ := exists_of_wordsFrom_cons hw
    exact hg (hf hn).2

private theorem leadOfWords_eq_nil {ws : List (Gap × Lexeme)}
    (h : ∀ e ∈ ws.head?, e.1 ≠ .none) : leadOfWords ws = [] := by
  unfold leadOfWords
  split
  · exact absurd rfl (h _ rfl)
  · rfl

theorem lead_chars (h : ∀ x ∈ xs, x.GapSpelled) :
    lead (chars xs) = leadOfWords (wordsFrom .none xs) := by
  induction xs with
  | nil => rfl
  | cons x xs ih =>
    obtain ⟨hx, hxs⟩ := forall_mem_cons.mp h
    cases hw : x.isWord with
    | true =>
      rw [wordsFrom_word hw, leadOfWords, ← ih hxs]
      exact lead_append_congr _ (lead_lead _).symm
    | false =>
      obtain ⟨c, cs, ht, hc⟩ := loose_of_gapSpelled hx hw
      rw [chars_cons, ht, cons_append, lead_cons_loose hc]
      rcases Lexeme.gap_cases hw with hk | hk
      · rw [wordsFrom_newline hk, leadOfWords_eq_nil (wordsFrom_head_ne (by decide) xs)]
      · rw [wordsFrom_space hk, leadOfWords_eq_nil (wordsFrom_head_ne (by decide) xs)]

private theorem unclosed_of_blank {u : List Char} (h : ∀ c ∈ u, isSolid c = false)
    (v : List Char) : Unclosed (u ++ v) ↔ Unclosed v := by
  induction u with
  | nil => rfl
  | cons c u ih =>
    obtain ⟨hc, hu⟩ := forall_mem_cons.mp h
    have hne : c ≠ '*' := by rintro rfl; cases hc
    rw [cons_append, unclosed_cons, ih hu]
    simp [hne]

theorem Lexeme.GapSpelled.loose (h : x.GapSpelled) (hw : x.isWord = false) :
    ∀ c ∈ x.text.toList, isSolid c = false := by
  intro c hc
  rcases Lexeme.gap_cases hw with hk | hk
  · rw [h.1 hk, mem_singleton] at hc
    subst hc
    decide
  · simp [isSolid, (h.2 hk).2 c hc]

private theorem head_lead_slash (cs : List Char) :
    (lead cs).head? = some '/' ↔ cs.head? = some '/' := by
  cases cs with
  | nil => rfl
  | cons c cs =>
    cases hc : isSolid c with
    | true => rw [lead_cons_solid hc]; rfl
    | false =>
      have hne : c ≠ '/' := by rintro rfl; cases hc
      simp [lead_cons_loose hc, hne]

/-- The text after a slash, in terms of its words, has no end of a comment. -/
def UnclosedWords : List (Gap × Lexeme) → Prop
  | [] => True
  | (_, w) :: rest => Unclosed w.text.toList ∧ UnclosedWords rest ∧
    ¬(w.text.toList.getLast? = some '*' ∧ (leadOfWords rest).head? = some '/')

theorem unclosed_chars (h : ∀ x ∈ xs, x.GapSpelled) (gap : Gap) :
    Unclosed (chars xs) ↔ UnclosedWords (wordsFrom gap xs) := by
  induction xs generalizing gap with
  | nil => simp [UnclosedWords, Unclosed, blockCommentLength?]
  | cons x xs ih =>
    obtain ⟨hx, hxs⟩ := forall_mem_cons.mp h
    rw [chars_cons]
    cases hw : x.isWord with
    | true =>
      rw [wordsFrom_word hw, UnclosedWords, unclosed_append, ih hxs .none, ← lead_chars hxs,
        head_lead_slash]
    | false =>
      rw [unclosed_of_blank (hx.loose hw)]
      rcases Lexeme.gap_cases hw with hk | hk
      · rw [wordsFrom_newline hk, ih hxs]
      · rw [wordsFrom_space hk, ih hxs]

/-- The same for the text without its first character. -/
def UnclosedTail : List (Gap × Lexeme) → Prop
  | (.none, w) :: rest => Unclosed (w.text.toList.drop 1) ∧ UnclosedWords rest ∧
    ¬((w.text.toList.drop 1).getLast? = some '*' ∧ (leadOfWords rest).head? = some '/')
  | ws => UnclosedWords ws

private theorem unclosedTail_of_gap {ws : List (Gap × Lexeme)}
    (h : ∀ e ∈ ws.head?, e.1 ≠ .none) : UnclosedTail ws ↔ UnclosedWords ws := by
  unfold UnclosedTail
  split
  · exact absurd rfl (h _ rfl)
  · rfl

theorem unclosed_tail (h : ∀ x ∈ xs, x.GapSpelled) (hne : ∀ x ∈ xs, x.text.toList ≠ []) :
    Unclosed ((chars xs).drop 1) ↔ UnclosedTail (wordsFrom .none xs) := by
  cases xs with
  | nil => simp [UnclosedTail, UnclosedWords, Unclosed, blockCommentLength?]
  | cons x xs =>
    obtain ⟨hx, hxs⟩ := forall_mem_cons.mp h
    cases ht : x.text.toList with
    | nil => exact absurd ht (hne x (by simp))
    | cons c cs =>
      rw [chars_cons, ht, cons_append, drop_one, tail_cons]
      cases hw : x.isWord with
      | true =>
        rw [wordsFrom_word hw, UnclosedTail, ht, drop_one, tail_cons,
          unclosed_append, unclosed_chars hxs .none, ← lead_chars hxs, head_lead_slash]
      | false =>
        have hcs : ∀ d ∈ cs, isSolid d = false := fun d hd =>
          hx.loose hw d (by rw [ht]; exact mem_cons_of_mem c hd)
        rw [unclosed_of_blank hcs]
        rcases Lexeme.gap_cases hw with hk | hk
        · rw [wordsFrom_newline hk, unclosedTail_of_gap (wordsFrom_head_ne (by decide) xs),
            unclosed_chars hxs]
        · rw [wordsFrom_space hk, unclosedTail_of_gap (wordsFrom_head_ne (by decide) xs),
            unclosed_chars hxs]

private theorem wordsFrom_line_head (xs : List Lexeme) :
    ∀ e ∈ (wordsFrom .line xs).head?, e.1 = .line := by
  induction xs with
  | nil => simp
  | cons x xs ih =>
    rcases x.isWord_cases with hk | hk | hk
    · rwa [wordsFrom_newline hk]
    · rwa [wordsFrom_space hk]
    · simp [wordsFrom_word hk]

private theorem line_of_atLineEnd (h : Lexed before xs) (ha : AtLineEnd (chars xs)) :
    ∀ e ∈ (wordsFrom .none xs).head?, e.1 = .line := by
  cases xs with
  | nil => simp
  | cons x xs =>
    obtain ⟨c, cs, ht, -, hn, -⟩ := h.1.start
    have hc : c = '\n' := ha c (by simp [ht])
    rw [wordsFrom_newline (hn.mpr hc)]
    exact wordsFrom_line_head xs

private theorem atLineEnd_of_line (h : Tidy ys)
    (hl : ∀ e ∈ (wordsFrom .none ys).head?, e.1 = .line) : AtLineEnd (chars ys) := by
  cases ys with
  | nil => simp [AtLineEnd]
  | cons y ys =>
    obtain ⟨hy, hspace, -⟩ := h
    rcases y.isWord_cases with hk | hk | hk
    · simp [AtLineEnd, hy.1 hk]
    · obtain ⟨w, ws, rfl, hw⟩ := hspace hk
      rw [wordsFrom_space hk, wordsFrom_word hw] at hl
      cases hl _ rfl
    · rw [wordsFrom_word hk] at hl
      cases hl _ rfl

theorem mem_of_mem_wordsFrom {g : Gap} (h : (g, w) ∈ wordsFrom gap xs) : w ∈ xs := by
  induction xs generalizing gap with
  | nil => cases h
  | cons x xs ih =>
    rcases x.isWord_cases with hk | hk | hk
    · rw [wordsFrom_newline hk] at h
      exact mem_cons_of_mem x (ih h)
    · rw [wordsFrom_space hk] at h
      exact mem_cons_of_mem x (ih h)
    · rw [wordsFrom_word hk] at h
      rcases mem_cons.mp h with he | h
      · rw [(Prod.mk.inj he).2]
        exact mem_cons_self
      · exact mem_cons_of_mem x (ih h)

theorem exists_mem_wordsFrom (gap : Gap) (hw : w.isWord = true) (h : w ∈ xs) :
    ∃ g, (g, w) ∈ wordsFrom gap xs := by
  induction xs generalizing gap with
  | nil => cases h
  | cons x xs ih =>
    rcases mem_cons.mp h with rfl | h
    · rw [wordsFrom_word hw]
      exact ⟨gap, mem_cons_self⟩
    · rcases x.isWord_cases with hk | hk | hk
      · rw [wordsFrom_newline hk]
        exact ih .line h
      · rw [wordsFrom_space hk]
        exact ih gap.spaced h
      · rw [wordsFrom_word hk]
        obtain ⟨g, hg⟩ := ih .none h
        exact ⟨g, mem_cons_of_mem _ hg⟩

theorem Lexed.text_ne_nil (h : Lexed before xs) : ∀ x ∈ xs, x.text.toList ≠ [] := by
  induction xs generalizing before with
  | nil => simp
  | cons x xs ih =>
    intro y hy
    rcases mem_cons.mp hy with rfl | hy
    · exact h.1.text_ne_nil
    · exact ih h.2.2 y hy

private theorem text_ne_nil_of_words (hx : Lexed before xs) (hy : Tidy ys) {gap' : Gap}
    (hw : wordsFrom gap xs = wordsFrom gap' ys) : ∀ y ∈ ys, y.text.toList ≠ [] := by
  intro y hmem
  cases hyw : y.isWord with
  | true =>
    obtain ⟨g, hg⟩ := exists_mem_wordsFrom gap' hyw hmem
    rw [← hw] at hg
    exact hx.text_ne_nil y (mem_of_mem_wordsFrom hg)
  | false =>
    obtain ⟨c, cs, ht, -⟩ := loose_of_gapSpelled (hy.gapSpelled y hmem) hyw
    rw [ht]
    exact cons_ne_nil c cs

private theorem Lexeme.Fits.before_words (hf : w.Fits (chars xs)) (hk : w.kind ≠ .space)
    (hx : Lexed w xs) (hy : Tidy ys) (hw : wordsFrom .none xs = wordsFrom .none ys) :
    w.Fits (chars ys) := by
  refine hf.respaced hk ?_ ?_ ?_
  · rw [lead_chars hx.gapSpelled, lead_chars hy.gapSpelled, hw]
  · intro _ ha
    exact atLineEnd_of_line hy (hw ▸ line_of_atLineEnd hx ha)
  · intro hn
    have hu := (unclosed_tail hx.gapSpelled hx.text_ne_nil).mp hn
    rw [hw] at hu
    exact (unclosed_tail hy.gapSpelled (text_ne_nil_of_words hx hy hw)).mpr hu

/-- A tidy list with the words of a fitting list fits. The lists may differ in the gaps `gap` and
`gap'` before them; without a gap, the word before both is the same. -/
theorem Lexed.respaced {gap' : Gap} {before' : Lexeme} (hx : Lexed before xs) (hy : Tidy ys)
    (hw : wordsFrom gap xs = wordsFrom gap' ys) (hnone : gap' = .none → before = before')
    (hgap : gap' ≠ .none → before'.is "/" = false) : Lexed before' ys := by
  induction ys generalizing xs gap gap' before before' with
  | nil => trivial
  | cons y ys ih =>
    obtain ⟨hspelled, hspace, htidy⟩ := hy
    have hslash : ∀ {k : Kind}, y.kind = k → k = .newline ∨ k = .space → y.is "/" = false := by
      intro k hk hor
      cases his : y.is "/" with
      | false => rfl
      | true =>
        have ht : y.text = "/" := by
          simp only [is, Bool.and_eq_true, decide_eq_true_eq] at his
          exact his.2
        have hw : y.isWord = false := by
          rcases hor with rfl | rfl <;> simp [isWord, hk]
        have := hspelled.loose hw '/' (by simp [ht])
        cases this
    have hstar : ∀ {k : Kind}, y.kind = k → k = .newline ∨ k = .space → y.text ≠ "*" := by
      intro k hk hor ht
      have hw : y.isWord = false := by
        rcases hor with rfl | rfl <;> simp [isWord, hk]
      have := hspelled.loose hw '*' (by simp [ht])
      cases this
    rcases y.isWord_cases with hk | hk | hk
    · rw [wordsFrom_newline hk] at hw
      refine ⟨fits_newline hk (hspelled.1 hk) _, fun h => hstar hk (.inl rfl) h.1, ?_⟩
      exact ih hx htidy hw (by simp) (fun _ => hslash hk (.inl rfl))
    · obtain ⟨w, ws, rfl, hword⟩ := hspace hk
      rw [wordsFrom_space hk] at hw
      have hlexed : Lexed y (w :: ws) :=
        ih hx htidy hw (by cases gap' <;> simp [Gap.spaced]) (fun _ => hslash hk (.inr rfl))
      obtain ⟨c, cs, ht, hc⟩ := hlexed.1.solid hword
      refine ⟨fits_space hk (hspelled.2 hk).1 (hspelled.2 hk).2 ?_,
        fun h => hstar hk (.inr rfl) h.1, hlexed⟩
      intro d hd
      simp only [chars_cons, ht, cons_append, head?_cons,
        Option.mem_some_iff] at hd
      subst hd
      simpa [isSolid] using (Bool.and_eq_true_iff.mp hc).1
    · rw [wordsFrom_word hk] at hw
      obtain ⟨pre, xs', rfl, -, hrest, hfirst⟩ := exists_of_wordsFrom_cons hw
      obtain ⟨b, ⟨hfit, hsep, hlexed⟩, hb⟩ := hx.of_append
      refine ⟨hfit.before_words (isWord_iff.mp hk).1 hlexed htidy hrest, ?_,
        ih hlexed htidy hrest (fun _ => rfl) (by simp)⟩
      by_cases hg : gap' = .none
      · rwa [hb (hfirst hg).1, hnone hg] at hsep
      · simp [hgap hg]

end GoBindings.Go
