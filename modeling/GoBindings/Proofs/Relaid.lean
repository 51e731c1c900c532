import GoBindings.Go.Layout
import GoBindings.Proofs.Gaps
import Mathlib.Data.List.Forall2

/-!
# The lexemes of a layout

The layout of a token list spells a list of lexemes, which is made line by line. It has the words
of the tokens with the same gaps, it is tidy, and laying it out again changes nothing.
-/

namespace GoBindings.Go

open List Lexeme

variable {x : Lexeme} {line xs : List Lexeme} {lines : List (List Lexeme)}

/-- A lexeme at no particular place. -/
def bare (x : Lexeme) : Token := ⟨x, {}⟩

def lineFeed : Lexeme := ⟨.newline, "\n"⟩

/-- The lexemes between line feeds. -/
def lexemeLines : List Lexeme → List (List Lexeme)
  | [] => []
  | x :: xs =>
    if x.kind = .newline then [] :: lexemeLines xs
    else match lexemeLines xs with
      | [] => [[x]]
      | line :: lines => (x :: line) :: lines

/-- The lexemes with one blank for each run of blanks between them. -/
def spacedLexemes (pending : Bool) : List Lexeme → List Lexeme
  | [] => []
  | x :: xs =>
    if x.kind = .space then spacedLexemes true xs
    else (if pending then [blank] else []) ++ x :: spacedLexemes false xs

def indent (n : Nat) : List Lexeme := if n = 0 then [] else [⟨.space, Text.repeated n '\t'⟩]

def relaidLine (depth : Nat) (line : List Lexeme) : List Lexeme :=
  let words := line.filter (·.kind ≠ .space)
  if words.isEmpty then []
  else indent (indentation depth (words.map bare)) ++
    spacedLexemes false (line.dropWhile (·.kind = .space))

def relaidLines (depth : Nat) : List (List Lexeme) → List (List Lexeme)
  | [] => []
  | line :: lines =>
    relaidLine depth line :: relaidLines (depthAfterAll depth (line.map bare)) lines

/-- Drops the empty lines at the start, at the end and after another empty line. -/
def squeezeLines (afterBlank : Bool) : List (List Lexeme) → List (List Lexeme)
  | [] => []
  | line :: lines =>
    if line = [] then
      if afterBlank || lines.all (·.isEmpty) then squeezeLines afterBlank lines
      else [] :: squeezeLines true lines
    else line :: squeezeLines false lines

def joinLines (lines : List (List Lexeme)) : List Lexeme := lines.flatMap (· ++ [lineFeed])

/-- The lexemes of the layout. -/
def relaid (xs : List Lexeme) : List Lexeme :=
  joinLines (squeezeLines true (relaidLines 0 (lexemeLines xs)))

section Spelling

variable {line : List Lexeme} {x : Lexeme} {lines : List (List Lexeme)}
variable {depth : Nat} {texts : List String}

theorem physicalLines_map (tokens : List Token) :
    (physicalLines tokens).map (·.map (·.toLexeme)) = lexemeLines (tokens.map (·.toLexeme)) := by
  induction tokens with
  | nil => rfl
  | cons t ts ih =>
    rw [map_cons, physicalLines, lexemeLines]
    split
    · rw [map_cons, ih]
      rfl
    · rw [← ih]
      cases physicalLines ts <;> rfl

private theorem spacedText_eq (pending : Bool) (line : List Token) :
    (spacedText pending line).toList =
      chars (spacedLexemes pending (line.map (·.toLexeme))) := by
  induction line generalizing pending with
  | nil => rfl
  | cons t ts ih =>
    rw [map_cons, spacedText, spacedLexemes]
    split
    · exact ih true
    · cases pending <;> simp [ih, blank]

private theorem indentation_bare (depth : Nat) (words : List Token) :
    indentation depth ((words.map (·.toLexeme)).map bare) = indentation depth words := by
  have hclosers : (((words.map (·.toLexeme)).map bare).takeWhile (·.isCloser)).length =
      (words.takeWhile (·.isCloser)).length := by
    induction words with
    | nil => rfl
    | cons w ws ih =>
      simp only [map_cons, takeWhile_cons, bare]
      split
      · simpa using ih
      · rfl
  unfold indentation
  rw [hclosers]
  cases words <;> rfl

private theorem depthAfterAll_bare (depth : Nat) (line : List Token) :
    depthAfterAll depth ((line.map (·.toLexeme)).map bare) = depthAfterAll depth line := by
  induction line generalizing depth with
  | nil => rfl
  | cons t ts ih => exact ih (depthAfter depth t)

theorem chars_indent (n : Nat) : chars (indent n) = replicate n '\t' := by
  unfold indent
  split
  · simp_all
  · simp [Text.repeated]

private theorem lineText_eq (depth : Nat) (line : List Token) :
    (lineText depth line).toList =
      chars (relaidLine depth (line.map (·.toLexeme))) := by
  have hfilter : (line.map (·.toLexeme)).filter (fun x => decide (x.kind ≠ .space)) =
      (line.filter fun t => decide (t.kind ≠ .space)).map (·.toLexeme) := by
    rw [filter_map]
    rfl
  have hdrop : (line.map (·.toLexeme)).dropWhile (fun x => decide (x.kind = .space)) =
      (line.dropWhile fun t => decide (t.kind = .space)).map (·.toLexeme) := by
    induction line with
    | nil => rfl
    | cons t ts ih =>
      simp only [map_cons, dropWhile_cons]
      split
      · exact ih (by rw [filter_map]; rfl)
      · rfl
  unfold lineText relaidLine
  dsimp only
  rw [hfilter, hdrop, indentation_bare, isEmpty_map]
  split
  · rfl
  · rw [String.toList_append, chars_append, spacedText_eq, chars_indent, Text.repeated,
      String.toList_ofList]

theorem mem_spacedLexemes {pending : Bool} (h : x ∈ spacedLexemes pending line) :
    x = blank ∨ x ∈ line := by
  fun_induction spacedLexemes pending line with
  | case1 => cases h
  | case2 pending y ys hy ih => exact (ih h).imp_right (mem_cons_of_mem y)
  | case3 pending y ys hy ih =>
    rcases mem_append.mp h with h | h
    · exact .inl (by cases pending <;> simp_all)
    · rcases mem_cons.mp h with rfl | h
      · exact .inr mem_cons_self
      · exact (ih h).imp_right (mem_cons_of_mem y)

theorem mem_relaidLine (h : x ∈ relaidLine depth line) :
    (x.kind = .space ∧ x.text.toList ≠ []) ∨ x ∈ line := by
  unfold relaidLine at h
  dsimp only at h
  split at h
  · cases h
  · rcases mem_append.mp h with h | h
    · unfold indent at h
      split at h
      · cases h
      · rename_i hn
        rw [mem_singleton] at h
        subst h
        exact .inl ⟨rfl, by simpa [Text.repeated] using hn⟩
    · rcases mem_spacedLexemes h with rfl | h
      · exact .inl ⟨rfl, by decide⟩
      · exact .inr ((dropWhile_sublist _).subset h)

private theorem mem_relaidLines (h : line ∈ relaidLines depth lines) :
    ∃ d, ∃ l ∈ lines, line = relaidLine d l := by
  induction lines generalizing depth with
  | nil => cases h
  | cons l ls ih =>
    rcases mem_cons.mp h with rfl | h
    · exact ⟨depth, l, mem_cons_self, rfl⟩
    · obtain ⟨d, l', hl', rfl⟩ := ih h
      exact ⟨d, l', mem_cons_of_mem l hl', rfl⟩

theorem mem_lexemeLines (hl : line ∈ lexemeLines xs) (hx : x ∈ line) :
    x ∈ xs ∧ x.kind ≠ .newline := by
  fun_induction lexemeLines xs generalizing line with
  | case1 => cases hl
  | case2 y ys hy ih =>
    rcases mem_cons.mp hl with rfl | hl
    · cases hx
    · exact (ih hl hx).imp_left (mem_cons_of_mem y)
  | case3 y ys hy hls ih => simp_all
  | case4 y ys hy l ls hls ih =>
    rcases mem_cons.mp hl with rfl | hl
    · rcases mem_cons.mp hx with rfl | hx
      · exact ⟨mem_cons_self, hy⟩
      · exact (ih (hls ▸ mem_cons_self) hx).imp_left (mem_cons_of_mem y)
    · exact (ih (hls ▸ mem_cons_of_mem l hl) hx).imp_left (mem_cons_of_mem y)

/-- The text of a line, which is empty only if the line is. -/
private def Shows (text : String) (line : List Lexeme) : Prop :=
  text.toList = chars line ∧ (text = "" ↔ line = [])

private theorem shows_of_chars {text : String} (ht : text.toList = chars line)
    (hne : ∀ x ∈ line, x.text.toList ≠ []) : Shows text line := by
  refine ⟨ht, ?_⟩
  rw [← String.toList_eq_nil_iff, ht]
  cases line with
  | nil => simp
  | cons x xs => simp [hne x mem_cons_self]

private theorem lineTexts_show (depth : Nat) {lines : List (List Token)}
    (hne : ∀ line ∈ lines.map (·.map (·.toLexeme)), ∀ x ∈ line, x.text.toList ≠ []) :
    Forall₂ Shows (lineTexts depth lines)
      (relaidLines depth (lines.map (·.map (·.toLexeme)))) := by
  induction lines generalizing depth with
  | nil => exact .nil
  | cons line lines ih =>
    obtain ⟨hline, hlines⟩ := forall_mem_cons.mp hne
    rw [map_cons, relaidLines, depthAfterAll_bare]
    refine .cons (shows_of_chars (lineText_eq depth line) fun x hx => ?_) (ih _ hlines)
    exact (mem_relaidLine hx).elim (·.2) (hline x)

private theorem all_empty_eq (h : Forall₂ Shows texts lines) :
    texts.all (· = "") = lines.all (·.isEmpty) := by
  induction h with
  | nil => rfl
  | @cons text line _ _ hline _ ih =>
    rw [all_cons, ih, decide_eq_decide.mpr hline.2]
    cases line <;> rfl

private theorem squeeze_eq (afterBlank : Bool) (h : Forall₂ Shows texts lines) :
    (unlines (squeeze afterBlank texts)).toList =
      chars (joinLines (squeezeLines afterBlank lines)) := by
  induction h generalizing afterBlank with
  | nil => rfl
  | @cons text line _ _ hline hlines ih =>
    rw [squeeze, squeezeLines]
    by_cases he : line = []
    · rw [if_pos (hline.2.mpr he), all_empty_eq hlines]
      split
      · exact ih afterBlank
      · simpa [unlines, joinLines, lineFeed] using ih true
    · rw [if_neg (mt hline.2.mp he), if_neg he]
      simpa [unlines, joinLines, lineFeed, hline.1] using ih false

/-- The layout spells the lexemes made line by line. -/
theorem toList_layout {tokens : List Token} (hne : ∀ t ∈ tokens, t.text.toList ≠ []) :
    (layout tokens).toList = chars (relaid (tokens.map (·.toLexeme))) := by
  unfold layout relaid
  rw [← physicalLines_map]
  refine squeeze_eq true (lineTexts_show 0 fun line hline x hx => ?_)
  rw [physicalLines_map] at hline
  obtain ⟨t, ht, rfl⟩ := mem_map.mp (mem_lexemeLines hline hx).1
  exact hne t ht

end Spelling

section Words

variable {line : List Lexeme}

/-- The words of lines, the first of which stands after `gap`. -/
def wordsOfLines (gap : Gap) : List (List Lexeme) → List (Gap × Lexeme)
  | [] => []
  | line :: lines => wordsFrom gap line ++ wordsOfLines .line lines

private theorem wordsFrom_append_newline (gap : Gap) (line : List Lexeme) (hx : x.kind = .newline)
    (rest : List Lexeme) :
    wordsFrom gap (line ++ x :: rest) = wordsFrom gap line ++ wordsFrom .line rest := by
  induction line generalizing gap with
  | nil => rw [nil_append, wordsFrom_newline hx]; rfl
  | cons y ys ih =>
    rw [cons_append]
    rcases y.isWord_cases with hk | hk | hk
    · rw [wordsFrom_newline hk, wordsFrom_newline hk, ih]
    · rw [wordsFrom_space hk, wordsFrom_space hk, ih]
    · rw [wordsFrom_word hk, wordsFrom_word hk, ih, cons_append]

private theorem wordsFrom_joinLines (gap : Gap) (lines : List (List Lexeme)) :
    wordsFrom gap (joinLines lines) = wordsOfLines gap lines := by
  induction lines generalizing gap with
  | nil => rfl
  | cons line lines ih =>
    rw [wordsOfLines, ← ih .line, joinLines, flatMap_cons, append_assoc]
    exact wordsFrom_append_newline gap line rfl _

private theorem wordsFrom_lexemeLines (gap : Gap) (xs : List Lexeme) :
    wordsOfLines gap (lexemeLines xs) = wordsFrom gap xs := by
  induction xs generalizing gap with
  | nil => rfl
  | cons x xs ih =>
    have hcons : x.kind ≠ .newline → wordsOfLines gap (match lexemeLines xs with
        | [] => [[x]]
        | line :: lines => (x :: line) :: lines) = wordsFrom gap (x :: xs) := by
      intro hx
      rcases x.isWord_cases with hk | hk | hk
      · exact absurd hk hx
      · rw [wordsFrom_space hk, ← ih]
        cases lexemeLines xs <;> simp [wordsOfLines, wordsFrom, hk]
      · rw [wordsFrom_word hk, ← ih]
        cases lexemeLines xs <;> simp [wordsOfLines, wordsFrom_word hk]
    rw [lexemeLines]
    split
    · rename_i hx
      rw [wordsFrom_newline hx, wordsOfLines, ih]
      rfl
    · exact hcons (by assumption)

private theorem wordsFrom_spaces {gap : Gap} (h : ∀ x ∈ line, x.kind = .space) :
    wordsFrom gap line = [] := by
  induction line generalizing gap with
  | nil => rfl
  | cons x xs ih =>
    obtain ⟨hx, hxs⟩ := forall_mem_cons.mp h
    rw [wordsFrom_space hx, ih hxs]

/-- The gap that stands before the next word when blanks are pending or not. -/
private def pendingGap (pending : Bool) : Gap := if pending then .blank else .none

private theorem wordsFrom_spacedLexemes (pending : Bool) (h : ∀ x ∈ line, x.kind ≠ .newline) :
    wordsFrom .none (spacedLexemes pending line) = wordsFrom (pendingGap pending) line := by
  induction line generalizing pending with
  | nil => rfl
  | cons x xs ih =>
    obtain ⟨hx, hxs⟩ := forall_mem_cons.mp h
    rw [spacedLexemes]
    rcases x.isWord_cases with hk | hk | hk
    · exact absurd hk hx
    · rw [if_pos hk, ih true hxs, wordsFrom_space hk]
      cases pending <;> rfl
    · rw [if_neg (isWord_iff.mp hk).1, wordsFrom_word hk]
      cases pending with
      | false =>
        rw [if_neg (by decide), nil_append, wordsFrom_word hk, ih false hxs]
        rfl
      | true =>
        rw [if_pos rfl, singleton_append, wordsFrom_space rfl, wordsFrom_word hk,
          ih false hxs]
        rfl

private theorem filter_dropWhile_space (line : List Lexeme) :
    (line.dropWhile (fun x => decide (x.kind = .space))).filter
      (fun x => decide (x.kind ≠ .space)) = line.filter (fun x => decide (x.kind ≠ .space)) := by
  induction line with
  | nil => rfl
  | cons x xs ih =>
    by_cases hk : x.kind = .space
    · rw [dropWhile_cons_of_pos (by simpa using hk), ih,
        filter_cons_of_neg (by simpa using hk)]
    · rw [dropWhile_cons_of_neg (by simpa using hk)]

private theorem relaidLine_cases (depth : Nat) (h : ∀ x ∈ line, x.kind ≠ .newline) :
    (∀ x ∈ line, x.kind = .space) ∧ relaidLine depth line = [] ∨
      ∃ x xs, line.dropWhile (fun x => decide (x.kind = .space)) = x :: xs ∧ x.isWord = true ∧
        (∀ y ∈ xs, y.kind ≠ .newline) ∧ relaidLine depth line =
          indent (indentation depth ((line.filter fun x => decide (x.kind ≠ .space)).map bare)) ++
            x :: spacedLexemes false xs := by
  unfold relaidLine
  dsimp only
  split
  · rename_i hw
    exact .inl ⟨by simpa using hw, rfl⟩
  · rename_i hw
    cases hd : line.dropWhile (fun x => decide (x.kind = .space)) with
    | nil =>
      rw [← filter_dropWhile_space, hd] at hw
      exact absurd rfl hw
    | cons x xs =>
      have hsub : x :: xs ⊆ line := hd ▸ (dropWhile_sublist _).subset
      have hne : x.kind ≠ .space := by
        simpa [hd] using head?_dropWhile_not (fun x => decide (x.kind = .space)) line
      refine .inr ⟨x, xs, rfl, ?_, fun y hy => h y (hsub (mem_cons_of_mem x hy)), ?_⟩
      · exact isWord_iff.mpr ⟨hne, h x (hsub mem_cons_self)⟩
      · rw [spacedLexemes, if_neg hne]
        rfl

private theorem wordsFrom_dropWhile (line : List Lexeme) :
    wordsFrom .line (line.dropWhile (fun x => decide (x.kind = .space))) =
      wordsFrom .line line := by
  induction line with
  | nil => rfl
  | cons x xs ih =>
    by_cases hk : x.kind = .space
    · rw [dropWhile_cons_of_pos (by simpa using hk), ih, wordsFrom_space hk]
      rfl
    · rw [dropWhile_cons_of_neg (by simpa using hk)]

private theorem wordsFrom_indent (n : Nat) (xs : List Lexeme) :
    wordsFrom .line (indent n ++ xs) = wordsFrom .line xs := by
  unfold indent
  split
  · rfl
  · exact wordsFrom_space rfl

private theorem wordsFrom_relaidLine (depth : Nat) (h : ∀ x ∈ line, x.kind ≠ .newline) :
    wordsFrom .line (relaidLine depth line) = wordsFrom .line line := by
  rcases relaidLine_cases depth h with ⟨hspaces, hnil⟩ | ⟨x, xs, hd, hx, hxs, heq⟩
  · rw [hnil, wordsFrom_spaces hspaces]
    rfl
  · rw [heq, wordsFrom_indent, ← wordsFrom_dropWhile line, hd, wordsFrom_word hx, wordsFrom_word hx,
      wordsFrom_spacedLexemes false hxs]
    rfl

private theorem wordsOfLines_relaidLines (depth : Nat)
    (h : ∀ line ∈ lines, ∀ x ∈ line, x.kind ≠ .newline) :
    wordsOfLines .line (relaidLines depth lines) = wordsOfLines .line lines := by
  induction lines generalizing depth with
  | nil => rfl
  | cons line lines ih =>
    obtain ⟨hl, hls⟩ := forall_mem_cons.mp h
    rw [relaidLines, wordsOfLines, wordsOfLines, wordsFrom_relaidLine depth hl, ih _ hls]

private theorem wordsOfLines_squeezeLines (afterBlank : Bool) (lines : List (List Lexeme)) :
    wordsOfLines .line (squeezeLines afterBlank lines) = wordsOfLines .line lines := by
  fun_induction squeezeLines afterBlank lines with
  | case1 => rfl
  | case2 _ _ _ ih => exact ih
  | case3 _ _ _ ih | case4 _ line lines _ ih => rw [wordsOfLines, wordsOfLines, ih]

/-- Laying out keeps the words and, but for blanks, the gaps between them. -/
theorem gappedWords_relaid (xs : List Lexeme) : gappedWords (relaid xs) = gappedWords xs := by
  have hlines : ∀ line ∈ lexemeLines xs, ∀ x ∈ line, x.kind ≠ .newline :=
    fun line hl x hx => (mem_lexemeLines hl hx).2
  unfold gappedWords relaid
  rw [wordsFrom_joinLines, wordsOfLines_squeezeLines, wordsOfLines_relaidLines 0 hlines,
    wordsFrom_lexemeLines]

end Words

section Tidiness

private theorem Tidy.append {ys : List Lexeme} (hx : Tidy xs) (hy : Tidy ys) : Tidy (xs ++ ys) := by
  induction xs with
  | nil => exact hy
  | cons x xs ih =>
    refine ⟨hx.1, fun hk => ?_, ih hx.2.2⟩
    obtain ⟨y, ys', rfl, hw⟩ := hx.2.1 hk
    exact ⟨y, ys' ++ ys, rfl, hw⟩

private theorem gapSpelled_of_word (h : x.isWord = true) : x.GapSpelled :=
  ⟨fun hk => absurd hk (isWord_iff.mp h).2, fun hk => absurd hk (isWord_iff.mp h).1⟩

private theorem tidy_spacedLexemes (pending : Bool) (h : ∀ x ∈ line, x.kind ≠ .newline) :
    Tidy (spacedLexemes pending line) := by
  induction line generalizing pending with
  | nil => trivial
  | cons x xs ih =>
    obtain ⟨hx, hxs⟩ := forall_mem_cons.mp h
    rw [spacedLexemes]
    split
    · exact ih true hxs
    · rename_i hk
      have hw : x.isWord = true := by simp [isWord, hk, hx]
      have htail : Tidy (x :: spacedLexemes false xs) :=
        ⟨gapSpelled_of_word hw, fun h => absurd h hk, ih false hxs⟩
      cases pending with
      | false => exact htail
      | true =>
        refine ⟨⟨by simp [blank], fun _ => ⟨by decide, ?_⟩⟩, fun _ => ?_, htail⟩
        · exact all_eq_true.mp (by decide)
        · exact ⟨x, _, rfl, hw⟩

private theorem tidy_relaidLine (depth : Nat) (h : ∀ x ∈ line, x.kind ≠ .newline) :
    Tidy (relaidLine depth line) := by
  rcases relaidLine_cases depth h with ⟨-, hnil⟩ | ⟨x, xs, -, hx, hxs, heq⟩
  · rw [hnil]
    trivial
  · have htidy : Tidy (x :: spacedLexemes false xs) :=
      ⟨gapSpelled_of_word hx, fun hk => absurd hk (isWord_iff.mp hx).1,
        tidy_spacedLexemes false hxs⟩
    rw [heq]
    unfold indent
    split
    · exact htidy
    · rename_i hn
      refine ⟨⟨by simp, fun _ => ?_⟩, fun _ => ⟨x, _, rfl, hx⟩, htidy⟩
      simp only [Text.repeated, String.toList_ofList]
      refine ⟨by simpa using hn, fun c hc => ?_⟩
      rw [eq_of_mem_replicate hc]
      rfl

private theorem tidy_joinLines (h : ∀ line ∈ lines, Tidy line) : Tidy (joinLines lines) := by
  induction lines with
  | nil => trivial
  | cons line lines ih =>
    obtain ⟨hl, hls⟩ := forall_mem_cons.mp h
    refine Tidy.append (Tidy.append hl ?_) (ih hls)
    exact ⟨⟨fun _ => by decide, by simp [lineFeed]⟩, by simp [lineFeed], trivial⟩

private theorem squeezeLines_sublist (afterBlank : Bool) (lines : List (List Lexeme)) :
    (squeezeLines afterBlank lines).Sublist lines := by
  fun_induction squeezeLines afterBlank lines with
  | case1 => exact .slnil
  | case2 _ _ _ ih => exact ih.cons _
  | case3 _ _ _ ih | case4 _ _ _ _ ih => exact ih.cons_cons _

theorem tidy_relaid (xs : List Lexeme) : Tidy (relaid xs) := by
  apply tidy_joinLines
  intro line hline
  obtain ⟨d, l, hl, rfl⟩ := mem_relaidLines ((squeezeLines_sublist ..).subset hline)
  exact tidy_relaidLine d fun x hx => (mem_lexemeLines hl hx).2

end Tidiness

section Again

private theorem lexemeLines_append_newline (h : ∀ x ∈ line, x.kind ≠ .newline)
    (hx : x.kind = .newline) (rest : List Lexeme) :
    lexemeLines (line ++ x :: rest) = line :: lexemeLines rest := by
  induction line with
  | nil => rw [nil_append, lexemeLines, if_pos hx]
  | cons y ys ih =>
    obtain ⟨hy, hys⟩ := forall_mem_cons.mp h
    rw [cons_append, lexemeLines, if_neg hy, ih hys]

theorem lexemeLines_joinLines (h : ∀ line ∈ lines, ∀ x ∈ line, x.kind ≠ .newline) :
    lexemeLines (joinLines lines) = lines := by
  induction lines with
  | nil => rfl
  | cons line lines ih =>
    obtain ⟨hl, hls⟩ := forall_mem_cons.mp h
    rw [joinLines, flatMap_cons, append_assoc]
    exact (lexemeLines_append_newline hl rfl _).trans (congrArg _ (ih hls))

private theorem filter_spacedLexemes (pending : Bool) (line : List Lexeme) :
    (spacedLexemes pending line).filter (fun x => decide (x.kind ≠ .space)) =
      line.filter (fun x => decide (x.kind ≠ .space)) := by
  induction line generalizing pending with
  | nil => rfl
  | cons x xs ih =>
    rw [spacedLexemes]
    by_cases hk : x.kind = .space
    · rw [if_pos hk, ih, filter_cons_of_neg (by simpa using hk)]
    · rw [if_neg hk, filter_append, filter_cons_of_pos (by simpa using hk),
        filter_cons_of_pos (by simpa using hk), ih]
      cases pending <;> rfl

private theorem filter_relaidLine (depth : Nat) (line : List Lexeme) :
    (relaidLine depth line).filter (fun x => decide (x.kind ≠ .space)) =
      line.filter (fun x => decide (x.kind ≠ .space)) := by
  unfold relaidLine
  dsimp only
  split
  · rename_i hw
    exact (isEmpty_iff.mp hw).symm
  · rw [filter_append, filter_spacedLexemes, filter_dropWhile_space]
    unfold indent
    split <;> rfl

private theorem spacedLexemes_again (pending : Bool) (line : List Lexeme) :
    spacedLexemes false (spacedLexemes pending line) = spacedLexemes pending line := by
  induction line generalizing pending with
  | nil => rfl
  | cons x xs ih =>
    rw [spacedLexemes]
    split
    · exact ih true
    · rename_i hk
      have hx : ∀ p, spacedLexemes p (x :: spacedLexemes false xs) =
          (if p then [blank] else []) ++ x :: spacedLexemes false xs := by
        intro p
        rw [spacedLexemes, if_neg hk, ih]
      cases pending with
      | false => exact hx false
      | true => exact hx true

theorem dropWhile_indent (n : Nat) (hx : x.kind ≠ .space) (xs : List Lexeme) :
    (indent n ++ x :: xs).dropWhile (fun x => decide (x.kind = .space)) = x :: xs := by
  have hdrop : (x :: xs).dropWhile (fun x => decide (x.kind = .space)) = x :: xs :=
    dropWhile_cons_of_neg (by simpa using hx)
  unfold indent
  split
  · exact hdrop
  · rw [singleton_append, dropWhile_cons_of_pos (by rfl), hdrop]

private theorem relaidLine_again (depth : Nat) (h : ∀ x ∈ line, x.kind ≠ .newline) :
    relaidLine depth (relaidLine depth line) = relaidLine depth line := by
  rcases relaidLine_cases depth h with ⟨-, hnil⟩ | ⟨x, xs, -, hx, -, heq⟩
  · rw [hnil]
    rfl
  · have hne := (isWord_iff.mp hx).1
    have hwords : ¬ (line.filter fun x => decide (x.kind ≠ .space)).isEmpty := by
      rw [← filter_relaidLine depth, heq]
      simp [hne]
    nth_rewrite 1 [relaidLine]
    rw [filter_relaidLine, if_neg hwords, heq, dropWhile_indent _ hne, spacedLexemes, if_neg hne,
      spacedLexemes_again]
    rfl

private theorem depthAfterAll_filter (depth : Nat) (line : List Lexeme) :
    depthAfterAll depth ((line.filter (fun x => decide (x.kind ≠ .space))).map bare) =
      depthAfterAll depth (line.map bare) := by
  induction line generalizing depth with
  | nil => rfl
  | cons x xs ih =>
    by_cases hk : x.kind = .space
    · have hd : depthAfter depth (bare x) = depth := by
        simp [depthAfter, bare, isOpener, isCloser, hk]
      rw [filter_cons_of_neg (by simpa using hk), ih]
      exact congrArg (depthAfterAll · (xs.map bare)) hd.symm
    · rw [filter_cons_of_pos (by simpa using hk)]
      exact ih (depthAfter depth (bare x))

private theorem depthAfterAll_relaidLine (depth d : Nat) (line : List Lexeme) :
    depthAfterAll depth ((relaidLine d line).map bare) = depthAfterAll depth (line.map bare) := by
  rw [← depthAfterAll_filter, filter_relaidLine, depthAfterAll_filter]

private theorem relaidLines_again (afterBlank : Bool) (depth : Nat)
    (h : ∀ line ∈ lines, ∀ x ∈ line, x.kind ≠ .newline) :
    relaidLines depth (squeezeLines afterBlank (relaidLines depth lines)) =
      squeezeLines afterBlank (relaidLines depth lines) := by
  induction lines generalizing afterBlank depth with
  | nil => rfl
  | cons line lines ih =>
    obtain ⟨hl, hls⟩ := forall_mem_cons.mp h
    have hdepth := depthAfterAll_relaidLine depth depth line
    rw [relaidLines, squeezeLines]
    split
    · rename_i he
      rw [he] at hdepth
      split
      · rw [← hdepth]
        exact ih afterBlank depth hls
      · rw [← hdepth]
        exact congrArg _ (ih true depth hls)
    · rw [relaidLines, relaidLine_again depth hl, hdepth, ih false _ hls]

private theorem all_isEmpty_squeezeLines (afterBlank : Bool) (lines : List (List Lexeme)) :
    (squeezeLines afterBlank lines).all (·.isEmpty) = lines.all (·.isEmpty) := by
  induction lines generalizing afterBlank with
  | nil => rfl
  | cons line lines ih =>
    rw [squeezeLines]
    split
    · rename_i he
      subst he
      split <;> simp [ih]
    · simp [ih]

private theorem squeezeLines_again (afterBlank : Bool) (lines : List (List Lexeme)) :
    squeezeLines afterBlank (squeezeLines afterBlank lines) = squeezeLines afterBlank lines := by
  induction lines generalizing afterBlank with
  | nil => rfl
  | cons line lines ih =>
    rw [squeezeLines]
    split
    · split
      · exact ih afterBlank
      · rename_i h
        rw [squeezeLines, if_pos rfl, all_isEmpty_squeezeLines, if_neg h, ih]
    · rename_i h
      rw [squeezeLines, if_neg h, ih]

/-- Laying out a layout changes nothing. -/
theorem relaid_relaid (xs : List Lexeme) : relaid (relaid xs) = relaid xs := by
  have hlines : ∀ line ∈ lexemeLines xs, ∀ x ∈ line, x.kind ≠ .newline :=
    fun line hl x hx => (mem_lexemeLines hl hx).2
  have hsqueezed : ∀ line ∈ squeezeLines true (relaidLines 0 (lexemeLines xs)),
      ∀ x ∈ line, x.kind ≠ .newline := by
    intro line hline x hx
    obtain ⟨d, l, hl, rfl⟩ := mem_relaidLines ((squeezeLines_sublist ..).subset hline)
    rcases mem_relaidLine hx with ⟨hk, -⟩ | hx
    · simp [hk]
    · exact hlines l hl x hx
  have hxs : relaid xs = joinLines (squeezeLines true (relaidLines 0 (lexemeLines xs))) := rfl
  rw [hxs, relaid, lexemeLines_joinLines hsqueezed, relaidLines_again true 0 hlines,
    squeezeLines_again]

end Again

end GoBindings.Go
