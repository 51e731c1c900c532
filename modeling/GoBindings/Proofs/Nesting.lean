import GoBindings.Proofs.Formatting

/-!
# Nested brackets and the statements around them

Lexemes in brackets belong to the statement around them, line feeds included. A list made of such
groups and of single lexemes, line by line, has exactly the statements that its lines hold.
-/

namespace GoBindings.Go

open List

/-- Single lexemes other than brackets, and groups in matching brackets. -/
inductive Balanced : List Lexeme → Prop
  | nil : Balanced []
  | plain {x} (ho : x.isOpener = false) (hc : x.isCloser = false) : Balanced [x]
  | wrap {o c xs} (ho : o.isOpener = true) (hc : c.isCloser = true)
      (hm : closerOf o.text = c.text) (h : Balanced xs) : Balanced (o :: (xs ++ [c]))
  | append {xs ys} (hx : Balanced xs) (hy : Balanced ys) : Balanced (xs ++ ys)

/-- Balanced lexemes with line ends and semicolons in brackets only. -/
inductive Closed : List Lexeme → Prop
  | nil : Closed []
  | plain {x} (ho : x.isOpener = false) (hc : x.isCloser = false) (he : x.endsLine = false)
      (hs : x.is ";" = false) : Closed [x]
  | wrap {o c xs} (ho : o.isOpener = true) (hc : c.isCloser = true)
      (hm : closerOf o.text = c.text) (h : Balanced xs) : Closed (o :: (xs ++ [c]))
  | append {xs ys} (hx : Closed xs) (hy : Closed ys) : Closed (xs ++ ys)

theorem Closed.balanced {xs : List Lexeme} (h : Closed xs) : Balanced xs := by
  induction h with
  | nil => exact .nil
  | plain ho hc => exact .plain ho hc
  | wrap ho hc hm h => exact .wrap ho hc hm h
  | append _ _ ihx ihy => exact .append ihx ihy

theorem Balanced.nests_append {xs : List Lexeme} (h : Balanced xs) (opened : List String)
    (rest : List Lexeme) : nests opened (xs ++ rest) = nests opened rest := by
  induction h generalizing opened rest with
  | nil => rfl
  | plain ho hc => exact nests_plain rest opened ho hc
  | wrap ho hc hm _ ih =>
    rw [cons_append, append_assoc, nests_opener _ _ ho, ih, cons_append,
      nests_closer_cons _ _ _ hc]
    simp [hm]
  | append _ _ ihx ihy => rw [append_assoc, ihx, ihy]

/-- What statements are made of: all but blanks and comments on one line. -/
def significant (xs : List Lexeme) : List Lexeme := xs.filter fun x => !x.isTrivia || x.endsLine

@[simp] theorem significant_nil : significant [] = [] := rfl

@[simp] theorem significant_append (xs ys : List Lexeme) :
    significant (xs ++ ys) = significant xs ++ significant ys := filter_append ..

theorem significant_cons_of_word {x : Lexeme} (h : x.isTrivia = false) (xs : List Lexeme) :
    significant (x :: xs) = x :: significant xs :=
  filter_cons_of_pos (by simp [h])

theorem significant_cons_of_line {x : Lexeme} (h : x.endsLine = true) (xs : List Lexeme) :
    significant (x :: xs) = x :: significant xs :=
  filter_cons_of_pos (by simp [h])

theorem significant_cons_of_trivia {x : Lexeme} (ht : x.isTrivia = true) (he : x.endsLine = false)
    (xs : List Lexeme) : significant (x :: xs) = significant xs :=
  filter_cons_of_neg (by simp [ht, he])

private theorem bracket_word {x : Lexeme} (h : x.isOpener = true ∨ x.isCloser = true) :
    x.isTrivia = false ∧ x.endsLine = false ∧ x.is ";" = false := by
  refine ⟨?_, ?_, ?_⟩ <;>
  · by_contra hend
    rw [Bool.not_eq_false] at hend
    obtain ⟨ho, hc⟩ := Lexeme.not_bracket (by tauto)
    simp [ho, hc] at h

private theorem significant_wrap {o c : Lexeme} (ho : o.isOpener = true) (hc : c.isCloser = true)
    (xs : List Lexeme) : significant (o :: (xs ++ [c])) = o :: (significant xs ++ [c]) := by
  rw [significant_cons_of_word (bracket_word (.inl ho)).1, significant_append,
    significant_cons_of_word (bracket_word (.inr hc)).1, significant_nil]

theorem balanced_significant {xs : List Lexeme} (h : Balanced xs) : Balanced (significant xs) := by
  induction h with
  | nil => exact .nil
  | @plain x ho hc =>
    cases hx : !x.isTrivia || x.endsLine with
    | true => simpa [significant, hx] using Balanced.plain ho hc
    | false => simpa [significant, hx] using Balanced.nil
  | wrap ho hc hm _ ih =>
    rw [significant_wrap ho hc]
    exact .wrap ho hc hm ih
  | append _ _ ihx ihy =>
    rw [significant_append]
    exact ihx.append ihy

theorem closed_significant {xs : List Lexeme} (h : Closed xs) : Closed (significant xs) := by
  induction h with
  | nil => exact .nil
  | @plain x ho hc he hs =>
    cases hx : !x.isTrivia || x.endsLine with
    | true => simpa [significant, hx] using Closed.plain ho hc he hs
    | false => simpa [significant, hx] using Closed.nil
  | wrap ho hc hm h =>
    rw [significant_wrap ho hc]
    exact .wrap ho hc hm (balanced_significant h)
  | append _ _ ihx ihy =>
    rw [significant_append]
    exact ihx.append ihy

section Splitting

variable {x : Lexeme} {xs : List Lexeme} (cur rest : List Token)

private theorem statementsFrom_opener (ho : x.isOpener = true) (d : Nat) :
    statementsFrom d cur (bare x :: rest) = statementsFrom (d + 1) (bare x :: cur) rest := by
  obtain ⟨ht, he, hsemi⟩ := bracket_word (.inl ho)
  simp [statementsFrom, bare, ht, he, hsemi, depthAfter, ho]

private theorem statementsFrom_closer (hc : x.isCloser = true) (d : Nat) :
    statementsFrom (d + 1) cur (bare x :: rest) = statementsFrom d (bare x :: cur) rest := by
  obtain ⟨ht, he, -⟩ := bracket_word (.inr hc)
  simp [statementsFrom, bare, ht, he, depthAfter, hc, Lexeme.isOpener_of_isCloser hc]

private theorem statementsFrom_wrap {o c : Lexeme} (ho : o.isOpener = true)
    (hc : c.isCloser = true) (d : Nat)
    (h : ∀ cur rest, statementsFrom (d + 1) cur (xs.map bare ++ rest) =
      statementsFrom (d + 1) (((significant xs).map bare).reverse ++ cur) rest) :
    statementsFrom d cur ((o :: (xs ++ [c])).map bare ++ rest) =
      statementsFrom d (((significant (o :: (xs ++ [c]))).map bare).reverse ++ cur) rest := by
  rw [significant_wrap ho hc, map_cons, map_append, cons_append, append_assoc,
    statementsFrom_opener _ _ ho, h]
  simp only [map_cons, cons_append]
  rw [statementsFrom_closer _ _ hc]
  simp

private theorem statementsFrom_plain (ho : x.isOpener = false) (hc : x.isCloser = false)
    (d : Nat) : statementsFrom (d + 1) cur (bare x :: rest) =
      statementsFrom (d + 1) (((significant [x]).map bare).reverse ++ cur) rest := by
  cases he : x.endsLine with
  | true => simp [statementsFrom, bare, he, significant]
  | false =>
    cases ht : x.isTrivia with
    | true => simp [statementsFrom, bare, he, ht, significant]
    | false => simp [statementsFrom, bare, ht, significant, depthAfter, ho, hc]

theorem Balanced.statementsFrom_inner (h : Balanced xs) (d : Nat) :
    statementsFrom (d + 1) cur (xs.map bare ++ rest) =
      statementsFrom (d + 1) (((significant xs).map bare).reverse ++ cur) rest := by
  induction h generalizing d cur rest with
  | nil => rfl
  | plain ho hc => exact statementsFrom_plain cur rest ho hc d
  | wrap ho hc _ _ ih => exact statementsFrom_wrap cur rest ho hc (d + 1) (ih · · (d + 1))
  | append _ _ ihx ihy =>
    rw [map_append, append_assoc, ihx, ihy]
    simp

theorem Closed.statementsFrom_outer (h : Closed xs) :
    statementsFrom 0 cur (xs.map bare ++ rest) =
      statementsFrom 0 (((significant xs).map bare).reverse ++ cur) rest := by
  induction h generalizing cur rest with
  | nil => rfl
  | @plain x ho hc he hs =>
    cases ht : x.isTrivia with
    | true => simp [statementsFrom, bare, he, ht, significant]
    | false => simp [statementsFrom, bare, he, ht, hs, significant, depthAfter, ho]
  | wrap ho hc _ h =>
    exact statementsFrom_wrap cur rest ho hc 0 fun cur rest => h.statementsFrom_inner cur rest 0
  | append _ _ ihx ihy =>
    rw [map_append, append_assoc, ihx, ihy]
    simp

end Splitting

/-- The lines of a source and the statements that they hold. Every statement ends at a line end,
with nothing but blanks and comments after it. -/
inductive Holds : List Lexeme → List (List Lexeme) → Prop
  | nil : Holds [] []
  | skip {x xs ss} (hx : x.isTrivia = true ∨ x.endsLine = true) (h : Holds xs ss) :
      Holds (x :: xs) ss
  | statement {core note x xs ss last} (hcore : Closed core)
      (hlast : (significant core).getLast? = some last) (hends : endsStatement (bare last) = true)
      (hnote : ∀ y ∈ note, y.isTrivia = true ∧ y.endsLine = false) (hx : x.endsLine = true)
      (h : Holds xs ss) : Holds (core ++ (note ++ x :: xs)) (significant core :: ss)

namespace Holds

variable {xs ys : List Lexeme} {ss ts : List (List Lexeme)}

theorem append (hx : Holds xs ss) (hy : Holds ys ts) : Holds (xs ++ ys) (ss ++ ts) := by
  induction hx with
  | nil => exact hy
  | skip h _ ih => exact .skip h ih
  | statement hcore hlast hends hnote hx _ ih =>
    rw [append_assoc, append_assoc]
    exact .statement hcore hlast hends hnote hx ih

theorem balanced (h : Holds xs ss) : Balanced xs := by
  have hplain {x : Lexeme} (hx : x.isTrivia = true ∨ x.endsLine = true) : Balanced [x] := by
    obtain ⟨ho, hc⟩ := Lexeme.not_bracket (hx.imp_right .inl)
    exact .plain ho hc
  have hall {note : List Lexeme} (hnote : ∀ y ∈ note, y.isTrivia = true ∧ y.endsLine = false) :
      Balanced note := by
    induction note with
    | nil => exact .nil
    | cons y note ih =>
      exact (hplain (.inl (hnote y (by simp)).1)).append (ih fun z hz => hnote z (by simp [hz]))
  induction h with
  | nil => exact .nil
  | skip hx _ ih => exact (hplain hx).append ih
  | statement hcore _ _ hnote hx _ ih =>
    exact hcore.balanced.append ((hall hnote).append ((hplain (.inr hx)).append ih))

theorem skip_line (h : Holds xs ss) : Holds (lineFeed :: xs) ss := .skip (.inr rfl) h

private theorem statementsFrom_note {note : List Lexeme} (cur rest : List Token)
    (hnote : ∀ y ∈ note, y.isTrivia = true ∧ y.endsLine = false) :
    statementsFrom 0 cur (note.map bare ++ rest) = statementsFrom 0 cur rest := by
  induction note with
  | nil => rfl
  | cons y note ih =>
    obtain ⟨ht, he⟩ := hnote y (by simp)
    rw [← ih fun z hz => hnote z (by simp [hz])]
    simp [statementsFrom, bare, ht, he]

/-- The statements of the lines are those that they hold. -/
theorem statements_eq (h : Holds xs ss) : statements (xs.map bare) = ss.map (map bare) := by
  unfold statements
  induction h with
  | nil => rfl
  | @skip x xs ss hx _ ih =>
    rw [← ih]
    cases he : x.endsLine with
    | true => simp [statementsFrom, bare, he]
    | false =>
      have ht : x.isTrivia = true := hx.resolve_right (by simp [he])
      simp [statementsFrom, bare, ht]
  | @statement core note x xs ss last hcore hlast hends hnote hx _ ih =>
    obtain ⟨init, hinit⟩ := getLast?_eq_some_iff.mp hlast
    rw [map_append, map_append, map_cons, hcore.statementsFrom_outer,
      statementsFrom_note _ _ hnote, map_cons, ← ih]
    have hline : (bare x).endsLine = true := hx
    simp [statementsFrom, hline, hinit, hends, endStatement]

theorem without_trivia (h : Holds xs ss) : Holds (significant xs) ss := by
  have hidem (xs : List Lexeme) : significant (significant xs) = significant xs := by
    simp [significant]
  induction h with
  | nil => exact .nil
  | @skip x xs ss hx _ ih =>
    cases he : x.endsLine with
    | true =>
      rw [significant_cons_of_line he]
      exact .skip hx ih
    | false =>
      have ht : x.isTrivia = true := hx.resolve_right (by simp [he])
      rwa [significant_cons_of_trivia ht he]
  | @statement core note x xs ss last hcore hlast hends hnote hx _ ih =>
    have hdrop : significant note = [] := by
      rw [significant, filter_eq_nil_iff]
      intro y hy
      simp [hnote y hy]
    have hall := Holds.statement (closed_significant hcore) (by rwa [hidem]) hends
      (by simp : ∀ y ∈ ([] : List Lexeme), _) hx ih
    rwa [hidem, ← hdrop, ← significant_cons_of_line hx, ← significant_append,
      ← significant_append] at hall

end Holds

section Places

/-- The token with its place forgotten. -/
private abbrev placeless (t : Token) : Token := bare t.toLexeme

private theorem map_statementsFrom (d : Nat) (cur ts : List Token) :
    (statementsFrom d cur ts).map (map placeless) =
      statementsFrom d (cur.map placeless) (ts.map placeless) := by
  have hend (cur : List Token) (rest : List (List Token)) :
      (endStatement cur rest).map (map placeless) =
        endStatement (cur.map placeless) (rest.map (map placeless)) := by
    cases cur <;> simp [endStatement]
  have hany (cur : List Token) :
      (cur.map placeless).head?.any endsStatement = cur.head?.any endsStatement := by
    cases cur <;> rfl
  induction ts generalizing d cur with
  | nil => exact hend cur []
  | cons t ts ih =>
    simp only [statementsFrom, map_cons, hany]
    simp only [apply_ite (map (map placeless)), hend, ih]
    rfl

theorem Holds.map_statements (ts : List Token) {ss : List (List Lexeme)}
    (h : Holds (ts.map (·.toLexeme)) ss) : (statements ts).map (map (·.toLexeme)) = ss := by
  have hplaceless := map_statementsFrom 0 [] ts
  have heq := h.statements_eq
  rw [map_map] at heq
  have hall : (statements ts).map (map placeless) = ss.map (map bare) :=
    hplaceless.trans heq
  have hback := congrArg (map (map (·.toLexeme))) hall
  simpa [Function.comp_def, bare] using hback

end Places

end GoBindings.Go
