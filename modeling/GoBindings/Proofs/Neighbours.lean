import GoBindings.Proofs.Gaps
import Mathlib.Data.List.Chain

/-!
# Lexemes that may stand side by side

A lexeme that scans by itself still does where another one follows, unless the two run into each
other: two words, a number and a dot, two parts of an operator, or a comment and more on its line.
-/

namespace GoBindings.Go

open List Text

/-- No operator goes on with the character after the text. -/
def endsOperator (text : String) (c : Char) : Bool :=
  operators.all fun op => (dropStart? (text.toList ++ [c]) op.toList).isNone

/-- The second lexeme does not run into the first. -/
def meets (x y : Lexeme) : Bool :=
  match x.kind, y.kind with
  | .ident, .ident | .ident, .number | .number, .ident | .number, .number => false
  | .number, .punct => y.text.toList.head?.all fun c => c ≠ '.' && !isSign c
  | .comment, k => k = .newline
  | .space, .space => false
  | .punct, .number => x.text ≠ "."
  | .punct, .punct => y.text.toList.head?.all (endsOperator x.text)
  | _, _ => true

/-- The lexeme scans by itself, and is no slash. -/
def Lexeme.Stands (x : Lexeme) : Prop := x.Fits [] ∧ x.is "/" = false

section Following

variable {x : Lexeme} {c : Char} (rest : List Char)

theorem isSome_dropStart? {start cs : List Char} :
    (dropStart? start cs).isSome = true ↔ start <+: cs := by
  constructor
  · intro h
    obtain ⟨rest, hrest⟩ := Option.isSome_iff_exists.mp h
    exact ⟨rest, (dropStart?_eq_some hrest).symm⟩
  · rintro ⟨rest, rfl⟩
    induction start with
    | nil => simp [dropStart?]
    | cons d ds ih => simpa [dropStart?] using ih

private theorem operatorLength_followed {text : String}
    (h : operatorLength? text.toList = some text.length) (hc : endsOperator text c = true) :
    operatorLength? (text.toList ++ c :: rest) = some text.length := by
  have hsame : ∀ op ∈ operators, (dropStart? op.toList (text.toList ++ c :: rest)).isSome =
      (dropStart? op.toList text.toList).isSome := by
    intro op hop
    rw [Bool.eq_iff_iff, isSome_dropStart?, isSome_dropStart?]
    constructor
    · intro hpre
      rcases Nat.lt_or_ge text.toList.length op.toList.length with hlt | hge
      · have hlonger : text.toList ++ [c] <+: op.toList := by
          refine prefix_of_prefix_length_le ?_ hpre (by rw [length_append]; exact hlt)
          exact ⟨rest, by simp⟩
        have hnone := all_eq_true.mp hc op hop
        rw [Option.isNone_iff_eq_none, ← Option.not_isSome_iff_eq_none, isSome_dropStart?] at hnone
        exact absurd hlonger hnone
      · exact prefix_of_prefix_length_le hpre (prefix_append _ _) hge
    · exact fun hpre => hpre.trans (prefix_append _ _)
  have hfind : ∀ ops : List String, (∀ op ∈ ops, op ∈ operators) →
      ops.find? (fun op => (dropStart? op.toList (text.toList ++ c :: rest)).isSome) =
        ops.find? (fun op => (dropStart? op.toList text.toList).isSome) := by
    intro ops hops
    induction ops with
    | nil => rfl
    | cons op ops ih =>
      rw [find?_cons, find?_cons, hsame op (hops op (by simp)),
        ih (fun o ho => hops o (by simp [ho]))]
  rw [operatorLength?, hfind operators (fun _ ho => ho)]
  exact h

theorem Lexeme.Stands.followed (h : x.Stands) (hident : x.kind = .ident → isIdentRest c = false)
    (hnumber : x.kind = .number → isNumberRest c = false ∧ isSign c = false)
    (hspace : x.kind = .space → isBlank c = false) (hcomment : x.kind = .comment → c = '\n')
    (hpunct : x.kind = .punct → endsOperator x.text c = true ∧ (x.text = "." → c.isDigit = false)) :
    x.Fits (c :: rest) := by
  obtain ⟨hfits, hslash⟩ := h
  rw [Lexeme.fits_iff] at hfits ⊢
  refine ⟨hfits.1, ?_⟩
  have hends := hfits.2
  cases hk : x.kind with
  | comment => simpa [EndsBefore, AtLineEnd] using fun _ => hcomment hk
  | space => simpa [EndsBefore] using hspace hk
  | ident => simpa [EndsBefore] using hident hk
  | number =>
    obtain ⟨hrest, hsign⟩ := hnumber hk
    simp [EndsBefore, hrest, hsign]
  | punct =>
    obtain ⟨hlast, hdigit⟩ := hpunct hk
    rw [hk, EndsBefore, append_nil] at hends
    refine ⟨?_, fun htext => ?_, fun htext => ?_⟩
    · exact operatorLength_followed rest hends.1 hlast
    · have htext : x.text = "/" := String.toList_injective htext
      simp [Lexeme.is, hk, htext] at hslash
    · simpa using hdigit (String.toList_injective htext)
  | literal | newline => trivial

/-- What a lexeme begins with. -/
def beginsLike (kind : Kind) (c : Char) : Prop :=
  match kind with
  | .ident => isIdentStart c = true
  | .number => c.isDigit = true ∨ c = '.'
  | .literal => c = '"' ∨ c = '\'' ∨ c = rawQuote
  | .comment => c = '/'
  | .newline => c = '\n'
  | .space => isBlank c = true
  | .punct => ∃ op ∈ operators, op.toList.head? = some c

theorem Lexeme.Fits.begins {rest : List Char} (h : x.Fits rest) :
    ∃ c cs, x.text.toList = c :: cs ∧ beginsLike x.kind c := by
  have hclass := h.inClass
  generalize x.kind = k at hclass
  generalize x.text.toList = text at hclass
  cases hclass with
  | lineComment | blockComment | newline => exact ⟨_, _, rfl, rfl⟩
  | literal hquote => exact ⟨_, _, rfl, hquote.elim .inl (fun h => .inr (.inl h))⟩
  | raw => exact ⟨_, _, rfl, .inr (.inr rfl)⟩
  | space h => exact ⟨_, _, rfl, h _ mem_cons_self⟩
  | ident hc => exact ⟨_, _, rfl, hc⟩
  | number hc => exact ⟨_, _, rfl, .inl hc⟩
  | fraction => exact ⟨_, _, rfl, .inr rfl⟩
  | operator hop =>
    obtain ⟨c, cs, htext, -⟩ := operators_start _ hop
    exact ⟨c, cs, htext, _, hop, by rw [htext]; rfl⟩

private theorem endsOperator_of_forall (text : String) (h : ∀ op ∈ operators, c ∉ op.toList) :
    endsOperator text c = true := by
  refine all_eq_true.mpr fun op hop => ?_
  rw [Option.isNone_iff_eq_none, ← Option.not_isSome_iff_eq_none, isSome_dropStart?]
  rintro ⟨r, hr⟩
  exact h op hop (by rw [← hr]; simp)

private theorem operators_plain : ∀ op ∈ operators, op.toList.all (fun c => !isIdentRest c &&
    !c.isDigit && c ≠ '"' && c ≠ '\'' && c ≠ rawQuote && c ≠ '\n' && !isBlank c) = true := by
  decide

private theorem not_mem_operators (h : isIdentRest c = true ∨ c.isDigit = true ∨ c = '"' ∨
    c = '\'' ∨ c = rawQuote ∨ c = '\n' ∨ isBlank c = true) : ∀ op ∈ operators, c ∉ op.toList := by
  intro op hop hmem
  have hplain := all_eq_true.mp (operators_plain op hop) c hmem
  grind

private theorem endsOperator_slash : ∀ op ∈ operators, endsOperator op '/' = true := by decide

private theorem endsOperator_dot : ∀ op ∈ operators, op ≠ "." → endsOperator op '.' = true := by
  decide

theorem isIdentRest_of_isIdentStart (h : isIdentStart c = true) : isIdentRest c = true := by
  simp only [isIdentStart, isIdentRest, Bool.or_eq_true] at h ⊢
  exact .inl h

private theorem operators_head : ∀ op ∈ operators, op.toList.head?.all (fun c => !isIdentRest c &&
    (c = '.' || !isNumberRest c)) = true := by decide

private theorem isBlank_cases (h : isBlank c = true) : c = ' ' ∨ c = '\t' ∨ c = '\r' := by
  simpa only [isBlank, Bool.or_eq_true, decide_eq_true_eq, or_assoc] using h

private theorem beginsLike_loose {k : Kind} (h : beginsLike k c) (hi : k ≠ .ident)
    (hn : k ≠ .number) : isIdentRest c = false ∧ (c ≠ '.' → isNumberRest c = false) := by
  cases k with
  | ident => exact absurd rfl hi
  | number => exact absurd rfl hn
  | literal => rcases h with rfl | rfl | rfl <;> decide
  | comment | newline => rcases h with rfl; decide
  | space => rcases isBlank_cases h with rfl | rfl | rfl <;> decide
  | punct =>
    obtain ⟨op, hop, hc⟩ := h
    have hhead := operators_head op hop
    rw [hc, Option.all_some, Bool.and_eq_true, Bool.not_eq_true', Bool.or_eq_true,
      decide_eq_true_eq, Bool.not_eq_true'] at hhead
    exact ⟨hhead.1, fun hne => hhead.2.resolve_left hne⟩

theorem Lexeme.Fits.mem_operators {rest : List Char} (h : x.Fits rest) (hk : x.kind = .punct) :
    x.text ∈ operators := by
  have hclass := h.inClass
  generalize htext : x.text.toList = text at hclass
  rw [hk] at hclass
  cases hclass with
  | operator hop => rwa [String.toList_injective htext]

/-- Neighbours that do not run into each other scan one by one. -/
theorem Lexeme.Stands.fits_of_meets {y : Lexeme} (hx : x.Stands) (hy : y.Stands)
    (h : meets x y = true) : x.Fits (y.text.toList ++ rest) := by
  obtain ⟨c, cs, ht, hc⟩ := hy.1.begins
  rw [ht]
  refine hx.followed (cs ++ rest) (fun hk => ?_) (fun hk => ?_) (fun hk => ?_) (fun hk => ?_)
    (fun hk => ?_)
  · refine (beginsLike_loose hc ?_ ?_).1 <;>
      · intro hy
        simp [meets, hk, hy] at h
  · have hni : y.kind ≠ .ident := fun hy => by simp [meets, hk, hy] at h
    have hnn : y.kind ≠ .number := fun hy => by simp [meets, hk, hy] at h
    have hdot : c ≠ '.' ∧ isSign c = false := by
      generalize hy : y.kind = kind at hc hni hnn
      cases kind with
      | ident => exact absurd rfl hni
      | number => exact absurd rfl hnn
      | punct => simpa [meets, hk, hy, ht] using h
      | literal => rcases hc with rfl | rfl | rfl <;> decide
      | comment | newline => rcases hc with rfl; decide
      | space => rcases isBlank_cases hc with rfl | rfl | rfl <;> decide
    exact ⟨(beginsLike_loose hc hni hnn).2 hdot.1, hdot.2⟩
  · have hns : y.kind ≠ .space := fun hy => by simp [meets, hk, hy] at h
    obtain ⟨d, ds, hd, -, -, hspace⟩ := hy.1.start
    rw [ht] at hd
    cases hd
    cases hb : isBlank c with
    | false => rfl
    | true => exact absurd (hspace.mpr hb) hns
  · have hnl : y.kind = .newline := by simpa [meets, hk] using h
    rw [hnl] at hc
    exact hc
  · have hmem := hx.1.mem_operators hk
    have hplain (hc : _) (hd : c.isDigit = false) :
        endsOperator x.text c = true ∧ (x.text = "." → c.isDigit = false) :=
      ⟨endsOperator_of_forall _ (not_mem_operators hc), fun _ => hd⟩
    generalize hy : y.kind = kind at hc
    cases kind with
    | punct =>
      have hends : endsOperator x.text c = true := by simpa [meets, hk, hy, ht] using h
      obtain ⟨op, hop, hc⟩ := hc
      refine ⟨hends, fun _ => ?_⟩
      cases hd : c.isDigit with
      | false => rfl
      | true =>
        refine absurd ?_ (not_mem_operators (.inr (.inl hd)) op hop)
        exact mem_of_mem_head? hc
    | number =>
      have hdot : x.text ≠ "." := by simpa [meets, hk, hy] using h
      refine ⟨?_, fun he => absurd he hdot⟩
      rcases hc with hd | rfl
      · exact endsOperator_of_forall _ (not_mem_operators (.inr (.inl hd)))
      · exact endsOperator_dot _ hmem hdot
    | ident =>
      have hstart : isIdentStart c = true := hc
      refine hplain (.inl (isIdentRest_of_isIdentStart hc)) ?_
      cases hd : c.isDigit with
      | false => rfl
      | true => cases hstart.symm.trans (isDigit_plain hd).2.2.2.2.2.2
    | literal => rcases hc with rfl | rfl | rfl <;> exact hplain (by simp) (by decide)
    | comment =>
      rcases hc with rfl
      exact ⟨endsOperator_slash _ hmem, fun _ => by decide⟩
    | newline =>
      rcases hc with rfl
      exact hplain (by simp) (by decide)
    | space =>
      refine hplain (.inr (.inr (.inr (.inr (.inr (.inr hc)))))) ?_
      rcases isBlank_cases hc with rfl | rfl | rfl <;> decide

end Following

theorem lexed_of_isChain {before : Lexeme} {xs : List Lexeme} (hstands : ∀ x ∈ xs, x.Stands)
    (hchain : xs.IsChain (fun x y => meets x y = true)) (hbefore : before.is "/" = false) :
    Lexed before xs := by
  induction xs generalizing before with
  | nil => trivial
  | cons x xs ih =>
    have hx := hstands x (by simp)
    refine ⟨?_, fun hc => by simp [hbefore] at hc, ?_⟩
    · cases xs with
      | nil => exact hx.1
      | cons y ys =>
        exact hx.fits_of_meets _ (hstands y (by simp)) (isChain_cons_cons.mp hchain).1
    · exact ih (fun y hy => hstands y (by simp [hy])) hchain.tail hx.2

end GoBindings.Go
