import GoBindings.Proofs.Pieces

/-!
# Valid syntax trees

A tree is valid if its names and numbers are such, if it names only packages that it may, and if
its comments and tags end where they should. The last is asked for under strict rules only, since
where packages are named does not depend on it.
-/

namespace GoBindings.Go

open List Lexeme

variable {xs ys : List Lexeme} {x : Lexeme} {e : Expr}

/-- What is asked of a syntax tree. -/
structure Rules where
  /-- The packages that may be named. -/
  package : String → Prop
  /-- Whether comments and tags are looked at. -/
  strict : Prop

namespace Rules

variable (R : Rules)

/-- A comment ends at the end of its line. -/
def Note (text : String) : Prop := R.strict → '\n' ∉ text.toList

/-- A tag holds no quote that would end it. -/
def Tag (tag : StructTag) : Prop := R.strict → rawQuote ∉ tag.text.toList

/-- Rules under which valid trees are spelled properly. -/
structure Proper : Prop where
  name : ∀ p, R.package p → IsName p
  strict : R.strict

end Rules

def TypeExpr.Valid (R : Rules) : TypeExpr → Prop
  | name n => IsName n
  | qualified package n => R.package package ∧ IsName n
  | pointer t => t.Valid R
  | slice t => t.Valid R
  | map k v => k.Valid R ∧ v.Valid R
  | anything => True

namespace Expr

def isType : Expr → Bool
  | type _ => true
  | _ => false

/-- Names and what is made of them by calls, fields, elements and parentheses. -/
def isOperand : Expr → Bool
  | name _ | qualified _ _ | paren _ => true
  | select e _ | index e _ => e.isOperand
  | call f _ => f.isOperand || f.isType
  | _ => false

/-- What has an address. -/
def isAddressable : Expr → Bool
  | composite _ _ => true
  | e => e.isOperand

mutual

def Valid (R : Rules) : Expr → Prop
  | name n => IsName n
  | qualified package n => R.package package ∧ IsName n
  | type t => t.Valid R
  | number text => IsNumber text
  | literal text => (Lexeme.literal text).scansAlone = true
  | select e field => e.Valid R ∧ e.isOperand = true ∧ IsName field
  | call f args => f.Valid R ∧ ValidAll R args
  | paren e => e.Valid R
  | star e => e.Valid R ∧ e.isOperand = true
  | address e => e.Valid R ∧ e.isAddressable = true
  | index e i => e.Valid R ∧ e.isOperand = true ∧ i.Valid R
  | composite t elems => t.Valid R ∧ ValidAll R elems
  | assert e t => e.Valid R ∧ e.isOperand = true ∧ t.Valid R
  | binary left op right => left.Valid R ∧ right.Valid R ∧ op ∈ operators ∧ op ≠ "/" ∧
      op ∉ ["(", ")", "[", "]", "\x7b", "\x7d", ";"]
  | tight left op right => left.Valid R ∧ right.Valid R ∧ op = "<<"
  | spread e => e.Valid R ∧ e.isOperand = true

def ValidAll (R : Rules) : List Expr → Prop
  | [] => True
  | e :: es => e.Valid R ∧ ValidAll R es

end

end Expr

section Types

variable {R : Rules}

theorem TypeExpr.lexemes_ne_nil (t : TypeExpr) : t.lexemes ≠ [] := by
  cases t <;> simp [lexemes]

theorem phrase_cons_punct {p : String} (hp : p ∈ ["*", "&", "-", "+"]) (h : Phrase xs)
    (hne : xs ≠ []) (hm : ∀ x ∈ xs.head?, meets (.punct p) x = true) : Phrase (.punct p :: xs) := by
  have hops : ∀ p ∈ ["*", "&", "-", "+"], p ∈ operators ∧ p ≠ "/" ∧
      (punct p).isStart = true ∧ p ∉ ["(", ")", "[", "]", "\x7b", "\x7d", ";"] := by
    decide
  obtain ⟨hop, hslash, hstart, hplain⟩ := hops p hp
  refine ⟨.cons (stands_punct hop hslash) h.row hm, (closed_punct hplain).append h.closed, ?_, ?_⟩
  · simpa using hstart
  · cases xs with
    | nil => exact absurd rfl hne
    | cons x xs => simpa using h.tails

private theorem phrase_dotted {n : String} (h : Phrase xs)
    (hfirm : ∀ x ∈ xs.getLast?, x.isFirm = true) (hne : xs ≠ []) (hn : IsName n) :
    Phrase (xs ++ [punct ".", .ident n]) := by
  have hdot : Row [.punct ".", .ident n] :=
    .cons (stands_punct (by decide) (by decide)) (.single hn.stands) (by simp [meets, punct,
      ident])
  refine ⟨h.row.append hdot ?_, h.closed.append ((closed_punct (by decide)).append
    (closed_word hn.stands (.inl rfl))), ?_, ?_⟩
  · simpa using fun x hx => meets_dots (by decide) (hfirm x hx)
  · cases xs with
    | nil => exact absurd rfl hne
    | cons x xs => simpa using h.starts
  · simp [isTail, ident]

theorem TypeExpr.phrase (hR : R.Proper) {t : TypeExpr} (h : t.Valid R) : Phrase t.lexemes := by
  induction t with
  | name n =>
    have hn : IsName n := h
    exact .word hn.stands (.inl rfl)
  | qualified package n =>
    obtain ⟨hp, hn⟩ := h
    have hword : Phrase [.ident package] := .word (hR.name _ hp).stands (.inl rfl)
    exact phrase_dotted hword (by simp [isFirm, ident]) (by simp) hn
  | pointer t ih =>
    have ht := ih h
    exact phrase_cons_punct (by decide) ht t.lexemes_ne_nil
      fun x hx => opener_meets (by decide) (ht.starts x hx)
  | slice t ih =>
    have ht := ih h
    have hbrackets : Phrase [.punct "[", .punct "]"] := Phrase.nil.bracketed (by decide) (by decide)
    refine hbrackets.append ht (by simp) t.lexemes_ne_nil ?_
    simpa using fun x hx => opener_meets (by decide) (ht.starts x hx)
  | map k v ihk ihv =>
    have hk := ihk h.1
    have hv := ihv h.2
    have hmap : Phrase [.ident "map"] := .word (IsName.stands (by decide)) (.inl rfl)
    have hkey := hmap.applied (by simp) hk (o := "[") (c := "]") (by decide)
    have hall := hkey.append hv (by simp) v.lexemes_ne_nil (by
      rw [← cons_append, ← append_assoc, getLast?_concat]
      simpa using fun x hx => opener_meets (by decide) (hv.starts x hx))
    simpa [lexemes] using hall
  | anything =>
    have hword : Phrase [.ident "interface"] := .word (IsName.stands (by decide)) (.inl rfl)
    exact hword.applied (by simp) .nil (by decide)

end Types

section Joining

theorem kind_ne_space_of_start (h : x.isStart = true) : x.kind ≠ .space := by
  rcases isStart_cases h with hk | hk | hk | ⟨hk, -⟩ <;> simp [hk]

theorem Phrase.solid (h : Phrase xs) : ∀ x ∈ xs.head?, x.kind ≠ .space :=
  fun x hx => kind_ne_space_of_start (h.starts x hx)

theorem meets_blank_of_tail (h : x.isTail = true) : meets x .blank = true := by
  rcases isTail_cases h with hk | hk | hk | ⟨hk, -⟩ <;>
    exact meets_blank (by simp [hk]) (by simp [hk])

theorem phrase_binary (op : String) (hx : Phrase xs) (hy : Phrase ys) (hxn : xs ≠ [])
    (hyn : ys ≠ []) (hop : op ∈ operators) (hslash : op ≠ "/")
    (hplain : op ∉ ["(", ")", "[", "]", "\x7b", "\x7d", ";"]) :
    Phrase (xs ++ .blank :: .punct op :: .blank :: ys) := by
  have hright : Row (.blank :: .punct op :: .blank :: ys) :=
    .blank (.cons (stands_punct hop hslash) (.blank hy.row hy.solid) (by simp))
      (by simp [punct])
  refine hx.between [.blank, .punct op, .blank] hy hxn hyn hright ?_ ?_
  · exact closed_blank.append ((closed_punct hplain).append closed_blank)
  · simpa using fun x hx' => meets_blank_of_tail (hx.tails x hx')

theorem phrase_comma (hx : Phrase xs) (hy : Phrase ys) (hxn : xs ≠ []) (hyn : ys ≠ []) :
    Phrase (xs ++ .punct "," :: .blank :: ys) := by
  have hright : Row (.punct "," :: .blank :: ys) :=
    .cons (stands_punct (by decide) (by decide)) (.blank hy.row hy.solid) (by simp)
  refine hx.between [.punct ",", .blank] hy hxn hyn hright (closed_comma.append closed_blank) ?_
  simpa using fun x hx' => meets_closer (by decide) (hx.tails x hx')

theorem phrase_assert (hx : Phrase xs) (hy : Phrase ys) (hxn : xs ≠ [])
    (hfirm : ∀ x ∈ xs.getLast?, x.isFirm = true) :
    Phrase (xs ++ .punct "." :: .punct "(" :: (ys ++ [punct ")"])) := by
  obtain ⟨hrow, hclosed⟩ := hy.wrap (o := "(") (c := ")") (by decide)
  have hright : Row (.punct "." :: .punct "(" :: (ys ++ [punct ")"])) :=
    .cons (stands_punct (by decide) (by decide)) hrow (by
      simp only [head?_cons]
      decide)
  refine ⟨hx.row.append hright ?_, hx.closed.append ((closed_punct (by decide)).append hclosed),
    ?_, ?_⟩
  · simpa using fun x hx' => meets_dots (by decide) (hfirm x hx')
  · rw [head?_append_of_ne_nil _ hxn]
    exact hx.starts
  · rw [← cons_append, ← cons_append, ← append_assoc, getLast?_concat]
    simp [isTail, punct]

end Joining

namespace Expr

variable {R : Rules}

theorem lexemes_ne_nil : (e : Expr) → e.lexemes ≠ []
  | name _ | qualified _ _ | literal _ | select _ _ | call _ _ | paren _ | star _ | address _
  | index _ _ | composite _ _ | assert _ _ | binary _ _ _ | tight _ _ _ | spread _ => by
    simp [lexemes]
  | type t => by
    exact t.lexemes_ne_nil
  | number text => by
    rw [lexemes, Lexeme.number]
    split <;> simp

theorem isFirm_of_isOperand (h : e.isOperand = true) :
    ∀ x ∈ e.lexemes.getLast?, x.isFirm = true := by
  cases e with
  | name | qualified | select | call | paren | index =>
    simp only [lexemes, ← cons_append, getLast?_append]
    simp [isFirm, ident, punct]
  | _ => simp [isOperand] at h

theorem head_ne_ampersand_of_type (t : TypeExpr) : ∀ x ∈ t.lexemes.head?, x ≠ punct "&" := by
  cases t <;> simp [TypeExpr.lexemes, punct, ident]

private theorem head_ne_ampersand_of_operand : (e : Expr) → e.isOperand = true →
    ∀ x ∈ e.lexemes.head?, x ≠ punct "&"
  | name _, _ | qualified _ _, _ | paren _, _ => by
    simp [lexemes, punct, ident]
  | select e _, h | index e _, h => by
    rw [lexemes, head?_append_of_ne_nil _ e.lexemes_ne_nil]
    exact head_ne_ampersand_of_operand e h
  | call f _, h => by
    rw [lexemes, head?_append_of_ne_nil _ f.lexemes_ne_nil]
    rcases Bool.or_eq_true_iff.mp h with h | h
    · exact head_ne_ampersand_of_operand f h
    · cases f with
      | type t =>
        exact head_ne_ampersand_of_type t
      | _ => simp [isType] at h

private theorem head_ne_ampersand (h : e.isAddressable = true) :
    ∀ x ∈ e.lexemes.head?, x ≠ punct "&" := by
  cases e with
  | composite t elems =>
    rw [lexemes, head?_append_of_ne_nil _ t.lexemes_ne_nil]
    exact head_ne_ampersand_of_type t
  | _ => exact head_ne_ampersand_of_operand _ h

theorem phrase_number {text : String} (h : IsNumber text) : Phrase (Lexeme.number text) := by
  have hfits : ∀ x ∈ Lexeme.number text, x.Fits [] := fun x hx =>
    scansAlone_iff.mp (all_eq_true.mp h x hx)
  have hword {digits : String} (hd : (⟨.number, digits⟩ : Lexeme).Fits []) :
      Phrase [⟨.number, digits⟩] := .word (hd.stands (by simp)) (.inr (.inl rfl))
  rw [Lexeme.number] at hfits ⊢
  split at hfits
  · exact phrase_cons_punct (by decide) (hword (hfits _ (by simp))) (by simp)
      (by simp [meets, punct])
  · exact phrase_cons_punct (by decide) (hword (hfits _ (by simp))) (by simp)
      (by simp [meets, punct])
  · exact hword (hfits _ (by simp))

private theorem phrase_tight (hx : Phrase xs) (hy : Phrase ys) (hxn : xs ≠ []) (hyn : ys ≠ []) :
    Phrase (xs ++ .punct "<<" :: ys) := by
  have hops : ∀ t ∈ ["*", "[", "(", "-", "+", "&"],
      t.toList.head?.all (endsOperator "<<") = true := by decide
  have hright : Row (.punct "<<" :: ys) :=
    .cons (stands_punct (by decide) (by decide)) hy.row fun y hy' =>
      punct_meets (by decide) (hy.starts y hy') fun _ ht => hops y.text ht
  refine hx.between [.punct "<<"] hy hxn hyn hright (closed_punct (by decide)) ?_
  simpa using fun x hx' => meets_closer (by decide) (hx.tails x hx')

private theorem phrase_spread (hx : Phrase xs) (hxn : xs ≠ [])
    (hfirm : ∀ x ∈ xs.getLast?, x.isFirm = true) : Phrase (xs ++ [punct "..."]) := by
  refine ⟨hx.row.append (.single (stands_punct (by decide) (by decide))) ?_,
    hx.closed.append (closed_punct (by decide)), ?_, ?_⟩
  · simpa using fun x hx' => meets_dots (by decide) (hfirm x hx')
  · rw [head?_append_of_ne_nil _ hxn]
    exact hx.starts
  · simp [isTail, punct]

theorem listLexemes_ne_nil : {es : List Expr} → es ≠ [] → listLexemes es ≠ []
  | [], h => absurd rfl h
  | [e], _ => by
    exact e.lexemes_ne_nil
  | e :: _ :: _, _ => by simp [listLexemes]

mutual

theorem phrase (hR : R.Proper) : (e : Expr) → e.Valid R → Phrase e.lexemes
  | name n, h => by
    have hn : IsName n := h
    exact .word hn.stands (.inl rfl)
  | qualified package n, h => by
    have hword : Phrase [.ident package] := .word (hR.name _ h.1).stands (.inl rfl)
    exact phrase_dotted hword (by simp [isFirm, ident]) (by simp) h.2
  | type t, h => TypeExpr.phrase hR h
  | number text, h => phrase_number h
  | literal text, h =>
    .word ((scansAlone_iff.mp h).stands (by simp [Lexeme.literal])) (.inr (.inr rfl))
  | select e field, h =>
    phrase_dotted (phrase hR e h.1) (isFirm_of_isOperand h.2.1) e.lexemes_ne_nil h.2.2
  | call f args, h =>
    (phrase hR f h.1).applied f.lexemes_ne_nil (phraseAll hR args h.2) (by decide)
  | paren e, h => (phrase hR e h).bracketed (by decide) (by decide)
  | star e, h => by
    have he := phrase hR e h.1
    exact phrase_cons_punct (by decide) he e.lexemes_ne_nil
      fun x hx => opener_meets (by decide) (he.starts x hx)
  | address e, h => by
    have he := phrase hR e h.1
    exact phrase_cons_punct (by decide) he e.lexemes_ne_nil
      fun x hx => ampersand_meets (he.starts x hx) (head_ne_ampersand h.2 x hx)
  | index e i, h =>
    (phrase hR e h.1).applied e.lexemes_ne_nil (phrase hR i h.2.2) (by decide)
  | composite t elems, h =>
    (TypeExpr.phrase hR h.1).applied t.lexemes_ne_nil (phraseAll hR elems h.2) (by decide)
  | assert e t, h =>
    phrase_assert (phrase hR e h.1) (TypeExpr.phrase hR h.2.2) e.lexemes_ne_nil
      (isFirm_of_isOperand h.2.1)
  | binary left op right, h =>
    phrase_binary _ (phrase hR left h.1) (phrase hR right h.2.1) left.lexemes_ne_nil
      right.lexemes_ne_nil h.2.2.1 h.2.2.2.1 h.2.2.2.2
  | tight left op right, h => by
    obtain ⟨hl, hr, rfl⟩ := h
    exact phrase_tight (phrase hR left hl) (phrase hR right hr) left.lexemes_ne_nil
      right.lexemes_ne_nil
  | spread e, h => phrase_spread (phrase hR e h.1) e.lexemes_ne_nil (isFirm_of_isOperand h.2)

theorem phraseAll (hR : R.Proper) : (es : List Expr) → ValidAll R es → Phrase (listLexemes es)
  | [], _ => .nil
  | [e], h => phrase hR e h.1
  | e :: e' :: es, h =>
    phrase_comma (phrase hR e h.1) (phraseAll hR (e' :: es) h.2) e.lexemes_ne_nil
      (listLexemes_ne_nil (by simp))

end

end Expr

end GoBindings.Go
