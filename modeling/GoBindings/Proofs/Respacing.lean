import GoBindings.Proofs.LexicalClasses

/-!
# What a lexeme depends on

A lexeme other than blanks depends on the text after it only up to the next blank or line feed.
Two kinds of lexemes look further: a comment up to the end of its line, which has to end there, and
a slash before a star, which must not begin a comment.
-/

namespace GoBindings.Go

open List Text

variable {c : Char} {v w : List Char}

/-- Neither a blank nor a line feed. -/
def isSolid (c : Char) : Bool := !isBlank c && c ≠ '\n'

/-- The characters up to the next blank or line feed. -/
def lead (cs : List Char) : List Char := cs.takeWhile isSolid

@[simp] theorem lead_nil : lead [] = [] := rfl

theorem lead_cons_solid (h : isSolid c = true) (cs : List Char) :
    lead (c :: cs) = c :: lead cs := by
  simp [lead, h]

theorem lead_cons_loose (h : isSolid c = false) (cs : List Char) : lead (c :: cs) = [] := by
  simp [lead, h]

theorem lead_append_congr (u : List Char) (h : lead v = lead w) :
    lead (u ++ v) = lead (u ++ w) := by
  induction u with
  | nil => exact h
  | cons c u ih =>
    cases hc : isSolid c with
    | true => simp only [cons_append, lead_cons_solid hc, ih]
    | false => simp only [cons_append, lead_cons_loose hc]

theorem head_of_lead (h : lead v = lead w) (hc : isSolid c = true) (hw : c ∈ w.head?) :
    c ∈ v.head? := by
  obtain ⟨cs, rfl⟩ := head?_eq_some_iff.mp hw
  rw [lead_cons_solid hc] at h
  cases v with
  | nil => cases h
  | cons d ds =>
    cases hd : isSolid d with
    | true =>
      rw [lead_cons_solid hd] at h
      rw [(List.cons.inj h).1]
      rfl
    | false =>
      rw [lead_cons_loose hd] at h
      cases h

private theorem stops_of_lead {p : Char → Bool} (hp : ∀ c, p c = true → isSolid c = true)
    (h : lead v = lead w) (hv : ∀ c ∈ v.head?, p c = false) : ∀ c ∈ w.head?, p c = false := by
  intro c hw
  rw [← Bool.not_eq_true]
  intro hc
  simp [hv c (head_of_lead h (hp c hc) hw)] at hc

private theorem isSolid_of {p : Char → Bool}
    (hall : [' ', '\t', '\r', '\n'].all (fun d => !p d) = true) (h : p c = true) :
    isSolid c = true := by
  have hne : ∀ d ∈ [' ', '\t', '\r', '\n'], c ≠ d := by
    rintro d hd rfl
    simpa [h] using all_eq_true.mp hall c hd
  simp [isSolid, isBlank, hne]

theorem isSolid_of_isIdentRest (h : isIdentRest c = true) : isSolid c = true :=
  isSolid_of (by decide) h

theorem isSolid_of_isNumberRest (h : isNumberRest c = true) : isSolid c = true :=
  isSolid_of (by decide) h

private theorem isSolid_of_isSign (h : isSign c = true) : isSolid c = true := by
  rcases isSign_cases h with rfl | rfl <;> decide

private theorem isSolid_of_isDigit (h : c.isDigit = true) : isSolid c = true :=
  of_isDigit h (by decide)

private theorem operators_solid : ∀ op ∈ operators, op.toList.all isSolid = true := by decide

private theorem dropStart_lead {op : List Char} (hop : op.all isSolid = true) (cs : List Char) :
    (dropStart? op (lead cs)).isSome = (dropStart? op cs).isSome := by
  induction op generalizing cs with
  | nil => simp [dropStart?]
  | cons d ds ih =>
    simp only [all_cons, Bool.and_eq_true] at hop
    cases cs with
    | nil => rfl
    | cons c cs =>
      cases hc : isSolid c with
      | true =>
        rw [lead_cons_solid hc, dropStart?, dropStart?]
        split
        · exact ih hop.2 cs
        · rfl
      | false =>
        have hdc : d ≠ c := by rintro rfl; rw [hop.1] at hc; cases hc
        rw [lead_cons_loose hc, dropStart?, dropStart?, if_neg hdc]

private theorem operatorLength_lead (cs : List Char) :
    operatorLength? (lead cs) = operatorLength? cs := by
  unfold operatorLength?
  congr 1
  have hp : ∀ ops : List String, (∀ op ∈ ops, op.toList.all isSolid = true) →
      (ops.find? fun op => (dropStart? op.toList (lead cs)).isSome) =
        ops.find? fun op => (dropStart? op.toList cs).isSome := by
    intro ops hops
    induction ops with
    | nil => rfl
    | cons op ops ih =>
      rw [find?_cons, find?_cons, dropStart_lead (hops op (by simp)) cs,
        ih fun o ho => hops o (by simp [ho])]
  exact hp operators operators_solid

theorem operatorLength_congr (u : List Char) (h : lead v = lead w) :
    operatorLength? (u ++ v) = operatorLength? (u ++ w) := by
  rw [← operatorLength_lead (u ++ v), lead_append_congr u h, operatorLength_lead]

/-- A lexeme still fits where the text after it changes behind its lead only. -/
theorem Lexeme.Fits.respaced {x : Lexeme} {rest rest' : List Char} (h : x.Fits rest)
    (hkind : x.kind ≠ .space) (hlead : lead rest = lead rest')
    (hline : x.kind = .comment → AtLineEnd rest → AtLineEnd rest')
    (hopen : Unclosed (rest.drop 1) → Unclosed (rest'.drop 1)) : x.Fits rest' := by
  rw [Lexeme.fits_iff] at h ⊢
  refine ⟨h.1, ?_⟩
  have hends := h.2
  generalize x.kind = k at hkind hline hends ⊢
  cases k with
  | comment => exact fun hstart => hline rfl (hends hstart)
  | space => exact absurd rfl hkind
  | ident => exact stops_of_lead (fun _ => isSolid_of_isIdentRest) hlead hends
  | number =>
    intro c hc
    refine ⟨stops_of_lead (fun _ => isSolid_of_isNumberRest) hlead (fun c hc => (hends c hc).1) c
      hc, fun hlast => ?_⟩
    exact stops_of_lead (fun _ => isSolid_of_isSign) hlead (fun c hc => (hends c hc).2 hlast) c hc
  | punct =>
    obtain ⟨hlength, hslash, hdot⟩ := hends
    refine ⟨by rwa [← operatorLength_congr _ hlead],
      fun htext => ⟨fun hnext => ?_, fun hnext => ?_⟩,
      fun htext => stops_of_lead (fun _ => isSolid_of_isDigit) hlead (hdot htext)⟩
    · exact (hslash htext).1 (head_of_lead hlead (by decide) hnext)
    · exact hopen ((hslash htext).2 (head_of_lead hlead (by decide) hnext))
  | literal | newline => trivial

end GoBindings.Go
