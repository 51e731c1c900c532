import GoBindings.MemberNames
import GoBindings.PackageNames
import GoBindings.Proofs.Pieces

/-!
# Names in generated code

Schema names, and the names that are made of them, are identifiers.
-/

namespace GoBindings

open List Text

/-- A name in a schema: ASCII letters, digits and underscores, not beginning with a digit. -/
def isIdentifier (s : String) : Bool :=
  match s.toList with
  | c :: cs => (c.isAlpha || c = '_') && cs.all fun d => d.isAlphanum || d = '_'
  | [] => false

namespace Go

variable {c : Char} {n : Nat}

/-- A text that may stand at the end of an identifier. -/
def IsTail (text : String) : Prop := text.toList.all isIdentRest = true

instance (text : String) : Decidable (IsTail text) := inferInstanceAs (Decidable (_ = true))

section Characters

variable {rs : List (Nat × Nat)}

private theorem isAlpha_range (h : c.isAlpha = true) :
    0x41 ≤ c.toNat ∧ c.toNat ≤ 0x5a ∨ 0x61 ≤ c.toNat ∧ c.toNat ≤ 0x7a := by
  rcases Bool.or_eq_true_iff.mp h with hupper | hlower
  · exact .inl (of_decide_eq_true hupper)
  · have hrange : (decide ('a'.val ≤ c.val) && decide (c.val ≤ 'z'.val)) = true := hlower
    simp only [Bool.and_eq_true, decide_eq_true_eq] at hrange
    exact .inr hrange

theorem isIdentStart_of_isAlpha (h : c.isAlpha = true) : isIdentStart c = true := by
  have hranges := isAlpha_range h
  have hletter : isLetter c = true := by
    rw [isLetter, letterRanges, rangesFrom, rangesFrom, inRanges,
      inRanges]
    split
    · omega
    · split
      · rfl
      · split
        · omega
        · rw [if_pos (by omega)]
  simp [isIdentStart, hletter]

theorem isDecimalDigit_of_isAlpha (h : c.isAlpha = true) : isDecimalDigit c = false := by
  have hranges := isAlpha_range h
  rw [isDecimalDigit, decimalDigitRanges, rangesFrom, rangesFrom,
    inRanges, inRanges, if_neg (by omega), if_neg (by omega), if_pos (by omega)]

theorem isIdentRest_of_isDigit (h : c.isDigit = true) : isIdentRest c = true :=
  of_isDigit h (by decide)

theorem isIdentRest_of_identifier (h : (c.isAlphanum || c = '_') = true) :
    isIdentRest c = true := by
  simp only [Char.isAlphanum, Bool.or_eq_true, decide_eq_true_eq] at h
  rcases h with (h | h) | rfl
  · exact isIdentRest_of_isIdentStart (isIdentStart_of_isAlpha h)
  · exact isIdentRest_of_isDigit h
  · decide

private theorem exists_range (h : inRanges n rs = true) : ∃ r ∈ rs, r.1 ≤ n ∧ n ≤ r.2 := by
  induction rs with
  | nil => simp [inRanges] at h
  | cons r rs ih =>
    obtain ⟨lo, hi⟩ := r
    rw [inRanges] at h
    split at h
    · simp at h
    · split at h
      · exact ⟨(lo, hi), by simp, by simp_all⟩
      · obtain ⟨r, hr, hn⟩ := ih h
        exact ⟨r, by simp [hr], hn⟩

private theorem inRanges_of_mem {r : Nat × Nat} (hle : ∀ r ∈ rs, r.1 ≤ r.2)
    (hrs : rs.Pairwise fun a b => a.2 < b.1) (hr : r ∈ rs) (hlo : r.1 ≤ n) (hhi : n ≤ r.2) :
    inRanges n rs = true := by
  induction rs with
  | nil => simp at hr
  | cons q rs ih =>
    obtain ⟨lo, hi⟩ := q
    obtain ⟨hq, hrs⟩ := pairwise_cons.mp hrs
    rw [inRanges]
    rcases mem_cons.mp hr with rfl | hr
    · rw [if_neg (by omega), if_pos hhi]
    · have hlohi : lo ≤ hi := hle (lo, hi) (by simp)
      have hbelow : hi < r.1 := hq r hr
      rw [if_neg (by omega), if_neg (by omega)]
      exact ih (fun q hq => hle q (by simp [hq])) hrs hr

theorem isNumber_of_isDecimalDigit (h : isDecimalDigit c = true) : isNumber c = true := by
  have hsorted : (∀ r ∈ numberRanges, r.1 ≤ r.2) ∧
      numberRanges.Pairwise fun a b => a.2 < b.1 := by decide +kernel
  have hcover : ∀ r ∈ decimalDigitRanges, ∃ q ∈ numberRanges, q.1 ≤ r.1 ∧ r.2 ≤ q.2 := by
    decide +kernel
  obtain ⟨r, hr, hlo, hhi⟩ := exists_range h
  obtain ⟨q, hq, hqlo, hqhi⟩ := hcover r hr
  exact inRanges_of_mem hsorted.1 hsorted.2 hq (hqlo.trans hlo) (hhi.trans hqhi)

theorem isIdentRest_of_isNameChar (h : isNameChar c = true) : isIdentRest c = true := by
  simp only [isNameChar, isIdentRest, Bool.or_eq_true] at h ⊢
  rcases h with (h | h) | h
  · exact .inl (.inr h)
  · exact .inr (isNumber_of_isDecimalDigit h)
  · exact .inl (.inl h)

end Characters

section Texts

variable {a b : String}

theorem IsName.isTail (h : IsName a) : IsTail a := by
  obtain ⟨c, cs, ht, hc, hcs⟩ := isName_iff.mp h
  rw [IsTail, ht, all_cons, isIdentRest_of_isIdentStart hc]
  simpa using hcs

theorem IsName.append (ha : IsName a) (hb : IsTail b) : IsName (a ++ b) := by
  obtain ⟨c, cs, ht, hc, hcs⟩ := isName_iff.mp ha
  refine isName_iff.mpr ⟨c, cs ++ b.toList, by simp [ht], hc, fun d hd => ?_⟩
  rcases mem_append.mp hd with hd | hd
  · exact hcs d hd
  · exact all_eq_true.mp hb d hd

theorem IsName.not_mem (h : IsName a) (hc : isIdentRest c = false) : c ∉ a.toList := by
  intro hmem
  have htail := all_eq_true.mp h.isTail c hmem
  simp [hc] at htail

theorem isTail_underscores (n : Nat) : IsTail (repeated n '_') := by
  rw [IsTail, repeated, String.toList_ofList, all_eq_true]
  intro c hc
  rw [eq_of_mem_replicate hc]
  decide

theorem isTail_nat (n : Nat) : IsTail (toString n) := by
  rw [IsTail, all_eq_true]
  exact fun c hc => isIdentRest_of_isDigit (isDigit_toString hc)

theorem isName_of_isIdentifier (h : isIdentifier a = true) : IsName a := by
  unfold isIdentifier at h
  split at h
  · rename_i c cs ht
    rw [Bool.and_eq_true] at h
    refine isName_iff.mpr ⟨c, cs, ht, ?_, fun d hd => ?_⟩
    · simp only [Bool.or_eq_true, decide_eq_true_eq] at h
      rcases h.1 with hc | rfl
      · exact isIdentStart_of_isAlpha hc
      · decide
    · exact isIdentRest_of_identifier (all_eq_true.mp h.2 d hd)
  · cases h

end Texts

section CamelCase

variable {c : Char} {s : String}
variable {cs : List Char}

/-- The characters of schema names. -/
private def isPlain (c : Char) : Bool := c.isAlphanum || c = '_'

theorem isLower_iff : c.isLower = true ↔ 'a'.val ≤ c.val ∧ c.val ≤ 'z'.val := by
  have hdef : c.isLower = (decide ('a'.val ≤ c.val) && decide (c.val ≤ 'z'.val)) := rfl
  rw [hdef, Bool.and_eq_true, decide_eq_true_iff, decide_eq_true_iff]

theorem toUpper_cases (c : Char) : c.isLower = false ∧ c.toUpper = c ∨
    c.isLower = true ∧ c.toUpper.isUpper = true ∧ c.toUpper.isLower = false := by
  have hletters : ∀ n < 123, 97 ≤ n →
      (Char.ofNat n).toUpper.isUpper = true ∧ (Char.ofNat n).toUpper.isLower = false := by decide
  by_cases hc : 'a'.val ≤ c.val ∧ c.val ≤ 'z'.val
  · have hle : 97 ≤ c.toNat := hc.1
    have hge : c.toNat ≤ 122 := hc.2
    have hupper := hletters c.toNat (by omega) hle
    rw [Char.ofNat_toNat] at hupper
    exact .inr ⟨isLower_iff.mpr hc, hupper⟩
  · exact .inl ⟨Bool.eq_false_iff.mpr (mt isLower_iff.mp hc), dif_neg hc⟩

private theorem isLower_toUpper (c : Char) : c.toUpper.isLower = false := by
  rcases toUpper_cases c with ⟨hlower, hsame⟩ | ⟨-, -, hlower⟩
  · rw [hsame, hlower]
  · exact hlower

private theorem isUpper_toUpper (h : c.isAlpha = true) : c.toUpper.isUpper = true := by
  rcases toUpper_cases c with ⟨hlower, hsame⟩ | ⟨-, hupper, -⟩
  · rw [hsame]
    exact (Bool.or_eq_true_iff.mp h).resolve_right (by simp [hlower])
  · exact hupper

private theorem isPlain_toUpper (h : isPlain c = true) : isPlain c.toUpper = true := by
  simp only [isPlain, Char.isAlphanum, Bool.or_eq_true, decide_eq_true_eq] at h ⊢
  rcases h with (h | h) | rfl
  · exact .inl (.inl (Bool.or_eq_true_iff.mpr (.inl (isUpper_toUpper h))))
  · exact .inl (.inr (of_isDigit h (by decide)))
  · exact .inr (by decide)

private theorem all_camelCaseChars {inWord : Bool} (h : cs.all isPlain = true) :
    (camelCaseChars inWord cs).all isPlain = true := by
  fun_induction camelCaseChars inWord cs with
  | case1 => rfl
  | case2 _ c cs _ ih | case4 _ c cs _ _ _ ih =>
    rw [all_cons, Bool.and_eq_true] at h ⊢
    exact ⟨h.1, ih h.2⟩
  | case3 _ c cs _ _ ih =>
    rw [all_cons, Bool.and_eq_true] at h
    exact ih h.2
  | case5 _ c cs _ _ _ ih =>
    rw [all_cons, Bool.and_eq_true] at h ⊢
    exact ⟨isPlain_toUpper h.1, ih h.2⟩

private theorem isIdentifier_ofList (hc : (c.isAlpha || c = '_') = true)
    (hcs : cs.all isPlain = true) : isIdentifier (String.ofList (c :: cs)) = true := by
  have hall : (cs.all fun d => d.isAlphanum || d = '_') = true := hcs
  rw [isIdentifier]
  simp [hc, hall]

private theorem exists_of_isIdentifier (h : isIdentifier s = true) :
    ∃ c cs, s.toList = c :: cs ∧ (c.isAlpha || c = '_') = true ∧ cs.all isPlain = true := by
  unfold isIdentifier at h
  split at h
  · rename_i c cs ht
    rw [Bool.and_eq_true] at h
    exact ⟨c, cs, ht, h⟩
  · cases h

private theorem exists_camelCase (h : isIdentifier s = true) :
    ∃ c cs, camelCase s = String.ofList (c :: cs) ∧ c.isUpper = true ∧ cs.all isPlain = true := by
  obtain ⟨c, cs, ht, hc, hcs⟩ := exists_of_isIdentifier h
  unfold camelCase
  rw [ht]
  split
  · rename_i cs' heq
    cases heq
    exact ⟨'X', _, rfl, by decide, all_camelCaseChars hcs⟩
  · rename_i hne
    have halpha : c.isAlpha = true := by
      rcases Bool.or_eq_true_iff.mp hc with hc | hc
      · exact hc
      · exact absurd (by rw [of_decide_eq_true hc]) (hne cs)
    have hunder : c ≠ '_' := by rintro rfl; exact absurd halpha (by decide)
    have hdigit : c.isDigit = false := by
      rw [Bool.eq_false_iff]
      exact fun hd => of_isDigit hd (by decide) halpha
    rw [camelCaseChars]
    simp only [hunder, hdigit]
    exact ⟨c.toUpper, _, rfl, isUpper_toUpper halpha, all_camelCaseChars hcs⟩

theorem isUpper_head_camelCase (h : isIdentifier s = true) :
    ∃ c ∈ (camelCase s).toList.head?, c.isUpper = true := by
  obtain ⟨c, cs, heq, hupper, -⟩ := exists_camelCase h
  exact ⟨c, by simp [heq], hupper⟩

theorem isLower_of_isDigit (h : c.isDigit = true) : c.isLower = false :=
  of_isDigit h (by decide)

theorem isLower_head_camelCaseChars (cs : List Char) :
    ∀ c ∈ (camelCaseChars false cs).head?, c.isLower = false := by
  induction cs with
  | nil => simp [camelCaseChars]
  | cons c cs ih =>
    rw [camelCaseChars]
    split
    · simp_all
    · split
      · exact ih
      · split
        · rename_i hdigit
          simpa using isLower_of_isDigit hdigit
        · intro d hd
          obtain rfl : c.toUpper = d := by simpa using hd
          exact isLower_toUpper c

theorem isLower_head_camelCase (s : String) :
    ∀ c ∈ (camelCase s).toList.head?, c.isLower = false := by
  unfold camelCase
  split
  · simp
  · simpa using isLower_head_camelCaseChars _

theorem isIdentifier_camelCase (h : isIdentifier s = true) : isIdentifier (camelCase s) = true := by
  obtain ⟨c, cs, heq, hupper, hcs⟩ := exists_camelCase h
  rw [heq]
  have halpha : c.isAlpha = true := Bool.or_eq_true_iff.mpr (.inl hupper)
  exact isIdentifier_ofList (by simp [halpha]) hcs

private theorem isIdentifier_append {a b : String} (ha : isIdentifier a = true)
    (hb : b.toList.all isPlain = true) : isIdentifier (a ++ b) = true := by
  obtain ⟨c, cs, ht, hc, hcs⟩ := exists_of_isIdentifier ha
  have heq : a ++ b = String.ofList (c :: (cs ++ b.toList)) := by
    rw [← String.toList_inj]
    simp [ht]
  rw [heq]
  exact isIdentifier_ofList hc (by rw [all_append, hcs, hb]; rfl)

private theorem all_of_isIdentifier (h : isIdentifier s = true) : s.toList.all isPlain = true := by
  obtain ⟨c, cs, ht, hc, hcs⟩ := exists_of_isIdentifier h
  rw [ht, all_cons, hcs, isPlain, Char.isAlphanum]
  rcases Bool.or_eq_true_iff.mp hc with hc | hc <;> simp [hc]

theorem isIdentifier_join {names : List String} (hne : names ≠ [])
    (h : ∀ name ∈ names, isIdentifier name = true) : isIdentifier (join "_" names) = true := by
  induction names with
  | nil => exact absurd rfl hne
  | cons name names ih =>
    have hname := h name (by simp)
    cases names with
    | nil => exact hname
    | cons name' names =>
      have hrest := all_of_isIdentifier (ih (by simp) fun n hn => h n (by simp [hn]))
      exact isIdentifier_append (isIdentifier_append hname (by decide)) hrest

theorem isIdentifier_camelCaseScope {scope : List String} (hne : scope ≠ [])
    (h : ∀ name ∈ scope, isIdentifier name = true) : isIdentifier (camelCaseScope scope) = true :=
  isIdentifier_camelCase (isIdentifier_join hne h)

end CamelCase

end Go

end GoBindings
