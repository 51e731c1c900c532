import GoBindings.Proofs.Identifiers

/-!
# Exported forms of arbitrary texts

An exported form is settled: a lower-case letter in it goes on with a word, so that it is its own
exported form. The form can be built byte by byte, since letters, digits and the underscore are
single bytes and all other bytes are passed on.
-/

namespace GoBindings.Go

open List

variable {inWord : Bool} {b : UInt8} {c : Char}

section Settled

variable {cs : List Char}

/-- Whether `d` may stand after `c`: a lower-case letter needs a word to go on with. -/
def Continues (c d : Char) : Prop := c = '_' ∨ c.isDigit = true → d.isLower = false

private theorem continues_of_isLower (h : c.isLower = true) (d : Char) : Continues c d := by
  rintro (rfl | hdigit)
  · cases h
  · rw [isLower_of_isDigit hdigit] at h
    cases h

private theorem camelCaseChars_of_not_startsLower (inWord : Bool) (h : startsLower cs = false) :
    camelCaseChars inWord cs = camelCaseChars false cs := by
  cases cs with
  | nil => simp [camelCaseChars]
  | cons c cs =>
    have hc : c.isLower = false := h
    simp [camelCaseChars, hc]

private theorem isChain_camelCaseChars (inWord : Bool) (cs : List Char) :
    (camelCaseChars inWord cs).IsChain Continues := by
  fun_induction camelCaseChars inWord cs with
  | case1 => exact .nil
  | case2 inWord c cs hword ih =>
    rw [Bool.and_eq_true] at hword
    exact isChain_cons.mpr ⟨fun d _ => continues_of_isLower hword.2 d, ih⟩
  | case3 _ _ _ _ _ ih => exact ih
  | case4 _ c cs _ _ _ ih =>
    exact isChain_cons.mpr ⟨fun d hd _ => isLower_head_camelCaseChars cs d hd, ih⟩
  | case5 _ c cs _ hdropped hdigit ih =>
    refine isChain_cons.mpr ⟨fun d hd => ?_, ih⟩
    rcases toUpper_cases c with ⟨-, hsame⟩ | ⟨-, hupper, -⟩
    · rw [hsame]
      rintro (rfl | h)
      · -- the underscore is kept since no lower-case letter follows it
        have hstart : startsLower cs = false := by simpa using hdropped
        rw [camelCaseChars_of_not_startsLower true hstart] at hd
        exact isLower_head_camelCaseChars cs d hd
      · exact absurd h hdigit
    · rintro (h | h)
      · rw [h] at hupper
        cases hupper
      · exact absurd hupper (of_isDigit h (by decide))

private theorem camelCaseChars_of_isChain (hchain : cs.IsChain Continues)
    (hstart : inWord = true ∨ startsLower cs = false) : camelCaseChars inWord cs = cs := by
  fun_induction camelCaseChars inWord cs with
  | case1 => rfl
  | case2 _ c cs _ ih => rw [ih hchain.tail (.inl rfl)]
  | case3 _ c cs _ hdropped ih =>
    simp only [Bool.and_eq_true, decide_eq_true_eq] at hdropped
    obtain ⟨rfl, hlower⟩ := hdropped
    cases cs with
    | nil => cases hlower
    | cons d cs =>
      have hd : d.isLower = false := (isChain_cons_cons.mp hchain).1 (.inl rfl)
      have hlower : d.isLower = true := hlower
      simp [hd] at hlower
  | case4 _ c cs _ _ hdigit ih =>
    have hrest : startsLower cs = false := by
      cases cs with
      | nil => rfl
      | cons d cs => exact (isChain_cons_cons.mp hchain).1 (.inr hdigit)
    rw [ih hchain.tail (.inr hrest)]
  | case5 inWord c cs hword _ _ ih =>
    have hlower : c.isLower = false := by
      rcases hstart with rfl | hstart
      · simpa using hword
      · exact hstart
    rcases toUpper_cases c with ⟨-, hsame⟩ | ⟨h, -⟩
    · rw [hsame, ih hchain.tail (.inl rfl)]
    · simp [hlower] at h

theorem isChain_camelCase (s : String) : (camelCase s).toList.IsChain Continues := by
  unfold camelCase
  split
  · rename_i cs _
    rw [String.toList_ofList]
    refine isChain_cons.mpr ⟨fun d _ h => ?_, isChain_camelCaseChars false cs⟩
    exact absurd h (by decide)
  · rw [String.toList_ofList]
    exact isChain_camelCaseChars false _

private theorem head_camelCaseChars (hc : c ≠ '_') (cs : List Char) :
    (camelCaseChars false (c :: cs)).head? ≠ some '_' := by
  rw [camelCaseChars]
  simp only [Bool.false_and, Bool.false_eq_true, if_false, hc, decide_false]
  split
  · simpa using hc
  · rcases toUpper_cases c with ⟨-, hsame⟩ | ⟨-, hupper, -⟩
    · simpa [hsame] using hc
    · intro h
      rw [head?_cons, Option.some.injEq] at h
      rw [h] at hupper
      cases hupper

private theorem head_camelCase (s : String) : (camelCase s).toList.head? ≠ some '_' := by
  unfold camelCase
  split
  · simp
  · rename_i hne
    rw [String.toList_ofList]
    cases hs : s.toList with
    | nil => simp [camelCaseChars]
    | cons c cs =>
      apply head_camelCaseChars
      rintro rfl
      exact hne cs hs

theorem camelCase_camelCase (s : String) : camelCase (camelCase s) = camelCase s := by
  have hstart : startsLower (camelCase s).toList = false := by
    have hhead := isLower_head_camelCase s
    cases h : (camelCase s).toList with
    | nil => rfl
    | cons c cs => exact hhead c (by simp [h])
  have hsame : camelCaseChars false (camelCase s).toList = (camelCase s).toList :=
    camelCaseChars_of_isChain (isChain_camelCase s) (.inr hstart)
  rw [camelCase]
  split
  · rename_i h
    exact absurd (by rw [h]; rfl) (head_camelCase s)
  · rw [hsame, String.ofList_toList]

end Settled

section Bytes

open Text

def isLowerByte (b : UInt8) : Bool := 0x61 ≤ b && b ≤ 0x7A

def isDigitByte (b : UInt8) : Bool := 0x30 ≤ b && b ≤ 0x39

def upperByte (b : UInt8) : UInt8 := if isLowerByte b then b - 0x20 else b

def startsLowerByte : List UInt8 → Bool
  | b :: _ => isLowerByte b
  | [] => false

/-- The bytes of a text in words. After the first byte of a word come all its lower-case letters. -/
def wordBytes : List UInt8 → List UInt8
  | [] => []
  | b :: bs =>
    if b = 0x5F && startsLowerByte bs then wordBytes bs
    else if isDigitByte b then b :: wordBytes bs
    else upperByte b :: (bs.takeWhile isLowerByte ++ wordBytes (bs.dropWhile isLowerByte))
termination_by bs => bs.length
decreasing_by
  all_goals
    have := (dropWhile_sublist isLowerByte (l := bs)).length_le
    simp only [length_cons]
    omega

/-- The exported form, built from the bytes of a text. -/
def camelCaseBytes : List UInt8 → List UInt8
  | 0x5F :: bs => 0x58 :: wordBytes bs
  | bs => wordBytes bs

/-- The bytes that are written from here on, within a word or before one. -/
private def resume (inWord : Bool) (bs : List UInt8) : List UInt8 :=
  if inWord then bs.takeWhile isLowerByte ++ wordBytes (bs.dropWhile isLowerByte) else wordBytes bs

private theorem resume_eq_wordBytes (h : (inWord && isLowerByte b) = false) (bs : List UInt8) :
    resume inWord (b :: bs) = wordBytes (b :: bs) := by
  cases inWord with
  | false => rfl
  | true =>
    have hb : isLowerByte b = false := h
    simp [resume, hb]

private theorem isLowerByte_of_high (h : 0x80 ≤ b) : isLowerByte b = false := by
  grind [isLowerByte]

private theorem resume_append {u : List UInt8} (hne : u ≠ []) (hhigh : ∀ b ∈ u, 0x80 ≤ b)
    (inWord : Bool) (bs : List UInt8) : resume inWord (u ++ bs) = u ++ resume true bs := by
  induction u generalizing inWord with
  | nil => exact absurd rfl hne
  | cons b u ih =>
    have hb := UInt8.le_iff_toNat_le.mp (hhigh b (by simp))
    have hlower := isLowerByte_of_high (hhigh b (by simp))
    have hdigit : isDigitByte b = false := by grind [isDigitByte, UInt8.le_iff_toNat_le]
    have hunder : b ≠ 0x5F := by rintro rfl; exact absurd hb (by decide)
    have hstep : resume inWord (b :: (u ++ bs)) = b :: resume true (u ++ bs) := by
      rw [resume_eq_wordBytes (by simp [hlower]), wordBytes]
      simp [hunder, hdigit, upperByte, hlower, resume]
    rw [cons_append, hstep]
    cases u with
    | nil => rfl
    | cons b' u =>
      rw [ih (by simp) (fun b hb => hhigh b (by simp [hb])), cons_append, cons_append,
        cons_append]

/-- How a character is told from its bytes. -/
private inductive Encoded (c : Char) : Prop where
  | single (b : UInt8) (bytes : String.utf8EncodeChar c = [b])
      (upper : String.utf8EncodeChar c.toUpper = [upperByte b])
      (lower : isLowerByte b = c.isLower) (digit : isDigitByte b = c.isDigit)
      (underscore : b = 0x5F ↔ c = '_')
  | several (nonempty : String.utf8EncodeChar c ≠ [])
      (high : ∀ b ∈ String.utf8EncodeChar c, 0x80 ≤ b) (upper : c.toUpper = c)
      (lower : c.isLower = false) (digit : c.isDigit = false) (underscore : c ≠ '_')

private theorem encoded (c : Char) : Encoded c := by
  by_cases h : c.toNat < 128
  · have hall : ∀ n < 128, String.utf8EncodeChar (Char.ofNat n) = [UInt8.ofNat n] ∧
        String.utf8EncodeChar (Char.ofNat n).toUpper = [upperByte (UInt8.ofNat n)] ∧
        isLowerByte (UInt8.ofNat n) = (Char.ofNat n).isLower ∧
        isDigitByte (UInt8.ofNat n) = (Char.ofNat n).isDigit ∧
        (UInt8.ofNat n = 0x5F ↔ Char.ofNat n = '_') := by decide
    have hc := hall c.toNat h
    rw [Char.ofNat_toNat] at hc
    exact .single _ hc.1 hc.2.1 hc.2.2.1 hc.2.2.2.1 hc.2.2.2.2
  · have hval : 127 < c.val.toNat := by
      have : 128 ≤ c.val.toNat := Nat.not_lt.mp h
      omega
    have hlower : c.isLower = false := by
      rw [Bool.eq_false_iff]
      intro hc
      have : c.val.toNat ≤ 122 := (isLower_iff.mp hc).2
      omega
    refine .several (by grind [String.utf8EncodeChar]) (fun b hb => ?_) ?_ hlower ?_ ?_
    · rw [String.utf8EncodeChar, if_neg (by omega)] at hb
      have hle (n : Nat) (hn : 128 ≤ n % 256) : 0x80 ≤ UInt8.ofNat n := by
        exact hn
      split at hb
      · simp only [mem_cons, not_mem_nil, or_false] at hb
        rcases hb with rfl | rfl <;> exact hle _ (by omega)
      · split at hb
        · simp only [mem_cons, not_mem_nil, or_false] at hb
          rcases hb with rfl | rfl | rfl <;> exact hle _ (by omega)
        · simp only [mem_cons, not_mem_nil, or_false] at hb
          rcases hb with rfl | rfl | rfl | rfl <;> exact hle _ (by omega)
    · rcases toUpper_cases c with ⟨-, hsame⟩ | ⟨hc, -⟩
      · exact hsame
      · simp [hlower] at hc
    · rw [Bool.eq_false_iff]
      intro hc
      exact h (of_isDigit hc (by decide))
    · rintro rfl
      exact absurd h (by decide)

private theorem startsLowerByte_encode (cs : List Char) :
    startsLowerByte (cs.flatMap String.utf8EncodeChar) = startsLower cs := by
  cases cs with
  | nil => rfl
  | cons c cs =>
    rw [flatMap_cons]
    cases encoded c with
    | single b bytes _ lower => rw [bytes]; exact lower
    | several nonempty high _ lower =>
      obtain ⟨b, u, hb⟩ := exists_cons_of_ne_nil nonempty
      rw [hb, startsLower, lower]
      exact isLowerByte_of_high (high b (by simp [hb]))

private theorem resume_encode (inWord : Bool) (cs : List Char) :
    resume inWord (cs.flatMap String.utf8EncodeChar) =
      (camelCaseChars inWord cs).flatMap String.utf8EncodeChar := by
  fun_induction camelCaseChars inWord cs with
  | case1 inWord => cases inWord <;> simp [resume, wordBytes]
  | case2 inWord c cs hword ih =>
    rw [Bool.and_eq_true] at hword
    obtain ⟨rfl, hc⟩ := hword
    rw [flatMap_cons, flatMap_cons, ← ih]
    cases encoded c with
    | single b bytes _ lower =>
      have hb : isLowerByte b = true := lower.trans hc
      rw [bytes]
      simp [resume, hb]
    | several _ _ _ lower => simp [hc] at lower
  | case3 inWord c cs hword hdropped ih =>
    simp only [Bool.and_eq_true, decide_eq_true_eq] at hdropped
    obtain ⟨rfl, hstart⟩ := hdropped
    have hunder : String.utf8EncodeChar '_' = [0x5F] := by decide
    rw [flatMap_cons, hunder, singleton_append, resume_eq_wordBytes (by simp +decide),
      wordBytes, startsLowerByte_encode, hstart, ← ih]
    rfl
  | case4 inWord c cs hword hdropped hdigit ih =>
    rw [flatMap_cons, flatMap_cons, ← ih]
    cases encoded c with
    | single b bytes _ lower digit underscore =>
      rw [bytes, singleton_append, resume_eq_wordBytes (by simpa [lower] using hword),
        wordBytes, startsLowerByte_encode, if_neg (by simpa [underscore] using hdropped),
        if_pos (digit.trans hdigit)]
      rfl
    | several _ _ _ _ digit => simp [hdigit] at digit
  | case5 inWord c cs hword hdropped hdigit ih =>
    rw [flatMap_cons, flatMap_cons, ← ih]
    cases encoded c with
    | single b bytes upper lower digit underscore =>
      rw [bytes, upper, singleton_append, resume_eq_wordBytes (by simpa [lower] using hword),
        wordBytes, startsLowerByte_encode, if_neg (by simpa [underscore] using hdropped),
        if_neg (by simpa [digit] using hdigit)]
      rfl
    | several nonempty high upper => rw [upper, resume_append nonempty high]

private theorem underscore_of_encode {s : String} {bs : List UInt8}
    (h : s.toList.flatMap String.utf8EncodeChar = 0x5F :: bs) : ∃ cs, s.toList = '_' :: cs := by
  cases hs : s.toList with
  | nil => simp [hs] at h
  | cons c cs =>
    rw [hs, flatMap_cons] at h
    cases encoded c with
    | single b bytes _ _ _ underscore =>
      rw [bytes] at h
      exact ⟨cs, by rw [underscore.mp (List.cons.inj h).1]⟩
    | several nonempty high =>
      obtain ⟨b, u, hb⟩ := exists_cons_of_ne_nil nonempty
      rw [hb] at h
      have hhigh := high b (by simp [hb])
      rw [(List.cons.inj h).1] at hhigh
      exact absurd hhigh (by decide)

theorem camelCaseBytes_encode (s : String) :
    camelCaseBytes (Utf8.encode s) = Utf8.encode (camelCase s) := by
  unfold camelCase Utf8.encode
  split
  · rename_i cs hs
    rw [hs, String.toList_ofList, flatMap_cons, flatMap_cons, ← resume_encode]
    rfl
  · rename_i hne
    rw [String.toList_ofList, ← resume_encode]
    unfold camelCaseBytes
    split
    · rename_i bs hbs
      obtain ⟨cs, hs⟩ := underscore_of_encode hbs
      exact absurd hs (hne cs)
    · rfl

end Bytes

/-- The bytes built are those of the exported form, which is settled. For a name in a schema it is
an exported identifier. -/
theorem camelCase_spec (s : String) :
    Text.Utf8.decode? (camelCaseBytes (Text.Utf8.encode s)) = some (camelCase s) ∧
    camelCase (camelCase s) = camelCase s ∧
    (camelCase s).toList.IsChain Continues ∧
    (isIdentifier s = true → (∃ c ∈ (camelCase s).toList.head?, c.isUpper = true) ∧
      ∀ c ∈ (camelCase s).toList, c.isAlphanum = true ∨ c = '_') := by
  refine ⟨?_, camelCase_camelCase s, isChain_camelCase s, fun h => ⟨isUpper_head_camelCase h, ?_⟩⟩
  · rw [camelCaseBytes_encode, Text.Utf8.decode?_encode]
  · have hresult := isIdentifier_camelCase h
    unfold isIdentifier at hresult
    split at hresult
    · rename_i c cs hcs
      simp only [Bool.and_eq_true, Bool.or_eq_true, all_eq_true, decide_eq_true_eq] at hresult
      rw [hcs]
      intro d hd
      rcases mem_cons.mp hd with rfl | hd
      · exact hresult.1.imp (fun halpha => Bool.or_eq_true_iff.mpr (.inl halpha)) id
      · exact hresult.2 d hd
    · cases hresult

end GoBindings.Go
