import GoBindings.Proofs.LexicalClasses
import GoBindings.Proofs.Unicode

/-!
# Quoted text

A quoted text is one string literal of Go, whatever stands after it, and the bytes that the literal
stands for are those of the text.
-/

namespace GoBindings

open List Go Text

namespace Text

/-- How a character is written in quotes: by a letter, by its number or as it is. -/
inductive Escaped (c : Char) : List Char → Prop
  | letter {letter : Char} (h : escaped? letter = some c) : Escaped c ['\\', letter]
  | number (h : c.toNat < 0x20) : Escaped c ['\\', 'u', '0', '0', Nat.digitChar (c.toNat / 16),
      Nat.digitChar (c.toNat % 16)]
  | plain (hquote : c ≠ '"') (hslash : c ≠ '\\') (hline : c ≠ '\n') (hreturn : c ≠ '\r') :
      Escaped c [c]

theorem escaped_escape (c : Char) : Escaped c (escape c) := by
  unfold escape
  split_ifs with hquote hslash h8 hf hn hr ht hsmall
  · exact .letter (by rw [hquote]; rfl)
  · exact .letter (by rw [hslash]; rfl)
  · exact .letter (by rw [h8]; rfl)
  · exact .letter (by rw [hf]; rfl)
  · exact .letter (by rw [hn]; rfl)
  · exact .letter (by rw [hr]; rfl)
  · exact .letter (by rw [ht]; rfl)
  · exact .number hsmall
  · exact .plain hquote hslash hn hr

section Characters

variable {c d letter : Char} {cs : List Char}
variable {s : String}

/-- The backslash and what may stand after it. -/
def escapeChars : List Char := "\\\"bfnrtu0123456789abcdef".toList

private theorem digitChar_mem {n : Nat} (h : n < 16) : n.digitChar ∈ escapeChars :=
  (by decide : ∀ n < 16, n.digitChar ∈ escapeChars) n h

private theorem letter_mem (h : escaped? letter = some c) : letter ∈ escapeChars := by
  unfold escaped? at h
  split at h <;> cases h <;> decide

theorem Escaped.mem (h : Escaped c cs) (hd : d ∈ cs) :
    d ∈ escapeChars ∨ d = c ∧ d ≠ '\n' ∧ d ≠ '\r' := by
  cases h with
  | letter h =>
    left
    rcases mem_cons.mp hd with rfl | hd
    · decide
    · exact mem_singleton.mp hd ▸ letter_mem h
  | number h =>
    left
    have hstart : ['\\', 'u', '0', '0'].all escapeChars.contains = true := by decide
    rcases mem_append.mp (show d ∈ ['\\', 'u', '0', '0'] ++ [_, _] from hd) with hd | hd
    · exact contains_iff_mem.mp (all_eq_true.mp hstart d hd)
    · rcases mem_cons.mp hd with rfl | hd
      · exact digitChar_mem (by omega)
      · exact mem_singleton.mp hd ▸ digitChar_mem (by omega)
  | plain _ _ hline hreturn =>
    obtain rfl := mem_singleton.mp hd
    exact .inr ⟨rfl, hline, hreturn⟩

theorem mem_quote (h : d ∈ (quote s).toList) :
    d ∈ escapeChars ∨ d ∈ s.toList ∧ d ≠ '\n' ∧ d ≠ '\r' := by
  simp only [quote, quoteChars, String.toList_ofList, mem_cons, mem_append, mem_flatMap,
    not_mem_nil, or_false] at h
  rcases h with rfl | ⟨c, hc, hd⟩ | rfl
  · exact .inl (by decide)
  · rcases (escaped_escape c).mem hd with hd | ⟨rfl, hne⟩
    · exact .inl hd
    · exact .inr ⟨hc, hne⟩
  · exact .inl (by decide)

theorem lineFeed_not_mem_quote (s : String) : '\n' ∉ (quote s).toList := by
  intro h
  rcases mem_quote h with h | ⟨-, h, -⟩
  · exact absurd h (by decide)
  · exact absurd rfl h

theorem return_not_mem_quote (s : String) : '\r' ∉ (quote s).toList := by
  intro h
  rcases mem_quote h with h | ⟨-, -, h⟩
  · exact absurd h (by decide)
  · exact absurd rfl h

theorem rawQuote_not_mem_quote (hs : rawQuote ∉ s.toList) : rawQuote ∉ (quote s).toList := by
  intro h
  rcases mem_quote h with h | ⟨h, -⟩
  · exact absurd h (by decide)
  · exact hs h

end Characters

section Literals

variable {c : Char} {cs rest : List Char}

theorem literalTail_append (h : ∀ c ∈ cs, c ≠ '"' ∧ c ≠ '\n' ∧ c ≠ '\\')
    (hrest : LiteralTail '"' rest) : LiteralTail '"' (cs ++ rest) := by
  induction cs with
  | nil => exact hrest
  | cons c cs ih =>
    obtain ⟨⟨hquote, hline, hslash⟩, hcs⟩ := forall_mem_cons.mp h
    exact .plain hquote hline hslash (ih hcs)

private theorem Escaped.literalTail (h : Escaped c cs) (hrest : LiteralTail '"' rest) :
    LiteralTail '"' (cs ++ rest) := by
  cases h with
  | letter h => exact .escaped _ hrest
  | number h =>
    refine .escaped _ (literalTail_append ?_ hrest)
    simp
  | plain hquote hslash hline _ => exact .plain hquote hline hslash hrest

theorem inClass_quote (s : String) : InClass .literal (quote s).toList := by
  rw [quote, String.toList_ofList]
  refine .literal (.inl rfl) ?_
  induction s.toList with
  | nil => exact .close
  | cons c cs ih =>
    rw [flatMap_cons, append_assoc]
    exact (escaped_escape c).literalTail ih

/-- A quoted text is a literal, whatever stands after it. -/
theorem fits_quote (s : String) (rest : List Char) : (⟨.literal, quote s⟩ : Lexeme).Fits rest :=
  Lexeme.fits_iff.mpr ⟨inClass_quote s, trivial⟩

end Literals

section Unescaping

variable {c letter : Char} {cs : List Char} (rest : List Char)

private theorem unescape?_plain (hquote : c ≠ '"') (hslash : c ≠ '\\') :
    unescape? (c :: rest) = (unescape? rest).map (c :: ·) := by
  rw [unescape?.eq_def, Option.map_eq_bind]
  split
  · simp_all
  · simp_all
  · simp_all
  · simp_all
  · rename_i heq
    cases heq
    rw [if_neg hquote]
    rfl

private theorem unescape?_letter (hletter : letter ≠ 'u') (hc : escaped? letter = some c) :
    unescape? ('\\' :: letter :: rest) = (unescape? rest).map (c :: ·) := by
  rw [unescape?.eq_def, Option.map_eq_bind]
  split
  · simp_all
  · simp_all
  · simp_all
  · rename_i heq
    obtain ⟨-, heq⟩ := cons.inj heq
    cases heq
    rw [hc]
    rfl
  · rename_i hnot heq
    cases heq
    exact absurd rfl (hnot _ _ rfl)

theorem hexValue?_digitChar : ∀ n < 16, hexValue? (Nat.digitChar n) = some n := by decide

theorem Escaped.unescape? (h : Escaped c cs) :
    unescape? (cs ++ rest) = (unescape? rest).map (c :: ·) := by
  cases h with
  | letter h => exact unescape?_letter rest (by rintro rfl; cases h) h
  | number h =>
    have hzero : hexValue? '0' = some 0 := by decide
    have hvalue : ((0 * 16 + 0) * 16 + c.toNat / 16) * 16 + c.toNat % 16 = c.toNat := by omega
    simp only [cons_append]
    rw [unescape?]
    simp only [hzero, hexValue?_digitChar _ (by omega : c.toNat / 16 < 16),
      hexValue?_digitChar _ (by omega : c.toNat % 16 < 16), Option.bind_eq_bind, Option.bind_some,
      hvalue, Char.ofNat_toNat, Option.map_eq_bind]
    rfl
  | plain hquote hslash => exact unescape?_plain rest hquote hslash

theorem unescape?_flatMap_escape (cs : List Char) :
    unescape? (cs.flatMap escape ++ ['"']) = some cs := by
  induction cs with
  | nil => rfl
  | cons c cs ih =>
    rw [flatMap_cons, append_assoc, (escaped_escape c).unescape?, ih, Option.map_some]

theorem unquote?_quote (s : String) : unquote? (quote s) = some s := by
  rw [unquote?, quote, String.toList_ofList, quoteChars]
  simp only [unescape?_flatMap_escape, Option.map_some, String.ofList_toList]

end Unescaping

end Text

namespace Go

/-- The byte that a letter after a backslash stands for. -/
def letterByte? : Char → Option UInt8
  | 'a' => some 0x07
  | 'b' => some 0x08
  | 't' => some 0x09
  | 'n' => some 0x0a
  | 'v' => some 0x0b
  | 'f' => some 0x0c
  | 'r' => some 0x0d
  | '"' => some 0x22
  | '\\' => some 0x5c
  | _ => none

/-- The number that the first `count` characters spell in a base. -/
def codeNumber? (base count : Nat) (cs : List Char) : Option Nat :=
  if cs.length < count then none
  else (cs.take count).foldlM (fun n c =>
    (hexValue? c).bind fun d => if d < base then some (n * base + d) else none) 0

/-- The bytes of the character with a number. -/
def numbered? (n : Nat) : Option (List UInt8) :=
  if n.isValidChar then some (String.utf8EncodeChar (Char.ofNat n)) else none

/-- The bytes that a character of a string literal stands for, an escape with what stands after it,
and the number of the characters after the first. -/
def literalChar? (c : Char) (cs : List Char) : Option (List UInt8 × Nat) :=
  if c = '\n' then none
  else if c ≠ '\\' then some (String.utf8EncodeChar c, 0)
  else match cs with
    | [] => none
    | letter :: rest =>
      match letterByte? letter with
      | some b => some ([b], 1)
      | none =>
        if letter = 'x' then (codeNumber? 16 2 rest).map fun n => ([n.toUInt8], 3)
        else if letter = 'u' then ((codeNumber? 16 4 rest).bind numbered?).map (·, 5)
        else if letter = 'U' then ((codeNumber? 16 8 rest).bind numbered?).map (·, 9)
        else (codeNumber? 8 3 cs).bind fun n => if n < 256 then some ([n.toUInt8], 3) else none

/-- The bytes that a string literal stands for, given what stands after its first quote. -/
def literalBytes? : List Char → Option (List UInt8)
  | [] => none
  | c :: cs =>
    if c = '"' then if cs.isEmpty then some [] else none
    else match literalChar? c cs with
      | none => none
      | some (bytes, n) => (literalBytes? (cs.drop n)).map (bytes ++ ·)
termination_by cs => cs.length
decreasing_by simp only [length_drop, length_cons]; omega

/-- The bytes of a double-quoted literal. -/
def stringBytes? (literal : String) : Option (List UInt8) :=
  match literal.toList with
  | '"' :: cs => literalBytes? cs
  | _ => none

section Bytes

variable {c : Char} {cs : List Char} (rest : List Char)

private theorem codeNumber?_digits (h : c.toNat < 0x20) :
    codeNumber? 16 4 ('0' :: '0' :: Nat.digitChar (c.toNat / 16) :: Nat.digitChar (c.toNat % 16) ::
      rest) = some c.toNat := by
  have hzero : hexValue? '0' = some 0 := by decide
  have hlow : c.toNat % 16 < 16 := by omega
  have hhigh : c.toNat / 16 < 16 := by omega
  have hvalue : c.toNat / 16 * 16 + c.toNat % 16 = c.toNat := by omega
  simp [codeNumber?, hzero, hexValue?_digitChar _ hlow, hexValue?_digitChar _ hhigh, hlow,
    hhigh, hvalue]

private theorem letterByte?_eq {letter : Char} (h : escaped? letter = some c) :
    (letterByte? letter).map ([·]) = some (String.utf8EncodeChar c) := by
  unfold escaped? at h
  split at h <;> cases h <;> rfl

private theorem literalChar?_escaped (h : Escaped c cs) : ∃ d ds, cs = d :: ds ∧ d ≠ '"' ∧
    literalChar? d (ds ++ rest) = some (String.utf8EncodeChar c, ds.length) := by
  cases h with
  | @letter letter h =>
    obtain ⟨b, hb, hbytes⟩ := Option.map_eq_some_iff.mp (letterByte?_eq h)
    exact ⟨'\\', [letter], rfl, by decide, by simp [literalChar?, hb, ← hbytes]⟩
  | number h =>
    have hvalid : c.toNat.isValidChar := c.valid
    refine ⟨'\\', _, rfl, by decide, ?_⟩
    simp [literalChar?, letterByte?, codeNumber?_digits rest h, numbered?, hvalid]
  | plain hquote hslash hline =>
    exact ⟨c, [], rfl, hquote, by simp [literalChar?, hline, hslash]⟩

theorem literalBytes?_escaped (h : Escaped c cs) :
    literalBytes? (cs ++ rest) =
      (literalBytes? rest).map (String.utf8EncodeChar c ++ ·) := by
  obtain ⟨d, ds, rfl, hd, hchar⟩ := literalChar?_escaped rest h
  rw [cons_append, literalBytes?, if_neg hd, hchar]
  simp only [drop_left]

theorem stringBytes?_quote (s : String) :
    stringBytes? (quote s) = some (Utf8.encode s) := by
  rw [stringBytes?, quote, String.toList_ofList, quoteChars, Utf8.encode]
  simp only
  induction s.toList with
  | nil =>
    rw [flatMap_nil, nil_append, literalBytes?]
    rfl
  | cons c cs ih =>
    rw [flatMap_cons, append_assoc, literalBytes?_escaped _ (escaped_escape c), ih]
    rfl

theorem quote_injective : Function.Injective quote := by
  intro s t h
  have hbytes : Utf8.encode s = Utf8.encode t := by
    apply Option.some.inj
    rw [← stringBytes?_quote, ← stringBytes?_quote, h]
  apply Option.some.inj
  rw [← Utf8.decode?_encode, ← Utf8.decode?_encode, hbytes]

/-- Quoted texts are literals on one line: a scan takes a quoted text as one token, whatever stands
before and after it, and the literal has the bytes of the text. -/
theorem scanFrom_quote :
    (∀ (text rest : String) (p : Position) (before : Lexeme),
      scanFrom p before (quote text ++ rest).toList =
        (scanFrom (p.after (quote text).toList) ⟨.literal, quote text⟩ rest.toList).map
          (⟨⟨.literal, quote text⟩, p⟩ :: ·)) ∧
    (∀ text : String, '\n' ∉ (quote text).toList ∧ '\r' ∉ (quote text).toList ∧
      stringBytes? (quote text) = some (Utf8.encode text)) ∧
    Function.Injective quote := by
  refine ⟨?_, ?_, quote_injective⟩
  · intro text rest p before
    have hstar : ¬(quote text = "*" ∧ before.is "/") := by
      rintro ⟨heq, -⟩
      have htext := congrArg (·.toList.head?) heq
      simp [quote, quoteChars] at htext
    rw [String.toList_append, scanFrom_cons p before (fits_quote text _) hstar]
    cases scanFrom (p.after (quote text).toList) ⟨.literal, quote text⟩ rest.toList <;> rfl
  · intro text
    exact ⟨lineFeed_not_mem_quote text, return_not_mem_quote text,
      stringBytes?_quote text⟩

end Bytes

end Go

end GoBindings
