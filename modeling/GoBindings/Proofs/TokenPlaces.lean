import GoBindings.Proofs.Neighbours
import Mathlib.Algebra.GroupWithZero.Nat
import Mathlib.Data.List.Induction

/-!
# Tokens and their places

The tokens of a text spell it, each has the class that its own characters show, and its place is
counted from the text before it. Where a text is illegal, no class has a text that begins there.
-/

namespace GoBindings.Go

open List Lexeme

/-- The place after a text: the line feeds in it count the lines, the bytes of its last line the
columns. -/
def placeAfter (text : List Char) : Position where
  line := 1 + text.count '\n'
  column := 1 + ((text.reverse.takeWhile (· ≠ '\n')).map Char.utf8Size).sum

theorem after_eq_placeAfter (text : List Char) : Position.after {} text = placeAfter text := by
  induction text using reverseRecOn with
  | nil => rfl
  | append_singleton text c ih =>
    rw [Position.after] at ih
    rw [Position.after, foldl_append, ih, foldl_cons, Position.next]
    by_cases hc : c = '\n'
    · simp [placeAfter, hc, Nat.add_assoc]
    · simp [placeAfter, hc]
      omega

section Classes

variable {c : Char} {cs text : List Char} {k : Kind} {n : Nat}

private theorem Extent.isSome (h : Extent c cs k n) : (Go.extent? c cs).isSome = true := by
  rw [h.extent?]
  rfl

private theorem isSome_extent?_of_operator (h : operatorLength? (c :: cs) = some n) :
    (extent? c cs).isSome = true := by
  have hword := (isWordStart_of_operator h).1
  simp only [isWordStart, Bool.or_eq_false_iff, decide_eq_false_iff_not] at hword
  simp only [extent?, h, hword, decide_false, Bool.or_self, Bool.false_eq_true,
    if_false]
  split
  · split
    · rfl
    · split <;> rfl
    · rfl
  · split
    · split
      · split <;> rfl
      · rfl
    · rfl

theorem InClass.isSome_extent? (h : InClass k text) (hpre : text <+: c :: cs) :
    (extent? c cs).isSome = true := by
  obtain ⟨rest, hrest⟩ := hpre
  cases h with
  | lineComment h | newline =>
    cases hrest
    rfl
  | @blockComment text h =>
    cases hrest
    have hclosed := blockCommentLength?_eq (unclosed_iff.mpr h) rest
    rw [append_eq, cons_append, append_assoc]
    exact Extent.isSome (.blockComment hclosed)
  | literal hquote h =>
    cases hrest
    have hclosed := literalLength?_eq (by rcases hquote with rfl | rfl <;> decide) h rest
    exact Extent.isSome (.literal hquote hclosed)
  | @raw text h =>
    cases hrest
    have hclosed := rawLength?_eq h rest
    rw [append_eq, append_assoc]
    exact Extent.isSome (.raw hclosed)
  | space h =>
    cases hrest
    exact Extent.isSome (.space _ (h _ mem_cons_self))
  | ident hc h =>
    cases hrest
    exact Extent.isSome (.ident _ hc)
  | number hc h =>
    cases hrest
    exact Extent.isSome (.number _ hc)
  | fraction hc h =>
    cases hrest
    exact Extent.isSome (.fraction _ hc)
  | operator h =>
    have hfind : (operators.find? fun op => (Text.dropStart? op.toList (c :: cs)).isSome).isSome :=
      find?_isSome.mpr ⟨_, h, isSome_dropStart?.mpr ⟨rest, hrest⟩⟩
    obtain ⟨op, hop⟩ := Option.isSome_iff_exists.mp hfind
    exact isSome_extent?_of_operator (by rw [operatorLength?, hop]; rfl)

end Classes

section Scans

/-- The lexical rules cut lexemes off a text one by one and leave the rest of it. -/
inductive CutsOff : List Char → List Lexeme → List Char → Prop
  | nil (cs) : CutsOff cs [] cs
  | cons {x cs xs rest} (hx : x.Fits cs) (h : CutsOff cs xs rest) :
      CutsOff (x.text.toList ++ cs) (x :: xs) rest

variable {p : Position} {before x : Lexeme} {cs rest : List Char}

theorem Position.after_append (p : Position) (cs ds : List Char) :
    p.after (cs ++ ds) = (p.after cs).after ds :=
  foldl_append

/-- Where a scan finds an illegal text, it has cut off all that stands before. -/
theorem exists_cutsOff_of_illegalText {q : Option Position} {text : String}
    (h : scanFrom p before cs = .error ⟨q, .illegalText text⟩) :
    ∃ xs c ds, CutsOff cs xs (c :: ds) ∧ extent? c ds = none ∧
      q = some (p.after (chars xs)) ∧ text = String.ofList (c :: gap ds) := by
  fun_induction scanFrom p before cs with
  | case1 => cases h
  | case2 p before c cs hnone =>
    cases h
    exact ⟨[], c, cs, .nil _, hnone, rfl, rfl⟩
  | case3 => cases h
  | case4 => cases h
  | case5 p before c cs kind n hextent chars x hstar fault hrest ih =>
    obtain rfl := Except.error.inj h
    obtain ⟨xs, d, ds, hcuts, hnone, rfl, htext⟩ := ih hrest
    have hle := (extent?_eq_some_iff.mp hextent).le
    have hx : x.text.toList = c :: cs.take n := String.toList_ofList
    have hfits : x.Fits (cs.drop n) := by
      refine ⟨c, cs.take n, hx, ?_⟩
      rw [take_append_drop, hextent, length_take, Nat.min_eq_left hle]
    refine ⟨x :: xs, d, ds, ?_, hnone, ?_, htext⟩
    · have hcons := CutsOff.cons hfits hcuts
      rwa [hx, cons_append, take_append_drop] at hcons
    · rw [chars_cons, hx, Position.after_append]

theorem Lexed.inClass {xs : List Lexeme} (h : Lexed before xs) :
    ∀ x ∈ xs, InClass x.kind x.text.toList := by
  induction xs generalizing before with
  | nil => simp
  | cons x xs ih => exact forall_mem_cons.mpr ⟨h.1.inClass, ih h.2.2⟩

theorem position_of_placed {xs : List Lexeme} {pre post : List Token} {t : Token}
    (h : placed p xs = pre ++ t :: post) :
    t.position = p.after (chars (pre.map (·.toLexeme))) := by
  induction xs generalizing p pre with
  | nil => simp [placed] at h
  | cons x xs ih =>
    cases pre with
    | nil =>
      rw [← (cons.inj h).1]
      rfl
    | cons u pre =>
      obtain ⟨rfl, hpost⟩ := cons.inj h
      rw [ih hpost, map_cons, chars_cons, Position.after_append]

/-- The tokens of a text spell it, and each shows its class and has the place that the text before
it gives. The place of an illegal text is that of the first byte that no token covers. -/
theorem scan_tokens (source : String) :
    (∀ tokens, scan source = .ok tokens →
      spell (tokens.map (·.toLexeme)) = source ∧
      ∀ pre t post, tokens = pre ++ t :: post →
        t.text ≠ "" ∧
        t.position = placeAfter (chars (pre.map (·.toLexeme))) ∧
        InClass t.kind t.text.toList ∧
        ∀ isAlphabetic, IsAlphabet isAlphabetic →
          Kind.ofText isAlphabetic t.text.toList = t.kind) ∧
    ∀ place text, scan source = .error ⟨place, .illegalText text⟩ →
      ∃ xs rest, CutsOff source.toList xs rest ∧ rest ≠ [] ∧
        (∀ k chars, InClass k chars → ¬ chars <+: rest) ∧
        place = some (placeAfter (chars xs)) := by
  constructor
  · intro tokens hscan
    obtain ⟨xs, hchars, hlexed, rfl⟩ := exists_lexed_of_scan hscan
    constructor
    · rw [placed_map]
      apply String.toList_injective
      rw [toList_spell, hchars]
    · intro pre t post hsplit
      have hmem : t.toLexeme ∈ xs := by
        rw [← placed_map {} xs, hsplit]
        simp
      have hclass := hlexed.inClass _ hmem
      refine ⟨?_, ?_, hclass, fun _ halphabet => hclass.ofText halphabet⟩
      · intro hempty
        exact hlexed.text_ne_nil _ hmem (by rw [hempty]; rfl)
      · rw [position_of_placed hsplit, after_eq_placeAfter]
  · intro place text hscan
    obtain ⟨xs, c, ds, hcuts, hnone, hplace, -⟩ := exists_cutsOff_of_illegalText hscan
    refine ⟨xs, c :: ds, hcuts, cons_ne_nil c ds, ?_, ?_⟩
    · intro k chars hclass hpre
      have hsome := hclass.isSome_extent? hpre
      rw [hnone] at hsome
      cases hsome
    · rw [hplace, after_eq_placeAfter]

private theorem operators_slash : ∀ op ∈ operators, op.toList.head? = some '/' →
    op = "/" ∨ op = "/=" := by decide

private theorem operators_star : ∀ op ∈ operators, op.toList.head? = some '*' →
    op = "*" ∨ op = "*=" := by decide

/-- In an accepted text a slash comes right before a star only in `/=` before the star, or where the
text after the slash begins with `*=` and no comment ends in it. -/
theorem scan_slash_star {source : String} {tokens pre post : List Token} {t u : Token}
    (hscan : scan source = .ok tokens) (hsplit : tokens = pre ++ t :: u :: post)
    (hkind : t.kind = .punct) (hslash : t.text.toList.head? = some '/')
    (hstar : u.text.toList.head? = some '*') :
    t.text = "/=" ∨ t.text = "/" ∧ u.text = "*=" ∧
      ¬ ['*', '/'] <:+: '=' :: chars (post.map (·.toLexeme)) := by
  obtain ⟨xs, -, hlexed, rfl⟩ := exists_lexed_of_scan hscan
  have hxs := congrArg (map (·.toLexeme)) hsplit
  rw [placed_map, map_append, map_cons, map_cons] at hxs
  rw [hxs] at hlexed
  obtain ⟨before, ⟨hfits, -, hu, hapart, -⟩, -⟩ := hlexed.of_append
  have ht := operators_slash _ (hfits.mem_operators hkind) hslash
  have hpunct : u.kind = .punct := by
    rw [← hu.inClass.ofText isAlphabet_isLetter]
    obtain ⟨rest, hrest⟩ := head?_eq_some_iff.mp hstar
    rw [hrest]
    rfl
  have hu := operators_star _ (hu.mem_operators hpunct) hstar
  rcases ht with ht | ht
  · right
    have hnext : u.text = "*=" := by
      apply hu.resolve_left
      intro hu
      exact hapart ⟨hu, by simp [is, hkind, ht]⟩
    refine ⟨ht, hnext, ?_⟩
    rw [← unclosed_iff]
    obtain ⟨c, cs, htext, hextent⟩ := hfits
    rw [ht] at htext
    cases htext
    rw [extent?_eq_some_iff, hkind, nil_append, chars_cons, hnext] at hextent
    cases hextent with
    | operator _ hopen => exact (hopen rfl).2 _ rfl
  · exact .inl ht

private def openOperators : List Lexeme := [.punct "/", .punct "*="]

private theorem lexed_openOperators : Lexed sourceStart openOperators :=
  ⟨⟨'/', [], by decide, by decide⟩, by decide, ⟨'*', ['='], by decide, by decide⟩, by decide,
    trivial⟩

/-- A comment that is never closed is read as operators if it begins with an equals sign. -/
theorem scan_slash_star_open :
    ∃ tokens pre t u post, scan "/*=" = .ok tokens ∧ tokens = pre ++ t :: u :: post ∧
      t.kind = .punct ∧ t.text.toList.head? = some '/' ∧ u.text.toList.head? = some '*' :=
  ⟨_, [], _, _, [], scan_spell (by decide) lexed_openOperators, rfl, rfl, by decide, by decide⟩

theorem scan_slash_star_unclosed :
    ∃ t u : Token, scan "/*=" = .ok [t, u] ∧ (t.text = "/=" ∨ t.text = "/" ∧ u.text = "*=" ∧
      ¬ ['*', '/'] <:+: '=' :: chars []) :=
  have hscan : scan "/*=" = .ok (placed {} openOperators) :=
    scan_spell (by decide) lexed_openOperators
  have hsplit : placed {} openOperators = [] ++ _ :: _ :: [] := rfl
  ⟨_, _, hscan, scan_slash_star hscan hsplit rfl (by decide) (by decide)⟩

end Scans

end GoBindings.Go
