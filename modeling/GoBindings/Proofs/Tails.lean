import GoBindings.Proofs.Confinement

/-!
# The last lines of a source

Where the last lines of a source close no comment and no raw literal, they are read and laid out by
themselves: a lexeme that begins before them ends before them.
-/

namespace GoBindings.Go

open List Lexeme

section Reading

variable {u v : List Char}
variable {text : List Char}

private theorem LiteralTail.getLast?_eq {quote : Char} (h : LiteralTail quote text)
    (hquote : quote ≠ '\n') (htext : text = u ++ '\n' :: v) : u.getLast? = some '\\' := by
  induction h generalizing u with
  | close => cases u <;> simp_all
  | escaped c _ ih =>
    match u, htext with
    | ['\\'], _ => rfl
    | _ :: _ :: u, htext =>
      simp only [cons_append, cons.injEq] at htext
      rw [getLast?_cons, getLast?_cons, ih htext.2.2]
      rfl
  | plain _ hline _ _ ih =>
    cases u with
    | nil => exact absurd (cons.inj htext).1 hline
    | cons d u =>
      rw [getLast?_cons, ih (cons.inj htext).2]
      rfl

private theorem NumberTail.oneLine (h : NumberTail text) : '\n' ∉ text := by
  have hne {p : Char → Bool} {c : Char} (hp : p '\n' = false) (hc : p c = true) : '\n' ≠ c := by
    rintro rfl
    simp [hp] at hc
  induction h with
  | nil => exact not_mem_nil
  | exponent hc hd _ ih => simp [hne rfl hc, hne rfl hd, ih]
  | rest hc _ ih => simp [hne rfl hc, ih]

private theorem suffix_of_suffix_append {s : List Char} {d : Char} (h : s <:+ u ++ d :: v)
    (hd : d ∉ s) : s <:+ v := by
  obtain ⟨w, hw⟩ := h
  rcases append_eq_append_iff.mp hw with ⟨a, -, ha⟩ | ⟨a, -, ha⟩
  · exact absurd (by simp [ha]) hd
  · cases a with
    | nil =>
      rw [nil_append] at ha
      exact absurd (ha ▸ mem_cons_self) hd
    | cons e a => exact ⟨a, (cons.inj ha).2.symm⟩

private theorem operators_oneLine : ∀ op ∈ operators, '\n' ∉ op.toList := by decide

/-- A lexeme that holds a line feed is one, or it goes on after the line feed to where a literal or
a comment ends. -/
theorem Lexeme.Fits.lineFeed_cases {x : Lexeme} {rest : List Char} (h : x.Fits rest)
    (htext : x.text.toList = u ++ '\n' :: v) : (x = lineFeed ∧ u = [] ∧ v = []) ∨
      u.getLast? = some '\\' ∨ rawQuote ∈ v ∨ '*' ∈ v := by
  have hclass := h.inClass
  generalize hk : x.kind = k at hclass
  generalize hx : x.text.toList = text at hclass htext
  have hmem : '\n' ∈ text := by simp [htext]
  cases hclass with
  | lineComment hline => exact absurd hmem (by simpa using hline)
  | @blockComment cs _ =>
    have hend : ['*', '/'] <:+ u ++ '\n' :: v := htext ▸ ⟨'/' :: '*' :: cs, rfl⟩
    exact .inr (.inr (.inr ((suffix_of_suffix_append hend (by decide)).subset (by simp))))
  | @literal quote _ hquote htail =>
    have hne : quote ≠ '\n' := by rcases hquote with rfl | rfl <;> decide
    cases u with
    | nil => exact absurd (cons.inj htext).1 hne
    | cons d u =>
      rw [getLast?_cons, htail.getLast?_eq hne (cons.inj htext).2]
      exact .inr (.inl rfl)
  | @raw cs _ =>
    have hend : [rawQuote] <:+ u ++ '\n' :: v := htext ▸ ⟨rawQuote :: cs, rfl⟩
    exact .inr (.inr (.inl ((suffix_of_suffix_append hend (by decide)).subset (by simp))))
  | newline =>
    have hu : u = [] ∧ v = [] := by
      cases u with
      | nil => simpa using htext
      | cons => simp at htext
    refine .inl ⟨?_, hu⟩
    have htext : x.text = "\n" := String.toList_injective hx
    rw [lineFeed, ← hk, ← htext]
  | space hblank => cases hblank _ hmem
  | ident hc hrest =>
    rcases mem_cons.mp hmem with rfl | hmem
    · exact absurd rfl (isIdentStart_plain hc).2.2.2.2.1
    · exact absurd (hrest _ hmem) (by decide)
  | number hc htail =>
    rcases mem_cons.mp hmem with rfl | hmem
    · cases hc
    · exact absurd hmem htail.oneLine
  | fraction hc htail =>
    rcases mem_cons.mp hmem with heq | hmem
    · cases heq
    · rcases mem_cons.mp hmem with rfl | hmem
      · cases hc
      · exact absurd hmem htail.oneLine
  | operator hop => exact absurd hmem (operators_oneLine _ hop)

/-- A source is read line by line where what follows closes nothing. -/
theorem Lexed.exists_lineFeed {before : Lexeme} {xs : List Lexeme} (h : Lexed before xs)
    (hchars : chars xs = u ++ '\n' :: v) (hlast : u.getLast? ≠ some '\\')
    (hraw : rawQuote ∉ v) (hstar : '*' ∉ v) :
    ∃ ys zs, xs = ys ++ lineFeed :: zs ∧ Lexed lineFeed zs ∧ chars zs = v := by
  induction xs generalizing before u with
  | nil => simp at hchars
  | cons x xs ih =>
    obtain ⟨hx, -, hxs⟩ := h
    rcases append_eq_append_iff.mp hchars with ⟨a, rfl, ha⟩ | ⟨a, htext, ha⟩
    · have hrest : a.getLast? ≠ some '\\' := by
        intro heq
        apply hlast
        rw [getLast?_append, heq]
        rfl
      obtain ⟨ys, zs, rfl, hzs⟩ := ih hxs ha hrest
      exact ⟨x :: ys, zs, rfl, hzs⟩
    · cases a with
      | nil =>
        obtain ⟨ys, zs, rfl, hzs⟩ := ih (u := []) hxs ha.symm (by simp)
        exact ⟨x :: ys, zs, rfl, hzs⟩
      | cons d a =>
        cases ha
        rcases hx.lineFeed_cases htext with ⟨rfl, rfl, rfl⟩ | hlast' | hraw' | hstar'
        · exact ⟨[], xs, rfl, hxs, rfl⟩
        · exact absurd hlast' hlast
        · exact absurd (mem_append_left _ hraw') hraw
        · exact absurd (mem_append_left _ hstar') hstar

end Reading

section Layout

variable {lines : List Line}

theorem chars_joinLines (lines : List (List Lexeme)) :
    chars (joinLines lines) = (lines.map chars).flatMap (· ++ ['\n']) := by
  induction lines with
  | nil => rfl
  | cons line lines ih =>
    rw [joinLines, flatMap_cons, chars_append, ← joinLines, ih]
    simp [lineFeed]

private theorem lexemeLines_ne_nil (ys zs : List Lexeme) :
    lexemeLines (ys ++ lineFeed :: zs) ≠ [] := by
  cases ys with
  | nil => exact cons_ne_nil _ _
  | cons y ys =>
    rw [cons_append, lexemeLines]
    split
    · exact cons_ne_nil _ _
    · split <;> exact cons_ne_nil _ _

theorem lexemeLines_append (ys zs : List Lexeme) :
    lexemeLines (ys ++ lineFeed :: zs) = lexemeLines (ys ++ [lineFeed]) ++ lexemeLines zs := by
  induction ys with
  | nil => rfl
  | cons y ys ih =>
    rw [cons_append, cons_append, lexemeLines, lexemeLines, ih]
    split
    · rfl
    · cases hlines : lexemeLines (ys ++ [lineFeed]) with
      | nil => exact absurd hlines (lexemeLines_ne_nil ys [])
      | cons => rfl

theorem relaidLines_append (d : Nat) (lines lines' : List (List Lexeme)) :
    relaidLines d (lines ++ lines') = relaidLines d lines ++
      relaidLines (depthAfterAll d (lines.flatten.map bare)) lines' := by
  induction lines generalizing d with
  | nil => rfl
  | cons line lines ih =>
    rw [cons_append, relaidLines, relaidLines, ih]
    simp [depthAfterAll]

theorem squeezeLines_of_ne (afterBlank : Bool) {lines : List (List Lexeme)}
    (h : ∀ line ∈ lines, line ≠ []) : squeezeLines afterBlank lines = lines := by
  induction lines generalizing afterBlank with
  | nil => rfl
  | cons line lines ih =>
    obtain ⟨hl, hls⟩ := forall_mem_cons.mp h
    rw [squeezeLines, if_neg hl, ih false hls]

theorem exists_squeezeLines (afterBlank : Bool) (lines : List (List Lexeme))
    {last : List (List Lexeme)} (h : ∀ line ∈ last, line ≠ []) :
    ∃ front, squeezeLines afterBlank (lines ++ last) = front ++ last := by
  induction lines generalizing afterBlank with
  | nil => exact ⟨[], squeezeLines_of_ne afterBlank h⟩
  | cons line lines ih =>
    rw [cons_append, squeezeLines]
    split
    · split
      · exact ih afterBlank
      · obtain ⟨front, hfront⟩ := ih true
        exact ⟨[] :: front, by rw [hfront, cons_append]⟩
    · obtain ⟨front, hfront⟩ := ih false
      exact ⟨line :: front, by rw [hfront, cons_append]⟩

private theorem depthAfterAll_lexemeLines (d : Nat) (xs : List Lexeme) :
    depthAfterAll d ((lexemeLines xs).flatten.map bare) = depthAfterAll d (xs.map bare) := by
  induction xs generalizing d with
  | nil => rfl
  | cons x xs ih =>
    rw [lexemeLines]
    split
    · rename_i hx
      have hd : depthAfter d (bare x) = d := by
        simp [depthAfter, bare, isOpener, isCloser, hx]
      rw [flatten_cons, nil_append, ih]
      exact congrArg (depthAfterAll · (xs.map bare)) hd.symm
    · refine Eq.trans ?_ (ih (depthAfter d (bare x)))
      cases lexemeLines xs <;> rfl

private theorem Balanced.nests_append_right {zs : List Lexeme} (h : Balanced zs)
    (opened : List String) (ys : List Lexeme) : nests opened (ys ++ zs) = nests opened ys := by
  induction ys generalizing opened with
  | nil => simpa using h.nests_append opened []
  | cons y ys ih => exact nests_cons_congr y ih opened

private theorem nests_of_checkTokens {tokens : List Token} (h : checkTokens tokens = .ok ()) :
    nests [] (tokens.map (·.toLexeme)) = true := by
  rw [checkTokens] at h
  split at h
  · cases h
  · exact (bracketFault?_eq_none [] tokens).mp (by assumption)

/-- The lexemes of a line, with its depth. -/
def Line.indented (l : Line) : List Lexeme := indent l.depth ++ l.lexemes

private theorem flatMap_full (h : ∀ l ∈ lines, l.lexemes ≠ []) :
    lines.flatMap Line.full = joinLines (lines.map Line.indented) := by
  rw [joinLines, flatMap_map]
  refine flatMap_congr fun l hl => ?_
  rw [Line.full, if_neg (h l hl), Line.indented]

theorem Line.Proper.relaidLine_indented {l : Line} (h : l.Proper) (hne : l.lexemes ≠ []) (d : Nat) :
    relaidLine d l.indented =
      indent (indentation d ((l.lexemes.filter (·.kind ≠ .space)).map bare)) ++
        spacedLexemes false l.lexemes := by
  obtain ⟨x, xs, hxs⟩ := exists_cons_of_ne_nil hne
  have hx : x.kind ≠ .space := h.solid x (by simp [hxs])
  have hwords : l.indented.filter (·.kind ≠ .space) = l.lexemes.filter (·.kind ≠ .space) := by
    rw [Line.indented, indent]
    split <;> rfl
  rw [relaidLine, hwords, Line.indented, hxs, dropWhile_indent _ hx,
    filter_cons_of_pos (by simpa using hx)]
  rfl

private theorem relaidLines_ne_nil (h : ∀ l ∈ lines, l.Proper) (hne : ∀ l ∈ lines, l.lexemes ≠ [])
    (d : Nat) : ∀ line ∈ relaidLines d (lines.map Line.indented), line ≠ [] := by
  induction lines generalizing d with
  | nil => simp [relaidLines]
  | cons l lines ih =>
    rw [forall_mem_cons] at h hne
    rw [map_cons, relaidLines, forall_mem_cons]
    refine ⟨?_, ih h.2 hne.2 _⟩
    obtain ⟨x, xs, hxs⟩ := exists_cons_of_ne_nil hne.1
    have hx : x.kind ≠ .space := h.1.solid x (by simp [hxs])
    rw [h.1.relaidLine_indented hne.1, hxs, spacedLexemes, if_neg hx]
    simp

/-- The last lines of a source are laid out by themselves. -/
theorem exists_format_lines {source content : String} (h : format source = .ok content)
    {u : List Char} (hsource : source.toList = u ++ '\n' :: chars (lines.flatMap Line.full))
    (hlast : u.getLast? ≠ some '\\') (hproper : ∀ l ∈ lines, l.Proper)
    (hne : ∀ l ∈ lines, l.lexemes ≠ []) (hfeeds : ∀ l ∈ lines, ∀ x ∈ l.lexemes, x.kind ≠ .newline)
    (hbalanced : Balanced (lines.flatMap Line.full))
    (hchars : ∀ c ∈ chars (lines.flatMap Line.full), c ≠ rawQuote ∧ c ≠ '*') :
    ∃ front, content.toList =
      chars (joinLines (front ++ relaidLines 0 (lines.map Line.indented))) := by
  obtain ⟨tokens, htokens, rfl⟩ := format_eq_ok.mp h
  obtain ⟨hscan, hcheck⟩ := checkedTokens_eq_ok.mp htokens
  obtain ⟨xs, hxs, hlexed, rfl⟩ := exists_lexed_of_scan hscan
  obtain ⟨ys, zs, rfl, hlexedzs, hzs⟩ := hlexed.exists_lineFeed (hxs.symm.trans hsource) hlast
    (fun hmem => (hchars _ hmem).1 rfl) (fun hmem => (hchars _ hmem).2 rfl)
  -- what scans as the last lines is what they were printed from
  obtain rfl : zs = lines.flatMap Line.full := by
    have hrow := row_flatMap_full hproper
    have hprinted : Lexed lineFeed (lines.flatMap Line.full) :=
      lexed_of_isChain hrow.stands hrow.chain rfl
    have hcut := cut_of_lexed hprinted
    rw [← hzs, cut_of_lexed hlexedzs] at hcut
    exact Option.some.inj hcut
  have hdepth : depthAfterAll 0 ((lexemeLines (ys ++ [lineFeed])).flatten.map bare) = 0 := by
    have hnests := nests_of_checkTokens hcheck
    rw [placed_map, append_cons, hbalanced.nests_append_right] at hnests
    rw [depthAfterAll_lexemeLines]
    have hbare : ((ys ++ [lineFeed]).map bare).map (·.toLexeme) = ys ++ [lineFeed] := by
      rw [map_map]
      exact map_id _
    rw [← hbare] at hnests
    exact depthAfterAll_of_nests hnests
  have hlines : lexemeLines (lines.flatMap Line.full) = lines.map Line.indented := by
    rw [flatMap_full hne, lexemeLines_joinLines]
    simp only [forall_mem_map, Line.indented, forall_mem_append]
    refine fun l hl => ⟨fun x hx => ?_, hfeeds l hl⟩
    rw [indent] at hx
    split at hx
    · cases hx
    · simp [mem_singleton.mp hx]
  obtain ⟨front, hfront⟩ := exists_squeezeLines true
    (relaidLines 0 (lexemeLines (ys ++ [lineFeed]))) (relaidLines_ne_nil hproper hne 0)
  refine ⟨front, ?_⟩
  rw [toList_layout_placed hlexed, relaid, lexemeLines_append, relaidLines_append, hdepth, hlines,
    hfront]

end Layout

end GoBindings.Go
