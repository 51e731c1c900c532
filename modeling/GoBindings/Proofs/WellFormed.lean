import GoBindings.Proofs.Declarations

/-!
# Well-formed sources

A source that is made of a package clause, imports and declarations with names is refused for one
reason only: it declares a name twice.
-/

namespace GoBindings.Go

open List Text Lexeme

variable {name : String} {xs : List Lexeme} {bss : List (List Binding)}

/-- Whether a statement begins with one of some words. -/
def beginsWith (words : List String) (s : Statement) : Bool :=
  s.head?.any fun t => words.any fun word => t.is word

/-- A source that scans, whose brackets nest, and whose statements are a package clause, imports
and other declarations. -/
structure WellFormed (source : String) (tokens : List Token) (clause : Statement)
    (imports decls : List Statement) : Prop where
  scan : scan source = .ok tokens
  nest : bracketFault? [] tokens = none
  statements : statements tokens = clause :: (imports ++ decls)
  clause : isPackageClause clause = true
  imports : ∀ s ∈ imports, beginsWith ["import"] s = true ∧ checkImports (specsOf s) = .ok ()
  decls : ∀ s ∈ decls, beginsWith ["func", "type", "var", "const"] s = true

section Forms

variable {s : Statement} {bs : List Binding}
variable {word : String}

private theorem exists_of_map_cons {x : Lexeme} (h : s.map (·.toLexeme) = x :: xs) :
    ∃ t s', s = t :: s' ∧ t.toLexeme = x ∧ s'.map (·.toLexeme) = xs := by
  cases s with
  | nil => simp at h
  | cons t s' =>
    obtain ⟨hx, hxs⟩ := cons.inj h
    exact ⟨t, s', rfl, hx, hxs⟩

private theorem valueBinds?_of_namesOne (h : NamesOne (s.map (·.toLexeme)) name)
    (hs : IsStatement s) : valueBinds? (codeFrom s) = some (Binding.ofName name) := by
  obtain ⟨rest, heq, hcomma⟩ := h
  obtain ⟨t, s, rfl, ht, rfl⟩ := exists_of_map_cons heq
  obtain ⟨htail, hcode⟩ := hs.tail (by rw [ht]; rfl)
  rw [hcode, ht]
  cases s with
  | nil => rfl
  | cons u s =>
    have hne : u.toLexeme ≠ .punct "," := by
      intro hu
      have hnot := hcomma u.toLexeme (by simp)
      rw [hu] at hnot
      cases hnot
    rw [htail.codeFrom_cons, valueBinds?, if_neg hne]
    rfl

private theorem specsOf_group {inside : List Lexeme} {specs : List (List Lexeme)} {k : Lexeme}
    (h : s.map (·.toLexeme) = k :: .punct "(" :: (inside ++ [punct ")"]))
    (hspecs : Holds inside specs) : (specsOf s).map (map (·.toLexeme)) = specs := by
  obtain ⟨keyword, s, rfl, -, h⟩ := exists_of_map_cons h
  obtain ⟨opener, s, rfl, hopener, h⟩ := exists_of_map_cons h
  obtain ⟨inner, last, rfl, hinner, hlast⟩ := map_eq_append_iff.mp h
  obtain ⟨closer, rest, rfl, hcloser, hrest⟩ := exists_of_map_cons hlast
  obtain rfl : rest = [] := by simpa using hrest
  have hopen : opener.is "(" = true := by rw [hopener]; decide
  have hclose : closer.is ")" = true := by rw [hcloser]; decide
  have hgroup : groupOf? (keyword :: opener :: (inner ++ [closer])) = some inner := by
    have hgetLast : (keyword :: opener :: (inner ++ [closer])).getLast? = some closer := by
      rw [← cons_append, ← cons_append, getLast?_concat]
    simp only [groupOf?, hopen, hgetLast, Option.any_some, hclose, Bool.and_self, if_true,
      dropLast_concat]
  rw [specsOf, hgroup]
  exact Holds.map_statements _ (hinner ▸ hspecs)

private theorem allBind?_of_forall₂ {f : List Lexeme → Option (List Binding)}
    {ss : List (List Lexeme)} (h : Forall₂ (fun s bs => f s = some bs) ss bss) :
    allBind? f ss = some bss.flatten := by
  induction h with
  | nil => rfl
  | cons hs _ ih => simp [allBind?, hs, ih]

private theorem codeFrom_of_keyword {rest : List Lexeme}
    (h : s.map (·.toLexeme) = .ident word :: rest) (hs : IsStatement s) :
    ∃ s', IsStatement s' ∧ s'.map (·.toLexeme) = rest ∧ codeFrom s = .ident word :: codeFrom s' ∧
      specsIn (codeFrom s') = (specsOf s).map codeFrom ∧ ∀ spec ∈ specsOf s, IsStatement spec := by
  obtain ⟨t, s', rfl, ht, hrest⟩ := exists_of_map_cons h
  have hopener : t.isOpener = false := by rw [ht]; rfl
  obtain ⟨htail, hcode⟩ := hs.tail hopener
  obtain ⟨hspecs, hall⟩ := map_codeFrom_specsOf hs hopener
  exact ⟨s', htail, hrest, ht ▸ hcode, hspecs.symm, hall⟩

private theorem specsIn_name (name : String) (xs : List Lexeme) :
    specsIn (.ident name :: xs) = [.ident name :: xs] := by
  have hne : ident name ≠ .punct "(" := by simp [ident, punct]
  rw [specsIn, if_neg fun h => hne h.1]

private theorem declBinds?_value (sort : ValueSort) (xs : List Lexeme) :
    declBinds? (.ident sort.keyword :: xs) = allBind? valueBinds? (specsIn xs) := by
  cases sort <;> rw [declBinds?, if_neg (by decide), if_neg (by decide), if_pos (by decide)]

theorem Declares.declBinds? (h : Declares (s.map (·.toLexeme)) bs) (hs : IsStatement s) :
    declBinds? (codeFrom s) = some bs := by
  generalize hxs : s.map (·.toLexeme) = xs at h
  cases h with
  | @func name rest hname =>
    obtain ⟨s', hs', hrest, hcode, -⟩ := codeFrom_of_keyword hxs hs
    obtain ⟨t, s', rfl, ht, -⟩ := exists_of_map_cons hrest
    have hne : ident name ≠ .punct "(" := by simp [ident, punct]
    have hinit : ident name = .ident "init" ↔ name = "init" := by simp [ident]
    rw [hcode, hs'.codeFrom_cons, ht, Go.declBinds?, if_pos rfl, funcBinds?, if_neg hne]
    simp only [hinit]
    split <;> rfl
  | @method inside name rest hinside =>
    obtain ⟨s', hs', hrest, hcode, -⟩ := codeFrom_of_keyword hxs hs
    have hne : ∀ x ∈ inside, x ≠ .punct ")" := by
      rintro x hx rfl
      cases hinside _ hx
    rw [hcode, codeFrom, hrest, terminated_word rfl rfl, Go.declBinds?, funcBinds?_append hne]
    rfl
  | @type name rest hname =>
    obtain ⟨s', hs', hrest, hcode, -⟩ := codeFrom_of_keyword hxs hs
    obtain ⟨t, s', rfl, ht, -⟩ := exists_of_map_cons hrest
    rw [hcode, hs'.codeFrom_cons, ht, Go.declBinds?, specsIn_name]
    simp [allBind?, typeBinds?, ident]
  | @value name sort rest hname hcomma =>
    obtain ⟨s', hs', hrest, hcode, -⟩ := codeFrom_of_keyword hxs hs
    have hbinds := valueBinds?_of_namesOne ⟨rest, hrest, hcomma⟩ hs'
    obtain ⟨t, s', rfl, ht, -⟩ := exists_of_map_cons hrest
    rw [hs'.codeFrom_cons, ht] at hbinds
    rw [hcode, hs'.codeFrom_cons, ht, declBinds?_value, specsIn_name]
    simp [allBind?, hbinds]
  | @group inside specs names sort hspecs hnames =>
    obtain ⟨s', -, -, hcode, hall, hspec⟩ := codeFrom_of_keyword hxs hs
    rw [hcode, declBinds?_value, hall]
    apply allBind?_of_forall₂
    rw [← specsOf_group hxs hspecs, forall₂_map_left_iff] at hnames
    rw [forall₂_map_left_iff, forall₂_map_right_iff]
    refine (forall₂_with_mem hnames).imp fun spec name h => ?_
    exact valueBinds?_of_namesOne h.1 (hspec spec h.2.1)

theorem ImportsGroup.isImport (h : ImportsGroup (s.map (·.toLexeme))) (hs : IsStatement s) :
    isImport (codeFrom s) = true := by
  obtain ⟨inside, specs, hxs, hspecs, hforms⟩ := h
  obtain ⟨s', hs', -, hcode, hall, -⟩ := codeFrom_of_keyword hxs hs
  rw [hcode, Go.isImport, hall, all_map]
  simp only [decide_true, Bool.true_and, all_eq_true]
  intro spec hspec
  obtain ⟨name, path, heq⟩ := hforms (spec.map (·.toLexeme)) (by
    rw [← specsOf_group hxs hspecs]
    exact mem_map_of_mem hspec)
  have hspecCode : codeFrom spec = [.ident name, .literal (quote path)] := by
    rw [codeFrom, heq, terminated_word rfl rfl, terminated_word rfl rfl, terminated]
  rw [Function.comp_apply, hspecCode]
  simp [isImportSpec, isPath, ident, literal, quote, quoteChars]

private theorem beginsWith_of_mem {t : Token} {words : List String} (h : t.toLexeme = .ident word)
    (hword : word ∈ words) : beginsWith words (t :: s) = true := by
  have his : t.is word = true := by simp [h, is, ident]
  simp only [beginsWith, head?_cons, Option.any_some, any_eq_true]
  exact ⟨word, hword, his⟩

theorem beginsWith_of_isImport (h : isImport (codeFrom s) = true) (hs : IsStatement s) :
    beginsWith ["import"] s = true ∧ checkImports (specsOf s) = .ok () := by
  cases s with
  | nil => cases h
  | cons t s =>
    have ht : t.toLexeme = .ident "import" := by
      rw [hs.codeFrom_cons, isImport, Bool.and_eq_true] at h
      exact of_decide_eq_true h.1
    have hopener : t.isOpener = false := by rw [ht]; rfl
    refine ⟨beginsWith_of_mem ht (by decide), (checkImports_specsOf hs hopener).mpr ?_⟩
    rw [(hs.tail hopener).2, isImport, Bool.and_eq_true] at h
    exact h.2

theorem beginsWith_of_declBinds? (h : declBinds? (codeFrom s) = some bs) (hs : IsStatement s) :
    beginsWith ["func", "type", "var", "const"] s = true := by
  cases s with
  | nil => cases h
  | cons t s =>
    rw [hs.codeFrom_cons, declBinds?] at h
    split at h
    · exact beginsWith_of_mem ‹_› (by decide)
    · split at h
      · exact beginsWith_of_mem ‹_› (by decide)
      · split at h
        · rename_i hvalue
          rcases hvalue with ht | ht <;> exact beginsWith_of_mem ht (by decide)
        · cases h

end Forms

section Sources

private theorem stands_tabs {n : Nat} (h : n ≠ 0) :
    (⟨.space, repeated n '\t'⟩ : Lexeme).Stands := by
  obtain ⟨n, rfl⟩ := Nat.exists_eq_succ_of_ne_zero h
  refine Fits.stands ⟨'\t', replicate n '\t', ?_, ?_⟩ (by simp)
  · simp [repeated, replicate_succ]
  · have hrun : runLength isBlank (replicate n '\t' ++ []) = (replicate n '\t').length :=
      runLength_append_eq.mpr ⟨fun c hc => by rw [eq_of_mem_replicate hc]; decide, by simp⟩
    rw [extent?_eq_some_iff, ← hrun]
    exact .space _ (by decide)

private theorem Line.Proper.row_full {l : Line} (h : l.Proper) : Row l.full := by
  have hend : Row (l.lexemes ++ [lineFeed]) :=
    h.row.append (.single stands_lineFeed) (by simpa using fun x _ => meets_lineFeed x)
  unfold Line.full indent
  split
  · exact hend
  · rename_i hne
    split
    · exact hend
    · rename_i hd
      have hmeets : ∀ x ∈ (l.lexemes ++ [lineFeed]).head?,
          meets ⟨.space, repeated l.depth '\t'⟩ x = true := by
        rw [head?_append_of_ne_nil _ hne]
        intro x hx
        have hsolid := h.solid x hx
        cases hk : x.kind <;> simp_all [meets]
      exact .cons (stands_tabs hd) hend hmeets

theorem row_flatMap_full {lines : List Line} (h : ∀ l ∈ lines, l.Proper) :
    Row (lines.flatMap Line.full) := by
  induction lines with
  | nil => exact .nil
  | cons l lines ih =>
    refine (h l (by simp)).row_full.append (ih fun l' hl => h l' (by simp [hl])) ?_
    have hlast : l.full.getLast? = some lineFeed := getLast?_concat
    rw [hlast]
    simpa using fun x _ => lineFeed_meets x

variable {lines : List Line} {clause : List Lexeme} {imports decls : List (List Lexeme)}
  {source : String}

/-- Lines that hold a package clause, imports and declarations are a well-formed source, which is
formatted exactly if it binds nothing twice. -/
theorem Spells.wellFormed (h : Spells lines ([.ident "package", .ident name] :: (imports ++ decls)))
    (himports : ∀ s ∈ imports, ImportsGroup s) (hdecls : Forall₂ Declares decls bss)
    (hsource : source.toList = chars (lines.flatMap Line.full)) :
    (∃ tokens clause imports decls, WellFormed source tokens clause imports decls) ∧
      (∀ bad, format source = .error bad → bad.fault.IsRedeclaration) ∧
      ((∃ text, format source = .ok text) ↔ bss.flatten.Nodup) := by
  have hrow := row_flatMap_full h.proper
  have hlexed : Lexed sourceStart (lines.flatMap Line.full) :=
    lexed_of_isChain hrow.stands hrow.chain rfl
  have hscan := scan_spell hsource hlexed
  generalize htokens : placed {} (lines.flatMap Line.full) = tokens at hscan
  have hmap : tokens.map (·.toLexeme) = lines.flatMap Line.full := by rw [← htokens, placed_map]
  have hnest : bracketFault? [] tokens = none := by
    have hbalanced := h.holds.balanced.nests_append [] []
    rw [append_nil, ← hmap] at hbalanced
    rw [bracketFault?_eq_none, map_nil, hbalanced]
    rfl
  have hstatements := Holds.map_statements tokens (hmap ▸ h.holds)
  have hgenuine : ∀ t ∈ tokens, t.Genuine := htokens ▸ genuine_placed hlexed
  have hss : ∀ s ∈ statements tokens, IsStatement s ∧ s ≠ [] := fun s =>
    isStatement_of_mem hgenuine
  obtain ⟨c, rest, hc, hclause, hrest⟩ := map_eq_cons_iff.mp hstatements
  obtain ⟨is, ds, rfl, his, hds⟩ := map_eq_append_iff.mp hrest
  rw [hc] at hss
  have hclause : isClause (codeFrom c) = true := by
    rw [codeFrom, hclause]
    rfl
  have his : ∀ s ∈ is, isImport (codeFrom s) = true := fun s hs =>
    (himports _ (his ▸ mem_map_of_mem hs)).isImport (hss s (by simp [hs])).1
  have hds : Forall₂ (fun s bs => declBinds? (codeFrom s) = some bs) ds bss := by
    rw [← hds, forall₂_map_left_iff] at hdecls
    refine (forall₂_with_mem hdecls).imp fun s bs h => ?_
    exact h.1.declBinds? (hss s (by simp [h.2.1])).1
  have hcheck : checkTokens tokens = checkStatements (c :: (is ++ ds)) := by
    rw [checkTokens_eq, hnest, hc]
  obtain ⟨hrefused, haccepted⟩ := checkStatements_of_code hss (by rw [map_cons, map_append])
    hclause (by simpa using his)
    (allBind?_of_forall₂ (forall₂_map_left_iff.mpr hds))
  rw [← hcheck] at hrefused haccepted
  refine ⟨⟨tokens, c, is, ds, hscan, hnest, hc, ?_, fun s hs => ?_, fun s hs => ?_⟩, ?_, ?_⟩
  · rwa [isPackageClause_eq (hss c (by simp)).1]
  · exact beginsWith_of_isImport (his s hs) (hss s (by simp [hs])).1
  · obtain ⟨bs, -, hbs⟩ := exists_of_mem_forall₂ hds hs
    exact beginsWith_of_declBinds? hbs (hss s (by simp [hs])).1
  · intro bad hbad
    cases hchecked : checkedTokens source with
    | ok ts =>
      obtain ⟨formatted, hformat⟩ : ∃ formatted, format source = .ok formatted :=
        ⟨_, format_eq_ok.mpr ⟨ts, hchecked, rfl⟩⟩
      rw [hformat] at hbad
      cases hbad
    | error fault =>
      rw [format, hchecked] at hbad
      rw [← Except.error.inj hbad]
      refine hrefused fault ?_
      rw [checkedTokens, hscan] at hchecked
      cases htokens : checkTokens tokens with
      | error e => simpa [htokens] using hchecked
      | ok u => simp [htokens] at hchecked
  · rw [← haccepted]
    constructor
    · rintro ⟨text, htext⟩
      obtain ⟨tokens', hchecked, -⟩ := format_eq_ok.mp htext
      obtain ⟨hscan', hok⟩ := checkedTokens_eq_ok.mp hchecked
      cases hscan.symm.trans hscan'
      exact hok
    · intro hok
      exact ⟨_, format_eq_ok.mpr ⟨tokens, checkedTokens_eq_ok.mpr ⟨hscan, hok⟩, rfl⟩⟩

private theorem not_isRedeclaration_of_bracketFault? {opened tokens : List Token} {fault : Fault}
    (h : bracketFault? opened tokens = some fault) : ¬ fault.IsRedeclaration := by
  rintro ⟨p, ⟨name, rfl⟩ | ⟨receiver, name, rfl⟩⟩
  all_goals
    fun_induction bracketFault? opened tokens with
    | case1 | case2 | case4 | case6 => simp_all
    | case3 _ _ _ _ ih | case5 _ _ _ _ _ _ _ ih | case7 _ _ _ _ _ ih => exact ih h

theorem format_of_not_nests (hsource : source.toList = chars xs) (hrow : Row xs)
    (hnests : nests [] xs = false) :
    ∃ bad, format source = .error bad ∧ ¬ bad.fault.IsRedeclaration := by
  have hscan := scan_spell hsource (lexed_of_isChain hrow.stands hrow.chain rfl)
  cases hfault : bracketFault? [] (placed {} xs) with
  | none =>
    rw [bracketFault?_eq_none] at hfault
    exact absurd hfault (by simp [hnests])
  | some fault =>
    refine ⟨⟨fault, source⟩, ?_, not_isRedeclaration_of_bracketFault? hfault⟩
    have hcheck : checkedTokens source = .error fault := by
      rw [checkedTokens, hscan]
      simp [checkTokens, hfault]
    rw [format, hcheck]

end Sources

end GoBindings.Go
