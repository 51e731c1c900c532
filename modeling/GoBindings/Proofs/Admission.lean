import GoBindings.Proofs.Outcomes
import GoBindings.Proofs.Semicolons

/-!
# Admitted sources

A source is accepted for its code alone: its brackets nest, the parts between its semicolons are a
package clause, imports and declarations whose names stand where they should, and no two of them
bind the same.
-/

namespace GoBindings.Go

open List Lexeme

variable {xs : List Lexeme}

section Brackets

/-- Whether the brackets nest, given the opening ones before, innermost first. -/
def nests : (opened : List String) → List Lexeme → Bool
  | opened, [] => opened.isEmpty
  | opened, x :: xs =>
    if x.isOpener then nests (x.text :: opened) xs
    else if x.isCloser then
      match opened with
      | [] => false
      | opener :: outer => closerOf opener = x.text && nests outer xs
    else nests opened xs

section Nests

variable {x : Lexeme} (xs : List Lexeme)

theorem Lexeme.isOpener_of_isCloser (h : x.isCloser = true) : x.isOpener = false := by
  simp only [isCloser, Bool.and_eq_true, Bool.or_eq_true, decide_eq_true_eq] at h
  rcases h.2 with (h | h) | h <;> simp [isOpener, h]

theorem nests_opener (opened : List String) (h : x.isOpener = true) :
    nests opened (x :: xs) = nests (x.text :: opened) xs := by
  rw [nests.eq_def]
  simp [h]

theorem nests_closer_nil (h : x.isCloser = true) : nests [] (x :: xs) = false := by
  rw [nests.eq_def]
  simp [h, isOpener_of_isCloser h]

theorem nests_closer_cons (opener : String) (outer : List String) (h : x.isCloser = true) :
    nests (opener :: outer) (x :: xs) = (decide (closerOf opener = x.text) && nests outer xs) := by
  rw [nests.eq_def]
  simp [h, isOpener_of_isCloser h]

theorem nests_plain (opened : List String) (ho : x.isOpener = false) (hc : x.isCloser = false) :
    nests opened (x :: xs) = nests opened xs := by
  rw [nests.eq_def]
  simp [ho, hc]

theorem nests_end (opened : List String)
    (h : x.isTrivia = true ∨ x.endsLine = true ∨ x.is ";" = true) :
    nests opened (x :: xs) = nests opened xs :=
  nests_plain xs opened (not_bracket h).1 (not_bracket h).2

end Nests

theorem bracketFault?_eq_none (opened tokens : List Token) :
    bracketFault? opened tokens = none ↔
      nests (opened.map (·.text)) (tokens.map (·.toLexeme)) = true := by
  fun_induction bracketFault? opened tokens with
  | case1 => simp [nests]
  | case2 => simp [nests]
  | case3 opened t ts ho ih => rw [map_cons, nests_opener _ _ ho]; exact ih
  | case4 t ts ho hc => simp [nests_closer_nil _ hc]
  | case5 t ts ho hc opener outer hm ih => simp [nests_closer_cons _ _ _ hc, hm, ih]
  | case6 t ts ho hc opener outer hm => simp [nests_closer_cons _ _ _ hc, hm]
  | case7 opened t ts ho hc ih =>
    rw [map_cons, nests_plain _ _ (by simpa using ho) (by simpa using hc)]
    exact ih

theorem nests_cons_congr (x : Lexeme) {ys : List Lexeme}
    (h : ∀ opened, nests opened xs = nests opened ys) (opened : List String) :
    nests opened (x :: xs) = nests opened (x :: ys) := by
  cases ho : x.isOpener with
  | true => rw [nests_opener _ _ ho, nests_opener _ _ ho, h]
  | false =>
    cases hc : x.isCloser with
    | true =>
      cases opened with
      | nil => rw [nests_closer_nil _ hc, nests_closer_nil _ hc]
      | cons opener outer => rw [nests_closer_cons _ _ _ hc, nests_closer_cons _ _ _ hc, h]
    | false => rw [nests_plain _ _ ho hc, nests_plain _ _ ho hc, h]

theorem exists_nests_tail {opened : List String} {x : Lexeme} (h : nests opened (x :: xs) = true) :
    ∃ opened', opened'.length =
      depthAfter opened.length (bare x) ∧ nests opened' xs = true ∧
      ∀ rest, nests opened' rest = nests opened (x :: rest) := by
  by_cases ho : x.isOpener = true
  · rw [nests_opener _ _ ho] at h
    exact ⟨x.text :: opened, by simp [depthAfter, bare, ho], h,
      fun rest => (nests_opener rest opened ho).symm⟩
  rw [Bool.not_eq_true] at ho
  by_cases hc : x.isCloser = true
  · cases opened with
    | nil =>
      rw [nests_closer_nil _ hc] at h
      cases h
    | cons opener outer =>
      rw [nests_closer_cons _ _ _ hc, Bool.and_eq_true] at h
      exact ⟨outer, by simp [depthAfter, bare, ho, hc], h.2,
        fun rest => by rw [nests_closer_cons _ _ _ hc, h.1, Bool.true_and]⟩
  · rw [Bool.not_eq_true] at hc
    rw [nests_plain _ _ ho hc] at h
    exact ⟨opened, by simp [depthAfter, bare, ho, hc], h,
      fun rest => (nests_plain rest opened ho hc).symm⟩

theorem nests_concat_semicolon (opened : List String) (xs : List Lexeme) :
    nests opened (xs ++ [semicolon]) = nests opened xs := by
  induction xs generalizing opened with
  | nil => exact nests_plain [] opened rfl rfl
  | cons x xs ih => exact nests_cons_congr x ih opened

theorem nests_terminated (last : Lexeme) (opened : List String) (xs : List Lexeme) :
    nests opened (terminated last xs) = nests opened xs := by
  induction xs generalizing last opened with
  | nil => rfl
  | cons x xs ih =>
    rw [terminated]
    split
    · rename_i hline
      rw [nests_end _ _ (.inr (.inl hline))]
      split
      · rw [nests_plain _ _ rfl rfl, ih]
      · exact ih last opened
    · split
      · rename_i htrivia
        rw [nests_end _ _ (.inl htrivia)]
        exact ih last opened
      · exact nests_cons_congr x (ih x) opened

end Brackets

section Names

/-- What a declaration binds at the top level: a name, or the name of a method of a type. -/
inductive Binding where
  | name (n : String)
  | method (type name : String)
  deriving DecidableEq

/-- The blank name binds nothing. -/
def Binding.ofName (n : String) : List Binding := if n = "_" then [] else [.name n]

/-- The last name in a receiver, which is its type. -/
def lastName (xs : List Lexeme) : String :=
  ((xs.reverse.find? (·.kind = .ident)).map (·.text)).getD ""

/-- What the name of a type spec binds, if it is a name. -/
def typeBinds? : List Lexeme → Option (List Binding)
  | [] => some []
  | x :: _ => if x.kind = .ident then some (Binding.ofName x.text) else none

/-- What the names of a variable or constant spec bind, which stand between commas. -/
def valueBinds? : List Lexeme → Option (List Binding)
  | x :: y :: rest =>
    if y = .punct "," then (typeBinds? [x]).bind fun bs => (valueBinds? rest).map (bs ++ ·)
    else typeBinds? [x]
  | xs => typeBinds? xs

/-- What a function binds, given what follows the keyword. The name of a method stands after the
first closing parenthesis. -/
def funcBinds? : List Lexeme → Option (List Binding)
  | [] => none
  | x :: xs =>
    if x = .punct "(" then
      match xs.dropWhile (· ≠ .punct ")") with
      | _ :: name :: _ =>
        if name.kind = .ident then
          some [.method (lastName (xs.takeWhile (· ≠ .punct ")"))) name.text]
        else none
      | _ => none
    else if x = .ident "init" then some []
    else typeBinds? [x]

/-- The specs after a keyword: the parts of a group in parentheses, or all of it. -/
def specsIn : List Lexeme → List (List Lexeme)
  | [] => [[]]
  | x :: xs =>
    if x = .punct "(" ∧ xs.getLast? = some (.punct ")") then segments xs.dropLast
    else [x :: xs]

/-- What several texts bind together, if each binds something. -/
def allBind? (f : List Lexeme → Option (List Binding)) : List (List Lexeme) → Option (List Binding)
  | [] => some []
  | s :: ss => (f s).bind fun bs => (allBind? f ss).map (bs ++ ·)

/-- What a declaration binds, if it is one and all its names are. -/
def declBinds? : List Lexeme → Option (List Binding)
  | [] => none
  | k :: xs =>
    if k = .ident "func" then funcBinds? xs
    else if k = .ident "type" then allBind? typeBinds? (specsIn xs)
    else if k = .ident "var" ∨ k = .ident "const" then allBind? valueBinds? (specsIn xs)
    else none

def Lexeme.isPath (x : Lexeme) : Bool := x.kind = .literal && x.text.toList.head? = some '"'

/-- A path in double quotes, with a name or a dot before it if need be. -/
def isImportSpec : List Lexeme → Bool
  | [path] => path.isPath
  | [name, path] => (name.kind = .ident || name = .punct ".") && path.isPath
  | _ => false

def isImport : List Lexeme → Bool
  | [] => false
  | k :: xs => k = .ident "import" && (specsIn xs).all isImportSpec

def isClause : List Lexeme → Bool
  | [keyword, name] => keyword = .ident "package" && name.kind = .ident
  | _ => false

/-- The parts of a source that is accepted. -/
def Admitted (ss : List (List Lexeme)) : Prop :=
  ∃ clause imports decls bs, ss = clause :: (imports ++ decls) ∧ isClause clause = true ∧
    (∀ s ∈ imports, isImport s = true) ∧ allBind? declBinds? decls = some bs ∧ bs.Nodup

end Names

section Outcomes

variable {f : Declared → Except Fault Declared} {x : Lexeme}
variable {specs : List Statement} {bs? : Option (List Binding)}
  {g : Declared → Except Fault Declared} {keyword : Token}

/-- A name or a method is declared for the second time. -/
def Fault.IsRedeclaration (f : Fault) : Prop :=
  ∃ p, (∃ name, f = ⟨some p, .redeclared name⟩) ∨
    ∃ receiver name, f = ⟨some p, .methodRedeclared receiver name⟩

def Declared.bindings (d : Declared) : List Binding :=
  d.values.map .name ++ d.methods.map fun m => .method m.1 m.2

/-- The outcome of a check that binds something: it fails for a redeclaration only, and succeeds
exactly if there is none. -/
structure Binds (outcome : Except Fault Declared) (d : Declared) (bs : List Binding) : Prop where
  orRedeclared : ∀ fault, outcome = .error fault → fault.IsRedeclaration
  accepts : bs.Nodup → (∀ x ∈ bs, x ∉ d.bindings) → ∃ d', outcome = .ok d' ∧
    d'.importsDone = d.importsDone ∧ ∀ x, x ∈ d'.bindings ↔ x ∈ bs ∨ x ∈ d.bindings
  accepted : ∀ d', outcome = .ok d' → bs.Nodup ∧ ∀ x ∈ bs, x ∉ d.bindings

/-- The outcome of a check once imports are over, given what it binds if it can. -/
def Yields (f : Declared → Except Fault Declared) : Option (List Binding) → Prop
  | some bs => ∀ d, d.importsDone = true → Binds (f d) d bs
  | none => ∀ d, d.importsDone = true → ∃ fault, f d = .error fault

variable {d : Declared} {t : Token} {s : Statement}

private theorem binds_ok (d : Declared) : Binds (.ok d) d [] :=
  ⟨fun _ h => (by cases h), fun _ _ => ⟨d, rfl, rfl, by simp⟩, fun _ _ => by simp⟩

private theorem Binds.append {outcome : Except Fault Declared} {bs bs' : List Binding}
    (h : Binds outcome d bs) (hf : ∀ d', d'.importsDone = d.importsDone → Binds (f d') d' bs') :
    Binds (outcome >>= f) d (bs ++ bs') := by
  cases outcome with
  | error fault =>
    refine ⟨fun _ hfault => h.orRedeclared _ (by simpa using hfault),
      fun hnodup hfresh => ?_, fun _ hok => by cases hok⟩
    rw [forall_mem_append] at hfresh
    obtain ⟨_, hok, -⟩ := h.accepts (nodup_append.mp hnodup).1 hfresh.1
    cases hok
  | ok d₁ =>
    obtain ⟨hnodup₁, hfresh₁⟩ := h.accepted d₁ rfl
    obtain ⟨_, hok, hdone, hmem⟩ := h.accepts hnodup₁ hfresh₁
    cases hok
    have hnext : Binds (f d₁) d₁ bs' := hf d₁ hdone
    refine ⟨hnext.orRedeclared, fun hnodup hfresh => ?_, fun d₂ hok => ?_⟩
    · obtain ⟨-, hbs, hapart⟩ := nodup_append.mp hnodup
      rw [forall_mem_append] at hfresh
      obtain ⟨d₂, hok₂, hdone₂, hmem₂⟩ := hnext.accepts hbs fun x hx hbound => by
        rcases (hmem x).mp hbound with hbound | hbound
        · exact hapart x hbound x hx rfl
        · exact hfresh.2 x hx hbound
      refine ⟨d₂, hok₂, hdone₂.trans hdone, fun x => ?_⟩
      rw [hmem₂, hmem, mem_append]
      tauto
    · obtain ⟨hbs, hlater⟩ := hnext.accepted d₂ hok
      refine ⟨nodup_append.mpr ⟨hnodup₁, hbs, fun x hx y hy heq => ?_⟩,
        forall_mem_append.mpr ⟨hfresh₁, fun x hx hbound => ?_⟩⟩
      · exact hlater y hy ((hmem y).mpr (.inl (heq ▸ hx)))
      · exact hlater x hx ((hmem x).mpr (.inr hbound))

private theorem Yields.append {bs'? : Option (List Binding)} (hf : Yields f bs?)
    (hg : Yields g bs'?) : Yields (fun d => f d >>= g) (bs?.bind fun bs => bs'?.map (bs ++ ·)) := by
  cases bs? with
  | none =>
    intro d hd
    obtain ⟨fault, hfault⟩ := hf d hd
    exact ⟨fault, by simp [hfault]⟩
  | some bs =>
    cases bs'? with
    | some bs' => exact fun d hd => (hf d hd).append fun d' hdone => hg d' (hdone.trans hd)
    | none =>
      intro d hd
      have hd' := hf d hd
      cases hok : f d with
      | error fault => exact ⟨fault, by simp [hok]⟩
      | ok d' =>
        obtain ⟨hnodup, hfresh⟩ := hd'.accepted d' hok
        obtain ⟨_, hok', hdone, -⟩ := hd'.accepts hnodup hfresh
        cases hok.symm.trans hok'
        obtain ⟨fault, hfault⟩ := hg d' (hdone.trans hd)
        exact ⟨fault, by simp [hok, hfault]⟩

theorem yields_foldlM {f : Declared → Statement → Except Fault Declared}
    {g : List Lexeme → Option (List Binding)} (h : ∀ s ∈ specs, Yields (f · s) (g (codeFrom s))) :
    Yields (fun d => specs.foldlM f d) (allBind? g (specs.map codeFrom)) := by
  induction specs with
  | nil => exact fun d _ => binds_ok d
  | cons s specs ih =>
    rw [forall_mem_cons] at h
    exact h.1.append (ih h.2)

private theorem yields_some {bs : List Binding} (h : ∀ d, Binds (f d) d bs) : Yields f (some bs) :=
  fun d _ => h d

private theorem yields_none (h : ∀ d, ∃ fault, f d = .error fault) : Yields f none :=
  fun d _ => h d

private theorem binds_one {b : Binding} {taken : Bool} {fault : Fault} {d' : Declared}
    (htaken : taken = true ↔ b ∈ d.bindings) (hfault : fault.IsRedeclaration)
    (hdone : d'.importsDone = d.importsDone)
    (hmem : ∀ x, x ∈ d'.bindings ↔ x = b ∨ x ∈ d.bindings) :
    Binds (if taken then .error fault else .ok d') d [b] := by
  cases taken with
  | true =>
    refine ⟨fun _ h => Except.error.inj h ▸ hfault, fun _ hfresh => ?_, fun _ h => by cases h⟩
    exact absurd (htaken.mp rfl) (hfresh b mem_cons_self)
  | false =>
    have hfree : b ∉ d.bindings := fun h => Bool.false_ne_true (htaken.mpr h)
    exact ⟨fun _ h => (by cases h), fun _ _ => ⟨d', rfl, hdone, by simpa using hmem⟩,
      fun _ _ => ⟨by simp, by simpa using hfree⟩⟩

private theorem yields_define : Yields (define · t) (typeBinds? [t.toLexeme]) := by
  rw [typeBinds?]
  by_cases hkind : t.kind = .ident
  · rw [if_pos hkind, Binding.ofName]
    apply yields_some
    intro d
    rw [define, if_neg (by simp [hkind])]
    by_cases hblank : t.text = "_"
    · rw [if_pos hblank, if_pos hblank]
      exact binds_ok d
    · rw [if_neg hblank, if_neg hblank]
      exact binds_one (by simp [Declared.bindings]) ⟨_, .inl ⟨_, rfl⟩⟩ rfl
        (by simp [Declared.bindings])
  · rw [if_neg hkind]
    apply yields_none
    intro d
    exact ⟨_, by rw [define, if_pos hkind]⟩

private theorem is_punct (h : t.Genuine) (text : String) (hmark : .punct text ∈ marks) :
    t.is text = decide (t.toLexeme = .punct text) :=
  h.is_eq hmark

private theorem is_ident (h : t.Genuine) (text : String) (hmark : .ident text ∈ marks) :
    t.is text = decide (t.toLexeme = .ident text) :=
  h.is_eq hmark

private theorem yields_defineType (hs : IsStatement s) :
    Yields (defineType · s) (typeBinds? (codeFrom s)) := by
  cases s with
  | nil => exact yields_some binds_ok
  | cons t s =>
    rw [hs.codeFrom_cons]
    exact yields_define

private theorem defineValues_cons (d : Declared) (t comma : Token) (rest : List Token) :
    defineValues d (t :: comma :: rest) =
      define d t >>= fun d => if comma.is "," then defineValues d rest else .ok d := by
  rw [defineValues]
  cases define d t <;> rfl

private theorem yields_defineValues : ∀ {s : Statement}, IsStatement s →
    Yields (defineValues · s) (valueBinds? (codeFrom s))
  | [], _ => yields_some binds_ok
  | [t], hs => by
    rw [hs.codeFrom_cons]
    exact yields_define
  | t :: comma :: rest, hs => by
    simp only [defineValues_cons]
    by_cases hkind : t.kind = .ident
    · obtain ⟨htail, hcode⟩ := hs.tail (by simp [isOpener, hkind])
      have hcomma := is_punct (htail.genuine comma (by simp)) "," (by decide)
      rw [hcode, htail.codeFrom_cons, valueBinds?]
      simp only [hcomma, decide_eq_true_eq]
      by_cases his : comma.toLexeme = .punct ","
      · obtain ⟨hrest, hcode'⟩ := htail.tail (by rw [his]; rfl)
        rw [htail.codeFrom_cons] at hcode'
        rw [(List.cons.inj hcode').2]
        simp only [if_pos his]
        exact yields_define.append (yields_defineValues hrest)
      · simp only [if_neg his]
        simpa using yields_define.append (yields_some binds_ok)
    · have hnone : valueBinds? (codeFrom (t :: comma :: rest)) = none := by
        rw [hs.codeFrom_cons]
        cases terminated t.toLexeme ((comma :: rest).map (·.toLexeme)) <;>
          simp [valueBinds?, typeBinds?, hkind]
      rw [hnone]
      apply yields_none
      intro d
      refine ⟨⟨some t.position, .notAName t.text⟩, ?_⟩
      rw [define, if_pos hkind]
      rfl

section Methods

private theorem mem_terminated {last : Lexeme} (h : x ∈ terminated last xs) :
    x = semicolon ∨ x ∈ xs := by
  induction xs generalizing last with
  | nil => cases h
  | cons y xs ih =>
    have hlater (h : x = semicolon ∨ x ∈ xs) : x = semicolon ∨ x ∈ y :: xs :=
      h.imp_right (mem_cons_of_mem y)
    rw [terminated] at h
    split at h
    · split at h
      · exact (mem_cons.mp h).elim .inl fun h => hlater (ih h)
      · exact hlater (ih h)
    · split at h
      · exact hlater (ih h)
      · rcases mem_cons.mp h with rfl | h
        · exact .inr mem_cons_self
        · exact hlater (ih h)

private theorem filter_terminated (last : Lexeme) (xs : List Lexeme) :
    (terminated last xs).filter (·.kind = .ident) = xs.filter (·.kind = .ident) := by
  induction xs generalizing last with
  | nil => rfl
  | cons x xs ih =>
    rw [terminated]
    split
    · rename_i hline
      have hkind : x.kind ≠ .ident := fun hk => by simp [endsLine, hk] at hline
      rw [filter_cons_of_neg (by simpa using hkind)]
      split
      · rw [filter_cons_of_neg (by decide), ih]
      · exact ih last
    · split
      · rename_i htrivia
        have hkind : x.kind ≠ .ident := fun hk => by simp [isTrivia, hk] at htrivia
        rw [filter_cons_of_neg (by simpa using hkind), ih]
      · rw [filter_cons, filter_cons, ih]

theorem lastName_terminated (last : Lexeme) (xs : List Lexeme) :
    lastName (terminated last xs) = lastName xs := by
  have hlast (xs : List Lexeme) : xs.reverse.find? (·.kind = .ident) =
      (xs.filter (·.kind = .ident)).getLast? := by
    rw [← head?_filter, filter_reverse, head?_reverse]
  rw [lastName, lastName, hlast, hlast, filter_terminated]

private theorem is_closer (h : t.Genuine) : t.is ")" = decide (t.toLexeme = .punct ")") :=
  is_punct h ")" (by decide)

private theorem binds_method (type : String) (name : Token) (d : Declared) :
    Binds (if d.methods.contains (type, name.text) then
        .error ⟨some name.position, .methodRedeclared type name.text⟩
      else .ok { d with methods := (type, name.text) :: d.methods }) d
      [.method type name.text] := by
  refine binds_one (by simp [Declared.bindings]) ⟨_, .inr ⟨_, _, rfl⟩⟩ rfl fun x => ?_
  simp only [Declared.bindings, map_cons, mem_append, mem_cons]
  tauto

private theorem ne_closer_of_mem_terminated {inside : List Lexeme}
    (h : ∀ x ∈ inside, x ≠ .punct ")") :
    ∀ x ∈ terminated (.punct "(") inside, decide (x ≠ .punct ")") = true := by
  intro x hx
  rw [decide_eq_true_eq]
  rcases mem_terminated hx with rfl | hx
  · decide
  · exact h x hx

theorem funcBinds?_append {inside : List Lexeme} (h : ∀ x ∈ inside, x ≠ .punct ")")
    (tail : List Lexeme) :
    funcBinds? (.punct "(" :: terminated (.punct "(") (inside ++ .punct ")" :: tail)) =
      match terminated (.punct ")") tail with
      | name :: _ => if name.kind = .ident then some [.method (lastName inside) name.text] else none
      | [] => none := by
  have hopen := ne_closer_of_mem_terminated h
  rw [terminated_append, terminated_word rfl rfl, funcBinds?, dropWhile_append_of_pos hopen,
    takeWhile_append_of_pos hopen]
  simp only [decide_not, takeWhile_cons, decide_true,
    Bool.not_true, Bool.false_eq_true, if_false, append_nil, lastName_terminated]
  cases terminated (.punct ")") tail <;> rfl

private theorem split_at_closer (s : List Token) :
    (∀ t ∈ s, t.is ")" = false) ∨ ∃ inside closer tail, s = inside ++ closer :: tail ∧
      (∀ t ∈ inside, t.is ")" = false) ∧ closer.is ")" = true := by
  induction s with
  | nil => exact .inl (by simp)
  | cons t s ih =>
    cases ht : t.is ")" with
    | true => exact .inr ⟨[], t, s, rfl, by simp, ht⟩
    | false =>
      rcases ih with hall | ⟨inside, closer, tail, rfl, hin, hc⟩
      · exact .inl (by simpa [ht] using hall)
      · exact .inr ⟨t :: inside, closer, tail, rfl, by simpa [ht] using hin, hc⟩

private theorem takeWhile_inside {inside : List Token} (hin : ∀ t ∈ inside, t.is ")" = false)
    (rest : List Token) : (inside ++ rest).takeWhile (fun t => !t.is ")") =
      inside ++ rest.takeWhile (fun t => !t.is ")") :=
  takeWhile_append_of_pos fun t ht => by simp [hin t ht]

private theorem defineMethod_append (d : Declared) (keyword : Token) {inside tail : List Token}
    {closer : Token} (hin : ∀ t ∈ inside, t.is ")" = false) (hc : closer.is ")" = true) :
    defineMethod d keyword (inside ++ closer :: tail) =
      match tail with
      | [] => .error ⟨some keyword.position, .noMethodName⟩
      | name :: _ =>
        if name.kind ≠ .ident then .error ⟨some name.position, .noMethodName⟩
        else if d.methods.contains (lastName (inside.map (·.toLexeme)), name.text) then
          .error ⟨some name.position,
            .methodRedeclared (lastName (inside.map (·.toLexeme))) name.text⟩
        else .ok { d with
          methods := (lastName (inside.map (·.toLexeme)), name.text) :: d.methods } := by
  have hreceiver : ((inside.reverse.find? (·.kind = .ident)).map (·.text)).getD "" =
      lastName (inside.map (·.toLexeme)) := by
    rw [lastName, ← map_reverse, find?_map, Option.map_map]
    rfl
  have hdrop : (inside ++ closer :: tail).drop (inside.length + 1) = tail := by
    rw [← drop_drop, drop_left]
    rfl
  cases tail <;>
    simp only [defineMethod, takeWhile_inside hin, takeWhile_cons, hc, Bool.not_true,
      Bool.false_eq_true, if_false, append_nil, hdrop, hreceiver]

private theorem yields_defineMethod {opener : Token} {rest : List Token}
    (hopener : opener.toLexeme = .punct "(") (hs : IsStatement (opener :: rest)) :
    Yields (fun d => defineMethod d keyword rest) (funcBinds? (codeFrom (opener :: rest))) := by
  have hgenuine : ∀ t ∈ rest, t.Genuine := fun t ht => hs.genuine t (mem_cons_of_mem _ ht)
  have hinside {inside : List Token} (hsub : inside ⊆ rest)
      (his : ∀ t ∈ inside, t.is ")" = false) : ∀ x ∈ inside.map (·.toLexeme), x ≠ .punct ")" := by
    intro x hx
    obtain ⟨t, ht, rfl⟩ := mem_map.mp hx
    have hclose := his t ht
    rwa [is_closer (hgenuine t (hsub ht)), decide_eq_false_iff_not] at hclose
  rw [hs.codeFrom_cons, hopener]
  rcases split_at_closer rest with hall | ⟨inside, closer, tail, rfl, hin, hc⟩
  · have hnone : funcBinds? (.punct "(" ::
        terminated (.punct "(") (rest.map (·.toLexeme))) = none := by
      have hopen := ne_closer_of_mem_terminated (hinside (List.Subset.refl rest) hall)
      rw [funcBinds?, ← append_nil (terminated _ _),
        dropWhile_append_of_pos hopen]
      rfl
    rw [hnone]
    apply yields_none
    intro d
    refine ⟨⟨some keyword.position, .noMethodName⟩, ?_⟩
    have htake := takeWhile_inside hall []
    rw [takeWhile_nil, append_nil] at htake
    simp only [defineMethod, htake, drop_eq_nil_of_le (Nat.le_succ rest.length)]
  · have hcloser : closer.toLexeme = .punct ")" := by
      rwa [is_closer (hgenuine closer (by simp)), decide_eq_true_eq] at hc
    rw [map_append, map_cons, hcloser,
      funcBinds?_append (hinside (subset_append_left _ _) hin)]
    simp only [defineMethod_append _ _ hin hc]
    cases tail with
    | nil => exact yields_none fun d => ⟨_, rfl⟩
    | cons name tail =>
      by_cases hkind : name.kind = .ident
      · rw [map_cons, terminated_word (by simp [endsLine, hkind])
          (by simp [isTrivia, hkind])]
        simp only [hkind]
        exact yields_some (binds_method _ name)
      · have hnone : ∃ x xs, terminated (.punct ")") ((name :: tail).map (·.toLexeme)) = x :: xs ∧
            x.kind ≠ .ident := by
          rw [map_cons]
          by_cases hline : name.endsLine = true
          · rw [terminated_line hline]
            exact ⟨_, _, if_pos rfl, by decide⟩
          · have hword := hs.word name (by simp) (by simpa using hline)
            rw [terminated_word (by simpa using hline) hword]
            exact ⟨_, _, rfl, hkind⟩
        obtain ⟨x, xs, hx, hother⟩ := hnone
        rw [hx]
        simp only [hkind, hother, ne_eq]
        exact yields_none fun d => ⟨_, rfl⟩

end Methods

private theorem yields_defineFunc (hs : IsStatement s) :
    Yields (fun d => defineFunc d keyword s) (funcBinds? (codeFrom s)) := by
  cases s with
  | nil => exact yields_none fun d => ⟨_, rfl⟩
  | cons t s =>
    have hgenuine := hs.genuine t (by simp)
    have hopener := is_punct hgenuine "(" (by decide)
    have hinit := is_ident hgenuine "init" (by decide)
    simp only [defineFunc, hopener, hinit, decide_eq_true_eq]
    by_cases ht : t.toLexeme = .punct "("
    · simp only [if_pos ht]
      exact yields_defineMethod ht hs
    · rw [hs.codeFrom_cons, funcBinds?]
      simp only [if_neg ht]
      split
      · exact yields_some binds_ok
      · exact yields_define

private theorem getLast?_terminated (last : Lexeme) (mid : List Lexeme)
    (hx : x.endsLine = false → x.isTrivia = false) (hne : x ≠ .punct ")") :
    (terminated last (mid ++ [x])).getLast? ≠ some (.punct ")") := by
  rw [terminated_append]
  by_cases hline : x.endsLine = true
  · rw [terminated_line hline]
    split
    · rw [getLast?_append_of_ne_nil _ (cons_ne_nil _ _)]
      exact (by decide : some semicolon ≠ some (punct ")"))
    · rename_i hends
      rw [terminated, append_nil]
      intro hlast
      rw [getLastD_eq_getLast?, hlast] at hends
      exact hends rfl
  · rw [Bool.not_eq_true] at hline
    rw [terminated_word hline (hx hline)]
    simpa [terminated] using hne

theorem map_codeFrom_specsOf (hs : IsStatement (t :: s)) (ht : t.isOpener = false) :
    (specsOf (t :: s)).map codeFrom = specsIn (codeFrom s) ∧
      ∀ spec ∈ specsOf (t :: s), IsStatement spec := by
  have htail := (hs.tail ht).1
  have hsingle : ∀ spec ∈ [s], IsStatement spec := by simpa using htail
  cases s with
  | nil => exact ⟨rfl, hsingle⟩
  | cons u s =>
    have hopener := is_punct (htail.genuine u (by simp)) "(" (by decide)
    have hmem : ∀ c ∈ u :: s, c.is ")" = decide (c.toLexeme = .punct ")") := fun c hc =>
      is_closer (htail.genuine c hc)
    rw [htail.codeFrom_cons]
    by_cases hu : u.toLexeme = .punct "("
    · have hopen : u.is "(" = true := hopener.trans (decide_eq_true hu)
      rcases eq_nil_or_concat' s with rfl | ⟨mid, c, rfl⟩
      · have hclose : u.is ")" = false := by rw [hu]; decide
        have hgroup : groupOf? [t, u] = none := by simp [groupOf?, hclose]
        rw [specsOf, hgroup]
        exact ⟨by simp [specsIn, terminated, htail.codeFrom_cons], hsingle⟩
      · have hlast : (t :: u :: (mid ++ [c])).getLast? = some c :=
          getLast?_concat (l := t :: u :: mid)
        have hgroup : groupOf? (t :: u :: (mid ++ [c])) =
            if c.toLexeme = .punct ")" then some mid else none := by
          simp [groupOf?, hopen, hlast, hmem c (by simp)]
        rw [hu, map_append, map_singleton, specsOf, hgroup]
        by_cases hc : c.toLexeme = .punct ")"
        · have hmid : ∀ t ∈ mid, t.Genuine := fun t ht => htail.genuine t (by simp [ht])
          have hends : endsStatement (bare (.punct "(")) = endsStatement (bare semicolon) := rfl
          have hcode := terminated_congr hends (mid.map (·.toLexeme))
          rw [if_pos hc, terminated_append, hc, terminated_word rfl rfl, specsIn]
          refine ⟨?_, fun spec hspec => (isStatement_of_mem hmid hspec).1⟩
          rw [if_pos ⟨rfl, by simp [terminated]⟩, terminated, dropLast_concat, hcode]
          exact map_codeFrom_statements hmid
        · have hopenEnd := getLast?_terminated (.punct "(") (mid.map (·.toLexeme))
            (htail.word c (by simp)) hc
          rw [if_neg hc, specsIn, if_neg fun h => hopenEnd h.2]
          exact ⟨by simp [htail.codeFrom_cons, hu], hsingle⟩
    · simp only [specsOf, groupOf?, hopener, hu, specsIn]
      exact ⟨by simp [htail.codeFrom_cons], hsingle⟩

private theorem checkImportPath_eq_ok : checkImportPath t = .ok () ↔ t.isPath = true := by
  rw [checkImportPath, isPath]
  split <;> simp_all

private theorem checkImport_eq_ok (hs : ∀ t ∈ s, t.Genuine) :
    checkImport s = .ok () ↔ isImportSpec (s.map (·.toLexeme)) = true := by
  match s with
  | [] | _ :: _ :: _ :: _ => simp [checkImport, isImportSpec]
  | [path] => exact checkImportPath_eq_ok
  | [name, path] =>
    have hdot := is_punct (hs name (by simp)) "." (by decide)
    simp only [checkImport, hdot, isImportSpec]
    split
    · rename_i hname
      simp [hname, checkImportPath_eq_ok]
    · rename_i hname
      simp [hname]

section Short

/-- A test of two lexemes at most, none of which opens a bracket. -/
structure IsShort (f : List Lexeme → Bool) : Prop where
  opener : ∀ x xs, x.isOpener = true → f (x :: xs) = false ∧ ∀ y, f (y :: x :: xs) = false
  long : ∀ x y z xs, f (x :: y :: z :: xs) = false

private theorem IsShort.codeFrom {f : List Lexeme → Bool} (hf : IsShort f) (hs : IsStatement s) :
    f (codeFrom s) = f (s.map (·.toLexeme)) := by
  cases s with
  | nil => rfl
  | cons t s =>
    cases ht : t.isOpener with
    | true =>
      rw [hs.codeFrom_cons, (hf.opener _ _ ht).1]
      exact (hf.opener _ _ ht).1.symm
    | false =>
      obtain ⟨htail, hcode⟩ := hs.tail ht
      rw [hcode]
      cases s with
      | nil => rfl
      | cons u s =>
        cases hu : u.isOpener with
        | true =>
          rw [htail.codeFrom_cons, (hf.opener _ _ hu).2]
          exact ((hf.opener _ _ hu).2 _).symm
        | false =>
          obtain ⟨hrest, hcode⟩ := htail.tail hu
          rw [hcode]
          cases s with
          | nil => rfl
          | cons v s =>
            rw [hrest.codeFrom_cons, hf.long]
            exact (hf.long ..).symm

private theorem isShort_isImportSpec : IsShort isImportSpec := by
  refine ⟨fun x xs h => ?_, fun _ _ _ _ => rfl⟩
  have hkind : x.kind = .punct := by
    simp only [isOpener, Bool.and_eq_true, decide_eq_true_eq] at h
    exact h.1
  have hdot : x ≠ .punct "." := by
    rintro rfl
    cases h
  rcases xs with _ | ⟨y, _ | _⟩
  · simp [isImportSpec, isPath, hkind]
  · simp [isImportSpec, hkind, hdot]
  · simp [isImportSpec]

private theorem isShort_isClause : IsShort isClause := by
  refine ⟨fun x xs h => ?_, fun _ _ _ _ => rfl⟩
  have hkind : x.kind ≠ .ident := fun hk => by simp [isOpener, hk] at h
  have hne : x ≠ .ident "package" := by
    rintro rfl
    cases h
  rcases xs with _ | ⟨y, _ | _⟩
  · simp [isClause, hkind]
  · simp [isClause, hne]
  · simp [isClause]

end Short

theorem checkImports_eq_ok :
    checkImports specs = .ok () ↔ ∀ spec ∈ specs, checkImport spec = .ok () := by
  induction specs with
  | nil => simp [checkImports]
  | cons spec specs ih =>
    have hstep : checkImports (spec :: specs) = checkImport spec >>= fun _ => checkImports specs :=
      rfl
    rw [hstep, forall_mem_cons, ← ih]
    cases checkImport spec with
    | error fault => simp
    | ok u => simp

theorem checkImports_specsOf (hs : IsStatement (t :: s)) (ht : t.isOpener = false) :
    checkImports (specsOf (t :: s)) = .ok () ↔ (specsIn (codeFrom s)).all isImportSpec = true := by
  obtain ⟨hcode, hspecs⟩ := map_codeFrom_specsOf hs ht
  rw [checkImports_eq_ok, ← hcode, all_map, all_eq_true]
  refine forall₂_congr fun spec hspec => ?_
  rw [checkImport_eq_ok (hspecs spec hspec).genuine,
    ← isShort_isImportSpec.codeFrom (hspecs spec hspec)]
  rfl

theorem isPackageClause_eq (hs : IsStatement s) : isPackageClause s = isClause (codeFrom s) := by
  rw [isShort_isClause.codeFrom hs]
  match s with
  | [] | [_] | _ :: _ :: _ :: _ => rfl
  | [t, u] =>
    have hpackage := is_ident (hs.genuine t (by simp)) "package" (by decide)
    simp [isPackageClause, isClause, hpackage]

private theorem Yields.congr (hg : Yields g bs?) (h : ∀ d, d.importsDone = true → f d = g d) :
    Yields f bs? := by
  cases bs? with
  | none | some bs => exact fun d hd => (h d hd).symm ▸ hg d hd

theorem yields_checkStatement (hs : IsStatement (t :: s)) :
    Yields (checkStatement · (t :: s)) (declBinds? (codeFrom (t :: s))) := by
  have his := is_ident (hs.genuine t (by simp))
  -- What the check comes to once imports are over.
  let late (d : Declared) : Except Fault Declared :=
    if t.toLexeme = .ident "import" then .error ⟨some t.position, .lateImport⟩
    else if t.toLexeme = .ident "func" then defineFunc d t s
    else if t.toLexeme = .ident "type" then (specsOf (t :: s)).foldlM defineType d
    else if t.toLexeme = .ident "var" ∨ t.toLexeme = .ident "const" then
      (specsOf (t :: s)).foldlM defineValues d
    else .error ⟨some t.position, .notADeclaration t.text⟩
  have hcheck : ∀ d, d.importsDone = true → checkStatement d (t :: s) = late d := by
    intro d hd
    have hsame : { d with importsDone := true } = d := by rw [← hd]
    simp only [late, checkStatement, checkDeclaration, hd, hsame, his "import" (by decide),
      his "func" (by decide), his "type" (by decide), his "var" (by decide),
      his "const" (by decide), decide_eq_true_eq, Bool.or_eq_true, if_true, drop_succ_cons,
      drop_zero]
  refine Yields.congr ?_ hcheck
  have hspecs {word : String} (h : t.toLexeme = .ident word) :=
    map_codeFrom_specsOf hs (by rw [h]; rfl)
  have htail {word : String} (h : t.toLexeme = .ident word) := hs.tail (by rw [h]; rfl)
  by_cases hfunc : t.toLexeme = .ident "func"
  · rw [(htail hfunc).2]
    simp only [late, hfunc]
    exact yields_defineFunc (htail hfunc).1
  by_cases htype : t.toLexeme = .ident "type"
  · rw [(htail htype).2]
    simp only [late, htype, declBinds?]
    rw [← (hspecs htype).1]
    exact yields_foldlM fun s hs => yields_defineType ((hspecs htype).2 s hs)
  by_cases hvalue : t.toLexeme = .ident "var" ∨ t.toLexeme = .ident "const"
  · have hword : ∃ word, t.toLexeme = .ident word := hvalue.elim (⟨_, ·⟩) (⟨_, ·⟩)
    obtain ⟨word, hword⟩ := hword
    have himport : t.toLexeme ≠ .ident "import" := by
      rcases hvalue with h | h <;> rw [h] <;> decide
    rw [(htail hword).2]
    simp only [late, himport, hfunc, htype, hvalue, declBinds?]
    rw [← (hspecs hword).1]
    exact yields_foldlM fun s hs => yields_defineValues ((hspecs hword).2 s hs)
  · rw [hs.codeFrom_cons]
    simp only [late, hfunc, htype, hvalue, declBinds?, if_false]
    apply yields_none
    intro d
    split <;> exact ⟨_, rfl⟩

private theorem checkStatement_import (hs : IsStatement (t :: s))
    (ht : t.toLexeme = .ident "import") (hd : d.importsDone = false) :
    (checkStatement d (t :: s) = .ok d ∧ isImport (codeFrom (t :: s)) = true) ∨
      ((∃ fault, checkStatement d (t :: s) = .error fault) ∧
        isImport (codeFrom (t :: s)) = false) := by
  have hopener : t.isOpener = false := by rw [ht]; rfl
  have hcode : isImport (codeFrom (t :: s)) = (specsIn (codeFrom s)).all isImportSpec := by
    simp [(hs.tail hopener).2, isImport, ht]
  have his : t.is "import" = true := by rw [ht]; decide
  have hcheck : checkStatement d (t :: s) =
      checkImports (specsOf (t :: s)) >>= fun _ => .ok d := by
    simp only [checkStatement, checkDeclaration, his, hd]
    rfl
  have hiff := checkImports_specsOf hs hopener
  rw [hcheck, hcode]
  cases himports : checkImports (specsOf (t :: s)) with
  | ok u => exact .inl ⟨rfl, hiff.mp himports⟩
  | error fault =>
    refine .inr ⟨⟨fault, rfl⟩, ?_⟩
    rw [himports] at hiff
    simpa using hiff

private theorem isImport_eq_false (h : x ≠ .ident "import") (xs : List Lexeme) :
    isImport (x :: xs) = false := by
  simp [isImport, h]

private theorem declBinds?_import (xs : List Lexeme) :
    declBinds? (.ident "import" :: xs) = none := by
  rw [declBinds?, if_neg (by decide), if_neg (by decide), if_neg (by decide)]

private theorem foldlM_checkStatement_over (hs : IsStatement (t :: s))
    (ht : t.toLexeme ≠ .ident "import") (ss : List Statement) :
    ((t :: s) :: ss).foldlM checkStatement {} =
      ((t :: s) :: ss).foldlM checkStatement { importsDone := true } := by
  have his : t.is "import" = false :=
    (is_ident (hs.genuine t (by simp)) "import" (by decide)).trans (decide_eq_false ht)
  have hsame : checkStatement {} (t :: s) = checkStatement { importsDone := true } (t :: s) := by
    simp only [checkStatement, checkDeclaration, his, Bool.false_eq_true, if_false]
  rw [foldlM_cons, foldlM_cons, hsame]

section Folds

variable {ss : List Statement}

private theorem yields_statements (hss : ∀ s ∈ ss, IsStatement s ∧ s ≠ []) :
    Yields (fun d => ss.foldlM checkStatement d) (allBind? declBinds? (ss.map codeFrom)) := by
  apply yields_foldlM
  intro s hs
  obtain ⟨hstatement, hne⟩ := hss s hs
  cases s with
  | nil => exact absurd rfl hne
  | cons t s => exact yields_checkStatement hstatement

private theorem foldlM_declarations {bs : List Binding} (hss : ∀ s ∈ ss, IsStatement s ∧ s ≠ [])
    (hdecls : allBind? declBinds? (ss.map codeFrom) = some bs) :
    (∀ fault, ss.foldlM checkStatement {} = .error fault → fault.IsRedeclaration) ∧
      ((∃ d, ss.foldlM checkStatement {} = .ok d) ↔ bs.Nodup) := by
  have hyields := yields_statements hss
  rw [hdecls] at hyields
  have hbinds := hyields { importsDone := true } rfl
  have hsame : ss = [] ∨
      ss.foldlM checkStatement {} = ss.foldlM checkStatement { importsDone := true } := by
    match ss with
    | [] => exact .inl rfl
    | [] :: _ => exact absurd rfl (hss [] (by simp)).2
    | (t :: s) :: ss =>
      have hs := (hss (t :: s) (by simp)).1
      refine .inr (foldlM_checkStatement_over hs (fun ht => ?_) ss)
      simp [allBind?, hs.codeFrom_cons, ht, declBinds?_import] at hdecls
  rcases hsame with rfl | hsame
  · cases hdecls
    exact ⟨fun _ h => (by cases h), by simp⟩
  · rw [hsame]
    refine ⟨hbinds.orRedeclared, fun ⟨d, hd⟩ => (hbinds.accepted d hd).1, fun hnodup => ?_⟩
    obtain ⟨d, hd, -⟩ := hbinds.accepts hnodup (by simp [Declared.bindings])
    exact ⟨d, hd⟩

/-- Imports and then other declarations are refused for a redeclaration only. -/
theorem foldlM_checkStatement {imports decls : List (List Lexeme)} {bs : List Binding}
    (hss : ∀ s ∈ ss, IsStatement s ∧ s ≠ []) (hcode : ss.map codeFrom = imports ++ decls)
    (himports : ∀ s ∈ imports, isImport s = true) (hdecls : allBind? declBinds? decls = some bs) :
    (∀ fault, ss.foldlM checkStatement {} = .error fault → fault.IsRedeclaration) ∧
      ((∃ d, ss.foldlM checkStatement {} = .ok d) ↔ bs.Nodup) := by
  induction imports generalizing ss with
  | nil =>
    exact foldlM_declarations hss (hcode ▸ hdecls)
  | cons i imports ih =>
    obtain ⟨s, ss, rfl, rfl, hrest⟩ := map_eq_cons_iff.mp hcode
    rw [forall_mem_cons] at hss himports
    obtain ⟨⟨hs, hne⟩, hss⟩ := hss
    cases s with
    | nil => exact absurd rfl hne
    | cons t s =>
      have ht : t.toLexeme = .ident "import" := by
        by_contra ht
        rw [hs.codeFrom_cons, isImport_eq_false ht] at himports
        cases himports.1
      rcases checkStatement_import (d := {}) hs ht rfl with ⟨hok, -⟩ | ⟨-, hno⟩
      · rw [foldlM_cons, hok]
        exact ih hss hrest himports.2
      · rw [hno] at himports
        cases himports.1

theorem exists_of_foldlM_checkStatement {d' : Declared} (hss : ∀ s ∈ ss, IsStatement s ∧ s ≠ [])
    (h : ss.foldlM checkStatement {} = .ok d') :
    ∃ imports decls bs, ss.map codeFrom = imports ++ decls ∧
      (∀ s ∈ imports, isImport s = true) ∧ allBind? declBinds? decls = some bs := by
  induction ss with
  | nil => exact ⟨[], [], [], rfl, by simp, rfl⟩
  | cons s ss ih =>
    match s with
    | [] => exact absurd rfl (hss [] (by simp)).2
    | t :: s =>
      have hs := (hss (t :: s) (by simp)).1
      by_cases ht : t.toLexeme = .ident "import"
      · rcases checkStatement_import (d := {}) hs ht rfl with ⟨hok, himport⟩ | ⟨⟨_, hno⟩, -⟩
        · rw [foldlM_cons, hok] at h
          obtain ⟨imports, decls, bs, hcode, himports, hdecls⟩ :=
            ih (forall_mem_cons.mp hss).2 h
          refine ⟨codeFrom (t :: s) :: imports, decls, bs, ?_, ?_, hdecls⟩
          · rw [map_cons, hcode, cons_append]
          · exact forall_mem_cons.mpr ⟨himport, himports⟩
        · rw [foldlM_cons, hno] at h
          cases h
      · have hyields := yields_statements hss
        rw [foldlM_checkStatement_over hs ht] at h
        cases hdecls : allBind? declBinds? (((t :: s) :: ss).map codeFrom) with
        | some bs => exact ⟨[], _, bs, rfl, by simp, hdecls⟩
        | none =>
          rw [hdecls] at hyields
          obtain ⟨fault, hfault⟩ := hyields { importsDone := true } rfl
          cases hfault.symm.trans h

end Folds

end Outcomes

section Sources

variable {ss : List Statement} {tokens : List Token} {source : String}

/-- A package clause, imports and then other declarations are refused for a redeclaration only. -/
theorem checkStatements_of_code {clause : List Lexeme} {imports decls : List (List Lexeme)}
    {bs : List Binding} (hss : ∀ s ∈ ss, IsStatement s ∧ s ≠ [])
    (hcode : ss.map codeFrom = clause :: (imports ++ decls)) (hclause : isClause clause = true)
    (himports : ∀ s ∈ imports, isImport s = true) (hdecls : allBind? declBinds? decls = some bs) :
    (∀ fault, checkStatements ss = .error fault → fault.IsRedeclaration) ∧
      (checkStatements ss = .ok () ↔ bs.Nodup) := by
  obtain ⟨first, rest, rfl, rfl, hrest⟩ := map_eq_cons_iff.mp hcode
  rw [forall_mem_cons] at hss
  obtain ⟨hrefused, haccepted⟩ := foldlM_checkStatement hss.2 hrest himports hdecls
  rw [checkStatements, isPackageClause_eq hss.1.1, if_pos hclause, ← haccepted]
  cases hfold : rest.foldlM checkStatement {} with
  | error fault => simpa using hrefused fault hfold
  | ok d => simp

theorem checkStatements_eq_ok (hss : ∀ s ∈ ss, IsStatement s ∧ s ≠ []) :
    checkStatements ss = .ok () ↔ Admitted (ss.map codeFrom) := by
  constructor
  · intro hok
    cases ss with
    | nil => cases hok
    | cons first rest =>
      rw [forall_mem_cons] at hss
      rw [checkStatements, isPackageClause_eq hss.1.1] at hok
      split at hok
      · rename_i hclause
        obtain ⟨d, hd, -⟩ := bind_eq_ok.mp hok
        obtain ⟨imports, decls, bs, hcode, himports, hdecls⟩ :=
          exists_of_foldlM_checkStatement hss.2 hd
        refine ⟨_, imports, decls, bs, congrArg _ hcode, hclause, himports, hdecls, ?_⟩
        exact (foldlM_checkStatement hss.2 hcode himports hdecls).2.mp ⟨d, hd⟩
      · cases hok
  · rintro ⟨clause, imports, decls, bs, hcode, hclause, himports, hdecls, hnodup⟩
    exact (checkStatements_of_code hss hcode hclause himports hdecls).2.mpr hnodup

theorem checkTokens_eq (tokens : List Token) :
    checkTokens tokens = match bracketFault? [] tokens with
      | some fault => .error fault
      | none => checkStatements (statements tokens) := by
  unfold checkTokens
  cases bracketFault? [] tokens with
  | some fault => rfl
  | none =>
    rw [statements, statements, statementsFrom_filter]

theorem checkTokens_eq_ok (h : ∀ t ∈ tokens, t.Genuine) :
    checkTokens tokens = .ok () ↔
      nests [] (codeFrom tokens) = true ∧ Admitted (segments (codeFrom tokens)) := by
  have hnests := bracketFault?_eq_none [] tokens
  rw [← nests_terminated semicolon] at hnests
  have hstatements := checkStatements_eq_ok fun s => isStatement_of_mem h
  rw [map_codeFrom_statements h] at hstatements
  rw [checkTokens_eq, ← hstatements]
  cases hfault : bracketFault? [] tokens with
  | some fault =>
    rw [hfault] at hnests
    simp only [reduceCtorEq, false_iff] at hnests ⊢
    exact fun hok => hnests hok.1
  | none => exact (and_iff_right (hnests.mp hfault)).symm

end Sources

end GoBindings.Go
