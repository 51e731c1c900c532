import GoBindings.Proofs.Lines
import Mathlib.Tactic.MkIffOfInductiveProp

/-!
# Valid declarations

Every line of a valid declaration scans. At its outermost level a declaration is one statement of
the form that its keyword asks for, or none.
-/

namespace GoBindings.Go

open List Lexeme

variable {e : Expr} {f : Func} {tag : StructTag} {d : Decl} {xs header pre core : List Lexeme}
  {ss : List (List Lexeme)}

namespace Expr

/-- What the value of a declaration may be: a number, a literal or an operand. -/
def isAtom : Expr → Bool
  | number _ | literal _ => true
  | e => e.isOperand

end Expr

@[mk_iff]
structure Param.Valid (R : Rules) (p : Param) : Prop where
  ne_nil : p.names ≠ []
  names : ∀ n ∈ p.names, IsName n
  type : p.type.Valid R

def Results.Valid {α : Type} (valid : α → Prop) : Results α → Prop
  | .none => True
  | .one t => valid t
  | .many ts => ∀ t ∈ ts, valid t
  | .named n t => IsName n ∧ valid t

@[mk_iff]
structure FuncType.Valid (R : Rules) (f : FuncType) : Prop where
  params : ∀ p ∈ f.params, p.Valid R
  results : f.results.Valid (TypeExpr.Valid R)

def ResultType.Valid (R : Rules) : ResultType → Prop
  | .type t => t.Valid R
  | .func f => f.Valid R

@[mk_iff]
structure Receiver.Valid (r : Receiver) : Prop where
  name : ∀ n ∈ r.name, IsName n
  type : IsName r.type

def Body.Valid (R : Rules) : Body → Prop
  | .empty => True
  | .line s => s.Valid R
  | .block body => Stmt.ValidAll R body

@[mk_iff]
structure Func.Valid (R : Rules) (f : Func) : Prop where
  receiver : ∀ r ∈ f.receiver, r.Valid
  name : IsName f.name
  params : ∀ p ∈ f.params, p.Valid R
  results : f.results.Valid (ResultType.Valid R)
  body : f.body.Valid R

def Member.Valid (R : Rules) : Member → Prop
  | comment text => R.Note text
  | field name type tag => IsName name ∧ type.Valid R ∧ R.Tag tag
  | union name interface tag => IsName name ∧ IsName interface ∧ R.Tag tag
  | embedded type tag => type.Valid R ∧ R.Tag tag
  | unrecognized name tag => IsName name ∧ R.Tag tag

def ConstEntry.Valid (R : Rules) : ConstEntry → Prop
  | comment text => R.Note text
  | constant name type _ => IsName name ∧ IsName type

def Entry.Valid (R : Rules) : Entry → Prop
  | comment text => R.Note text
  | keyed key value => key.Valid R ∧ value.Valid R
  | group values => Expr.ValidAll R values
  | row values => Expr.ValidAll R values

def ImportEntry.Valid (R : Rules) : ImportEntry → Prop
  | named name _ => IsName name
  | weak name _ => R.Note name

def Decl.Valid (R : Rules) : Decl → Prop
  | blank => True
  | comment text => R.Note text
  | blockComment lines => (⟨.comment, Text.join "\n" lines⟩ : Lexeme).Stands
  | package name => IsName name
  | imports entries => ∀ e ∈ entries, e.Valid R
  | value _ name type e note => IsName name ∧ (∀ t ∈ type, t.Valid R) ∧ e.Valid R ∧
      e.isAtom = true ∧ ∀ text ∈ note, R.Note text
  | constants entries => ∀ e ∈ entries, e.Valid R
  | typeDef name type => IsName name ∧ type.Valid R
  | struct name members => IsName name ∧ ∀ m ∈ members, m.Valid R
  | wrapper name field type tag => IsName name ∧ IsName field ∧ type.Valid R ∧ R.Tag tag
  | interface name method => IsName name ∧ IsName method
  | table name _ type entries => IsName name ∧ type.Valid R ∧ ∀ e ∈ entries, e.Valid R
  | func f => f.Valid R

section Signatures

variable {R : Rules}

theorem commaSeparated_ne_nil {parts : List (List Lexeme)} (hne : parts ≠ [])
    (h : ∀ part ∈ parts, part ≠ []) : commaSeparated parts ≠ [] := by
  match parts, hne with
  | [part], _ => exact h part (by simp)
  | part :: part' :: parts, _ => simp [commaSeparated]

theorem phrase_commaSeparated {parts : List (List Lexeme)}
    (h : ∀ part ∈ parts, Phrase part ∧ part ≠ []) : Phrase (commaSeparated parts) := by
  induction parts with
  | nil => exact .nil
  | cons part parts ih =>
    obtain ⟨hpart, hne⟩ := h part (by simp)
    cases parts with
    | nil => exact hpart
    | cons part' parts =>
      have hrest := ih fun p hp => h p (by simp [hp])
      have hrestne : commaSeparated (part' :: parts) ≠ [] :=
        commaSeparated_ne_nil (by simp) fun p hp => (h p (by simp [hp])).2
      simpa [commaSeparated] using phrase_comma hpart hrest hne hrestne

theorem Param.phrase (hR : R.Proper) {p : Param} (h : p.Valid R) : Phrase p.lexemes := by
  have hnames : ∀ part ∈ p.names.map fun n => [ident n], Phrase part ∧ part ≠ [] := by
    simp only [mem_map]
    rintro part ⟨n, hn, rfl⟩
    exact ⟨phrase_name (h.names n hn), by simp⟩
  exact phrase_blank (phrase_commaSeparated hnames) (TypeExpr.phrase hR h.type)
    (commaSeparated_ne_nil (by simpa using h.ne_nil) fun part hp => (hnames part hp).2)
    p.type.lexemes_ne_nil

theorem Param.phrase_list (hR : R.Proper) {ps : List Param} (h : ∀ p ∈ ps, p.Valid R) :
    Phrase (Param.listLexemes ps) := by
  refine (phrase_commaSeparated ?_).bracketed (by decide) (by decide)
  simp only [mem_map]
  rintro part ⟨p, hp, rfl⟩
  exact ⟨Param.phrase hR (h p hp), by simp [Param.lexemes]⟩

theorem Phrase.results {α : Type} {print : α → List Lexeme} {valid : α → Prop}
    (hprint : ∀ t, valid t → Phrase (print t) ∧ print t ≠ []) (hx : Phrase xs) (hne : xs ≠ [])
    {r : Results α} (h : r.Valid valid) : Phrase (xs ++ r.lexemes print) := by
  cases r with
  | none => simpa [Results.lexemes] using hx
  | one t => exact phrase_blank hx (hprint t h).1 hne (hprint t h).2
  | many ts =>
    have hlist : Phrase (commaSeparated (ts.map print)) := by
      refine phrase_commaSeparated ?_
      simp only [mem_map]
      rintro part ⟨t, ht, rfl⟩
      exact hprint t (h t ht)
    exact phrase_blank hx (hlist.bracketed (by decide) (by decide)) hne
      (by simp)
  | named n t =>
    have hinside := phrase_blank (phrase_name h.1) (hprint t h.2).1 (by simp) (hprint t h.2).2
    have hall := phrase_blank hx (hinside.bracketed (o := "(") (c := ")") (by decide)
      (by decide)) hne (by simp)
    simpa [Results.lexemes] using hall

theorem FuncType.phrase (hR : R.Proper) {f : FuncType} (h : f.Valid R) : Phrase f.lexemes :=
  (Param.phrase_list hR h.params).results
    (fun t ht => ⟨TypeExpr.phrase hR ht, t.lexemes_ne_nil⟩) (by simp [Param.listLexemes]) h.results

theorem ResultType.phrase (hR : R.Proper) {r : ResultType} (h : r.Valid R) :
    Phrase r.lexemes ∧ r.lexemes ≠ [] := by
  cases r with
  | type t => exact ⟨TypeExpr.phrase hR h, t.lexemes_ne_nil⟩
  | func f =>
    have hf := FuncType.phrase hR h
    refine ⟨(phrase_name (by decide)).append hf (by simp)
      (by simp [Param.listLexemes]) ?_, by simp [ResultType.lexemes]⟩
    simpa [Param.listLexemes] using
      meets_closer (by decide) (by decide)

end Signatures

section Forms

@[simp] theorem significant_ident (n : String) (xs : List Lexeme) :
    significant (.ident n :: xs) = .ident n :: significant xs := significant_cons_of_word rfl xs

@[simp] theorem significant_punct (op : String) (xs : List Lexeme) :
    significant (.punct op :: xs) = .punct op :: significant xs := significant_cons_of_word rfl xs

@[simp] theorem significant_literal (text : String) (xs : List Lexeme) :
    significant (.literal text :: xs) = .literal text :: significant xs :=
  significant_cons_of_word rfl xs

@[simp] theorem significant_blank (xs : List Lexeme) :
    significant (.blank :: xs) = significant xs := significant_cons_of_trivia rfl rfl xs

@[simp] theorem significant_openBrace (xs : List Lexeme) :
    significant (.openBrace :: xs) = .openBrace :: significant xs := significant_punct _ xs

@[simp] theorem significant_closeBrace (xs : List Lexeme) :
    significant (.closeBrace :: xs) = .closeBrace :: significant xs := significant_punct _ xs

/-- A spec that declares one name. -/
def NamesOne (spec : List Lexeme) (name : String) : Prop :=
  ∃ rest, spec = .ident name :: rest ∧ ∀ x ∈ rest.head?, x.is "," = false

/-- The forms of a statement that declares something other than imports, and what it binds. -/
inductive Declares : List Lexeme → List Binding → Prop
  | func {name : String} (rest : List Lexeme) (h : IsName name) :
      Declares (.ident "func" :: .ident name :: rest)
        (if name = "init" then [] else Binding.ofName name)
  | method {inside : List Lexeme} (name : String) (rest : List Lexeme)
      (h : ∀ x ∈ inside, x.is ")" = false) :
      Declares (.ident "func" :: .punct "(" :: (inside ++ .punct ")" :: .ident name :: rest))
        [.method (lastName inside) name]
  | type {name : String} (rest : List Lexeme) (h : IsName name) :
      Declares (.ident "type" :: .ident name :: rest) (Binding.ofName name)
  | value {name : String} (sort : ValueSort) (rest : List Lexeme) (hname : IsName name)
      (h : ∀ x ∈ rest.head?, x.is "," = false) :
      Declares (.ident sort.keyword :: .ident name :: rest) (Binding.ofName name)
  | group {inside : List Lexeme} {specs : List (List Lexeme)} {names : List String}
      (sort : ValueSort) (hspecs : Holds inside specs) (h : Forall₂ NamesOne specs names) :
      Declares (.ident sort.keyword :: .punct "(" :: (inside ++ [.punct ")"]))
        (names.flatMap Binding.ofName)

/-- A group of imports by name. -/
def ImportsGroup (s : List Lexeme) : Prop :=
  ∃ inside specs, s = .ident "import" :: .punct "(" :: (inside ++ [.punct ")"]) ∧
    Holds inside specs ∧
    ∀ spec ∈ specs, ∃ name path, spec = [.ident name, .literal (Text.quote path)]

theorem IsName.is_eq_false {n : String} (h : IsName n) (text : String) (ht : ¬ IsName text) :
    (ident n).is text = false := by
  cases his : (ident n).is text with
  | false => rfl
  | true =>
    have heq : n = text := text_of_is his
    exact absurd (heq ▸ h) ht

end Forms

section Functions

variable {R : Rules}

private theorem lastName_concat (xs : List Lexeme) (n : String) :
    lastName (xs ++ [ident n]) = n := by
  simp [lastName, ident]

private theorem Receiver.phrase {r : Receiver} (h : r.Valid) :
    ∃ xs, Phrase xs ∧ xs ≠ [] ∧ (∀ x ∈ significant xs, x.is ")" = false) ∧
      lastName (significant xs) = r.type ∧
      r.lexemes = .punct "(" :: (xs ++ [punct ")"]) ++ [Lexeme.blank] := by
  have htype : ∃ xs, Phrase xs ∧ xs ≠ [] ∧ (∀ x ∈ significant xs, x.is ")" = false) ∧
      (∃ ys, significant xs = ys ++ [ident r.type]) ∧
      (if r.pointer then [punct "*"] else []) ++ [ident r.type] = xs := by
    refine ⟨_, ?_, by simp, ?_, ?_, rfl⟩
    · split
      · exact TypeExpr.phrase (R := ⟨IsName, True⟩) ⟨fun _ h => h, trivial⟩
          (t := .pointer (.name r.type))
          h.type
      · exact phrase_name h.type
    · have hty := h.type.is_eq_false ")" (by decide)
      split
      · have hstar : (punct "*").is ")" = false := by decide
        simpa using ⟨hstar, hty⟩
      · simpa using hty
    · exact ⟨significant (if r.pointer then [.punct "*"] else []), by simp⟩
  obtain ⟨xs, hxs, hne, hplain, ⟨ys, hys⟩, heq⟩ := htype
  unfold Receiver.lexemes
  cases hname : r.name with
  | none =>
    refine ⟨xs, hxs, hne, hplain, ?_, by simp [← heq]⟩
    rw [hys, lastName_concat]
  | some n =>
    have hn := h.name n (by simp [hname])
    refine ⟨_, phrase_blank (phrase_name hn) hxs (by simp) hne, by simp, ?_, ?_, by simp [← heq]⟩
    · simpa using ⟨hn.is_eq_false _ (by decide), hplain⟩
    · have hlast := lastName_concat (.ident n :: ys) r.type
      simpa [hys] using hlast

def ConstEntry.names : ConstEntry → List String
  | comment _ => []
  | constant name _ _ => [name]

/-- The name and the path of an import, unless it is only mentioned. -/
def ImportEntry.parts : ImportEntry → List (String × String)
  | named name path => [(name, path)]
  | weak _ _ => []

/-- Any number of functions may be called `init`. -/
def Func.bindings (f : Func) : List Binding :=
  match f.receiver with
  | some r => [.method r.type f.name]
  | none => if f.name = "init" then [] else Binding.ofName f.name

theorem Func.header_spec (hR : R.Proper) (h : f.Valid R) :
    ∃ xs, Phrase xs ∧ xs ≠ [] ∧ f.header = xs ++ [Lexeme.blank] ∧
      ∀ rest, Declares (significant xs ++ rest) f.bindings := by
  have hsignature := ((phrase_name h.name).append (Param.phrase_list hR h.params) (by simp)
    (by simp [Param.listLexemes]) (by
      simpa [Param.listLexemes] using
        meets_closer (by decide) rfl)).results
    (fun t ht => ResultType.phrase hR ht) (by simp) h.results
  unfold Func.header
  cases hr : f.receiver with
  | none =>
    refine ⟨_, hsignature.after_keyword "func" (by simp) (by decide), by simp, by simp, ?_⟩
    intro rest
    simpa [bindings, hr] using Declares.func _ h.name
  | some r =>
    obtain ⟨xs, hxs, -, hplain, htype, heq⟩ := Receiver.phrase (h.receiver r (by simp [hr]))
    have hreceiver := hxs.bracketed (o := "(") (c := ")") (by decide) (by decide)
    have hall := phrase_blank hreceiver hsignature (by simp) (by simp)
    refine ⟨_, hall.after_keyword "func" (by simp) (by decide), by simp, by simp [heq], ?_⟩
    intro rest
    simpa [bindings, hr, htype] using Declares.method f.name _ hplain

end Functions

section Groups

variable {R : Rules}

private theorem phrase_tag (hR : R.Proper) (h : R.Tag tag) :
    Phrase [tag.lexeme] := .word (stands_raw.mpr (h hR.strict)) (.inr (.inr rfl))

private theorem Member.block_line (hR : R.Proper) {m : Member} (h : m.Valid R) :
    Block [m.line] := by
  cases m with
  | comment text => exact .comment (h hR.strict)
  | field name type tag =>
    have htag := phrase_tab (TypeExpr.phrase hR h.2.1) (phrase_tag hR h.2.2)
      type.lexemes_ne_nil (by simp)
    exact (phrase_tab (phrase_name h.1) htag (by simp) (by simp)).line
  | union name interface tag =>
    have htag := phrase_blank (phrase_name h.2.1) (phrase_tag hR h.2.2) (by simp) (by simp)
    exact (phrase_blank (phrase_name h.1) htag (by simp) (by simp)).line
  | embedded type tag =>
    exact (phrase_blank (TypeExpr.phrase hR h.1) (phrase_tag hR h.2) type.lexemes_ne_nil
      (by simp)).line
  | unrecognized name tag =>
    have hbytes : TypeExpr.bytes.Valid R := (by decide : IsName "byte")
    have htag := phrase_blank (TypeExpr.phrase hR hbytes) (phrase_tag hR h.2)
      (TypeExpr.lexemes_ne_nil _) (by simp)
    exact (phrase_tab (phrase_name h.1) htag (by simp) (by simp)).line

private theorem block_row (hR : R.Proper) {values : List Expr} (h : ∀ e ∈ values, e.Valid R) :
    Block [(Entry.row values).line] := by
  have hspec : Row (values.flatMap fun v => v.lexemes ++ [punct ","]) ∧
      (∀ x ∈ (values.flatMap fun v => v.lexemes ++ [punct ","]).head?, x.isStart = true) ∧
      Balanced (values.flatMap fun v => v.lexemes ++ [punct ","]) := by
    induction values with
    | nil => exact ⟨.nil, by simp, .nil⟩
    | cons v values ih =>
      obtain ⟨hrow, hstart, hbal⟩ := ih fun e he => h e (by simp [he])
      have hv := v.phrase hR (h v (by simp))
      have hended : Line.Proper ⟨1, v.lexemes ++ [punct ","]⟩ :=
        hv.proper_ended v.lexemes_ne_nil (by decide)
      rw [flatMap_cons]
      refine ⟨hended.row.append hrow ?_, ?_, ?_⟩
      · simpa using fun x hx => opener_meets (by decide) (hstart x hx)
      · rw [append_assoc, head?_append_of_ne_nil _ v.lexemes_ne_nil]
        exact hv.starts
      · exact (hv.closed.append closed_comma).balanced.append hbal
  obtain ⟨hrow, hstart, hbal⟩ := hspec
  exact .line ⟨hrow, fun x hx => kind_ne_space_of_start (hstart x hx)⟩ hbal

private theorem Entry.block_line (hR : R.Proper) {e : Entry} (h : e.Valid R) : Block [e.line] := by
  cases e with
  | comment text => exact .comment (h hR.strict)
  | keyed key value =>
    have hkey : Line.Proper ⟨1, key.lexemes ++ [punct ":"]⟩ :=
      (key.phrase hR h.1).proper_ended key.lexemes_ne_nil (by decide)
    have hvalue : Line.Proper ⟨1, value.lexemes ++ [punct ","]⟩ :=
      (value.phrase hR h.2).proper_ended value.lexemes_ne_nil (by decide)
    have hrow := hkey.row.append (hvalue.row.blank hvalue.solid) (by simp)
    refine .line ⟨by simpa [Entry.line] using hrow, ?_⟩ ?_
    · exact (key.phrase hR h.1).solid_append key.lexemes_ne_nil _
    · have hclosed := ((key.phrase hR h.1).closed.append closed_colon).append
        (closed_blank.append ((value.phrase hR h.2).closed.append closed_comma))
      simpa [Entry.line] using hclosed.balanced
  | group values =>
    obtain ⟨hrow, hclosed⟩ := (Expr.phraseAll hR values h).wrap (o := "\x7b") (c := "\x7d")
      (by decide)
    have hall := hrow.append (.single (x := .punct ",") (stands_punct (by decide) (by decide))) (by
      rw [← cons_append, getLast?_concat]
      simpa using meets_closer (by decide) (by decide))
    refine .line ⟨by simpa [Entry.line, openBrace, closeBrace] using hall, ?_⟩ ?_
    · simp [Entry.line, openBrace, punct]
    · simpa [Entry.line, openBrace, closeBrace] using
        (hclosed.append closed_comma).balanced
  | row values => exact block_row hR (Expr.validAll_iff.mp h)

end Groups

section Statements

variable {d : Nat} {text : String}

theorem getLast?_significant {x : Lexeme} (h : xs.getLast? = some x) (hx : x.isTrivia = false) :
    (significant xs).getLast? = some x := by
  obtain ⟨init, rfl⟩ := getLast?_eq_some_iff.mp h
  rw [significant_append, significant_cons_of_word hx, significant_nil, getLast?_concat]

private theorem endsStatement_trivia {x : Lexeme} (h : endsStatement (bare x) = true) :
    x.isTrivia = false := by
  unfold endsStatement at h
  cases hk : x.kind <;> simp_all [bare, isTrivia]

private theorem holds_indent (h : Holds xs ss) : Holds (indent d ++ xs) ss := by
  unfold indent
  split
  · exact h
  · exact .skip (.inl rfl) h

theorem holds_line (note : List Lexeme) {last : Lexeme} (hcore : Closed core)
    (hlast : core.getLast? = some last) (hends : endsStatement (bare last) = true)
    (hnote : ∀ y ∈ note, y.isTrivia = true ∧ y.endsLine = false) :
    Holds (Line.full ⟨d, core ++ note⟩) [significant core] := by
  have hne : core ≠ [] := by rintro rfl; simp at hlast
  have hline := Holds.statement hcore (getLast?_significant hlast (endsStatement_trivia hends))
    hends hnote (x := lineFeed) rfl .nil
  simpa [Line.full, hne] using holds_indent hline

theorem holds_comment : Holds (Line.comment d text).full [] := by
  have hskip : Holds [.lineComment text, lineFeed] [] := .skip (.inl rfl) (.skip (.inr rfl) .nil)
  simpa [Line.full, Line.comment] using holds_indent hskip

theorem holds_block {o c : Lexeme} {lines : List Line} (hheader : header = pre ++ [o])
    (hpre : Closed pre) (ho : o.isOpener = true) (hc : c.isCloser = true)
    (hm : closerOf o.text = c.text) (hlines : Balanced (lines.flatMap Line.full)) :
    Holds ((Line.mk 0 header :: lines ++ [Line.mk 0 [c]]).flatMap Line.full)
      [significant (pre ++ o :: (lineFeed :: lines.flatMap Line.full ++ [c]))] := by
  have hinside := balanced_inside 0 hlines
  have hcore := hpre.append (.wrap ho hc hm hinside)
  have hword : c.kind = .punct := by
    simp only [isCloser, Bool.and_eq_true, decide_eq_true_eq] at hc
    exact hc.1
  have hlast : (pre ++ o :: (lineFeed :: (lines.flatMap Line.full ++ indent 0) ++ [c])).getLast? =
      some c := by
    rw [← cons_append, ← append_assoc, getLast?_concat]
  have hends : endsStatement (bare c) = true := by
    simp [endsStatement, bare, hword, hc]
  have hall := Holds.statement hcore
    (getLast?_significant hlast (endsStatement_trivia hends)) hends
    (by simp : ∀ y ∈ ([] : List Lexeme), _) (x := lineFeed) rfl .nil
  rw [hheader, flatMap_block]
  simpa [indent] using hall

/-- Lines that scan and the statements that they hold. -/
structure Spells (lines : List Line) (ss : List (List Lexeme)) : Prop where
  proper : ∀ l ∈ lines, l.Proper
  holds : Holds (lines.flatMap Line.full) ss

namespace Spells

variable {ls ls' : List Line} {ss ss' : List (List Lexeme)}
variable {d : Nat} {core : List Lexeme}

theorem nil : Spells [] [] := ⟨by simp, .nil⟩

theorem append (h : Spells ls ss) (h' : Spells ls' ss') : Spells (ls ++ ls') (ss ++ ss') := by
  refine ⟨forall_mem_append.mpr ⟨h.proper, h'.proper⟩, ?_⟩
  rw [flatMap_append]
  exact h.holds.append h'.holds

theorem comment (h : '\n' ∉ text.toList) : Spells [.comment d text] [] := by
  refine ⟨by simpa using Line.proper_comment h, ?_⟩
  simpa using holds_comment

theorem line (hrow : Row core) (hclosed : Closed core) (hsolid : ∀ x ∈ core.head?, x.kind ≠ .space)
    (hne : core ≠ []) (hends : ∀ x ∈ core.getLast?, endsStatement (bare x) = true) :
    Spells [⟨d, core⟩] [significant core] := by
  obtain ⟨last, hlast⟩ := Option.ne_none_iff_exists'.mp (mt getLast?_eq_none_iff.mp hne)
  refine ⟨by simpa using ⟨hrow, hsolid⟩, ?_⟩
  simpa using holds_line [] hclosed hlast (hends last hlast) (by simp)

theorem phrase (h : Phrase core) (hne : core ≠ [])
    (hends : ∀ x ∈ core.getLast?, endsStatement (bare x) = true) :
    Spells [⟨d, core⟩] [significant core] := line h.row h.closed h.solid hne hends

theorem noted {note : String} (h : Phrase core) (hne : core ≠ [])
    (hends : ∀ x ∈ core.getLast?, endsStatement (bare x) = true) (hnote : '\n' ∉ note.toList) :
    Spells [⟨d, core ++ Stmt.noteLexemes note⟩] [significant core] := by
  obtain ⟨last, hlast⟩ := Option.ne_none_iff_exists'.mp (mt getLast?_eq_none_iff.mp hne)
  have hcomment : (lineComment note).endsLine = false := by
    simpa [endsLine, lineComment] using hnote
  refine ⟨?_, ?_⟩
  · simp only [mem_singleton, forall_eq]
    exact ⟨h.noted hnote, h.solid_append hne _⟩
  · simpa using holds_line (Stmt.noteLexemes note) h.closed hlast
      (hends last hlast) (by simpa [Stmt.noteLexemes] using ⟨⟨rfl, rfl⟩, rfl, hcomment⟩)

theorem block (pre : List Lexeme) {o c : String} {lines : List Line}
    (hheader : header = pre ++ [punct o]) (hrow : Row header)
    (hsolid : ∀ x ∈ header.head?, x.kind ≠ .space) (hpre : Closed pre) (hp : (o, c) ∈ bracketPairs)
    (hlines : Block lines) :
    Spells (⟨0, header⟩ :: lines ++ [⟨0, [.punct c]⟩])
      [significant (pre ++ .punct o :: (lineFeed :: lines.flatMap Line.full ++
        [punct c]))] := by
  obtain ⟨-, -, -, hmem, -, hslash, ho, hc, hm, -⟩ := bracketPairs_spec _ hp
  refine ⟨?_, holds_block hheader hpre ho hc hm hlines.balanced⟩
  rw [forall_mem_append, forall_mem_cons, forall_mem_singleton]
  exact ⟨⟨⟨hrow, hsolid⟩, hlines.proper⟩, Line.proper_punct hmem hslash⟩

end Spells

theorem endsStatement_of_tail {x : Lexeme} (h : x.isTail = true) (hne : x ≠ .punct "...") :
    endsStatement (bare x) = true := by
  rcases isTail_cases h with hk | hk | hk | ⟨hk, ht⟩
  · simp [endsStatement, bare, hk]
  · simp [endsStatement, bare, hk]
  · simp [endsStatement, bare, hk]
  · have htext : x.text ≠ "..." := fun ht => hne (by cases x; simp_all [punct])
    simp only [endsStatement, bare, hk, isCloser]
    grind

theorem Phrase.ends {ys : List Lexeme} (h : Phrase ys) (hne : ys ≠ [])
    (hlast : ∀ x ∈ ys.getLast?, x ≠ .punct "...") (pre : List Lexeme) :
    ∀ x ∈ (pre ++ ys).getLast?, endsStatement (bare x) = true := by
  rw [getLast?_append_of_ne_nil _ hne]
  exact fun x hx => endsStatement_of_tail (h.tails x hx) (hlast x hx)

theorem TypeExpr.getLast?_ne_ellipsis (t : TypeExpr) :
    ∀ x ∈ t.lexemes.getLast?, x ≠ .punct "..." := by
  induction t with
  | name | qualified | anything =>
    simp [lexemes, ident, punct, closeBrace]
  | pointer t ih =>
    have heq : t.pointer.lexemes = [punct "*"] ++ t.lexemes := rfl
    rwa [heq, getLast?_append_of_ne_nil _ t.lexemes_ne_nil]
  | slice t ih =>
    have heq : t.slice.lexemes = [punct "[", .punct "]"] ++ t.lexemes := rfl
    rwa [heq, getLast?_append_of_ne_nil _ t.lexemes_ne_nil]
  | map k v _ ih =>
    have heq : (k.map v).lexemes =
        (.ident "map" :: .punct "[" :: (k.lexemes ++ [punct "]"])) ++ v.lexemes := by
      simp [lexemes]
    rwa [heq, getLast?_append_of_ne_nil _ v.lexemes_ne_nil]

theorem Expr.getLast?_ne_ellipsis (h : e.isAtom = true) :
    ∀ x ∈ e.lexemes.getLast?, x ≠ .punct "..." := by
  have hfirm {e : Expr} (h : e.isOperand = true) : ∀ x ∈ e.lexemes.getLast?, x ≠ .punct "..." := by
    rintro x hx rfl
    exact absurd (isFirm_of_isOperand h _ hx) (by decide)
  cases e with
  | number text =>
    rw [lexemes, Lexeme.number]
    split <;> simp [punct]
  | literal text => simp [lexemes, Lexeme.literal, punct]
  | _ => exact hfirm h

end Statements

namespace Decl

variable {R : Rules}
variable {name : String} {type : TypeExpr}

private theorem is_comma_of_start {x : Lexeme} (hs : x.Stands) (h : x.isStart = true) :
    x.is "," = false := by
  refine Bool.eq_false_iff.mpr fun his => ?_
  have hk := hs.1.kind_of_is (by decide) his
  simp [isStart, hk, text_of_is his] at h

private theorem head_not_comma (ys : List Lexeme) (h : Phrase xs) (hne : xs ≠ []) :
    ∀ x ∈ (significant xs ++ ys).head?, x.is "," = false := by
  cases xs with
  | nil => exact absurd rfl hne
  | cons x xs =>
    have hstart := h.starts x rfl
    have hword : x.isTrivia = false := by
      rcases isStart_cases hstart with hk | hk | hk | ⟨hk, -⟩ <;>
        simp [isTrivia, hk]
    rw [significant_cons_of_word hword]
    simpa using is_comma_of_start (h.row.stands x (by simp)) hstart

private theorem value_core (hR : R.Proper) (sort : ValueSort) {type : Option TypeExpr}
    (hname : IsName name) (htype : ∀ t ∈ type, t.Valid R) (he : e.Valid R)
    (hatom : e.isAtom = true) :
    ∃ core, Phrase core ∧ core ≠ [] ∧
      (∀ x ∈ core.getLast?, endsStatement (bare x) = true) ∧
      Declares (significant core) (Binding.ofName name) ∧
      (value sort name type e none).lines = [⟨0, core⟩] ∧
      ∀ text, (value sort name type e (some text)).lines =
        [⟨0, core ++ Stmt.noteLexemes text⟩] := by
  have hkey : IsName sort.keyword := by cases sort <;> decide
  have hvalue := e.phrase hR he
  have hends {left : List Lexeme} : ∀ x ∈ (.ident sort.keyword :: .blank :: (left ++ .blank ::
      .punct "=" :: .blank :: e.lexemes)).getLast?, endsStatement (bare x) = true := by
    have heq : .ident sort.keyword :: .blank :: (left ++ .blank :: .punct "=" :: .blank ::
        e.lexemes) = (.ident sort.keyword :: .blank ::
          (left ++ [Lexeme.blank, .punct "=", .blank])) ++ e.lexemes := by simp
    rw [heq]
    exact hvalue.ends e.lexemes_ne_nil (Expr.getLast?_ne_ellipsis hatom) _
  cases type with
  | none =>
    have hcore := (phrase_binary "=" (phrase_name hname) hvalue (by simp) e.lexemes_ne_nil
      (by decide) (by decide) (by decide)).after_keyword sort.keyword (by simp) hkey
    refine ⟨_, hcore, by simp, hends, ?_, by simp [lines], by simp [lines]⟩
    simpa using Declares.value sort (.punct "=" :: significant e.lexemes) hname
      (by simpa using (by decide : (punct "=").is "," = false))
  | some t =>
    have ht := TypeExpr.phrase hR (htype t rfl)
    have hleft := phrase_blank (phrase_name hname) ht (by simp) t.lexemes_ne_nil
    have hcore := (phrase_binary "=" hleft hvalue (by simp) e.lexemes_ne_nil
      (by decide) (by decide) (by decide)).after_keyword sort.keyword (by simp) hkey
    refine ⟨_, hcore, by simp, hends, ?_, by simp [lines], by simp [lines]⟩
    have hdecl := Declares.value sort _ hname (head_not_comma
      (.punct "=" :: significant e.lexemes) ht t.lexemes_ne_nil)
    simpa using hdecl

private theorem spells_value (hR : R.Proper) (sort : ValueSort) {type : Option TypeExpr}
    {note : Option String} (h : (value sort name type e note).Valid R) :
    ∃ s, Spells (value sort name type e note).lines [s] ∧ Declares s (Binding.ofName name) := by
  obtain ⟨hname, htype, he, hatom, hnote⟩ := h
  obtain ⟨core, hcore, hne, hends, hdecl, hplain, hnoted⟩ :=
    value_core hR sort hname htype he hatom
  refine ⟨significant core, ?_, hdecl⟩
  cases note with
  | none =>
    rw [hplain]
    exact .phrase hcore hne hends
  | some text =>
    rw [hnoted]
    exact .noted hcore hne hends (hnote text rfl hR.strict)

private theorem spells_entries {α β : Type} {line : α → Line} {parts : α → List β}
    {P : List Lexeme → β → Prop} {entries : List α}
    (h : ∀ e ∈ entries, ∃ ss, Spells [line e] ss ∧ Forall₂ P ss (parts e)) :
    ∃ ss, Spells (entries.map line) ss ∧ Forall₂ P ss (entries.flatMap parts) := by
  induction entries with
  | nil => exact ⟨[], .nil, .nil⟩
  | cons e entries ih =>
    obtain ⟨ss, hss, hP⟩ := h e (by simp)
    obtain ⟨ts, hts, hP'⟩ := ih fun e' he => h e' (by simp [he])
    exact ⟨ss ++ ts, hss.append hts, rel_append hP hP'⟩

private theorem spells_group (keyword : String) {lines : List Line} (hkey : IsName keyword)
    (h : Spells lines ss) :
    ∃ inside, Holds inside ss ∧
      Spells (⟨0, [.ident keyword, .blank, .punct "("]⟩ :: lines ++ [⟨0, [.punct ")"]⟩])
        [.ident keyword :: .punct "(" :: (inside ++ [punct ")"])] := by
  refine ⟨significant (lineFeed :: lines.flatMap Line.full), ?_, ?_⟩
  · exact h.holds.without_trivia.skip_line
  have hrow : Row [.ident keyword, .blank, .punct "("] :=
    .cons hkey.stands (.blank (.single (stands_punct (by decide) (by decide)))
      (by simp [punct])) (by simp)
  have hblock := Spells.block [.ident keyword, .blank] (c := ")") rfl hrow
    (by simp [ident]) ((closed_word hkey.stands (.inl rfl)).append closed_blank)
    (by decide) ⟨h.proper, h.holds.balanced⟩
  simpa [significant_cons_of_line (x := lineFeed) rfl] using hblock

private theorem spells_constEntry (hR : R.Proper) {e : ConstEntry} (h : e.Valid R) :
    ∃ ss, Spells [e.line] ss ∧ Forall₂ NamesOne ss e.names := by
  cases e with
  | comment text => exact ⟨[], .comment (h hR.strict), .nil⟩
  | constant name type n =>
    have hnumber := Expr.phrase_number (isNumber_int n.toInt)
    have hne : Lexeme.number (toString n.toInt) ≠ [] := (Expr.int n.toInt).lexemes_ne_nil
    have hleft := phrase_blank (phrase_name h.1) (phrase_name h.2) (by simp) (by simp)
    have hcore := phrase_binary "=" hleft hnumber (by simp) hne (by decide) (by decide)
      (by decide)
    refine ⟨_, .phrase hcore (by simp) ?_, .cons ?_ .nil⟩
    · exact hnumber.ends hne (Expr.getLast?_ne_ellipsis (e := .int n.toInt) rfl)
        [.ident name, .blank, .ident type, .blank, .punct "=", .blank]
    · refine ⟨.ident type :: .punct "=" :: significant (Lexeme.number (toString n.toInt)),
        by simp, ?_⟩
      simpa using h.2.is_eq_false _ (by decide)

private theorem spells_importEntry (hR : R.Proper) {e : ImportEntry} (h : e.Valid R) :
    ∃ ss, Spells [e.line] ss ∧ Forall₂
      (fun s (part : String × String) => s = [.ident part.1, .literal (Text.quote part.2)]) ss
      e.parts := by
  cases e with
  | named name path =>
    have hpath : Phrase [.literal (Text.quote path)] :=
      .word (stands_quote path) (.inr (.inr rfl))
    have hcore := phrase_blank (phrase_name h) hpath (by simp) (by simp)
    refine ⟨_, .phrase hcore (by simp) (by simp [endsStatement, bare, Lexeme.literal]),
      .cons ?_ .nil⟩
    simp
  | weak name path =>
    refine ⟨[], .comment ?_, .nil⟩
    have hquote := Text.lineFeed_not_mem_quote path
    have hname : '\n' ∉ name.toList := h hR.strict
    simp [hname, hquote]

theorem spells_imports (hR : R.Proper) {entries : List ImportEntry}
    (h : ∀ e ∈ entries, e.Valid R) : ∃ s, Spells (imports entries).lines [s] ∧ ImportsGroup s := by
  obtain ⟨ss, hss, hspecs⟩ := spells_entries fun e he => spells_importEntry hR (h e he)
  obtain ⟨inside, hholds, hgroup⟩ := spells_group "import" (by decide) hss
  refine ⟨_, hgroup, inside, ss, rfl, hholds, fun spec hspec => ?_⟩
  obtain ⟨part, -, heq⟩ := exists_of_mem_forall₂ hspecs hspec
  exact ⟨part.1, part.2, heq⟩

private theorem spells_constants (hR : R.Proper) {entries : List ConstEntry}
    (h : ∀ e ∈ entries, e.Valid R) : ∃ s, Spells (constants entries).lines [s] ∧
      Declares s ((entries.flatMap ConstEntry.names).flatMap Binding.ofName) := by
  obtain ⟨ss, hss, hspecs⟩ := spells_entries fun e he => spells_constEntry hR (h e he)
  obtain ⟨inside, hholds, hgroup⟩ := spells_group "const" (by decide) hss
  exact ⟨_, hgroup, .group .const hholds hspecs⟩

theorem spells_package (h : IsName name) :
    Spells (package name).lines [[.ident "package", .ident name]] := by
  have hcore := (phrase_name h).after_keyword "package" (by simp) (by decide)
  have hline := Spells.phrase (d := 0) hcore (by simp) (by simp [endsStatement, bare, ident])
  simpa [lines] using hline

private theorem spells_typeDef (hR : R.Proper) (hname : IsName name) (htype : type.Valid R) :
    ∃ s, Spells (typeDef name type).lines [s] ∧ Declares s (Binding.ofName name) := by
  have ht := TypeExpr.phrase hR htype
  have hcore := (phrase_blank (phrase_name hname) ht (by simp) type.lexemes_ne_nil).after_keyword
    "type" (by simp) (by decide)
  refine ⟨_, .phrase hcore (by simp) ?_, by simpa using Declares.type _ hname⟩
  exact ht.ends type.lexemes_ne_nil type.getLast?_ne_ellipsis
    [.ident "type", .blank, .ident name, .blank]

private theorem spells_braced {lines : List Line}
    (hheader : header = pre ++ [Lexeme.blank, .openBrace]) (hpre : Phrase pre) (hne : pre ≠ [])
    (hlines : Block lines) :
    ∃ rest, Spells (⟨0, header⟩ :: lines ++ [⟨0, [.closeBrace]⟩]) [significant pre ++ rest] := by
  have hblock := Spells.block (pre ++ [Lexeme.blank]) (o := "\x7b") (c := "\x7d")
    (by simp [openBrace]) hpre.opened (hpre.proper_opened (d := 0) hne).solid
    (hpre.closed.append closed_blank) (by decide) hlines
  rw [append_assoc, significant_append] at hblock
  rw [hheader]
  exact ⟨_, hblock⟩

private theorem phrase_typeHead (keyword : String) (hname : IsName name) (hkey : IsName keyword) :
    Phrase [.ident "type", .blank, .ident name, .blank, .ident keyword] :=
  (phrase_blank (phrase_name hname) (phrase_name hkey) (by simp) (by simp)).after_keyword "type"
    (by simp) (by decide)

private theorem spells_struct (hR : R.Proper) {members : List Member} (hname : IsName name)
    (h : ∀ m ∈ members, m.Valid R) :
    ∃ s, Spells (struct name members).lines [s] ∧ Declares s (Binding.ofName name) := by
  obtain ⟨rest, hspells⟩ := spells_braced rfl
    (phrase_typeHead "struct" hname (by decide)) (by simp)
    (.map fun m hm => Member.block_line hR (h m hm))
  exact ⟨_, hspells, by simpa using Declares.type _ hname⟩

private theorem spells_closed {braces : List Lexeme} (hcore : core = pre ++ braces)
    (hpre : Phrase pre) (hne : pre ≠ []) (hrow : Row braces) (hclosed : Closed braces)
    (hhead : ∀ x ∈ braces.head?, x = .blank ∨ x = .openBrace)
    (hlast : braces.getLast? = some .closeBrace) :
    Spells [⟨0, core⟩] [significant pre ++ significant braces] := by
  rw [hcore, ← significant_append]
  refine .line (hpre.row.append hrow ?_) (hpre.closed.append hclosed) ?_ (by simp [hne]) ?_
  · intro x hx y hy
    rcases hhead y hy with rfl | rfl
    · exact meets_blank_of_tail (hpre.tails x hx)
    · exact meets_closer (by decide) (hpre.tails x hx)
  · exact hpre.solid_append hne _
  · rw [getLast?_append, hlast]
    simp [endsStatement, bare, closeBrace, punct, isCloser]

private theorem getLast?_braced (xs : List Lexeme) :
    (openBrace :: .blank :: (xs ++ [Lexeme.blank, .closeBrace])).getLast? =
      some .closeBrace := by
  have heq : openBrace :: .blank :: (xs ++ [Lexeme.blank, .closeBrace]) =
      (.openBrace :: .blank :: (xs ++ [Lexeme.blank])) ++ [closeBrace] := by simp
  rw [heq, getLast?_concat]

private theorem spells_wrapper (hR : R.Proper) {field : String}
    (h : (wrapper name field type tag).Valid R) :
    ∃ s, Spells (wrapper name field type tag).lines [s] ∧ Declares s (Binding.ofName name) := by
  obtain ⟨hname, hfield, htype, htag⟩ := h
  have hpre := phrase_typeHead "struct" hname (by decide)
  have hinside := phrase_blank (phrase_name hfield) (phrase_blank (TypeExpr.phrase hR htype)
    (phrase_tag hR htag) type.lexemes_ne_nil (by simp)) (by simp) (by simp)
  obtain ⟨hrow, hclosed⟩ := hinside.braced (by simp)
  refine ⟨_, spells_closed (by simp) hpre (by simp) hrow hclosed (by simp) (getLast?_braced _), ?_⟩
  simpa using Declares.type _ hname

private theorem spells_interface {method : String} (hname : IsName name) (hmethod : IsName method) :
    ∃ s, Spells (interface name method).lines [s] ∧ Declares s (Binding.ofName name) := by
  have hpre := phrase_typeHead "interface" hname (by decide)
  have hinside := (phrase_name hmethod).applied (by simp) .nil (o := "(") (c := ")") (by decide)
  obtain ⟨hrow, hclosed⟩ := hinside.braced (by simp)
  have hblank := hrow.blank (by simp [openBrace, punct])
  refine ⟨_, spells_closed (by simp) hpre (by simp) hblank (closed_blank.append hclosed) (by simp)
    (by rw [getLast?_cons_cons, getLast?_braced]), ?_⟩
  simpa using Declares.type _ hname

private theorem spells_table (hR : R.Proper) {pointer : Bool} {entries : List Entry}
    (hname : IsName name) (htype : type.Valid R) (h : ∀ e ∈ entries, e.Valid R) :
    ∃ s, Spells (table name pointer type entries).lines [s] ∧ Declares s (Binding.ofName name) := by
  have ht := TypeExpr.phrase hR htype
  have hliteral : Phrase ((if pointer then [.punct "&"] else []) ++ type.lexemes) := by
    cases pointer with
    | false => exact ht
    | true =>
      refine phrase_cons_punct (by decide) ht type.lexemes_ne_nil ?_
      exact fun x hx => ampersand_meets (ht.starts x hx) (Expr.head_ne_ampersand_of_type type x hx)
  have hne : (if pointer then [.punct "&"] else []) ++ type.lexemes ≠ [] := by
    simp [type.lexemes_ne_nil]
  have hpre := (phrase_binary "=" (phrase_name hname) hliteral (by simp) hne (by decide)
    (by decide) (by decide)).after_keyword "var" (by simp) (by decide)
  have hopen : Line.Proper ⟨0, _ ++ [punct "\x7b"]⟩ :=
    hpre.proper_ended (by simp) (by decide)
  have hblock := Spells.block _ rfl hopen.row hopen.solid hpre.closed (c := "\x7d")
    (by decide) (.map fun e he => Entry.block_line hR (h e he))
  refine ⟨_, by simpa [lines, openBrace, closeBrace] using hblock, ?_⟩
  simpa [ValueSort.keyword] using Declares.value .var (.punct "=" :: _) hname
    (by simpa using (by decide : (punct "=").is "," = false))

private theorem spells_func (hR : R.Proper) (h : f.Valid R) :
    ∃ s, Spells (func f).lines [s] ∧ Declares s f.bindings := by
  obtain ⟨xs, hxs, hne, heq, hdecl⟩ := Func.header_spec hR h
  have hbody := h.body
  have hblank {ys : List Lexeme} (hrow : Row (.openBrace :: ys)) :
      Row (.blank :: .openBrace :: ys) := hrow.blank (by simp [openBrace, punct])
  simp only [lines, Func.lines, heq]
  cases hb : f.body with
  | empty =>
    obtain ⟨hrow, hclosed⟩ := Phrase.nil.wrap (o := "\x7b") (c := "\x7d") (by decide)
    exact ⟨_, spells_closed (append_assoc ..) hxs hne (hblank hrow)
      (closed_blank.append hclosed) (by simp) (by simp), hdecl _⟩
  | line s =>
    rw [hb] at hbody
    obtain ⟨hrow, hclosed⟩ := (s.phrase hR hbody).braced Simple.lexemes_ne_nil
    exact ⟨_, spells_closed (append_assoc ..) hxs hne (hblank hrow)
      (closed_blank.append hclosed) (by simp)
      (by rw [singleton_append, getLast?_cons_cons, getLast?_braced]), hdecl _⟩
  | block body =>
    rw [hb] at hbody
    obtain ⟨rest, hspells⟩ := spells_braced (append_assoc xs [_] [_]) hxs hne
      (Stmt.linesAll_block hR 1 body hbody)
    exact ⟨_, hspells, hdecl rest⟩

/-- Whether a declaration stands after the imports. -/
def isBody : Decl → Bool
  | package _ | imports _ => false
  | _ => true

/-- Whether a declaration declares nothing. -/
def isRemark : Decl → Bool
  | blank | comment _ | blockComment _ => true
  | _ => false

theorem spells_remark (hR : R.Proper) (h : d.Valid R) (hremark : d.isRemark = true) :
    Spells d.lines [] := by
  cases d with
  | blank =>
    refine ⟨by simpa [lines] using ⟨Row.nil, by simp [Line.blank]⟩, ?_⟩
    exact Holds.nil.skip_line
  | comment text => exact .comment (h hR.strict)
  | blockComment texts =>
    refine ⟨by simpa [lines] using ⟨Row.single h, by simp⟩, ?_⟩
    exact .skip (.inl rfl) Holds.nil.skip_line
  | _ => simp [isRemark] at hremark

def bindings : Decl → List Binding
  | value _ name _ _ _ | typeDef name _ | struct name _ | wrapper name _ _ _ | interface name _
  | table name _ _ _ => Binding.ofName name
  | constants entries => (entries.flatMap ConstEntry.names).flatMap Binding.ofName
  | func f => f.bindings
  | blank | comment _ | blockComment _ | package _ | imports _ => []

/-- The lines of a valid declaration scan, and its statement, if there is one, declares what the
declaration binds. -/
theorem spells (hR : R.Proper) (h : d.Valid R) (hbody : d.isBody = true) :
    ∃ ss bs, Spells d.lines ss ∧ Forall₂ Declares ss bs ∧ bs.flatten = d.bindings := by
  have hone (h : ∃ s, Spells d.lines [s] ∧ Declares s d.bindings) :
      ∃ ss bs, Spells d.lines ss ∧ Forall₂ Declares ss bs ∧ bs.flatten = d.bindings := by
    obtain ⟨s, hs, hd⟩ := h
    exact ⟨[s], [d.bindings], hs, .cons hd .nil, by simp⟩
  cases d with
  | blank | comment | blockComment => exact ⟨[], [], spells_remark hR h rfl, .nil, rfl⟩
  | package | imports => simp [isBody] at hbody
  | value sort => exact hone (spells_value hR sort h)
  | constants => exact hone (spells_constants hR h)
  | typeDef => exact hone (spells_typeDef hR h.1 h.2)
  | struct => exact hone (spells_struct hR h.1 h.2)
  | wrapper => exact hone (spells_wrapper hR h)
  | interface => exact hone (spells_interface h.1 h.2)
  | table => exact hone (spells_table hR h.1 h.2.1 h.2.2)
  | func => exact hone (spells_func hR h)

end Decl

end GoBindings.Go
