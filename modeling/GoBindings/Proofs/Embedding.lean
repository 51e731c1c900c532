import GoBindings.Descriptor.Read
import GoBindings.Proofs.Protocol
import GoBindings.Proofs.Rows
import GoBindings.Proofs.Summaries
import GoBindings.Proofs.Tails

/-!
# Embedded descriptors

The rows of bytes at the end of a generated file are laid out as the reader of such rows expects
them, whatever plugins have printed before them.
-/

namespace GoBindings

open List Schema Go Descriptor Lexeme Setup

variable {content : String} {body : Printer} {i : Nat}

section Shifts

def Go.Line.shifted (k : Nat) (l : Line) : Line := ⟨k + l.depth, l.lexemes⟩

theorem Printer.decls_body_shifted {p : Printer} (henabled : p.enabled = true) (ds : List Decl) :
    (p.decls ds).body =
      p.body ++ linesText ((ds.flatMap Decl.lines).map (Line.shifted p.depth)) := by
  rw [decls, lines, if_pos henabled, linesText, map_map]
  rfl

end Shifts

namespace Embedded

section Tables

variable (k : Nat) (name : String) (bs : List UInt8)
variable {xs : List Lexeme}

def heading : List Lexeme :=
  [.ident "var", .blank, .ident name, .blank, .punct "=", .blank, .punct "[", .punct "]",
    .ident "byte", .openBrace]

def rowLexemes : List Lexeme := bs.flatMap fun b => [⟨.number, byteText b⟩, .punct ","]

/-- The rows of bytes with the comment above them. -/
def innerLines : List Line :=
  ⟨k + 1, [.lineComment (" " ++ toString bs.length ++ remark)]⟩ ::
    (chunks bs).map fun row => ⟨k + 1, rowLexemes row⟩

def tableLines : List Line := ⟨k, heading name⟩ :: innerLines k bs ++ [⟨k, [.closeBrace]⟩]

theorem table_lines : (Decl.table name false .bytes (entries bs)).lines.map (Line.shifted k) =
    tableLines k name bs := by
  have hnumber (b : UInt8) : number (byteText b) = [⟨.number, byteText b⟩] := by
    rw [number, byteText, String.toList_ofList]
    split <;> simp_all
  have hrow (row : List UInt8) : (Embedded.row row).line = ⟨1, rowLexemes row⟩ := by
    simp [Embedded.row, Entry.line, rowLexemes, flatMap_map, Expr.lexemes, hnumber]
  have hcomment (text : String) : (Entry.comment text).line = ⟨1, [.lineComment text]⟩ := rfl
  simp [Decl.lines, entries, tableLines, innerLines, Line.shifted, hrow, hcomment, heading,
    TypeExpr.lexemes]

/-- A lexeme that is neither a gap nor a bracket nor a word. -/
private def IsInner (x : Lexeme) : Prop := x.kind = .comment ∨ x.kind = .number ∨ x = .punct ","

private theorem IsInner.plain {x : Lexeme} (h : IsInner x) : x.kind ≠ .space ∧ x.kind ≠ .newline ∧
    x.kind ≠ .ident ∧ x.isOpener = false ∧ x.isCloser = false := by
  rcases h with h | h | rfl
  · simp [isOpener, isCloser, h]
  · simp [isOpener, isCloser, h]
  · decide

private theorem isInner_innerLines : ∀ l ∈ innerLines k bs, ∀ x ∈ l.lexemes, IsInner x := by
  simp only [innerLines, forall_mem_cons, forall_mem_map]
  refine ⟨⟨.inl rfl, by simp⟩, fun row _ x hx => ?_⟩
  obtain ⟨b, -, hx⟩ := mem_flatMap.mp hx
  simp only [mem_cons, not_mem_nil, or_false] at hx
  rcases hx with rfl | rfl
  · exact .inr (.inl rfl)
  · exact .inr (.inr rfl)

private theorem innerLines_ne_nil : ∀ l ∈ innerLines k bs, l.lexemes ≠ [] := by
  simp only [innerLines, forall_mem_cons, forall_mem_map]
  refine ⟨cons_ne_nil _ _, fun row hrow => ?_⟩
  obtain ⟨b, row, rfl⟩ := exists_cons_of_ne_nil (chunks_ne_nil bs row hrow)
  exact cons_ne_nil _ _

private theorem balanced_tableLines : Balanced ((tableLines k name bs).flatMap Line.full) := by
  have hplain {xs : List Lexeme} (h : ∀ x ∈ xs, x.isOpener = false ∧ x.isCloser = false) :
      Balanced xs := by
    induction xs with
    | nil => exact .nil
    | cons x xs ih =>
      rw [forall_mem_cons] at h
      exact .append (.plain h.1.1 h.1.2) (ih h.2)
  have hheading : heading name = [ident "var", .blank, .ident name, .blank, .punct "=",
      .blank] ++ ([punct "[", .punct "]"] ++ [ident "byte"]) ++
        [openBrace] := rfl
  refine balanced_block k hheading (.append (hplain ?_) (.append ?_ (.plain rfl rfl))) ?_
  · simp [isOpener, isCloser, ident, blank, punct]
  · exact .wrap rfl rfl rfl .nil
  · exact balanced_flatMap fun l hl => hplain fun x hx =>
      (isInner_innerLines k bs l hl x hx).plain.2.2.2

private theorem depthAfterAll_plain (h : ∀ x ∈ xs, x.isOpener = false ∧ x.isCloser = false)
    (d : Nat) : depthAfterAll d (xs.map bare) = d := by
  induction xs with
  | nil => rfl
  | cons x xs ih =>
    rw [forall_mem_cons] at h
    have hx : depthAfter d (bare x) = d := by simp [depthAfter, bare, h.1]
    exact (congrArg (depthAfterAll · (xs.map bare)) hx).trans (ih h.2)

private theorem depthAfterAll_indent (d n : Nat) : depthAfterAll d ((indent n).map bare) = d := by
  refine depthAfterAll_plain ?_ d
  rw [indent]
  split <;> simp [isOpener, isCloser]

private theorem depthAfterAll_append (d : Nat) (xs ys : List Lexeme) :
    depthAfterAll d ((xs ++ ys).map bare) =
      depthAfterAll (depthAfterAll d (xs.map bare)) (ys.map bare) := by
  rw [map_append]
  exact foldl_append

private theorem spacedLexemes_of_ne (h : ∀ x ∈ xs, x.kind ≠ .space) :
    spacedLexemes false xs = xs := by
  induction xs with
  | nil => rfl
  | cons x xs ih =>
    rw [forall_mem_cons] at h
    rw [spacedLexemes, if_neg h.1, ih h.2]
    rfl

private theorem relaidLine_inner {l : Line} (hproper : l.Proper) (hne : l.lexemes ≠ [])
    (hinner : ∀ x ∈ l.lexemes, IsInner x) (d : Nat) :
    relaidLine d l.indented = indent d ++ l.lexemes := by
  have hspaces : ∀ x ∈ l.lexemes, x.kind ≠ .space := fun x hx => (hinner x hx).plain.1
  have hwords : l.lexemes.filter (·.kind ≠ .space) = l.lexemes :=
    filter_eq_self.mpr fun x hx => by simpa using hspaces x hx
  have hindentation : indentation d (l.lexemes.map bare) = d := by
    obtain ⟨x, xs, hxs⟩ := exists_cons_of_ne_nil hne
    have hx := (hinner x (by simp [hxs])).plain
    simp [hxs, indentation, bare, hx]
  rw [hproper.relaidLine_indented hne, hwords, hindentation, spacedLexemes_of_ne hspaces]

private theorem relaidLines_inner {ls : List Line} (hproper : ∀ l ∈ ls, l.Proper)
    (hne : ∀ l ∈ ls, l.lexemes ≠ []) (hinner : ∀ l ∈ ls, ∀ x ∈ l.lexemes, IsInner x) (d : Nat)
    (rest : List (List Lexeme)) :
    relaidLines d (ls.map Line.indented ++ rest) =
      ls.map (fun l => indent d ++ l.lexemes) ++ relaidLines d rest := by
  induction ls with
  | nil => rfl
  | cons l ls ih =>
    rw [forall_mem_cons] at hproper hne hinner
    have hdepth : depthAfterAll d (l.indented.map bare) = d := by
      rw [Line.indented, depthAfterAll_append, depthAfterAll_indent]
      exact depthAfterAll_plain (fun x hx => (hinner.1 x hx).plain.2.2.2) d
    rw [map_cons, cons_append, relaidLines, hdepth,
      relaidLine_inner hproper.1 hne.1 hinner.1, ih hproper.2 hne.2 hinner.2]
    rfl

private theorem relaidLines_tableLines (hproper : ∀ l ∈ tableLines k name bs, l.Proper) :
    relaidLines 0 ((tableLines k name bs).map Line.indented) =
      (tableLines 0 name bs).map Line.indented := by
  simp only [tableLines, cons_append, forall_mem_cons, forall_mem_append,
    not_mem_nil, false_implies, implies_true, and_true] at hproper
  obtain ⟨hheading, hinner, hclose⟩ := hproper
  have hopen : depthAfterAll 0 ((Line.mk k (heading name)).indented.map bare) = 1 := by
    rw [Line.indented, depthAfterAll_append, depthAfterAll_indent]
    rfl
  have hfirst : relaidLine 0 (Line.mk k (heading name)).indented = heading name := by
    rw [hheading.relaidLine_indented (cons_ne_nil _ _)]
    rfl
  have hlast : relaidLine 1 (Line.mk k [.closeBrace]).indented = [.closeBrace] := by
    rw [hclose.relaidLine_indented (cons_ne_nil _ _)]
    rfl
  have hdepth : (innerLines k bs).map (fun l => indent 1 ++ l.lexemes) =
      (innerLines 0 bs).map Line.indented := by
    simp [innerLines, Line.indented]
  rw [tableLines, cons_append, map_cons, map_append, relaidLines, hfirst, hopen,
    relaidLines_inner hinner (innerLines_ne_nil k bs) (isInner_innerLines k bs), hdepth,
    map_singleton, relaidLines, hlast, tableLines, cons_append,
    map_cons, map_append]
  rfl

private theorem not_mem_tableLines (hname : IsName name) {c : Char} (hc : c = rawQuote ∨ c = '*') :
    c ∉ chars ((tableLines k name bs).flatMap Line.full) := by
  have hrest : isIdentRest c = false := by rcases hc with rfl | rfl <;> decide
  have hdigit : ∀ n < 16, Nat.digitChar n ≠ c := by rcases hc with rfl | rfl <;> decide
  have hbyte (b : UInt8) : c ∉ (byteText b).toList := by
    have hhigh := hdigit (b.toNat / 16) (by have := b.toNat_lt; omega)
    have hlow := hdigit (b.toNat % 16) (Nat.mod_lt _ (by decide))
    rw [byteText]
    rcases hc with rfl | rfl <;> simp [hhigh.symm, hlow.symm, rawQuote]
  have hcount : c ∉ (toString bs.length).toList := fun hmem =>
    absurd (all_eq_true.mp (isTail_nat _) c hmem) (by simp [hrest])
  have hword (text : String) (htext : (text.toList.all fun d => d ≠ rawQuote && d ≠ '*') = true) :
      c ∉ text.toList := by
    intro hmem
    have hne := all_eq_true.mp htext c hmem
    rcases hc with rfl | rfl <;> simp at hne
  have hcomment : c ∉ ("//" ++ (" " ++ toString bs.length ++ remark)).toList := by
    simp only [String.toList_append, mem_append, not_or]
    exact ⟨hword _ (by decide), ⟨hword _ (by decide), hcount⟩, hword _ (by decide)⟩
  have hlexemes : ∀ l ∈ tableLines k name bs, ∀ x ∈ l.lexemes, c ∉ x.text.toList := by
    simp only [tableLines, innerLines, heading, cons_append, forall_mem_cons,
      forall_mem_append, forall_mem_map, not_mem_nil, false_implies, implies_true,
      and_true]
    refine ⟨⟨hword _ (by decide), hword _ (by decide), hname.not_mem hrest, hword _ (by decide),
      hword _ (by decide), hword _ (by decide), hword _ (by decide), hword _ (by decide),
      hword _ (by decide), hword _ (by decide)⟩, hcomment, fun row _ x hx => ?_,
      hword _ (by decide)⟩
    obtain ⟨b, -, hx⟩ := mem_flatMap.mp hx
    simp only [mem_cons, not_mem_nil, or_false] at hx
    rcases hx with rfl | rfl
    · exact hbyte b
    · exact hword _ (by decide)
  intro hmem
  obtain ⟨x, hx, hmem⟩ := mem_flatMap.mp hmem
  obtain ⟨l, hl, hx⟩ := mem_flatMap.mp hx
  rw [Line.full, mem_append, mem_append, mem_singleton] at hx
  rcases hx with (hx | hx) | rfl
  · split at hx
    · cases hx
    · have htab : c ∈ chars (indent l.depth) := mem_flatMap.mpr ⟨x, hx, hmem⟩
      rw [chars_indent] at htab
      rw [eq_of_mem_replicate htab] at hc
      revert hc
      decide
  · exact hlexemes l hl x hx hmem
  · exact hword _ (by decide) hmem

private theorem chars_tableLines : ((tableLines 0 name bs).map Line.indented).map chars =
    ("var " ++ name ++ " = []byte\x7b").toList :: lines bs := by
  have hinner (xs : List Lexeme) :
      chars (Line.mk 1 xs).indented = '\t' :: chars xs := by
    rw [Line.indented, chars_append, chars_indent]
    rfl
  have hmargin (xs : List Lexeme) : (Line.mk 0 xs).indented = xs := rfl
  have hrow (row : List UInt8) : chars (rowLexemes row) = rowText row := by
    simp [chars, rowLexemes, rowText, flatMap_assoc, punct]
  have hremark : chars [.lineComment (" " ++ toString bs.length ++ remark)] =
      remarkText (toString bs.length) := by
    simp [lineComment, remarkText]
  have hheading : chars (heading name) = ("var " ++ name ++ " = []byte\x7b").toList := by
    simp [heading, ident, punct, blank, openBrace]
  simp only [tableLines, innerLines, map_cons, map_append,
    map_map, Function.comp_def, hmargin, hinner, hrow, hremark,
    hheading]
  rfl

/-- A table at the end of a source, after a line that ends with a brace, is laid out as its
lines. -/
theorem exists_format_table (hname : IsName name) (hproper : ∀ l ∈ tableLines k name bs, l.Proper)
    {source : String} (h : format source = .ok content) {u : List Char}
    (hsource : source.toList = (u ++ ['\x7d']) ++
      '\n' :: chars ((tableLines k name bs).flatMap Line.full)) :
    ∃ ls, content.toList = (ls ++ ("var " ++ name ++ " = []byte\x7b").toList :: lines bs).flatMap
      (· ++ ['\n']) := by
  have hne : ∀ l ∈ tableLines k name bs, l.lexemes ≠ [] := by
    simp only [tableLines, cons_append, forall_mem_cons, forall_mem_append]
    exact ⟨cons_ne_nil _ _, innerLines_ne_nil k bs, cons_ne_nil _ _, by simp⟩
  have hfeeds : ∀ l ∈ tableLines k name bs, ∀ x ∈ l.lexemes, x.kind ≠ .newline := by
    simp only [tableLines, cons_append, forall_mem_cons, forall_mem_append]
    refine ⟨by simp [heading, ident, punct, blank, openBrace],
      fun l hl x hx => (isInner_innerLines k bs l hl x hx).plain.2.1, ?_, by simp⟩
    simp [closeBrace, punct]
  obtain ⟨front, hfront⟩ := exists_format_lines h hsource (by simp) hproper hne hfeeds
    (balanced_tableLines k name bs) fun c hc =>
      ⟨fun heq => not_mem_tableLines k name bs hname (.inl heq) hc,
        fun heq => not_mem_tableLines k name bs hname (.inr heq) hc⟩
  refine ⟨front.map chars, ?_⟩
  rw [hfront, relaidLines_tableLines k name bs hproper, chars_joinLines, map_append,
    chars_tableLines]

end Tables

end Embedded

namespace Binder

variable {b : Binder}

private theorem exists_lineText (d : Nat) (xs : List Lexeme) :
    ∃ u, (Printer.lineText d (Line.mk d (xs ++ [closeBrace])).text).toList =
      u ++ '\x7d' :: ['\n'] := by
  have htext : (Line.mk d (xs ++ [closeBrace])).text.toList =
      chars xs ++ ['\x7d'] := by
    rw [Line.text, toList_spell, chars_append]
    rfl
  have hne : (Line.mk d (xs ++ [closeBrace])).text ≠ "" := by
    intro heq
    rw [heq] at htext
    simp at htext
  refine ⟨replicate d '\t' ++ chars xs, ?_⟩
  rw [Printer.lineText, if_neg hne, String.toList_append, String.toList_append, htext,
    Text.repeated]
  simp

private theorem proper_tableLines (b : Binder) (k : Nat) (bs : List UInt8) :
    ∀ l ∈ Embedded.tableLines k b.node.varName bs, l.Proper := by
  have hR : Rules.Proper ⟨IsName, True⟩ := ⟨fun _ h => h, trivial⟩
  have hvalid := embeddedTable_valid (b := b) (R := ⟨IsName, True⟩) bs
  obtain ⟨ss, bss, hspells, -, -⟩ := Decl.spells hR hvalid.1 hvalid.2
  rw [← Embedded.table_lines, forall_mem_map]
  exact fun l hl => ⟨(hspells.proper l hl).row, (hspells.proper l hl).solid⟩

private theorem exists_source (henabled : body.enabled = true) (front : String) :
    ∃ u, (front ++ ((body.usePackage b.proto).decls b.embeddedDecls).body).toList =
      (u ++ ['\x7d']) ++ '\n' :: chars ((Embedded.tableLines body.depth b.node.varName
        b.embeddedBytes).flatMap Line.full) := by
  obtain ⟨xs, hxs⟩ : ∃ xs, (b.embeddedDecls.flatMap Decl.lines).map (Line.shifted body.depth) =
      Line.mk body.depth [] :: Line.mk body.depth (xs ++ [closeBrace]) ::
        Embedded.tableLines body.depth b.node.varName b.embeddedBytes := by
    have hfunc (f : Func) (s : Simple) (hf : f.body = .line s) :
        f.lines = [⟨0, (f.header ++ openBrace :: .blank :: (s.lexemes ++ [blank])) ++
          [closeBrace]⟩] := by
      rw [Func.lines, hf]
      simp
    simp only [embeddedDecls, flatMap_cons, flatMap_nil, append_nil, map_append,
      Embedded.table_lines]
    rw [Decl.lines, Decl.lines, hfunc _ _ rfl]
    exact ⟨_, rfl⟩
  obtain ⟨u, hu⟩ := exists_lineText body.depth xs
  have htable := Printer.toList_linesText fun l hl =>
    (b.proper_tableLines body.depth b.embeddedBytes l hl).visible
  have hbody : ((body.usePackage b.proto).decls b.embeddedDecls).body = body.body ++
      Printer.linesText ((b.embeddedDecls.flatMap Decl.lines).map (Line.shifted body.depth)) :=
    Printer.decls_body_shifted (p := body.usePackage b.proto) henabled _
  have hcons (l : Line) (ls : List Line) : Printer.linesText (l :: ls) =
      Printer.lineText l.depth l.text ++ Printer.linesText ls := by
    simp [Printer.linesText]
  have hblank : Printer.lineText body.depth (Line.mk body.depth []).text = "\n" := rfl
  refine ⟨(front ++ body.body ++ "\n").toList ++ u, ?_⟩
  rw [hbody, hxs, hcons, hcons, hblank]
  simp only [String.toList_append, hu, htable]
  simp

/-- The descriptor in the text of a file can be read back. -/
theorem ofSource?_of_textWith {isUsed : String → Bool} {part : Part} {extra : Printer}
    (henabled : body.enabled = true) (h : b.textWith isUsed part body extra = .ok content) :
    ∃ ls, Embedded.ofSource? content = some
      ⟨Embedded.unlines (ls ++ [("var " ++ b.node.varName ++ " = []byte\x7b").toList]),
        toString b.embeddedBytes.length,
        Embedded.chunks b.embeddedBytes, "\x7d\n"⟩ := by
  simp only [textWith, bind_eq_ok, layOut_eq_ok] at h
  obtain ⟨imports, -, hformat⟩ := h
  obtain ⟨u, hsource⟩ := exists_source henabled _
  have hproper := b.proper_tableLines body.depth b.embeddedBytes
  obtain ⟨ls, hls⟩ := Embedded.exists_format_table _ _ _ (isName_fileDescriptor _) hproper hformat
    hsource
  rw [flatMap_append, flatMap_cons, append_assoc, ← append_assoc] at hls
  refine ⟨ls, (Embedded.ofSource?_lines hls).trans ?_⟩
  rw [Embedded.unlines, flatMap_append, flatMap_singleton, append_assoc]

end Binder

section Numbers

variable {ids : List FileId}

private theorem getElem?_numberFiles_of_not_mem (h : ⟨i⟩ ∉ ids) (files : List FileNode)
    (index : Nat) : (numberFiles files index ids)[i]? = files[i]? := by
  induction ids generalizing files index with
  | nil => rfl
  | cons id ids ih =>
    rw [mem_cons, not_or] at h
    have hne : id.index ≠ i := fun heq => h.1 (by rw [← heq])
    rw [numberFiles, ih h.2, getElem?_modify_ne _ _ hne]

private theorem exists_index_numberFiles (h : ⟨i⟩ ∈ ids) {files : List FileNode} {index : Nat}
    {node : FileNode} (hnode : (numberFiles files index ids)[i]? = some node) :
    ∃ j, ids[j]? = some ⟨i⟩ ∧ node.index = index + j := by
  induction ids generalizing files index with
  | nil => cases h
  | cons id ids ih =>
    rw [numberFiles] at hnode
    by_cases hmem : ⟨i⟩ ∈ ids
    · obtain ⟨j, hj, hindex⟩ := ih hmem hnode
      exact ⟨j + 1, hj, by omega⟩
    · obtain rfl : ⟨i⟩ = id := (mem_cons.mp h).resolve_right hmem
      rw [getElem?_numberFiles_of_not_mem hmem, getElem?_modify_eq] at hnode
      obtain ⟨f, -, rfl⟩ := Option.map_eq_some_iff.mp hnode
      exact ⟨0, rfl, rfl⟩

private theorem varName_injective {f g : FileNode} (h : f.varName = g.varName) :
    f.index = g.index := by
  have hdigits : Nat.toDigits 10 f.index = Nat.toDigits 10 g.index := by
    have htext := congrArg String.toList h
    simp only [FileNode.varName, String.toList_append, append_cancel_left_eq] at htext
    simpa using htext
  rw [← Nat.ofDigitChars_ten_toDigits (n := f.index), hdigits, Nat.ofDigitChars_ten_toDigits]

theorem Setup.nodup_varName {r : Request} {s : Setup} (hs : ofRequest r = .ok s) :
    ((s.schema.fileIds.filter s.isGenerated).map fun id => (s.schema.file id).varName).Nodup := by
  obtain ⟨schema, -, -, hnumbered, -⟩ := ofRequest_eq_ok hs
  have hids : s.schema.fileIds.Nodup := nodup_range.map fun i j h => FileId.mk.inj h
  have hplace : ∀ id ∈ s.schema.fileIds.filter s.isGenerated,
      s.generated[(s.schema.file id).index]? = some id := by
    intro id hid
    obtain ⟨hid, hgenerated⟩ := mem_filter.mp hid
    obtain ⟨node, hnode⟩ : ∃ node, s.schema.files[id.index]? = some node :=
      ⟨_, getElem?_eq_getElem (mem_fileIds.mp hid)⟩
    rw [file_eq_of_getElem? hnode]
    rw [hnumbered] at hnode
    obtain ⟨j, hj, hindex⟩ := exists_index_numberFiles (contains_iff_mem.mp hgenerated) hnode
    rwa [hindex, Nat.zero_add]
  refine (hids.filter _).map_on fun id hid id' hid' hname => ?_
  have hplaces := (hplace id hid).symm.trans
    ((congrArg (s.generated[·]?) (varName_injective hname)).trans (hplace id' hid'))
  exact Option.some.inj hplaces

end Numbers

/-- The text ends with a variable that holds the descriptor of a file: the comment in it states the
number of bytes, every row but the last has sixteen, and the bytes can be decompressed and
decoded. -/
def Embeds (decompress : List UInt8 → Option (List UInt8)) (content name : String) (f : File) :
    Prop :=
  ∃ d ls, Embedded.ofSource? content = some d ∧
    d.before = Embedded.unlines (ls ++ [("var " ++ name ++ " = []byte\x7b").toList]) ∧
    d.after = "\x7d\n" ∧ d.isRegular = true ∧
    (d.descriptor? decompress).bind File.decode? = some f

/-- The text is that of the file, over a body that is printed. -/
def Binder.Prints (b : Binder) (content : String) : Prop :=
  ∃ isUsed part body extra, body.enabled = true ∧ b.textWith isUsed part body extra = .ok content

theorem Binder.Prints.embeds {b : Binder} (h : b.Prints content)
    {decompress : List UInt8 → Option (List UInt8)}
    (hinverse : ∀ bs, decompress (b.setup.compress bs) = some bs)
    (hdecodes : File.decode? b.strippedProto.encode = some b.strippedProto) :
    Embeds decompress content b.node.varName b.strippedProto := by
  obtain ⟨isUsed, part, body, extra, henabled, htext⟩ := h
  obtain ⟨ls, hsource⟩ := Binder.ofSource?_of_textWith henabled htext
  refine ⟨_, ls, hsource, rfl, rfl, ?_, ?_⟩
  · have hrows : ∀ row ∈ (Embedded.chunks b.embeddedBytes).dropLast,
        row.length = Embedded.rowSize := Embedded.length_chunks _
    simp only [Embedded.isRegular, Embedded.bytes, Embedded.flatten_chunks, decide_true,
      Bool.true_and, all_eq_true, decide_eq_true_eq]
    exact hrows
  · rw [Embedded.descriptor?, Embedded.bytes, Embedded.flatten_chunks, embeddedBytes, hinverse]
    exact hdecodes

section Contents

variable {σ : Type} {plugins : List (Plugin σ)} {s : Setup}

/-- Whatever plugins do, a text is finished over a body that is printed. -/
theorem Generator.bindFiles_prints {exports exports' : Exports} {files : List FileId} {state : σ}
    {out : List GeneratedFile}
    (h : (bindFiles s plugins exports files state).1 = (.ok out, exports')) :
    ∃ ids, ids <+ files ∧ Forall₂ (fun id f => f.name = (s.schema.file id).goFileName ∧
      ∃ exports, (Binder.mk s id exports).Prints f.content) ids out := by
  induction files generalizing exports state out with
  | nil =>
    cases h
    exact ⟨[], .slnil, .nil⟩
  | cons file files ih =>
    obtain ⟨content, part, rest, state', -, htext, hrest, rfl⟩ := bindFiles_cons_eq_ok h
    obtain ⟨ids, hsublist, hids⟩ := ih hrest
    cases content with
    | none => exact ⟨ids, hsublist.cons file, hids⟩
    | some text =>
      obtain ⟨body, extra, henabled, hfinish⟩ := htext text rfl
      rw [Binder.finish_eq] at hfinish
      exact ⟨file :: ids, hsublist.cons_cons file,
        .cons ⟨rfl, exports, _, part, body, extra, henabled, hfinish⟩ hids⟩

end Contents

/-- Whatever plugins do, the descriptor of a file can be read back from its text. If they only add
to what is printed, every generated file has a text. -/
theorem generateAll_embeds {σ : Type} {g : Generator σ} {r : Request}
    {compress : List UInt8 → List UInt8} {decompress : List UInt8 → Option (List UInt8)}
    (hs : ofRequest r compress = .ok g.setup)
    (hinverse : ∀ bs, decompress (compress bs) = some bs)
    (hdecodes : ∀ f ∈ r.files, File.decode? { f with sourceInfo := none }.encode =
      some { f with sourceInfo := none })
    {state : σ} {out : List GeneratedFile} (h : (g.generateAll state).1.1 = .ok out) :
    ((g.setup.schema.fileIds.filter g.setup.isGenerated).map fun id =>
        (g.setup.schema.file id).proto) = r.requested ∧
      ((g.setup.schema.fileIds.filter g.setup.isGenerated).map fun id =>
        (g.setup.schema.file id).varName).Nodup ∧
      ∃ ids, ids <+ g.setup.schema.fileIds ∧
        Forall₂ (fun id f => f.name = (g.setup.schema.file id).goFileName ∧
          Embeds decompress f.content (g.setup.schema.file id).varName
            { (g.setup.schema.file id).proto with sourceInfo := none }) ids out ∧
        ((∀ plugin ∈ g.plugins, g.setup.parameters.pluginEnabled plugin.name = true →
          plugin.Appends) → ids = g.setup.schema.fileIds.filter g.setup.isGenerated) := by
  obtain ⟨hcompress, hplain⟩ := ofRequest_compress hs
  have hrequested := generated_eq_requested hplain
  have hnodup := nodup_varName hplain
  refine ⟨hrequested, hnodup, ?_⟩
  obtain ⟨ids, hids, hprints, hgenerated⟩ : ∃ ids, ids <+ g.setup.schema.fileIds ∧
      Forall₂ (fun id f => f.name = (g.setup.schema.file id).goFileName ∧
        ∃ exports, (Binder.mk g.setup id exports).Prints f.content) ids out ∧
      ((∀ plugin ∈ g.plugins, g.setup.parameters.pluginEnabled plugin.name = true →
        plugin.Appends) → ids = g.setup.schema.fileIds.filter g.setup.isGenerated) := by
    by_cases happends : ∀ plugin ∈ g.plugins,
        g.setup.parameters.pluginEnabled plugin.name = true → plugin.Appends
    · obtain ⟨-, -, -, hends⟩ := Generator.generateAll_watched happends state
      rw [h] at hends
      refine ⟨_, filter_sublist, hends.imp ?_, fun _ => rfl⟩
      rintro id f ⟨hname, exports, part, isUsed, body, extra, -, -, henabled, htext⟩
      exact ⟨hname, exports, isUsed, part, body, extra, henabled, htext.symm⟩
    · rw [(g.generateAll_eq state rfl rfl).1] at h
      obtain ⟨ids, hids, hprints⟩ := Generator.bindFiles_prints (Prod.ext h rfl)
      exact ⟨ids, hids, hprints, fun hall => absurd hall happends⟩
  have hfiles : ∀ id ∈ ids, (g.setup.schema.file id).proto ∈ r.files := by
    intro id hid
    obtain ⟨node, hnode⟩ : ∃ node, g.setup.schema.files[id.index]? = some node :=
      ⟨_, getElem?_eq_getElem (mem_fileIds.mp (hids.subset hid))⟩
    rw [file_eq_of_getElem? hnode, ← (ofRequest_mirrors hplain).protos]
    exact mem_map_of_mem (mem_of_getElem? hnode)
  refine ⟨ids, hids, ((forall₂_and_left _ _).mpr ⟨hfiles, hprints⟩).imp ?_, hgenerated⟩
  rintro id f ⟨hfile, hname, exports, hprint⟩
  exact ⟨hname, hprint.embeds (hcompress ▸ hinverse) (hdecodes _ hfile)⟩

/-- The files tell where their declarations stand. -/
def placedRequest : Request where
  filesToGenerate := repeatedRequest.filesToGenerate
  files := repeatedRequest.files.map fun f => { f with
    sourceInfo := some { locations := [{ path := [4, 0], span := [1, 0, 2]
                                         leadingComments := some " first\n" }] } }

/-- A file that is named twice has the number of the last naming. -/
theorem generateAll_embeds_repeated : ∃ (g : Generator Unit) (out : List GeneratedFile),
    Generator.ofRequest placedRequest = .ok g ∧ (g.generateAll ()).1.1 = .ok out ∧
      Forall₂ (fun (file : String × File) f => Embeds Gzip.decompress? f.content file.1 file.2)
        [("fileDescriptor2", { name := some "b.proto", package := some "p" }),
         ("fileDescriptor1",
          { name := some "a.proto", package := some "p", messages := [{ name := some "N" }] })]
        out := by
  have hchecked : placedRequest.Checked := by decide +kernel
  obtain ⟨g, g', out, hg, hsetup, hall⟩ := Generator.exists_of_checked hchecked
  have hrun : (g.generateAll ()).1.1 = .ok out := by rw [hall]
  have hplugins : g.plugins = [] := by
    rw [Generator.ofRequest, hchecked.setup] at hg
    exact (congrArg Generator.plugins (Except.ok.inj hg)).symm
  have hdecodes : ∀ f ∈ placedRequest.files,
      File.decode? { f with sourceInfo := none }.encode = some { f with sourceInfo := none } := by
    simp only [placedRequest, repeatedRequest, map_cons, map_nil, forall_mem_cons, not_mem_nil]
    exact ⟨by with_unfolding_all rfl, by with_unfolding_all rfl, by with_unfolding_all rfl, by simp⟩
  obtain ⟨hrequested, -, ids, -, hembeds, hids⟩ := generateAll_embeds (hsetup ▸ hchecked.setup)
    Gzip.decompress?_compress hdecodes hrun
  obtain rfl := hids (by simp [hplugins])
  have hnames : (g.setup.schema.fileIds.filter g.setup.isGenerated).map
      (fun id => (g.setup.schema.file id).varName) = ["fileDescriptor2", "fileDescriptor1"] := by
    rw [hsetup]
    decide +kernel
  have hfiles : ["fileDescriptor2", "fileDescriptor1"].zip
      (placedRequest.requested.map ({ · with sourceInfo := none })) =
      (g.setup.schema.fileIds.filter g.setup.isGenerated).map fun id =>
        ((g.setup.schema.file id).varName,
          { (g.setup.schema.file id).proto with sourceInfo := none }) := by
    rw [← hnames, ← hrequested, map_map, zip_map']
    rfl
  refine ⟨g, out, hg, hrun, ?_⟩
  show Forall₂ _ (["fileDescriptor2", "fileDescriptor1"].zip
    (placedRequest.requested.map ({ · with sourceInfo := none }))) out
  rw [hfiles, forall₂_map_left_iff]
  exact hembeds.imp fun id f h => h.2

end GoBindings
