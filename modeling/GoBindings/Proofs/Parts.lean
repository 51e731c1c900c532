import GoBindings.Bind.Enum
import GoBindings.Bind.Extension
import GoBindings.Proofs.Declarations
import GoBindings.Proofs.Plans

/-!
# Parts of a file

Every part of a generated file is valid, provided that the packages it says it uses may be named,
and it uses packages of known files only.
-/

namespace GoBindings

open List Schema Go Descriptor Text

variable {text : String} {α : Type} {type : TypeExpr}

namespace Go

variable {R : Rules}

attribute [simp] TypeExpr.Valid Expr.Valid Expr.ValidAll Expr.isOperand Expr.isType
  Expr.isAddressable Expr.isAtom Stmt.Valid Stmt.ValidAll Stmt.ValidCase Stmt.ValidCases
  Param.valid_iff FuncType.valid_iff Receiver.valid_iff Func.valid_iff Decl.isBody

-- These are not recursive: unfolded as a whole they would be so at variables too.
attribute [simp] Simple.Valid.eq_1 Simple.Valid.eq_2 Simple.Valid.eq_3 Results.Valid.eq_1
  Results.Valid.eq_2 Results.Valid.eq_3 Results.Valid.eq_4 ResultType.Valid.eq_1
  ResultType.Valid.eq_2 Body.Valid.eq_1 Body.Valid.eq_2 Body.Valid.eq_3 Member.Valid.eq_1
  Member.Valid.eq_2 Member.Valid.eq_3 Member.Valid.eq_4 Member.Valid.eq_5 ConstEntry.Valid.eq_1
  ConstEntry.Valid.eq_2 Entry.Valid.eq_1 Entry.Valid.eq_2 Entry.Valid.eq_3 Entry.Valid.eq_4
  Decl.Valid.eq_1 Decl.Valid.eq_2 Decl.Valid.eq_3 Decl.Valid.eq_4 Decl.Valid.eq_5 Decl.Valid.eq_6
  Decl.Valid.eq_7 Decl.Valid.eq_8 Decl.Valid.eq_9 Decl.Valid.eq_10 Decl.Valid.eq_11 Decl.Valid.eq_12
  Decl.Valid.eq_13

attribute [simp] TypeExpr.bytes Expr.nil Expr.method Expr.convert Expr.nilPointer Expr.notNil
  Simple.define Simple.set Stmt.eval Stmt.define Stmt.set Stmt.ret

@[simp] theorem Expr.valid_quoted (s : String) : (quoted s).Valid R := by
  rw [quoted, Valid, Lexeme.scansAlone_iff]
  exact (stands_quote s).1

@[simp] theorem Expr.valid_int (n : Int) : (int n).Valid R := isNumber_int n

@[simp] theorem Expr.valid_nat (n : Nat) : (nat n).Valid R := isNumber_nat n

@[simp] theorem Stmt.validAll_append {ss ss' : List Stmt} :
    ValidAll R (ss ++ ss') ↔ ValidAll R ss ∧ ValidAll R ss' := by
  simp [Stmt.validAll_iff, or_imp, forall_and]

@[simp] theorem Stmt.validCases_append {cs cs' : List Case} :
    ValidCases R (cs ++ cs') ↔ ValidCases R cs ∧ ValidCases R cs' := by
  simp [Stmt.validCases_iff, or_imp, forall_and]

attribute [simp] IsName.append

/-- A text without a line feed. -/
def OneLine (text : String) : Prop := '\n' ∉ text.toList

instance (text : String) : Decidable (OneLine text) := inferInstanceAs (Decidable (¬ _))

theorem OneLine.note (h : OneLine text) : R.Note text := fun _ => h

@[simp] theorem oneLine_append {a b : String} : OneLine (a ++ b) ↔ OneLine a ∧ OneLine b := by
  rw [OneLine, String.toList_append, mem_append, not_or]
  rfl

theorem IsTail.oneLine (h : IsTail text) : OneLine text := by
  intro hmem
  exact absurd (all_eq_true.mp h '\n' hmem) (by decide)

theorem IsName.oneLine (h : IsName text) : OneLine text := h.isTail.oneLine

@[simp] theorem oneLine_quote (s : String) : OneLine (quote s) := lineFeed_not_mem_quote s

@[simp] theorem oneLine_nat (n : Nat) : OneLine n.repr := (isTail_nat n).oneLine

@[simp] theorem oneLine_int (n : Int) : OneLine n.repr := by
  intro hmem
  rcases (isNumber_int n).mem _ hmem with h | h <;> exact absurd h (by decide)

end Go

def Go.Decl.InBody (R : Rules) (d : Decl) : Prop := d.Valid R ∧ d.isBody = true

@[simp] theorem Go.Decl.inBody_func {R : Rules} {f : Func} :
    (Decl.func f).InBody R ↔ f.Valid R := by simp [InBody]

theorem forall_mem_ite {c : Prop} [Decidable c] {P : α → Prop} {xs ys : List α} :
    (∀ x ∈ if c then xs else ys, P x) ↔ (c → ∀ x ∈ xs, P x) ∧ (¬ c → ∀ x ∈ ys, P x) := by
  split <;> simp_all

/-- What a part of a generated file is like: it names packages that it declares to use, or that
are given to it. -/
structure Part.Sound (b : Binder) (R : Rules) (known : FileId → Prop) (given : List String)
    (p : Part) : Prop where
  decls : (∀ x ∈ given ++ p.uses, R.package x) → ∀ d ∈ p.decls, d.InBody R
  inits : (∀ x ∈ given ++ p.uses, R.package x) → ∀ s ∈ p.inits, s.Valid R
  /-- A package is a support package or that of a known file, or of one that is imported as well. -/
  uses : ∀ x ∈ p.uses, x ∈ [b.proto, b.fmt, b.math] ∨
    ∃ file, b.setup.PackageOf file x ∧ (known file ∨ file ∈ p.indirect)

namespace Part

variable {b : Binder} {R : Rules} {known : FileId → Prop} {given : List String} {p q : Part}

@[simp] theorem uses_append : (p ++ q).uses = p.uses ++ q.uses := rfl

@[simp] theorem decls_append : (p ++ q).decls = p.decls ++ q.decls := rfl

@[simp] theorem inits_append : (p ++ q).inits = p.inits ++ q.inits := rfl

@[simp] theorem indirect_append : (p ++ q).indirect = p.indirect ++ q.indirect := rfl

@[simp] theorem exports_append : (p ++ q).exports = p.exports ++ q.exports := rfl

private theorem concat_eq_flatMap {g : Part → List α} (hnil : g {} = [])
    (happend : ∀ p q : Part, g (p ++ q) = g p ++ g q) (ps : List Part) :
    g (concat ps) = ps.flatMap g := by
  induction ps with
  | nil => exact hnil
  | cons p ps ih => rw [concat, happend, ih, flatMap_cons]

theorem exports_concat (ps : List Part) : (concat ps).exports = ps.flatMap (·.exports) :=
  concat_eq_flatMap rfl (fun _ _ => rfl) ps

theorem decls_concat (ps : List Part) : (concat ps).decls = ps.flatMap (·.decls) :=
  concat_eq_flatMap rfl (fun _ _ => rfl) ps

/-- Parts have the property together if each of them has it. -/
structure Additive (P : Part → Prop) : Prop where
  nil : P {}
  append : ∀ {p q : Part}, P p → P q → P (p ++ q)

theorem Additive.concat {P : Part → Prop} (hP : Additive P) {ps : List Part} (h : ∀ p ∈ ps, P p) :
    P (Part.concat ps) := by
  induction ps with
  | nil => exact hP.nil
  | cons p ps ih =>
    rw [forall_mem_cons] at h
    exact hP.append h.1 (ih h.2)

theorem Additive.concat_mapM {P : Part → Prop} (hP : Additive P) {xs : List α}
    {f : α → Except Error Part} {ps : List Part} (h : xs.mapM f = .ok ps)
    (hf : ∀ x ∈ xs, ∀ p, f x = .ok p → P p) : P (Part.concat ps) := by
  refine hP.concat fun p hp => ?_
  obtain ⟨x, hx, hp⟩ := exists_of_mem_mapM h hp
  exact hf x hx p hp

theorem Sound.nil : ({} : Part).Sound b R known given := ⟨by simp, by simp, by simp⟩

theorem Sound.append (hp : p.Sound b R known given) (hq : q.Sound b R known given) :
    (p ++ q).Sound b R known given := by
  have hsplit (h : ∀ x ∈ given ++ (p ++ q).uses, R.package x) :
      (∀ x ∈ given ++ p.uses, R.package x) ∧ ∀ x ∈ given ++ q.uses, R.package x := by
    simp only [uses_append, forall_mem_append] at h ⊢
    exact ⟨⟨h.1, h.2.1⟩, h.1, h.2.2⟩
  refine ⟨fun h => ?_, fun h => ?_, fun x hx => ?_⟩
  · rw [decls_append, forall_mem_append]
    exact ⟨hp.decls (hsplit h).1, hq.decls (hsplit h).2⟩
  · rw [inits_append, forall_mem_append]
    exact ⟨hp.inits (hsplit h).1, hq.inits (hsplit h).2⟩
  · rcases mem_append.mp hx with hx | hx
    · rcases hp.uses x hx with h | ⟨file, hfile, h⟩
      · exact .inl h
      · exact .inr ⟨file, hfile, h.imp_right (mem_append_left _)⟩
    · rcases hq.uses x hx with h | ⟨file, hfile, h⟩
      · exact .inl h
      · exact .inr ⟨file, hfile, h.imp_right (mem_append_right _)⟩

theorem Sound.additive : Additive (Sound b R known given) := ⟨.nil, .append⟩

theorem Sound.of_uses {given' : List String} (h : p.Sound b R known given)
    (hgiven : given ⊆ p.uses) : p.Sound b R known given' := by
  have hall (huses : ∀ x ∈ given' ++ p.uses, R.package x) : ∀ x ∈ given ++ p.uses, R.package x := by
    intro x hx
    refine huses x (mem_append_right _ ?_)
    rcases mem_append.mp hx with hx | hx
    · exact hgiven hx
    · exact hx
  exact ⟨fun huses => h.decls (hall huses), fun huses => h.inits (hall huses), h.uses⟩

end Part

namespace Binder

variable {b : Binder} {R : Rules} {known : FileId → Prop} {given : List String}
  {files : List File}

section Comments

theorem oneLine_textLines {line : String} (h : line ∈ textLines text) : OneLine line := by
  obtain ⟨piece, hpiece, rfl⟩ := mem_map.mp h
  have hmem := not_mem_splitOn hpiece
  rw [OneLine]
  cases piece with
  | nil => simp [dropStart?]
  | cons c piece =>
    simp only [mem_cons, not_or] at hmem
    by_cases hc : ' ' = c
    · subst hc
      simpa [dropStart?] using hmem.2
    · simpa [dropStart?, hc] using hmem

theorem note_commentAt (b : Binder) (path : List Nat) : ∀ text ∈ b.commentAt path, R.Note text := by
  intro text ht
  refine OneLine.note ?_
  rw [commentAt] at ht
  split at ht
  · obtain ⟨line, hline, rfl⟩ := mem_map.mp ht
    simpa using ⟨by decide, oneLine_textLines hline⟩
  · cases ht

end Comments

section Enums

variable {node : EnumNode} {type : String}

@[simp] theorem isName_fileDescriptor (f : FileNode) : IsName f.varName :=
  IsName.append (by decide : IsName "fileDescriptor") (isTail_nat _)

theorem descriptorFunc_valid {name : String} (b : Binder) (pointer : Bool) (path : List Nat)
    (htype : IsName type) (hname : IsName name) :
    (b.descriptorFunc ⟨none, pointer, type⟩ name path).Valid R := by
  have hplaces : Expr.ValidAll R ((places path).map Expr.nat) := by
    rw [Expr.validAll_iff]
    intro e he
    obtain ⟨n, -, rfl⟩ := mem_map.mp he
    exact Expr.valid_nat n
  simp +decide [descriptorFunc, htype, hname, hplaces]

theorem wellKnownFunc_valid (pointer : Bool) (name : String) (htype : IsName type) :
    (wellKnownFunc ⟨none, pointer, type⟩ name).Valid R := by
  simp +decide [wellKnownFunc, htype]

theorem enumPointerFunc_valid (h : IsName type) : (enumPointerFunc type).Valid R := by
  simp +decide [enumPointerFunc, h]

theorem enumStringFunc_valid (h : IsName type) (hp : R.package b.proto) :
    (b.enumStringFunc type).Valid R := by
  simp +decide [enumStringFunc, h, hp]

theorem enumUnmarshalFunc_valid (h : IsName type) (hp : R.package b.proto) :
    (b.enumUnmarshalFunc type).Valid R := by
  simp +decide [enumUnmarshalFunc, h, hp]

theorem registerEnum_valid (hnode : node.Sound) (hp : R.package b.proto) :
    (b.registerEnum node).Valid R := by
  simp +decide [registerEnum, hnode.name.isName, hp]

/-- The constants of an enum have the name of the enum, or of the message around it. -/
theorem isName_constant (hnode : node.Sound) {v : String} (hv : isIdentifier v = true) :
    IsName (node.constantPrefix ++ v) := by
  have htail := (isName_of_isIdentifier hv).isTail
  have hprefix : IsName node.constantPrefix := by
    unfold EnumNode.constantPrefix
    split
    · exact (isName_of_isIdentifier (isIdentifier_camelCase hnode.plain.name)).append (by decide)
    · rename_i id hid
      exact (hnode.scope (by simp [hid])).isName.append (by decide)
  exact hprefix.append htail

private theorem constantEntries_valid (hnode : node.Sound) (htype : IsName type) (i : Nat)
    {values : List EnumValue} (h : ∀ v ∈ values, isIdentifier (v.name.getD "") = true) :
    ∀ e ∈ b.constantEntries node type i values, e.Valid R := by
  induction values generalizing i with
  | nil => simp [constantEntries]
  | cons v values ih =>
    intro e he
    rcases mem_append.mp he with he | he
    · obtain ⟨text, htext, rfl⟩ := mem_map.mp he
      exact note_commentAt b _ text htext
    · rcases mem_cons.mp he with rfl | he
      · exact ⟨isName_constant hnode (h v (by simp)), htype⟩
      · exact ih (i + 1) (fun v hv => h v (by simp [hv])) e he

private theorem nameEntries_valid (seen : List Int32) (values : List EnumValue) :
    ∀ e ∈ nameEntries seen values, e.Valid R := by
  induction values generalizing seen with
  | nil => simp [nameEntries]
  | cons v values ih =>
    intro e he
    rw [nameEntries] at he
    split at he
    · rcases mem_cons.mp he with rfl | he
      · exact OneLine.note (by simp +decide)
      · exact ih _ e he
    · rcases mem_cons.mp he with rfl | he
      · simp
      · exact ih _ e he

private theorem numberEntries_valid (values : List EnumValue) :
    ∀ e ∈ numberEntries values, e.Valid R := by
  intro e he
  obtain ⟨v, -, rfl⟩ := mem_map.mp he
  simp

theorem enumDecls_valid (hnode : node.Sound) (hp : R.package b.proto) :
    ∀ d ∈ b.enumDecls node, d.InBody R := by
  have htype := hnode.name.isName
  have hconstants := constantEntries_valid (b := b) (R := R) hnode htype 0 hnode.plain.values
  have hnames := nameEntries_valid (R := R) [] node.proto.values
  have hnumbers := numberEntries_valid (R := R) node.proto.values
  have hdescriptor := descriptorFunc_valid (R := R) b false node.path htype
    (by decide : IsName "EnumDescriptor")
  have htables : ∀ d ∈ [Decl.typeDef (camelCaseScope node.typeName) (.name "int32"),
      .constants (b.constantEntries node (camelCaseScope node.typeName) 0 node.proto.values),
      .table (camelCaseScope node.typeName ++ "_name") false (.map (.name "int32") (.name "string"))
        (nameEntries [] node.proto.values),
      .table (camelCaseScope node.typeName ++ "_value") false
        (.map (.name "string") (.name "int32")) (numberEntries node.proto.values)],
      d.InBody R := by
    simpa +decide [Decl.InBody, htype] using ⟨hconstants, hnames, hnumbers⟩
  simp only [enumDecls, forall_mem_append, forall_mem_map, forall_mem_ite,
    forall_mem_singleton, Decl.inBody_func]
  exact ⟨⟨⟨⟨⟨⟨⟨fun text ht => ⟨note_commentAt b _ text ht, rfl⟩, htables⟩, by simp,
    fun _ => enumPointerFunc_valid htype⟩, enumStringFunc_valid htype hp⟩, by simp,
    fun _ => enumUnmarshalFunc_valid htype hp⟩, hdescriptor⟩,
    fun _ => wellKnownFunc_valid false _ htype, by simp⟩, by simp [Decl.InBody]⟩

theorem enumPart_sound (hs : b.setup.Sound files) {id : EnumId}
    (hid : id.index < b.schema.enums.length) : (b.enumPart id).Sound b R known given where
  decls h := enumDecls_valid (hs.schema.enum_sound hid) (h b.proto (by simp [enumPart]))
  inits := by simp [enumPart]
  uses := by simp [enumPart]

end Enums

section Extensions

variable {x : ExtensionNode}

/-- The types that an extension names, as its field and as what it extends. -/
def RefersExtension (b : Binder) (known : FileId → Prop) (x : ExtensionNode) : Prop :=
  b.Refers known x.field ∧ ∀ object,
    b.setup.resolve (x.field.extendee.getD "") b.file = .ok object → known (b.schema.fileOf object)

theorem isName_varName (h : PlainName x.typeName) : IsName x.varName := by
  have hjoin : isIdentifier (join "_" (x.typeName.map camelCase)) = true := by
    refine isIdentifier_join (by simpa using h.1) fun name hname => ?_
    obtain ⟨n, hn, rfl⟩ := mem_map.mp hname
    exact isIdentifier_camelCase (h.2 n hn)
  exact IsName.append (by decide : IsName "E_") (isName_of_isIdentifier hjoin).isTail

theorem registerExtension_valid (h : PlainName x.typeName)
    (hp : R.package b.proto) : (b.registerExtension x).Valid R := by
  simp +decide [registerExtension, isName_varName h, hp]

private theorem registerMessageSet_valid (number : Int32) (name : String) (ht : type.Valid R)
    (hp : R.package b.proto) : (b.registerMessageSet type number name).Valid R := by
  simp +decide [registerMessageSet, ht, hp]

private theorem extensionDecl_valid {extended : TypeExpr} (name : String)
    (tag : Tag) (h : PlainName x.typeName) (hextended : extended.Valid R) (ht : type.Valid R)
    (hp : R.package b.proto) : (b.extensionDecl x extended type name tag).InBody R := by
  have htag : (Expr.literal tag.quoted).Valid R := Expr.valid_quoted tag.text
  have hname := isName_varName h
  simp only [Expr.Valid] at htag
  simp +decide [extensionDecl, Decl.InBody, hname, hextended, ht, hp, htag]

theorem extensionPart_sound (hs : b.setup.Sound files) {id : ExtensionId} {part : Part}
    (hid : id.index < b.schema.extensions.length)
    (hrefers : b.RefersExtension known (b.schema.extension id))
    (h : b.extensionPart id = .ok part) : part.Sound b R known given := by
  have hname := hs.schema.extension_name hid
  simp only [extensionPart, steps_eq_ok] at h
  obtain ⟨extendee, hextendee, message, -, extended, hextended, fieldType, hfieldType, tag, -,
    rfl⟩ := h
  obtain ⟨hnamed, hpackages⟩ := Setup.goName_spec hs (Setup.resolve_declares hs hextendee) hextended
  have hfield := Setup.fieldType_sound hs hfieldType
  refine ⟨fun huses => ?_, fun huses => ?_, ?_⟩
  · simp only [forall_mem_append, forall_mem_singleton] at huses
    obtain ⟨-, ⟨hx, ht⟩, hp⟩ := huses
    rw [forall_mem_cons, forall_mem_singleton]
    exact ⟨extensionDecl_valid _ tag hname (hnamed.valid hx)
      (hfield.named.valid (hfield.packages ▸ ht)) hp, trivial, rfl⟩
  · simp only [forall_mem_append, forall_mem_singleton] at huses
    obtain ⟨-, ⟨-, ht⟩, hp⟩ := huses
    rw [forall_mem_ite, forall_mem_singleton]
    exact ⟨fun _ => registerMessageSet_valid _ _ (hfield.named.valid (hfield.packages ▸ ht)) hp,
      fun _ _ h => absurd h not_mem_nil⟩
  · intro x hx
    simp only [mem_append, mem_singleton] at hx
    rcases hx with (hx | hx) | rfl
    · exact .inr ⟨_, hpackages x hx, .inl (hrefers.2 extendee hextendee)⟩
    · obtain ⟨file, hfile, hknown⟩ := hfield.known hrefers.1 x hx
      exact .inr ⟨file, hfile, .inl hknown⟩
    · exact .inl (by simp)

end Extensions

end Binder

end GoBindings
