import GoBindings.Bind.Message
import GoBindings.Proofs.Unions

/-!
# Messages

The declarations of a message are valid: its struct, its methods, its defaults, its getters, and
all that belongs to its unions.
-/

namespace GoBindings

open List Schema Go Lexeme Setup

/-- What the declaration of a default is like. -/
structure DefaultPlan.Sound (b : Binder) (R : Rules) (known : FileId → Prop) (p : FieldPlan)
    (d : DefaultPlan) : Prop where
  name : IsName d.name
  decl : (∀ x ∈ p.uses, R.package x) → (∀ x ∈ d.uses, R.package x) →
    (Binder.DefaultPlan.decl d).InBody R
  uses : ∀ x ∈ d.uses, x = b.math ∨ ∃ file, b.setup.PackageOf file x ∧ known file

namespace Binder

variable {b : Binder} {R : Rules} {known : FileId → Prop} {files : List Descriptor.File}
  {given : List String} {id : MessageId} {p : FieldPlan}
variable {part : Part} {type : String}

section Defaults

variable {value : String}

@[simp] theorem text_name (n : String) : (TypeExpr.name n).text = n := by
  simp [TypeExpr.text, TypeExpr.lexemes, spell, ident]

@[simp] theorem text_slice (t : TypeExpr) : (TypeExpr.slice t).text = "[" ++ ("]" ++ t.text) := by
  simp [TypeExpr.text, TypeExpr.lexemes, spell, punct]

private theorem default_type (h : p.Made b id) {t : TypeExpr} {wire : WireKind}
    (hscalar : p.kind.scalar? = some (t, wire)) :
    p.fieldType.type.unstarred = t ∧ p.field.isRepeated = false ∨
      p.fieldType.type.unstarred = .slice t ∧ p.field.isRepeated = true := by
  obtain ⟨kind, elem, hkind, helem, -, htype⟩ := fieldType_eq_ok h.fieldType
  cases h.kind.symm.trans hkind
  obtain rfl : ⟨t, wire⟩ = elem := by simpa [elementType, hscalar] using helem
  have hstar : t.unstarred = t := by
    cases hk : p.kind <;> rw [hk] at hscalar <;> cases hscalar <;> decide
  rcases htype with ⟨htype, hrepeated⟩ | ⟨hrepeated, htype | ⟨htype, -⟩⟩ <;> rw [htype]
  · exact .inr ⟨rfl, hrepeated⟩
  · exact .inl ⟨hstar, hrepeated⟩
  · exact .inl ⟨rfl, hrepeated⟩

private theorem default_cases (hs : b.setup.Sound files) (hid : id.index < b.schema.messages.length)
    (h : p.Made b id) (hvalue : p.field.defaultValue = some value) (hne : value ≠ "") :
    (p.kind = .bool ∧ IsName value ∧ value ∉ ["inf", "-inf", "nan"]) ∨
    (p.kind = .string ∧ p.fieldType.type.unstarred = .name "string") ∨
    (p.kind = .bytes ∧ p.fieldType.type.unstarred = .bytes) ∨
    (p.kind = .enum ∧ isIdentifier value = true) ∨
    ((IsNumber value ∨ value ∈ ["inf", "-inf", "nan"]) ∧ p.kind ≠ .bool ∧ p.kind ≠ .enum ∧
      p.fieldType.type.unstarred.text ≠ "bool") := by
  have hplain := h.plain hs hid
  have hfits := hplain.default p.kind value h.kind hvalue
  have htype {t : TypeExpr} {wire : WireKind} (hscalar : p.kind.scalar? = some (t, wire)) :=
    default_type h hscalar
  have hnumeric {n : String} {wire : WireKind} (hscalar : p.kind.scalar? = some (.name n, wire))
      (hn : n ≠ "bool") : p.fieldType.type.unstarred.text ≠ "bool" := by
    rcases htype hscalar with ⟨heq, -⟩ | ⟨heq, -⟩ <;> rw [heq]
    · simpa using hn
    · intro hbool
      have hhead := congrArg (fun s => s.toList.head?) hbool
      simp at hhead
  cases hk : p.kind with
  | bool =>
    refine .inl ⟨rfl, ?_⟩
    rw [hk] at hfits
    rcases hfits with rfl | rfl <;> decide
  | string =>
    rcases htype (by rw [hk]; rfl) with ⟨heq, -⟩ | ⟨-, hrepeated⟩
    · exact .inr (.inl ⟨rfl, heq⟩)
    · have hempty := hplain.single (.inl (hk ▸ h.kind)) hrepeated
      exact absurd (by simpa [hvalue] using hempty) hne
  | bytes =>
    rcases htype (by rw [hk]; rfl) with ⟨heq, -⟩ | ⟨-, hrepeated⟩
    · exact .inr (.inr (.inl ⟨rfl, heq⟩))
    · have hempty := hplain.single (.inr (hk ▸ h.kind)) hrepeated
      exact absurd (by simpa [hvalue] using hempty) hne
  | enum =>
    exact .inr (.inr (.inr (.inl ⟨rfl,
      isIdentifier_enumDefault hs h.tag (hk ▸ h.kind) hvalue⟩)))
  | group => exact absurd (hvalue.symm.trans (hplain.typed (.inl (hk ▸ h.kind)))) (by simp)
  | message => exact absurd (hvalue.symm.trans (hplain.typed (.inr (hk ▸ h.kind)))) (by simp)
  | _ =>
    rw [hk] at hfits
    refine .inr (.inr (.inr (.inr ⟨hfits, by simp, by simp, ?_⟩)))
    exact hnumeric (by rw [hk]; rfl) (by decide)

theorem enumConstant_sound {object : Object} {node : EnumNode} {constant : Expr}
    {uses : List String} (R : Rules) (known : FileId → Prop) (hnode : node.Sound)
    (hvalue : isIdentifier value = true) (hknown : known (b.schema.fileOf object))
    (h : b.enumConstant object node value = .ok (constant, uses)) :
    ((∀ x ∈ uses, R.package x) → constant.Valid R) ∧ constant.isOperand = true ∧
      b.Known known uses := by
  have hname := isName_constant hnode hvalue
  rw [enumConstant, bind_eq_ok] at h
  obtain ⟨package, hpackage, h⟩ := h
  have h := pure_eq_ok.mp h
  split at h
  · cases h
    exact ⟨fun _ => hname, rfl, by simp [Known]⟩
  · rename_i hne
    cases h
    refine ⟨fun huses => ⟨huses package (by simp), hname⟩, rfl, ?_⟩
    simpa [Known] using ⟨_, ⟨hpackage, hne⟩, hknown⟩

private theorem specialFloat?_sound {special : Expr} (kind : FieldKind) (hmath : R.package b.math)
    (h : b.specialFloat? value = some special) :
    let special := if kind = .float then .call (.name "float32") [special] else special
    special.Valid R ∧ special.isAtom = true := by
  have hvalid : special.Valid R ∧ special.isAtom = true := by
    unfold specialFloat? at h
    split at h
    · cases h
      simp +decide [hmath]
    · split at h
      · cases h
        simp +decide [hmath]
      · split at h
        · cases h
          simp +decide [hmath]
        · cases h
  split
  · simp +decide [hvalid]
  · exact hvalid

private theorem specialFloat?_eq_none (h : b.specialFloat? value = none) :
    value ∉ ["inf", "-inf", "nan"] := by
  unfold specialFloat? at h
  intro hmem
  simp only [mem_cons, not_mem_nil, or_false] at hmem
  rcases hmem with rfl | rfl | rfl <;> simp at h

private theorem isAtom_of_isOperand {e : Expr} (h : e.isOperand = true) : e.isAtom = true := by
  unfold Expr.isAtom
  split
  · rfl
  · rfl
  · exact h

theorem planDefault_sound (hs : b.setup.Sound files) (hid : id.index < b.schema.messages.length)
    (h : p.Made b id) (hrefers : b.Refers known p.field) (htype : IsName type) {d : DefaultPlan}
    (hd : b.planDefault type p = .ok (some d)) : d.Sound b R known p := by
  obtain ⟨-, hnamed, -, hpackages⟩ := h.named hs
  obtain ⟨hnamed, hsame⟩ := hnamed.unstarred
  rw [← hsame] at hpackages
  have hname : IsName ("Default_" ++ type ++ "_" ++ camelCase p.field.nameText) :=
    ((IsName.append (by decide : IsName "Default_") htype.isTail).append (by decide)).append
      (isName_of_isIdentifier (isIdentifier_camelCase (h.plain hs hid).name)).isTail
  -- Every branch gives a declaration of this form.
  have hplan {sort : ValueSort} {value : Expr} {uses : List String}
      (hvalue : (∀ x ∈ uses, R.package x) → value.Valid R ∧ value.isAtom = true)
      (huses : ∀ x ∈ uses, x = b.math ∨ ∃ file, b.setup.PackageOf file x ∧ known file) :
      DefaultPlan.Sound b R known p ⟨sort, _, p.fieldType.type.unstarred, value, uses⟩ :=
    ⟨hname, fun hp hu => ⟨⟨hname, by simpa using hnamed.valid fun q hq => hp q (hpackages q hq),
      (hvalue hu).1, (hvalue hu).2, by simp⟩, rfl⟩, huses⟩
  cases hdefault : p.field.defaultValue with
  | none => simp [planDefault, hdefault] at hd
  | some value =>
    simp only [planDefault, hdefault] at hd
    split at hd
    · simp at hd
    have hcases := default_cases hs hid h hdefault (by assumption)
    split at hd
    · rename_i hbool
      cases hd
      refine hplan (fun _ => ⟨?_, rfl⟩) (by simp)
      rcases hcases with ⟨-, hv, -⟩ | ⟨-, heq⟩ | ⟨-, heq⟩ | ⟨-, hv⟩ | ⟨-, -, -, hne⟩
      · exact hv
      · simp [heq] at hbool
      · simp [heq] at hbool
      · exact isName_of_isIdentifier hv
      · exact absurd hbool hne
    split at hd
    · cases hd
      exact hplan (fun _ => ⟨Expr.valid_quoted value, rfl⟩) (by simp)
    split at hd
    · cases hd
      exact hplan (fun _ => by simp +decide) (by simp)
    rename_i hstring hbytes
    split at hd
    · rename_i special hspecial
      cases hd
      exact hplan (fun hu => specialFloat?_sound p.kind (hu b.math (by simp)) hspecial) (by simp)
    rename_i hspecial
    have hword := specialFloat?_eq_none hspecial
    split at hd
    · rename_i henum
      rw [bind_eq_ok] at hd
      obtain ⟨object, hobject, hd⟩ := hd
      have hknown := hrefers .enum object (henum ▸ h.kind) rfl hobject
      have hdeclares : b.schema.Declares (b.schema.underlying object) :=
        resolve_declares hs hobject
      split at hd
      · rename_i eid heid
        rw [heid] at hdeclares
        rw [bind_eq_ok] at hd
        obtain ⟨⟨constant, uses⟩, hconstant, hd⟩ := hd
        cases hd
        have hv := isIdentifier_enumDefault hs h.tag (henum ▸ h.kind) hdefault
        obtain ⟨hvalid, hoperand, huses⟩ := enumConstant_sound R known
          (hs.schema.enum_sound hdeclares) hv hknown hconstant
        exact hplan (fun hu => ⟨hvalid hu, isAtom_of_isOperand hoperand⟩)
          fun x hx => .inr (huses x hx)
      · simp at hd
    · rename_i henum
      cases hd
      refine hplan (fun _ => ?_) (by simp)
      rcases hcases with ⟨hkind, hv, -⟩ | ⟨-, heq⟩ | ⟨-, heq⟩ | ⟨hkind, -⟩ | ⟨hv, hkind, -, -⟩
      · rw [if_pos hkind]
        exact ⟨hv, rfl⟩
      · simp [heq] at hstring
      · simp [heq] at hbytes
      · exact absurd hkind henum
      · rw [if_neg hkind]
        exact ⟨hv.resolve_right hword, rfl⟩

end Defaults

section Getters

variable {d : Option DefaultPlan}
variable {stmt : Stmt}
variable {uses : List String}

theorem getterType_named {P : Descriptor.Field → Prop} (hs : b.setup.SoundWith P files)
    (h : p.Made b id) : (getterType p).Named ∧ ∀ q ∈ (getterType p).packages, q ∈ p.uses := by
  obtain ⟨hnamed, -, hpackages, -⟩ := h.named hs
  rw [getterType]
  split
  · obtain ⟨hunstarred, hsame⟩ := hnamed.unstarred
    exact ⟨hunstarred, hsame ▸ hpackages⟩
  · exact ⟨hnamed, hpackages⟩

private theorem enumZero_sound (hs : b.setup.Sound files) (h : p.Made b id) (hkind : p.kind = .enum)
    (hrefers : b.Refers known p.field)
    (hzero : b.enumZero p.field = .ok (stmt, uses)) :
    ((∀ x ∈ uses, R.package x) → stmt.Valid R) ∧ b.Known known uses := by
  simp only [enumZero, bind_eq_ok] at hzero
  obtain ⟨object, hobject, node, hnode, hzero⟩ := hzero
  have hknown := hrefers .enum object (hkind ▸ h.kind) rfl hobject
  obtain ⟨-, hsound⟩ := asEnum_sound hs (resolve_declares hs hobject) hnode
  split at hzero
  · rename_i first rest hvalues
    rw [bind_eq_ok] at hzero
    obtain ⟨⟨constant, uses'⟩, hconstant, hzero⟩ := hzero
    cases hzero
    have hfirst := hsound.plain.values first (by simp [hvalues])
    obtain ⟨hvalid, -, huses⟩ := enumConstant_sound R known hsound hfirst hknown
      hconstant
    exact ⟨fun hu => by simpa using hvalid hu, huses⟩
  · cases hzero
    exact ⟨fun _ => by simpa +decide using OneLine.note (by decide), by simp [Known]⟩

private theorem getterFallback_sound (hs : b.setup.Sound files) (h : p.Made b id)
    (hrefers : b.Refers known p.field) (hd : ∀ plan ∈ d, IsName plan.name)
    (hfallback : b.getterFallback p d = .ok (stmt, uses)) :
    ((∀ x ∈ uses, R.package x) → stmt.Valid R) ∧ b.Known known uses := by
  have hfixed {stmt' : Stmt} (hvalid : stmt'.Valid R)
      (heq : (Except.ok (stmt', []) : Except Error (Stmt × List String)) = .ok (stmt, uses)) :
      ((∀ x ∈ uses, R.package x) → stmt.Valid R) ∧ b.Known known uses := by
    cases heq
    exact ⟨fun _ => hvalid, by simp [Known]⟩
  unfold getterFallback at hfallback
  split at hfallback
  · exact hfixed (by simp +decide [hd]) hfallback
  · exact hfixed (by simp [hd]) hfallback
  · exact hfixed (by simp +decide) hfallback
  · exact hfixed (by simp) hfallback
  · exact hfixed (by simp +decide) hfallback
  · exact hfixed (by simp +decide) hfallback
  · exact hfixed (by simp +decide) hfallback
  · exact enumZero_sound hs h (by assumption) hrefers hfallback
  · exact hfixed (by simp +decide) hfallback

private theorem getterBody_sound (hs : b.setup.Sound files)
    (hid : id.index < b.schema.messages.length) (h : p.Made b id) (m : MessageNode)
    {unions : List (Option UnionPlan)} (hunions : ∀ u ∈ unions, ∀ union ∈ u, union.Sound)
    (hrefers : b.Refers known p.field) (hd : ∀ plan ∈ d, IsName plan.name) {body : List Stmt}
    (hbody : b.getterBody m unions p d = .ok (body, uses)) :
    ((∀ x ∈ uses, R.package x) → Stmt.ValidAll R body) ∧ b.Known known uses := by
  have hname := (h.isName hs hid).1
  unfold getterBody at hbody
  cases honeof : p.oneof with
  | none =>
    simp only [honeof] at hbody
    split at hbody
    · cases hbody
      exact ⟨fun _ => by simp +decide [hname], by simp [Known]⟩
    · rw [bind_eq_ok] at hbody
      obtain ⟨⟨stmt, uses'⟩, hfallback, hbody⟩ := hbody
      cases hbody
      obtain ⟨hvalid, huses⟩ := getterFallback_sound hs h hrefers hd hfallback
      refine ⟨fun hu => ?_, huses⟩
      have hstmt := hvalid hu
      split <;> split <;> simp +decide [hname, hstmt]
  | some i =>
    simp only [honeof, bind_eq_ok] at hbody
    obtain ⟨union, hunion, ⟨stmt, uses'⟩, hfallback, hbody⟩ := hbody
    cases hbody
    obtain ⟨hvalid, huses⟩ := getterFallback_sound hs h hrefers hd hfallback
    have hwrapper := h.isName_wrapper hs hid (by simp [honeof])
    have hgetter : IsName ("Get" ++ union.name) :=
      IsName.append (by decide) (unionAt_sound hunions hunion).name.isTail
    refine ⟨fun hu => ?_, huses⟩
    have hstmt := hvalid hu
    simp +decide [hname, hwrapper, hgetter, hstmt]

theorem getterPart_sound (hs : b.setup.Sound files) (hid : id.index < b.schema.messages.length)
    (h : p.Made b id) (m : MessageNode) (htype : IsName type) {unions : List (Option UnionPlan)}
    (hunions : ∀ u ∈ unions, ∀ union ∈ u, union.Sound) (hrefers : b.Refers known p.field)
    (hd : ∀ plan ∈ d, IsName plan.name) (hgiven : p.uses ⊆ given) {symbol : Option GetterSymbol}
    (hpart : b.getterPart m type unions p d = .ok (part, symbol)) : part.Sound b R known given := by
  simp only [getterPart, steps_eq_ok] at hpart
  obtain ⟨shape, -, ⟨body, uses⟩, hbody, hpart⟩ := hpart
  cases hpart
  obtain ⟨hvalid, huses⟩ := getterBody_sound hs hid h m hunions hrefers hd hbody
  obtain ⟨hnamed, hpackages⟩ := getterType_named hs h
  refine ⟨fun hu => ?_, by simp, fun x hx => ?_⟩
  · rw [forall_mem_append] at hu
    have hresult : (getterType p).Valid R :=
      hnamed.valid fun q hq => hu.1 q (hgiven (hpackages q hq))
    have hstmts := hvalid hu.2
    simp +decide [Decl.InBody, htype, (h.isName hs hid).2, hresult, hstmts]
  · obtain ⟨file, hfile, hknown⟩ := huses x hx
    exact .inr ⟨file, hfile, .inl hknown⟩

end Getters

section Structs

variable {m : MessageNode} {type : String} {plan : MessagePlan}

private theorem unionMembers_valid {union : UnionPlan} (hunion : union.Sound) (i : Nat)
    (hmembers : ∀ p ∈ plan.fields, p.oneof ≠ none → UnionMember R p) :
    ∀ x ∈ b.unionMembers m plan union i, x.Valid R := by
  have hcomments := note_commentAt (R := R) b (m.path ++ [8, i])
  have hname := hunion.name.oneLine
  have htag : R.Tag ⟨[("protobuf_oneof", Text.quote union.schemaName)]⟩ := fun _ =>
    StructTag.unquoted_text.mpr (by
      simpa using ⟨by decide, (unquoted_of_isIdentifier hunion.schemaName).quote⟩)
  simp only [unionMembers, forall_mem_append, forall_mem_ite, forall_mem_cons,
    forall_mem_map]
  refine ⟨⟨⟨by simp, fun _ => ⟨fun text ht => hcomments text ht, ?_, by simp⟩⟩, ?_, ?_⟩, ?_,
    by simp⟩
  · exact OneLine.note (by decide)
  · exact OneLine.note (by simp +decide [hname])
  · intro p hp
    obtain ⟨hfield, honeof⟩ := mem_filter.mp hp
    have hmember := hmembers p hfield (by simp [of_decide_eq_true honeof])
    exact OneLine.note (by simp +decide [hmember.wrapper.oneLine])
  · exact ⟨hunion.name, hunion.interface, htag⟩

private theorem fieldMembers_valid (hunions : ∀ u ∈ plan.unions, ∀ union ∈ u, union.Sound)
    (hmembers : ∀ p ∈ plan.fields, p.oneof ≠ none → UnionMember R p) {ps : List FieldPlan}
    (hps : ∀ p ∈ ps, IsName p.name ∧ p.type.Valid R ∧ R.Tag p.structTag) {seen : List Nat} {i : Nat}
    {members : List Member} (h : b.fieldMembers m plan seen i ps = .ok members) :
    ∀ x ∈ members, x.Valid R := by
  induction ps generalizing seen i members with
  | nil =>
    cases h
    simp
  | cons p ps ih =>
    have hrest := fun q hq => hps q (mem_cons_of_mem p hq)
    rw [fieldMembers] at h
    cases honeof : p.oneof with
    | none =>
      simp only [honeof, steps_eq_ok] at h
      obtain ⟨rest, hr, rfl⟩ := h
      simp only [forall_mem_append, forall_mem_map, forall_mem_cons]
      exact ⟨note_commentAt b _, hps p (by simp), ih hrest hr⟩
    | some oi =>
      simp only [honeof] at h
      split at h
      · exact ih hrest h
      · simp only [steps_eq_ok] at h
        obtain ⟨union, hunion, rest, hr, rfl⟩ := h
        rw [forall_mem_append]
        exact ⟨unionMembers_valid (unionAt_sound hunions hunion) oi hmembers, ih hrest hr⟩

private theorem structDecl_valid (htype : IsName type)
    (hunions : ∀ u ∈ plan.unions, ∀ union ∈ u, union.Sound)
    (hmembers : ∀ p ∈ plan.fields, p.oneof ≠ none → UnionMember R p)
    (hfields : ∀ p ∈ plan.fields, IsName p.name ∧ p.type.Valid R ∧ R.Tag p.structTag)
    (hp : R.package b.proto) {struct : Decl} (h : b.structDecl m type plan = .ok struct) :
    struct.InBody R := by
  simp only [structDecl, steps_eq_ok] at h
  obtain ⟨members, hm, rfl⟩ := h
  have hjson : R.Tag noJson := fun _ => by decide
  refine ⟨⟨htype, ?_⟩, rfl⟩
  simp only [forall_mem_append, forall_mem_ite, forall_mem_singleton]
  exact ⟨⟨fieldMembers_valid hunions hmembers hfields hm, by simp,
    fun _ => ⟨⟨hp, by decide⟩, hjson⟩⟩, by simp, fun _ => ⟨by decide, hjson⟩⟩

private theorem messageFuncs_valid (htype : IsName type) (hp : R.package b.proto) :
    ∀ f ∈ b.messageFuncs m type, f.Valid R := by
  have hdescriptor := descriptorFunc_valid (R := R) b true m.path htype
    (by decide : IsName "Descriptor")
  have hknown := wellKnownFunc_valid (R := R) true m.name htype
  simp only [messageFuncs, forall_mem_append, forall_mem_cons, forall_mem_ite]
  exact ⟨⟨by simp +decide [htype], by simp +decide [htype, hp], by simp +decide [htype],
    hdescriptor, by simp⟩, fun _ => ⟨hknown, by simp⟩, by simp⟩

private theorem messageSetDecls_valid (htype : IsName type) (hp : R.package b.proto) :
    ∀ d ∈ b.messageSetDecls type, d.InBody R := by
  have hnote : R.Note (" ensure " ++ type ++ " satisfies proto.Marshaler and proto.Unmarshaler") :=
    OneLine.note (by simp +decide [htype.oneLine])
  simp +decide [messageSetDecls, Decl.InBody, htype, hp, hnote]

private theorem rangeDecls_valid (htype : IsName type) (hp : R.package b.proto) :
    ∀ d ∈ b.rangeDecls m type, d.InBody R := by
  have hname : IsName ("extRange_" ++ type) := IsName.append (by decide) htype.isTail
  have hranges : ∀ e ∈ m.proto.extensionRanges.map fun r =>
      Entry.group [.int (r.start.getD 0).toInt, .int (r.stop.getD 0 - 1).toInt], e.Valid R := by
    simp only [forall_mem_map]
    simp
  simp only [rangeDecls, forall_mem_cons]
  exact ⟨⟨trivial, rfl⟩, ⟨⟨hname, ⟨hp, by decide⟩, hranges⟩, rfl⟩,
    by simp +decide [htype, hp, hname], by simp⟩

private theorem extensionDecls_valid (htype : IsName type) (hp : R.package b.proto) :
    ∀ d ∈ b.extensionDecls m type, d.InBody R := by
  simp only [extensionDecls, forall_mem_ite, forall_mem_append]
  exact ⟨by simp, fun _ => ⟨⟨fun _ => messageSetDecls_valid htype hp, by simp⟩,
    rangeDecls_valid htype hp⟩⟩

private theorem registerMessage_valid (htype : IsName type) (hp : R.package b.proto) :
    (b.registerMessage m type).Valid R := by
  simp +decide [registerMessage, htype, hp]

end Structs

private theorem defaultPart_sound {d : DefaultPlan} (h : d.Sound b R known p)
    (hgiven : p.uses ⊆ given) : (defaultPart id d).Sound b R known given where
  decls huses := by
    rw [forall_mem_append] at huses
    simpa [defaultPart] using h.decl (fun x hx => huses.1 x (hgiven hx)) huses.2
  inits := by simp [defaultPart]
  uses x hx := by
    rcases h.uses x hx with rfl | ⟨file, hfile, hknown⟩
    · exact .inl (by simp)
    · exact .inr ⟨file, hfile, .inl hknown⟩

/-- What the part of a message is put together from. -/
structure MessageSource (b : Binder) (id : MessageId) (part : Part) where
  plan : MessagePlan
  struct : Decl
  defaults : List (Option DefaultPlan)
  types : List Decl
  getters : List (Part × Option GetterSymbol)
  funcs : Part
  extensions : List Part
  hplan : b.planMessage id = .ok plan
  hstruct : b.structDecl (b.schema.message id) (b.messageType id) plan = .ok struct
  hdefaults : plan.fields.mapM
    (b.planDefault (b.messageType id)) = .ok defaults
  htypes : (b.schema.message id).proto.oneofs.isEmpty = true ∧ types = [] ∨
    unionTypes (b.messageType id) plan = .ok types
  hgetters : ((plan.fields.zip defaults).mapM fun (p, d) => b.getterPart (b.schema.message id)
    (b.messageType id) plan.unions p d) = .ok getters
  hfuncs : (b.schema.message id).proto.oneofs.isEmpty = true ∧ funcs = {} ∨
    (b.schema.message id).proto.oneofs.isEmpty = false ∧
      b.unionPart (b.messageType id) plan = .ok funcs
  hextensions : (b.schema.message id).extensions.mapM b.extensionPart = .ok extensions
  hpart : part =
    { decls := (b.commentAt (b.schema.message id).path).map Decl.comment ++ [struct] ++
        (b.messageFuncs (b.schema.message id) (b.messageType id)).map Decl.func ++
        b.extensionDecls (b.schema.message id) (b.messageType id)
      uses := b.proto :: plan.fields.flatMap (·.uses) } ++
    Part.concat (defaults.flatMap fun d => d.toList.map (defaultPart id)) ++
    { decls := .blank :: types } ++ Part.concat (getters.map (·.1)) ++
    { exports := messageExports id (b.schema.message id)
        (b.messageType id) (getters.filterMap (·.2)) } ++ funcs ++
    Part.concat extensions ++
    { inits := [b.registerMessage (b.schema.message id) (b.messageType id)] }

theorem messagePart_eq_ok (h : b.messagePart id = .ok part) :
    Nonempty (MessageSource b id part) := by
  rw [messagePart, bind_eq_ok] at h
  obtain ⟨plan, hplan, h⟩ := h
  rw [bind_eq_ok] at h
  obtain ⟨struct, hstruct, h⟩ := h
  rw [bind_eq_ok] at h
  obtain ⟨defaults, hdefaults, h⟩ := h
  cases honeofs : (b.schema.message id).proto.oneofs.isEmpty with
  | true =>
    simp only [honeofs, Bool.not_true, Bool.false_eq_true, if_false, steps_eq_ok] at h
    obtain ⟨types, rfl, getters, hgetters, funcs, rfl, extensions, hextensions, rfl⟩ := h
    exact ⟨⟨plan, struct, defaults, [], getters, {}, extensions, hplan, hstruct, hdefaults,
      .inl ⟨honeofs, rfl⟩, hgetters, .inl ⟨honeofs, rfl⟩, hextensions, rfl⟩⟩
  | false =>
    simp only [honeofs, Bool.not_false, if_true, steps_eq_ok] at h
    obtain ⟨types, htypes, getters, hgetters, funcs, hfuncs, extensions, hextensions, rfl⟩ := h
    exact ⟨⟨plan, struct, defaults, types, getters, funcs, extensions, hplan, hstruct, hdefaults,
      .inr htypes, hgetters, .inr ⟨honeofs, hfuncs⟩, hextensions, rfl⟩⟩

theorem MessageSource.decls_eq (e : MessageSource b id part) :
    part.decls = (b.commentAt (b.schema.message id).path).map Decl.comment ++ [e.struct] ++
      (b.messageFuncs (b.schema.message id) (b.messageType id)).map Decl.func ++
      b.extensionDecls (b.schema.message id) (b.messageType id) ++
      (Part.concat (e.defaults.flatMap fun d => d.toList.map (defaultPart id))).decls ++
      .blank :: e.types ++ (Part.concat (e.getters.map (·.1))).decls ++ e.funcs.decls ++
      (Part.concat e.extensions).decls := by
  refine (congrArg Part.decls e.hpart).trans ?_
  simp only [Part.decls_append, append_nil]

theorem MessageSource.plan_sound (e : MessageSource b id part) (hs : b.setup.Sound files)
    (hid : id.index < b.schema.messages.length) : e.plan.Sound b id :=
  planMessage_sound (hs.schema.message_sound hid) e.hplan

theorem MessageSource.default_eq (e : MessageSource b id part) {d : Option DefaultPlan}
    (h : (p, d) ∈ e.plan.fields.zip e.defaults) :
    b.planDefault (b.messageType id) p = .ok d :=
  (forall₂_iff_zip.mp (mapM_eq_ok e.hdefaults)).2 h

/-- What a message declares, given that its fields and extensions name types of known files. -/
theorem messagePart_sound (hs : b.setup.Sound files) (hid : id.index < b.schema.messages.length)
    (htidy : R.strict → ∀ f ∈ files, f.Tidy)
    (hrefers : ∀ field ∈ (b.schema.message id).proto.fields, b.RefersAll known field)
    (hextensions : ∀ x ∈ (b.schema.message id).extensions,
      b.RefersExtension known (b.schema.extension x)) (h : b.messagePart id = .ok part) :
    part.Sound b R known given := by
  have hmessage := hs.schema.message_sound hid
  have htype : IsName (b.messageType id) := hmessage.name.isName
  obtain ⟨e⟩ := messagePart_eq_ok h
  have hplan := e.plan_sound hs hid
  -- What the declarations name beside their own uses is used by the struct.
  let uses := b.proto :: e.plan.fields.flatMap (·.uses)
  have hgiven : ∀ p ∈ e.plan.fields, p.uses ⊆ uses := by
    intro p hp x hx
    exact mem_cons_of_mem _ (mem_flatMap.mpr ⟨p, hp, hx⟩)
  have hrefersAll (p) (hp : p ∈ e.plan.fields) : b.RefersAll known p.field :=
    hrefers p.field (hplan.fields p hp).field
  have hdefault {p d} (hp : p ∈ e.plan.fields)
      (hd : b.planDefault (b.messageType id) p = .ok (some d)) :
      d.Sound b R known p :=
    planDefault_sound hs hid (hplan.fields p hp) (hrefersAll p hp).1 htype hd
  have hmembers (hu : ∀ x ∈ uses, R.package x) (p) (hp : p ∈ e.plan.fields) (ho : p.oneof ≠ none) :
      UnionMember R p :=
    member_of_made hs hid (hplan.fields p hp) ho (fun x hx => hu x (hgiven p hp hx)) htidy
  have hfields (hu : ∀ x ∈ uses, R.package x) (p) (hp : p ∈ e.plan.fields) :
      IsName p.name ∧ p.type.Valid R ∧ R.Tag p.structTag := by
    have hmade := hplan.fields p hp
    obtain ⟨hnamed, -, hpackages, -⟩ := hmade.named hs
    exact ⟨(hmade.isName hs hid).1, hnamed.valid fun q hq => hu q (hgiven p hp (hpackages q hq)),
      fun hstrict => hmade.structTag_unquoted hs hid (htidy hstrict)⟩
  rw [e.hpart]
  refine Part.Sound.of_uses (?_ : Part.Sound b R known uses _) ?_
  · refine ((((((Part.Sound.append ?_ ?_).append ?_).append ?_).append ?_).append ?_).append
      ?_).append ?_
    · refine ⟨fun hu => ?_, by simp, fun x hx => ?_⟩
      · replace hu := (forall_mem_append.mp hu).1
        have hp : R.package b.proto := hu b.proto (by simp [uses])
        simp only [forall_mem_append, forall_mem_map, forall_mem_singleton]
        refine ⟨⟨⟨fun text ht => ⟨note_commentAt b _ text ht, rfl⟩, ?_⟩, fun f hf => ?_⟩, ?_⟩
        · exact structDecl_valid htype hplan.unions (hmembers hu) (hfields hu) hp e.hstruct
        · simpa using messageFuncs_valid htype hp f hf
        · exact extensionDecls_valid htype hp
      · rcases mem_cons.mp hx with rfl | hx
        · exact .inl (by simp)
        · obtain ⟨p, hp, hx⟩ := mem_flatMap.mp hx
          obtain ⟨file, hfile, hknown⟩ := (hplan.fields p hp).known hs (hrefersAll p hp) x hx
          exact .inr ⟨file, hfile, .inl hknown⟩
    · refine Part.Sound.additive.concat fun part hpart => ?_
      obtain ⟨d?, hd?, hpart⟩ := mem_flatMap.mp hpart
      obtain ⟨d, hd, rfl⟩ := mem_map.mp hpart
      obtain rfl : d? = some d := by simpa using hd
      obtain ⟨p, hp, hd⟩ := exists_of_mem_mapM e.hdefaults hd?
      exact defaultPart_sound (hdefault hp hd) (hgiven p hp)
    · refine ⟨fun hu => ?_, by simp, by simp⟩
      replace hu := (forall_mem_append.mp hu).1
      rw [forall_mem_cons]
      refine ⟨⟨trivial, rfl⟩, ?_⟩
      rcases e.htypes with ⟨-, hnone⟩ | htypes
      · simp [hnone]
      · exact unionTypes_valid (hmembers hu) hplan.unions htype htypes
    · refine Part.Sound.additive.concat fun part hpart => ?_
      obtain ⟨⟨part, symbol⟩, hgetter, rfl⟩ := mem_map.mp hpart
      obtain ⟨⟨p, d⟩, hpd, hgetter⟩ := exists_of_mem_mapM e.hgetters hgetter
      have hp := (of_mem_zip hpd).1
      refine getterPart_sound hs hid (hplan.fields p hp) _ htype hplan.unions (hrefersAll p hp).1
        ?_ (hgiven p hp) hgetter
      rintro d' rfl
      exact (hdefault hp (e.default_eq hpd)).name
    · exact ⟨by simp, by simp, by simp⟩
    · rcases e.hfuncs with ⟨-, hnone⟩ | ⟨-, hfuncs⟩
      · rw [hnone]
        exact .nil
      · exact unionPart_sound hs hid hplan htype htidy hgiven hfuncs
    · refine Part.Sound.additive.concat_mapM e.hextensions fun x hx part hpart => ?_
      exact extensionPart_sound hs (hmessage.extensions x hx).1 (hextensions x hx) hpart
    · refine ⟨by simp, fun hu => ?_, by simp⟩
      simpa using registerMessage_valid htype (hu b.proto (by simp [uses]))
  · intro x hx
    simp only [Part.uses_append, List.append_assoc]
    exact mem_append_left _ hx

end Binder

end GoBindings
