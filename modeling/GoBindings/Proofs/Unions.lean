import GoBindings.Bind.Oneof
import GoBindings.Proofs.Parts

/-!
# Unions

The types of the unions of a message, and the functions that write, read and measure them, are
valid.
-/

namespace GoBindings

open List Schema Go

namespace Binder

variable {b : Binder} {R : Rules} {known : FileId → Prop} {files : List Descriptor.File}
  {given : List String} {id : MessageId} {p : FieldPlan} {type : String} {plan : MessagePlan}
variable {cases : List Case} {unions : List (Option UnionPlan)} {i : Nat}

theorem unionAt_sound {union : UnionPlan} (hunions : ∀ u ∈ unions, ∀ union ∈ u, union.Sound)
    (h : unionAt unions i = .ok union) : union.Sound := by
  rw [unionAt] at h
  cases hget : unions[i]? with
  | none => simp [hget] at h
  | some u =>
    cases u with
    | none => simp [hget] at h
    | some union' =>
      obtain rfl : union' = union := by simpa [hget] using h
      exact hunions _ (mem_of_getElem? hget) union' rfl

/-- What a member of a union is like. -/
structure UnionMember (R : Rules) (p : FieldPlan) : Prop where
  name : IsName p.name
  wrapper : IsName p.wrapper
  plain : isIdentifier p.field.nameText = true
  type : p.type.Valid R
  tag : R.strict → Unquoted p.tag.quoted

/-- Floating-point numbers are taken apart and put together by a package of their own. -/
def MayUseMath (b : Binder) (R : Rules) (kind : FieldKind) : Prop :=
  kind = .double ∨ kind = .float → R.package b.math

section Values

variable (kind : FieldKind) {value : Expr}

theorem isName_goConstant (wire : Wire.WireType) : IsName wire.goConstant := by
  cases wire <;> decide

theorem writeKey_valid (number : Int32) (wire : Wire.WireType) (hp : R.package b.proto) :
    (b.writeKey number wire).Valid R := by
  simp +decide [writeKey, onBuffer, hp, isName_goConstant]

theorem writeValue_valid (number : Int32) (hp : R.package b.proto) (hm : b.MayUseMath R kind)
    (hv : value.Valid R) : Stmt.ValidAll R (b.writeValue kind number value) := by
  have hkey := writeKey_valid number .endGroup hp
  cases kind <;>
    simp +decide [writeValue, onBuffer, conversion, guardError] <;> simp_all [MayUseMath]

theorem readValue_valid {t : TypeExpr} (ht : t.Valid R) (hm : b.MayUseMath R kind) :
    (b.readValue kind t).1.Valid R ∧ (b.readValue kind t).2.Valid R := by
  cases kind <;> simp +decide [readValue, onBuffer, conversion] <;> simp_all [MayUseMath]

theorem addKeySize_valid (number : Int32) (wire : Wire.WireType) :
    (addKeySize number wire).Valid R := by
  have hnote : R.Note " tag and wire" := OneLine.note (by decide)
  simp +decide [addKeySize, addSize, hnote]

theorem sizeValue_valid (hp : R.package b.proto) (hv : value.Valid R) :
    Stmt.ValidAll R (b.sizeValue kind value).1 ∧ Stmt.ValidAll R (b.sizeValue kind value).2 := by
  cases kind <;> simp +decide [sizeValue, varintSize, addSize, conversion, hp, hv]

theorem readMember_valid {union : UnionPlan} (hunion : union.Sound) (h : UnionMember R p)
    (hm : b.MayUseMath R p.kind) : Stmt.ValidAll R (b.readMember union p) := by
  have hset {value : Expr} (hv : value.Valid R) : (setUnion union p value).Valid R := by
    simp +decide [setUnion, hunion.name, h.wrapper, hv]
  have hmessage : (setUnion union p (.name "msg")).Valid R := hset (by simp +decide)
  have htype := (TypeExpr.Valid.unstarred h.type).1
  obtain ⟨hcall, hvalue⟩ := readValue_valid p.kind h.type hm
  unfold readMember
  split
  · simp +decide [onBuffer, hmessage, htype]
  · simp +decide [onBuffer, hmessage, htype]
  · simp +decide [hcall, hset hvalue]

end Values

section Cases

variable (hp : R.package b.proto)

include hp

theorem writeCase_valid (h : UnionMember R p) (hm : b.MayUseMath R p.kind) :
    Stmt.ValidCase R (b.writeCase p) := by
  have hvalue : (Expr.select (.name "x") p.name).Valid R := by simp +decide [h.name]
  have hkey := writeKey_valid p.field.numberValue p.fieldType.wire.wireType hp
  have hwrite := writeValue_valid p.kind p.field.numberValue hp hm hvalue
  simp [writeCase, h.wrapper, hkey, hwrite]

theorem readCase_valid (hunions : ∀ u ∈ unions, ∀ union ∈ u, union.Sound)
    (h : p.oneof ≠ none → UnionMember R p ∧ b.MayUseMath R p.kind)
    (hcases : b.readCase unions p = .ok cases) : ∀ c ∈ cases, Stmt.ValidCase R c := by
  unfold readCase at hcases
  cases honeof : p.oneof with
  | none =>
    simp only [honeof] at hcases
    cases hcases
    simp
  | some i =>
    obtain ⟨hmember, hm⟩ := h (by simp [honeof])
    simp only [honeof, steps_eq_ok] at hcases
    obtain ⟨union, hunion, rfl⟩ := hcases
    have hu := unionAt_sound hunions hunion
    have hnote : R.Note (" " ++ union.schemaName ++ "." ++ p.field.nameText) := OneLine.note (by
      simp +decide [(isName_of_isIdentifier hu.schemaName).oneLine,
        (isName_of_isIdentifier hmember.plain).oneLine])
    have hwire := isName_goConstant p.fieldType.wire.wireType
    have hbody := readMember_valid hu hmember hm
    simp +decide [hnote, hp, hwire, hbody]

theorem sizeCase_valid (h : UnionMember R p) : Stmt.ValidCase R (b.sizeCase p) := by
  have hvalue : (Expr.select (.name "x") p.name).Valid R := by simp +decide [h.name]
  obtain ⟨hbefore, hafter⟩ := sizeValue_valid p.kind hp hvalue
  have hkey := addKeySize_valid (R := R) p.field.numberValue p.fieldType.wire.wireType
  have hclose := addKeySize_valid (R := R) p.field.numberValue .endGroup
  have hend : Stmt.ValidAll R
      (if p.kind = .group then [addKeySize p.field.numberValue .endGroup] else []) := by
    split <;> simp [hclose]
  simp [sizeCase, h.wrapper, hbefore, hafter, hkey, hend]

end Cases

/-- What the functions for the unions of a message rest on. -/
structure Unions (b : Binder) (R : Rules) (plan : MessagePlan) : Prop where
  members : ∀ p ∈ plan.fields, p.oneof ≠ none → UnionMember R p ∧ b.MayUseMath R p.kind
  unions : ∀ u ∈ plan.unions, ∀ union ∈ u, union.Sound
  proto : R.package b.proto
  fmt : declaredUnions plan.unions ≠ [] → R.package b.fmt

section Functions

variable {name buffer : String}
variable {union : UnionPlan}

theorem funcOf_valid {t : FuncType} {body : List Stmt} (hname : IsName name) (ht : t.Valid R)
    (hbody : Stmt.ValidAll R body) : (funcOf name t body).Valid R := by
  have hresults := ht.results
  refine ⟨by simp [funcOf], hname, ht.params, ?_, hbody⟩
  unfold funcOf
  cases hr : t.results with
  | none => trivial
  | one r | named n r =>
    rw [hr] at hresults
    exact hresults
  | many rs =>
    rw [hr] at hresults
    intro r hmem
    obtain ⟨r', hr', rfl⟩ := mem_map.mp hmem
    exact hresults r' hr'

theorem writerType_valid (hp : R.package b.proto) (hbuffer : IsName buffer) :
    (b.writerType buffer).Valid R := by
  simp +decide [writerType, hp, hbuffer]

theorem readerType_valid (hp : R.package b.proto) (hbuffer : IsName buffer) :
    (b.readerType buffer).Valid R := by
  simp +decide [readerType, hp, hbuffer]

theorem sizerType_valid {results : Results TypeExpr} (hp : R.package b.proto)
    (hresults : results.Valid (TypeExpr.Valid R)) : (b.sizerType results).Valid R :=
  ⟨by simp +decide [sizerType, hp], hresults⟩

theorem isName_unionFuncs (htype : IsName type) :
    IsName (writerName type) ∧ IsName (readerName type) ∧ IsName (sizerName type) := by
  have hname : IsName ("_" ++ type) := IsName.append (by decide) htype.isTail
  exact ⟨hname.append (by decide), hname.append (by decide), hname.append (by decide)⟩

theorem bindMessage_valid (htype : IsName type) : (bindMessage type).Valid R := by
  simp +decide [bindMessage, htype]

private theorem unionSwitch_valid {unknown : Stmt} (hunion : union.Sound)
    (hcases : ∀ c ∈ cases, Stmt.ValidCase R c) (hunknown : unknown.Valid R) :
    Stmt.ValidAll R (unionSwitch union cases unknown) := by
  have hnote : R.Note (" " ++ union.schemaName) := OneLine.note (by
    simp +decide [(isName_of_isIdentifier hunion.schemaName).oneLine])
  simp +decide [unionSwitch, hnote, hunion.name, Stmt.validCases_iff.mpr hcases, hunknown]

private theorem mem_numberedUnions (h : (union, i) ∈ numberedUnions unions) :
    some union ∈ unions := by
  obtain ⟨⟨u, j⟩, hmem, hu⟩ := mem_filterMap.mp h
  obtain ⟨union', rfl, heq⟩ := Option.map_eq_some_iff.mp hu
  cases heq
  exact fst_mem_of_mem_zipIdx hmem

private theorem declaredUnions_ne_nil (h : some union ∈ unions) : declaredUnions unions ≠ [] := by
  have hmem : union ∈ declaredUnions unions := mem_filterMap.mpr ⟨some union, h, rfl⟩
  exact ne_nil_of_mem hmem

variable (h : Unions b R plan) (htype : IsName type)

include h htype

omit htype in
private theorem switches_valid (case : FieldPlan → Case) (unknown : UnionPlan → Stmt)
    (hcase : ∀ p, UnionMember R p ∧ b.MayUseMath R p.kind → Stmt.ValidCase R (case p))
    (hunknown : ∀ union, union.Sound → R.package b.fmt → (unknown union).Valid R) :
    Stmt.ValidAll R ((numberedUnions plan.unions).flatMap fun (union, i) =>
      unionSwitch union ((membersOf plan.fields i).map case) (unknown union)) := by
  rw [Stmt.validAll_iff]
  intro s hs
  obtain ⟨⟨union, i⟩, hmem, hs⟩ := mem_flatMap.mp hs
  have hsome := mem_numberedUnions hmem
  have hunion := h.unions _ hsome union rfl
  refine Stmt.validAll_iff.mp (unionSwitch_valid hunion ?_
    (hunknown union hunion (h.fmt (declaredUnions_ne_nil hsome)))) s hs
  intro c hc
  obtain ⟨p, hp, rfl⟩ := mem_map.mp hc
  obtain ⟨hfield, honeof⟩ := mem_filter.mp hp
  exact hcase p (h.members p hfield (by simp [of_decide_eq_true honeof]))

omit h in
private theorem unexpected_scans (hname : IsName name) :
    (Lexeme.literal ("\"" ++ type ++ "." ++ name ++ " has unexpected type %T\"")).scansAlone =
      true := by
  have heq : "\"" ++ type ++ "." ++ name ++ " has unexpected type %T\"" =
      "\"" ++ (type ++ "." ++ name ++ " has unexpected type %T") ++ "\"" :=
    String.toList_injective (by simp)
  have hplain : ∀ c : Char, isIdentRest c = false → c ∉ ['.'] →
      c ∉ " has unexpected type %T".toList →
      c ∉ (type ++ "." ++ name ++ " has unexpected type %T").toList := by
    intro c hc hdot hrest
    simp only [String.toList_append, mem_append, not_or]
    exact ⟨⟨⟨htype.not_mem hc, hdot⟩, hname.not_mem hc⟩, hrest⟩
  rw [heq]
  exact scansAlone_plainLiteral ⟨hplain _ (by decide) (by decide) (by decide),
    hplain _ (by decide) (by decide) (by decide), hplain _ (by decide) (by decide) (by decide)⟩

theorem writerFunc_valid : (b.writerFunc type plan).Valid R := by
  refine funcOf_valid (isName_unionFuncs htype).1 (writerType_valid h.proto (by decide)) ?_
  have hswitches := switches_valid h b.writeCase
    (fun union => .ret (.call (.qualified b.fmt "Errorf")
      [.literal ("\"" ++ type ++ "." ++ union.name ++ " has unexpected type %T\""), .name "x"]))
    (fun p hp => writeCase_valid h.proto hp.1 hp.2)
    (fun union hunion hfmt => by simp +decide [hfmt, unexpected_scans htype hunion.name])
  simpa +decide [bindMessage_valid htype] using hswitches

theorem readerFunc_valid {reader : Func} (hreader : b.readerFunc type plan = .ok reader) :
    reader.Valid R := by
  simp only [readerFunc, steps_eq_ok] at hreader
  obtain ⟨cases, hcases, rfl⟩ := hreader
  refine funcOf_valid (isName_unionFuncs htype).2.1 (readerType_valid h.proto (by decide)) ?_
  have hflat : Stmt.ValidCases R cases.flatten := by
    rw [Stmt.validCases_iff]
    intro c hc
    obtain ⟨cs, hcs, hc⟩ := mem_flatten.mp hc
    obtain ⟨p, hp, heq⟩ := exists_of_mem_mapM hcases hcs
    exact readCase_valid h.proto h.unions (h.members p hp) heq c hc
  simp +decide [bindMessage_valid htype, hflat]

theorem sizerFunc_valid : (b.sizerFunc type plan).Valid R := by
  refine funcOf_valid (isName_unionFuncs htype).2.2 (sizerType_valid h.proto (by simp +decide)) ?_
  have hswitches := switches_valid h b.sizeCase
    (fun _ => .eval (.call (.name "panic") [.call (.qualified b.fmt "Sprintf")
      [.literal "\"proto: unexpected type %T in oneof\"", .name "x"]]))
    (fun p hp => sizeCase_valid h.proto hp.1) (fun union _ hfmt => by simp +decide [hfmt])
  simpa +decide [bindMessage_valid htype] using hswitches

theorem unionFuncs_valid (members : List FieldPlan) (hmembers : ∀ p ∈ members, IsName p.wrapper) :
    (b.unionFuncs type (b.sizerType (.named "n" (.name "int"))) members).Valid R := by
  obtain ⟨hwriter, hreader, hsizer⟩ := isName_unionFuncs htype
  have hw := writerType_valid h.proto (by decide : IsName "b")
  have hr := readerType_valid h.proto (by decide : IsName "b")
  have hs : (b.sizerType (.named "n" (.name "int"))).Valid R :=
    sizerType_valid h.proto (by simp +decide)
  have hpointers : Expr.ValidAll R (members.map fun p => .nilPointer p.wrapper) := by
    rw [Expr.validAll_iff]
    intro e he
    obtain ⟨p, hp, rfl⟩ := mem_map.mp he
    simp +decide [hmembers p hp]
  have hreceiver : Receiver.Valid ⟨none, true, type⟩ := ⟨by simp, htype⟩
  have hname : IsName "XXX_OneofFuncs" := by decide
  have hresults : (unionFuncResults (b.writerType "b") (b.readerType "b")
      (b.sizerType (.named "n" (.name "int")))).Valid (ResultType.Valid R) := by
    simp only [unionFuncResults, Results.Valid, forall_mem_cons]
    exact ⟨hw, hr, hs, trivial, by simp⟩
  have hbody : Stmt.ValidAll R [.retList [.name (writerName type), .name (readerName type),
      .name (sizerName type)] (.slice .anything) (members.map fun p => .nilPointer p.wrapper)] :=
    ⟨⟨by simp [hwriter, hreader, hsizer], trivial, hpointers⟩, trivial⟩
  exact ⟨fun r hr => Option.mem_some.mp hr ▸ hreceiver, hname, by simp [unionFuncs], hresults,
    hbody⟩

end Functions

theorem member_of_made (hs : b.setup.Sound files) (hid : id.index < b.schema.messages.length)
    (h : p.Made b id) (honeof : p.oneof ≠ none) (huses : ∀ x ∈ p.uses, R.package x)
    (htidy : R.strict → ∀ f ∈ files, f.Tidy) : UnionMember R p where
  name := (h.isName hs hid).1
  wrapper := h.isName_wrapper hs hid (Option.isSome_iff_ne_none.mpr honeof)
  plain := (h.plain hs hid).name
  type := by
    obtain ⟨hnamed, -, hpackages, -⟩ := h.named hs
    exact hnamed.valid fun q hq => huses q (hpackages q hq)
  tag hstrict := h.tag_unquoted hs hid (htidy hstrict)

section Types

variable {decls : List Decl}

private theorem wrapperDecl_valid (h : UnionMember R p) : (wrapperDecl p).InBody R := by
  have htag : R.Tag ⟨[("protobuf", p.tag.quoted)]⟩ := fun hstrict =>
    StructTag.unquoted_text.mpr (by simpa using ⟨by decide, h.tag hstrict⟩)
  simp [wrapperDecl, Decl.InBody, h.wrapper, h.name, h.type, htag]

private theorem markerDecl_valid (hunions : ∀ u ∈ unions, ∀ union ∈ u, union.Sound)
    (h : p.oneof ≠ none → UnionMember R p) (hdecls : markerDecl unions p = .ok decls) :
    ∀ d ∈ decls, d.InBody R := by
  unfold markerDecl at hdecls
  cases honeof : p.oneof with
  | none =>
    simp only [honeof] at hdecls
    cases hdecls
    simp
  | some i =>
    simp only [honeof, steps_eq_ok] at hdecls
    obtain ⟨union, hunion, rfl⟩ := hdecls
    have hmember := h (by simp [honeof])
    simp [hmember.wrapper, (unionAt_sound hunions hunion).interface]

private theorem unionGetter_valid {union : UnionPlan} (htype : IsName type) (h : union.Sound) :
    (unionGetter type union).Valid R := by
  have hget : IsName ("Get" ++ union.name) := IsName.append (by decide) h.name.isTail
  simp +decide [unionGetter, htype, hget, h.name, h.interface]

theorem unionTypes_valid (hmembers : ∀ p ∈ plan.fields, p.oneof ≠ none → UnionMember R p)
    (hunions : ∀ u ∈ plan.unions, ∀ union ∈ u, union.Sound) (htype : IsName type)
    (h : unionTypes type plan = .ok decls) : ∀ d ∈ decls, d.InBody R := by
  simp only [unionTypes, steps_eq_ok] at h
  obtain ⟨markers, hmarkers, rfl⟩ := h
  have hdeclared : ∀ union ∈ declaredUnions plan.unions, union.Sound := by
    intro union hunion
    obtain ⟨u, hu, hsome⟩ := mem_filterMap.mp hunion
    exact hunions u hu union hsome
  have hblank : Decl.blank.InBody R := ⟨trivial, rfl⟩
  simp only [forall_mem_append, forall_mem_map, forall_mem_singleton]
  refine ⟨⟨⟨⟨⟨⟨⟨fun u hu => ?_, hblank⟩, fun p hp => ?_⟩, hblank⟩, fun d hd => ?_⟩, hblank⟩,
    fun u hu => ?_⟩, hblank⟩
  · exact ⟨⟨(hdeclared u hu).interface, (hdeclared u hu).interface⟩, rfl⟩
  · obtain ⟨hfield, hsome⟩ := mem_filter.mp hp
    exact wrapperDecl_valid (hmembers p hfield (Option.isSome_iff_ne_none.mp hsome))
  · obtain ⟨ds, hds, hd⟩ := mem_flatten.mp hd
    obtain ⟨p, hp, heq⟩ := exists_of_mem_mapM hmarkers hds
    exact markerDecl_valid hunions (hmembers p hp) heq d hd
  · exact ⟨unionGetter_valid htype (hdeclared u hu), rfl⟩

end Types

theorem unionPart_sound (hs : b.setup.Sound files) (hid : id.index < b.schema.messages.length)
    (hplan : plan.Sound b id) (htype : IsName type) (htidy : R.strict → ∀ f ∈ files, f.Tidy)
    (hgiven : ∀ p ∈ plan.fields, p.uses ⊆ given) {part : Part}
    (h : b.unionPart type plan = .ok part) : part.Sound b R known given := by
  simp only [unionPart, steps_eq_ok] at h
  obtain ⟨reader, hreader, rfl⟩ := h
  refine ⟨fun huses => ?_, by simp, ?_⟩
  · simp only [unionUses, forall_mem_append, forall_mem_singleton, forall_mem_ite] at huses
    obtain ⟨huses, ⟨hproto, -, hfmt⟩, hmath, -⟩ := huses
    have hmembers : ∀ p ∈ plan.fields, p.oneof ≠ none →
        UnionMember R p ∧ b.MayUseMath R p.kind := by
      intro p hp honeof
      refine ⟨member_of_made hs hid (hplan.fields p hp) honeof
        (fun x hx => huses x (hgiven p hp hx)) htidy, fun hkind => hmath ?_⟩
      refine any_eq_true.mpr ⟨p, hp, ?_⟩
      simpa [Option.isSome_iff_ne_none] using ⟨honeof, hkind⟩
    have hunions : Unions b R plan :=
      ⟨hmembers, hplan.unions, hproto, fun hne => hfmt (by simpa using hne)⟩
    have hblank : Decl.blank.InBody R := ⟨trivial, rfl⟩
    have hcomment : R.Note " XXX_OneofFuncs is for the internal use of the proto package." :=
      OneLine.note (by decide)
    have hfuncs := unionFuncs_valid hunions htype (plan.fields.filter (·.oneof.isSome))
      fun p hp => by
        obtain ⟨hfield, hsome⟩ := mem_filter.mp hp
        exact (hmembers p hfield (Option.isSome_iff_ne_none.mp hsome)).1.wrapper
    simp only [forall_mem_cons, Decl.inBody_func]
    exact ⟨⟨hcomment, rfl⟩, hfuncs, hblank, writerFunc_valid hunions htype, hblank,
      readerFunc_valid hunions htype hreader, hblank, sizerFunc_valid hunions htype, hblank,
      by simp⟩
  · intro x hx
    simp only [unionUses, mem_append, mem_singleton] at hx
    rcases hx with (rfl | hx) | hx
    · simp
    · split at hx <;> simp_all
    · split at hx <;> simp_all

end Binder

end GoBindings
