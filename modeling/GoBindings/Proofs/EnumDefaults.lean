import GoBindings.Proofs.Symbols
import GoBindings.Proofs.TagReading
import GoBindings.Proofs.UnionMembers

/-!
# Defaults of enum fields

The default of an enum field shows in three places: its number stands in the tag of the field, its
constant is declared under the name of the default, and the getter falls back on that name. A value
called `inf` or `nan` is taken for a floating-point default, since the words are looked at before
the kind of the field.
-/

namespace GoBindings

open List Schema Go Descriptor Setup

/-- The fields of a declared struct, each with its tag. -/
def Go.Decl.taggedFields : Decl → List (String × StructTag)
  | .struct _ members => members.filterMap fun
    | .field name _ tag => some (name, tag)
    | _ => none
  | .wrapper _ field _ tag => [(field, tag)]
  | _ => []

/-- The texts of the constants and variables that a declaration gives a name to. -/
def Go.Decl.valuesOf (name : String) : Decl → List (ValueSort × String)
  | .value sort n _ x _ => if n = name then [(sort, Lexeme.spell x.lexemes)] else []
  | _ => []

namespace Binder

variable {b : Binder} {id : MessageId} {p : FieldPlan} {object : Object} {e : EnumNode}
  {value type : String}
variable {uses : List String}

/-- The name of a constant of a package, as written in the generated package. -/
def constantIn (b : Binder) (package name : String) : Expr :=
  if package = b.setup.packageName then .name name else .qualified package name

theorem enumConstant_eq_ok {constant : Expr}
    (h : b.enumConstant object e value = .ok (constant, uses)) :
    ∃ package, b.setup.packages.of (b.schema.fileOf object) = .ok package ∧
      constant = b.constantIn package (e.constantPrefix ++ value) := by
  rw [enumConstant, bind_eq_ok] at h
  obtain ⟨package, hpackage, h⟩ := h
  refine ⟨package, hpackage, ?_⟩
  rw [constantIn]
  split at h
  · rename_i hown
    rw [if_pos hown]
    exact (Prod.mk.inj (pure_eq_ok.mp h)).1.symm
  · rename_i hother
    rw [if_neg hother]
    exact (Prod.mk.inj (pure_eq_ok.mp h)).1.symm

theorem constants_mem_enumDecls (b : Binder) (e : EnumNode) :
    .constants (b.constantEntries e (camelCaseScope e.typeName) 0 e.proto.values) ∈
      b.enumDecls e := by
  simp [enumDecls]

section Types

theorem exists_package (hp : p.Made b id) (hkind : p.kind = .enum)
    (henum : b.setup.underlyingEnum p.field.typeNameText b.file = .ok (object, e)) :
    ∃ package, b.setup.packages.of (b.schema.fileOf object) = .ok package := by
  obtain ⟨kind, t, hkind', hnames, -⟩ := fieldType_cases hp.fieldType
  cases hp.kind.symm.trans hkind'
  rw [hkind] at hnames
  obtain ⟨object', hobject, ht⟩ := hnames
  obtain rfl : object = object' :=
    Except.ok.inj ((underlyingEnum_eq_ok henum).1.symm.trans hobject)
  rw [goName, bind_eq_ok] at ht
  obtain ⟨package, hpackage, -⟩ := ht
  exact ⟨package, hpackage⟩

theorem enum_text_notMem (hp : p.Made b id) (hkind : p.kind = .enum)
    (henum : b.setup.underlyingEnum p.field.typeNameText b.file = .ok (object, e))
    (hname : IsName (camelCaseScope e.typeName)) :
    p.fieldType.type.unstarred.text ∉ ["bool", "string", "[]byte"] := by
  obtain ⟨hobject, he⟩ := underlyingEnum_eq_ok henum
  obtain ⟨eid, hid, rfl⟩ := asEnum_eq_ok he
  have htypeName : b.setup.schema.typeName object = (b.setup.schema.enum eid).typeName := by
    rw [Schema.typeName, hid]
    rfl
  refine fieldType_text hp.fieldType hp.kind (by rw [hkind]; rfl) fun object' hobject' => ?_
  cases hobject.symm.trans hobject'
  exact htypeName ▸ hname

end Types

section Declaration

/-- What the default of a field of a message is declared as. -/
def defaultName (b : Binder) (id : MessageId) (field : Field) : String :=
  "Default_" ++ camelCaseScope (b.schema.message id).typeName ++ "_" ++ camelCase field.nameText

theorem specialFloat?_eq_none_iff :
    b.specialFloat? value = none ↔ value ∉ ["inf", "-inf", "nan"] := by
  rw [specialFloat?]
  split_ifs <;> simp_all

theorem planDefault_enum (hp : p.Made b id) (hkind : p.kind = .enum)
    (hvalue : p.field.defaultValue = some value) (hne : value ≠ "")
    (henum : b.setup.underlyingEnum p.field.typeNameText b.file = .ok (object, e))
    (hname : IsName (camelCaseScope e.typeName)) {d : Option DefaultPlan}
    (hd : b.planDefault (b.messageType id) p = .ok d) :
    ∃ plan, d = some plan ∧ plan.name = b.defaultName id p.field ∧
      plan.type = p.fieldType.type.unstarred ∧
      (plan.sort = .var ∧ b.specialFloat? value = some plan.value ∨
        plan.sort = .const ∧ b.specialFloat? value = none ∧
          ∃ package, b.setup.packages.of (b.schema.fileOf object) = .ok package ∧
            plan.value = b.constantIn package (e.constantPrefix ++ value)) := by
  have htext := enum_text_notMem hp hkind henum hname
  simp only [mem_cons, not_mem_nil, or_false, not_or] at htext
  obtain ⟨hbool, hstring, hbytes⟩ := htext
  obtain ⟨hobject, he⟩ := underlyingEnum_eq_ok henum
  obtain ⟨eid, hid, rfl⟩ := asEnum_eq_ok he
  simp only [planDefault, hvalue, Option.getD_some] at hd
  rw [if_neg hne, if_neg hbool, if_neg hstring, if_neg hbytes] at hd
  cases hspecial : b.specialFloat? value with
  | some special =>
    have hfloat : p.kind ≠ .float := by simp [hkind]
    simp only [hspecial, if_neg hfloat] at hd
    exact ⟨_, (pure_eq_ok.mp hd).symm, rfl, rfl, .inl ⟨rfl, rfl⟩⟩
  | none =>
    simp only [hspecial, if_pos hkind, bind_eq_ok] at hd
    obtain ⟨_, hobject', hd⟩ := hd
    cases hobject.symm.trans hobject'
    have hunderlying : b.schema.underlying object = .enum eid := hid
    simp only [hunderlying, bind_eq_ok] at hd
    obtain ⟨⟨constant, uses⟩, hconstant, hd⟩ := hd
    obtain ⟨package, hpackage, rfl⟩ := enumConstant_eq_ok hconstant
    exact ⟨_, (pure_eq_ok.mp hd).symm, rfl, rfl, .inr ⟨rfl, rfl, package, hpackage, rfl⟩⟩

end Declaration

section Getter

variable {m : MessageNode} {unions : List (Option UnionPlan)} {d : DefaultPlan}

private theorem getterBody_enum (hkind : p.kind = .enum) {body : List Stmt}
    (h : b.getterBody m unions p (some d) = .ok (body, uses)) :
    ∃ first, body = [first,
      if p.oneof = none ∧ p.field.isRepeated = true then .ret .nil else .ret (.name d.name)] := by
  have hfallback : b.getterFallback p (some d) = .ok (.ret (.name d.name), []) := by
    simp [getterFallback, hkind]
  have hnil : nilDefault p (some d) = p.field.isRepeated := by
    simp [nilDefault, hkind]
  rw [getterBody] at h
  cases honeof : p.oneof with
  | none =>
    by_cases hrepeated : p.field.isRepeated = true
    · simp only [honeof, hnil, if_pos hrepeated, pure_eq_ok, Prod.mk.injEq] at h
      rw [if_pos ⟨rfl, hrepeated⟩]
      exact ⟨_, h.1.symm⟩
    · simp only [honeof, hnil, if_neg hrepeated, hfallback, bind_eq_ok, Except.ok.injEq,
        exists_eq_left', pure_eq_ok, Prod.mk.injEq] at h
      rw [if_neg fun hboth => hrepeated hboth.2]
      exact ⟨_, h.1.symm⟩
  | some i =>
    simp only [honeof, hfallback, bind_eq_ok, Except.ok.injEq, exists_eq_left', pure_eq_ok,
      Prod.mk.injEq] at h
    obtain ⟨union, -, h, -⟩ := h
    exact ⟨_, h.symm⟩

theorem getterPart_enum (hkind : p.kind = .enum) {part : Part} {symbol : Option GetterSymbol}
    (h : b.getterPart m type unions p (some d) = .ok (part, symbol)) :
    ∃ getter first, .func getter ∈ part.decls ∧ getter.receiver = some ⟨some "m", true, type⟩ ∧
      getter.name = p.getter ∧ getter.body = .block [first,
        if p.oneof = none ∧ p.field.isRepeated = true then .ret .nil else .ret (.name d.name)] := by
  simp only [getterPart, steps_eq_ok] at h
  obtain ⟨shape, -, ⟨body, uses⟩, hbody, rfl, -⟩ := h
  obtain ⟨first, rfl⟩ := getterBody_enum hkind hbody
  exact ⟨_, first, mem_cons_self, rfl, rfl, rfl⟩

end Getter

section Messages

variable {m : MessageNode} {plan : MessagePlan} {part : Part}

theorem field_mem_structDecl {members : List Member}
    (h : b.structDecl m type plan = .ok (.struct type members)) (hp : p ∈ plan.fields)
    (honeof : p.oneof = none) : .field p.name p.type p.structTag ∈ members := by
  obtain ⟨placed, runtime, hcode, hplaced, -⟩ := code_structDecl h
  have hmem : p ∈ MessagePlan.placed plan.fields := by
    refine mem_of_mem_filter (p := (·.oneof.isNone)) ?_
    simp [filter_placed, hp, honeof]
  have hmember : plan.member? p ∈ placed.map some := hplaced ▸ mem_map_of_mem hmem
  refine mem_of_mem_filter (hcode ▸ mem_append_left _ ?_)
  simpa [MessagePlan.member?, honeof] using hmember

theorem MessageSource.exists_tagged (s : MessageSource b id part) (hp : p ∈ s.plan.fields) :
    ∃ decl ∈ part.decls, ∃ tag, (p.name, tag) ∈ decl.taggedFields ∧
      ("protobuf", p.tag.quoted) ∈ tag.parts := by
  cases honeof : p.oneof with
  | none =>
    obtain ⟨sh⟩ := s.shaping
    have hmem : s.struct ∈ part.decls := by
      rw [s.decls_eq]
      simp
    refine ⟨s.struct, hmem, p.structTag, ?_, ?_⟩
    · rw [sh.hmembers, Decl.taggedFields, mem_filterMap]
      exact ⟨_, field_mem_structDecl (sh.hmembers ▸ s.hstruct) hp honeof, rfl⟩
    · rcases (planMessage_made s.hplan p hp).map with ⟨-, -, -, htag⟩ | ⟨_, _, -, -, -, -, htag⟩
      · simp [htag, FieldPlan.ownTags]
      · simp [htag, FieldPlan.ownTags]
  | some i =>
    have hmem := s.wrapperDecl_mem hp (by rw [honeof, Option.isSome_some])
    exact ⟨_, hmem, _, mem_singleton.mpr rfl, mem_singleton.mpr rfl⟩

theorem MessageSource.exists_getterPart (s : MessageSource b id part) (hp : p ∈ s.plan.fields) :
    ∃ d getter symbol, (p, d) ∈ s.plan.fields.zip s.defaults ∧ (getter, symbol) ∈ s.getters ∧
      b.getterPart (b.schema.message id) (b.messageType id)
        s.plan.unions p d = .ok (getter, symbol) ∧ ∀ decl ∈ getter.decls, decl ∈ part.decls := by
  have hlength : s.plan.fields.length = s.defaults.length := (mapM_eq_ok s.hdefaults).length_eq
  obtain ⟨i, hi, rfl⟩ := mem_iff_getElem.mp hp
  have hzip : (s.plan.fields[i], s.defaults[i]) ∈ s.plan.fields.zip s.defaults :=
    mem_iff_getElem.mpr ⟨i, by simpa [← hlength] using hi, getElem_zip⟩
  obtain ⟨⟨getter, symbol⟩, hmem, hgetter⟩ := exists_of_mem_forall₂ (mapM_eq_ok s.hgetters) hzip
  refine ⟨s.defaults[i], getter, symbol, hzip, hmem, hgetter, fun decl hdecl => ?_⟩
  have hdecls : decl ∈ (Part.concat (s.getters.map (·.1))).decls := by
    rw [Part.decls_concat, mem_flatMap]
    exact ⟨getter, mem_map.mpr ⟨_, hmem, rfl⟩, hdecl⟩
  rw [s.decls_eq]
  simp only [mem_append]
  tauto

theorem MessageSource.exists_default (s : MessageSource b id part) (hp : p ∈ s.plan.fields) :
    let type := b.messageType id
    ∃ d, b.planDefault type p = .ok d ∧ (∀ plan ∈ d, DefaultPlan.decl plan ∈ part.decls) ∧
      ∃ getter symbol, b.getterPart (b.schema.message id) type s.plan.unions p d =
        .ok (getter, symbol) ∧ ∀ decl ∈ getter.decls, decl ∈ part.decls := by
  obtain ⟨d, getter, symbol, hzip, -, hgetter, hdecls⟩ := s.exists_getterPart hp
  refine ⟨d, s.default_eq hzip, fun plan hplan => ?_, getter, symbol, hgetter, hdecls⟩
  have hdecl : DefaultPlan.decl plan ∈
      (Part.concat (s.defaults.flatMap fun d => d.toList.map (defaultPart id))).decls := by
    rw [Part.decls_concat, mem_flatMap]
    refine ⟨defaultPart id plan, ?_, mem_singleton.mpr rfl⟩
    rw [mem_flatMap]
    exact ⟨d, (of_mem_zip hzip).2, mem_map_of_mem (Option.mem_toList.mpr hplan)⟩
  rw [s.decls_eq]
  simp only [mem_append]
  tauto

/-- How a default shows in what a message declares: a number in the tag of the field, a declaration,
and what the getter falls back on. -/
structure ShowsDefault (b : Binder) (id : MessageId) (part : Part) (p : FieldPlan) (number : Int32)
    (sort : ValueSort) (value : Expr) : Prop where
  tag : ∃ decl ∈ part.decls, ∃ tag, (p.name, tag) ∈ decl.taggedFields ∧
    ("protobuf", p.tag.quoted) ∈ tag.parts
  number : p.tag.defaultText = some (toString number.toInt)
  declared : .value sort (b.defaultName id p.field) (some p.fieldType.type.unstarred) value none ∈
    part.decls
  getter : ∃ getter first, .func getter ∈ part.decls ∧
    getter.receiver = some ⟨some "m", true, b.messageType id⟩ ∧
    getter.name = p.getter ∧ getter.body = .block [first,
      if p.field.isRepeated = true ∧ p.field.oneofIndex = none then .ret .nil
      else .ret (.name (b.defaultName id p.field))]

/-- The default of an enum field is a value of the enum. The tag holds its number, and the getter
falls back on its constant, unless the value is called like a floating-point number. -/
theorem messagePart_enumDefault {field : Field} (hpart : b.messagePart id = .ok part)
    (hfield : field ∈ (b.schema.message id).proto.fields) (hkind : field.fieldKind = .ok .enum)
    (hvalue : field.defaultValue = some value) (hne : value ≠ "")
    (hname : ∀ object e, b.setup.underlyingEnum field.typeNameText b.file = .ok (object, e) →
      IsName (camelCaseScope e.typeName)) :
    ∃ object e v package p sort expr,
      b.setup.underlyingEnum field.typeNameText b.file = .ok (object, e) ∧
      e.proto.values.find? (fun v => v.name.getD "" = value) = some v ∧
      (∀ b' : Binder, ∃ entries, .constants entries ∈ b'.enumDecls e ∧
        .constant (e.constantPrefix ++ value) (camelCaseScope e.typeName) (v.number.getD 0) ∈
          entries) ∧
      b.setup.packages.of (b.schema.fileOf object) = .ok package ∧
      p.field = field ∧ b.ShowsDefault id part p (v.number.getD 0) sort expr ∧
      (sort = .const ∧ expr = b.constantIn package (e.constantPrefix ++ value) ↔
        value ∉ ["inf", "-inf", "nan"]) ∧
      (value ∈ ["inf", "-inf", "nan"] → sort = .var ∧ b.specialFloat? value = some expr) := by
  obtain ⟨s⟩ := messagePart_eq_ok hpart
  rw [← planMessage_fields s.hplan, mem_map] at hfield
  obtain ⟨p, hp, rfl⟩ := hfield
  have hmade := planMessage_made s.hplan p hp
  have hkindp : p.kind = .enum := Except.ok.inj (hmade.kind.symm.trans hkind)
  obtain ⟨_, hkind', htells⟩ := tagTells_of_fieldTag hmade.tag
  cases hkind.symm.trans hkind'
  obtain ⟨_, htag, object, e, v, henum, hv, rfl⟩ := htells.default value hvalue
  obtain ⟨d, hd, hdecl, getter, symbol, hgetter, hdecls⟩ := s.exists_default hp
  obtain ⟨plan, rfl, hplanName, hplanType, hplan⟩ :=
    planDefault_enum hmade hkindp hvalue hne henum (hname object e henum) hd
  obtain ⟨func, first, hfunc, hreceiver, hgetterName, hbody⟩ := getterPart_enum hkindp hgetter
  obtain ⟨package, hpackage⟩ := exists_package hmade hkindp henum
  refine ⟨object, e, v, package, p, plan.sort, plan.value, henum, hv, ?_, hpackage, rfl, ?_, ?_, ?_⟩
  · intro b'
    have hvname : v.name.getD "" = value := by simpa using find?_some hv
    rw [← hvname]
    exact ⟨_, constants_mem_enumDecls b' e, mem_constantEntries (mem_of_find?_eq_some hv) 0⟩
  · refine ⟨s.exists_tagged hp, htag, ?_, func, first, hdecls _ hfunc, hreceiver, hgetterName, ?_⟩
    · have hplanDecl := hdecl plan rfl
      rwa [DefaultPlan.decl, hplanName, hplanType] at hplanDecl
    · have honeof : p.oneof = none ↔ p.field.oneofIndex = none := by
        rw [(planMessage_named s.hplan).oneof p hp, Option.map_eq_none_iff]
      rw [hbody, hplanName]
      simp only [honeof, and_comm]
  · rw [← specialFloat?_eq_none_iff (b := b)]
    rcases hplan with ⟨hsort, hspecial⟩ | ⟨hsort, hspecial, package', hpackage', hconstant⟩
    · simp [hsort, hspecial]
    · cases hpackage.symm.trans hpackage'
      simp [hsort, hspecial, hconstant]
  · intro hword
    rcases hplan with hvar | ⟨-, hspecial, -⟩
    · exact hvar
    · exact absurd hword (specialFloat?_eq_none_iff.mp hspecial)

/-- A message with an enum field. The enum is known through a file that passes it on. -/
def passedRequest (value : String) : Request where
  filesToGenerate := ["a.proto"]
  files :=
    [{ name := some "c.proto", package := some "c"
       enums :=
        [{ name := some "E"
           values :=
             [{ name := some "zero", number := some 0 }, { name := some "one", number := some 1 },
              { name := some "inf", number := some 2 }] }] },
     { name := some "b.proto", package := some "b", dependencies := ["c.proto"]
       publicDependencies := [0] },
     { name := some "a.proto", package := some "a", dependencies := ["b.proto"]
       messages :=
        [{ name := some "M"
           fields :=
             [{ name := some "f", number := some 1, label := some 1, kind := some 14,
                typeName := some ".c.E", defaultValue := some value }] }] }]

def passedBinder (value : String) : Binder := ⟨setupOf (passedRequest value), ⟨2⟩, []⟩

/-- The constant is that of the package which passes the enum on. -/
theorem messagePart_enumDefault_one :
    (∃ out, (generateWith [] (passedRequest "one") ()).1 = .ok out) ∧
    ∃ part p, (passedBinder "one").messagePart ⟨0⟩ = .ok part ∧ p.field.nameText = "f" ∧
      (passedBinder "one").ShowsDefault ⟨0⟩ part p 1 .const (.qualified "b" "E_one") := by
  let b := passedBinder "one"
  have hchecked : (passedRequest "one").Checked := by decide +kernel
  have hpart := eq_ok_of_isOk {} (by decide +kernel : (b.messagePart ⟨0⟩).isOk = true)
  have hfields : ∃ field ∈ (b.schema.message ⟨0⟩).proto.fields, field.nameText = "f" ∧
      field.typeNameText = ".c.E" ∧ field.fieldKind = .ok .enum ∧
      field.defaultValue = some "one" := by
    decide +kernel
  have henums : ∀ x ∈ (b.setup.underlyingEnum ".c.E" b.file).toOption,
      IsName (camelCaseScope x.2.typeName) ∧ x.2.constantPrefix = "E_" ∧
      (x.2.proto.values.find? fun v => v.name.getD "" = "one").map (·.number.getD 0) = some 1 ∧
      (b.setup.packages.of (b.schema.fileOf x.1)).toOption = some "b" := by
    decide +kernel
  have hforeign : "b" ≠ b.setup.packageName := by decide +kernel
  obtain ⟨field, hfield, hf, htype, hkind, hvalue⟩ := hfields
  obtain ⟨object, e, v, package, p, sort, expr, henum, hv, -, hpackage, rfl, hshows, hconst, -⟩ :=
    messagePart_enumDefault hpart hfield hkind hvalue (by decide) (by
      intro object e henum
      rw [htype] at henum
      exact (henums (object, e) (by rw [henum]; rfl)).1)
  rw [htype] at henum
  obtain ⟨-, hstart, hnumber, hb⟩ := henums (object, e) (by rw [henum]; rfl)
  obtain rfl : package = "b" := by
    rw [hpackage] at hb
    exact Option.some.inj hb
  have hone : v.number.getD 0 = 1 := by simpa [hv] using hnumber
  have hconstant : b.constantIn "b" (e.constantPrefix ++ "one") = .qualified "b" "E_one" := by
    simp only at hstart
    rw [constantIn, if_neg hforeign, hstart]
    rfl
  obtain ⟨rfl, rfl⟩ := hconst.mpr (by decide)
  rw [hone, hconstant] at hshows
  exact ⟨generate_of_checked hchecked, _, p, hpart, hf, hshows⟩

/-- A value that is called like an infinity is declared as one, and its number is in the tag. -/
theorem messagePart_enumDefault_inf :
    (∃ out, (generateWith [] (passedRequest "inf") ()).1 = .ok out) ∧
    ofRequest (passedRequest "inf") = .ok (passedBinder "inf").setup ∧
    ∃ part plan, (passedBinder "inf").messagePart ⟨0⟩ = .ok part ∧
      (passedBinder "inf").planMessage ⟨0⟩ = .ok plan ∧
      plan.fields.map (·.tag.defaultText) = [some "2"] ∧
      part.decls.flatMap (Decl.valuesOf "Default_M_F") = [(.var, "math.Inf(1)")] := by
  have hchecked : (passedRequest "inf").Checked := by decide +kernel
  have hparts : ∃ part ∈ ((passedBinder "inf").messagePart ⟨0⟩).toOption,
      part.decls.flatMap (Decl.valuesOf "Default_M_F") = [(.var, "math.Inf(1)")] := by
    decide +kernel
  have hplans : ∃ plan ∈ ((passedBinder "inf").planMessage ⟨0⟩).toOption,
      plan.fields.map (·.tag.defaultText) = [some "2"] := by
    decide +kernel
  obtain ⟨part, hpart, hvalues⟩ := hparts
  obtain ⟨plan, hplan, htags⟩ := hplans
  exact ⟨generate_of_checked hchecked, hchecked.setup, part, plan, eq_ok_of_toOption hpart,
    eq_ok_of_toOption hplan, htags, hvalues⟩

end Messages

end Binder

end GoBindings
