import GoBindings.Proofs.SafeRequests

/-!
# Types of extensions

An extension is described with the nil of its type, so the type should be one that has a nil. It
is, with one exception: an extension declared inside a message is typed like a field of that
message, and a scalar that the message holds by value is described with `(int32)(nil)`.
-/

namespace GoBindings

open Schema Go Descriptor Lexeme

namespace Go

/-- Whether nil is a value of the type, as far as the type shows it. -/
def TypeExpr.hasNil : TypeExpr → Bool
  | pointer _ | slice _ | map _ _ | anything => true
  | name _ | qualified _ _ => false

/-- The type that nil is converted to. -/
def Expr.nilOf? : Expr → Option TypeExpr
  | .call (.paren (.type t)) [.name "nil"] => some t
  | _ => none

def Entry.extensionType? : Entry → Option TypeExpr
  | .keyed (.name "ExtensionType") value => value.nilOf?
  | _ => none

/-- The types under which a declaration describes extensions. -/
def Decl.extensionTypes : Decl → List TypeExpr
  | .table _ _ _ entries => entries.filterMap Entry.extensionType?
  | _ => []

end Go

/-- The type under which the runtime looks for the values of an extension: `elem` is the type that
the kind stands for, or the name of the message or enum. -/
def FieldKind.extensionType (kind : FieldKind) (repeated : Bool) (elem : TypeExpr) : TypeExpr :=
  match repeated, kind with
  | true, .message | true, .group => .slice (.pointer elem)
  | true, _ => .slice elem
  | false, .bytes => elem
  | false, _ => .pointer elem

/-- The type that a kind stands for, or the Go name of what the field refers to. -/
def Setup.NamesType (s : Setup) (file : FileId) (field : Field) (kind : FieldKind)
    (elem : TypeExpr) : Prop :=
  match kind.scalar? with
  | some (t, _) => elem = t
  | none => ∃ object, s.resolve field.typeNameText file = .ok object ∧ s.goName object = .ok elem

/-- The values of an extension are held by a pointer or a slice. -/
def Schema.ExtensionNode.ByReference (x : ExtensionNode) (s : Schema) (kind : FieldKind) : Prop :=
  x.field.isRepeated = true ∨ kind ∈ [.bytes, .group, .message] ∨
    ∀ m ∈ x.parent, (s.message m).proto3 = false ∧ x.field.oneofIndex = none

namespace FieldKind

variable {kind : FieldKind}

theorem needsPointer_eq_false : kind.needsPointer = false ↔ kind ∈ [.bytes, .group, .message] := by
  cases kind <;> decide

theorem scalar?_eq_none : kind.scalar? = none ↔ kind ∈ [.enum, .group, .message] := by
  cases kind <;> decide

theorem hasNil_scalar {t : TypeExpr} {wire : WireKind} (h : kind.scalar? = some (t, wire)) :
    t.hasNil = true ↔ kind = .bytes := by
  cases kind <;> simp_all [scalar?, TypeExpr.hasNil, eq_comm]

end FieldKind

namespace Setup

variable {s : Setup} {file : FileId} {field : Field} {kind : FieldKind}
  {t : FieldType} {elem : TypeExpr}

theorem hasNil_goName {object : Object} (h : s.goName object = .ok elem) : elem.hasNil = false := by
  rw [goName, bind_eq_ok] at h
  obtain ⟨package, -, h⟩ := h
  rw [← pure_eq_ok.mp h]
  split <;> rfl

theorem NamesType.hasNil (h : s.NamesType file field kind elem) :
    elem.hasNil = true ↔ kind = .bytes := by
  rw [NamesType] at h
  split at h
  · rw [h]
    exact FieldKind.hasNil_scalar (by assumption)
  · rename_i hscalar
    obtain ⟨object, -, hname⟩ := h
    have hkind := FieldKind.scalar?_eq_none.mp hscalar
    rw [hasNil_goName hname]
    constructor
    · intro hfalse
      cases hfalse
    · intro hbytes
      rw [hbytes] at hkind
      exact absurd hkind (by decide)

theorem NamesType.hasNil_extensionType (h : s.NamesType file field kind elem) (repeated : Bool) :
    (kind.extensionType repeated elem).hasNil = true := by
  by_cases hbytes : kind = .bytes
  · cases repeated with
    | true => simp [hbytes, FieldKind.extensionType, TypeExpr.hasNil]
    | false => simpa [hbytes, FieldKind.extensionType] using h.hasNil.mpr hbytes
  · cases repeated <;> cases kind <;> first | rfl | exact absurd rfl hbytes

theorem elementType_eq_ok (h : s.elementType file field kind = .ok t) :
    ∃ elem, s.NamesType file field kind elem ∧
      t.type = if kind ∈ [.group, .message] then .pointer elem else elem := by
  rw [elementType] at h
  cases hscalar : kind.scalar? with
  | some scalar =>
    rw [hscalar] at h
    cases h
    refine ⟨scalar.1, by rw [NamesType, hscalar], ?_⟩
    rw [if_neg]
    intro hmem
    have hnone := FieldKind.scalar?_eq_none.mpr (List.mem_cons_of_mem _ hmem)
    simp [hscalar] at hnone
  | none =>
    rw [hscalar, bind_eq_ok] at h
    obtain ⟨object, hobject, h⟩ := h
    rw [bind_eq_ok] at h
    obtain ⟨name, hname, h⟩ := h
    refine ⟨name, by rw [NamesType, hscalar]; exact ⟨object, hobject, hname⟩, ?_⟩
    split at h <;> obtain rfl := pure_eq_ok.mp h
    · rfl
    · rfl
    · rename_i hgroup hmessage
      rw [if_neg]
      simpa using ⟨hgroup, hmessage⟩

/-- A single scalar that its message holds by value has the type of its value; every other field
has the type that the runtime looks for in an extension. -/
theorem fieldType_cases {message : Option MessageId} (h : s.fieldType file message field = .ok t) :
    ∃ kind elem, field.fieldKind = .ok kind ∧ s.NamesType file field kind elem ∧
      t.type = if field.isRepeated = false ∧ kind.needsPointer = true ∧
          s.heldByValue message field = true then elem
        else kind.extensionType field.isRepeated elem := by
  rw [fieldType, bind_eq_ok] at h
  obtain ⟨kind, hkind, h⟩ := h
  rw [bind_eq_ok] at h
  obtain ⟨u, hu, h⟩ := h
  obtain ⟨elem, hnames, htype⟩ := elementType_eq_ok hu
  refine ⟨kind, elem, hkind, hnames, ?_⟩
  cases hrepeated : field.isRepeated with
  | true =>
    rw [if_pos hrepeated] at h
    cases h
    cases kind <;> simp_all [FieldKind.extensionType]
  | false =>
    rw [if_neg (by simp [hrepeated])] at h
    cases hvalue : s.heldByValue message field with
    | true =>
      cases kind <;> simp_all [FieldKind.extensionType, FieldKind.needsPointer]
    | false =>
      rw [if_neg (by simp [hvalue])] at h
      rw [if_neg (by simp)]
      cases hpointer : kind.needsPointer with
      | true =>
        rw [if_pos hpointer] at h
        cases h
        cases kind <;> simp_all [FieldKind.extensionType, FieldKind.needsPointer]
      | false =>
        rw [if_neg (by simp [hpointer])] at h
        cases kind <;> simp_all [FieldKind.extensionType, FieldKind.needsPointer]

end Setup

namespace Binder

variable {b : Binder} {id : ExtensionId} {part : Part}

theorem extensionPart_decls (h : b.extensionPart id = .ok part) :
    ∃ extended fieldType name tag,
      b.setup.fieldType b.file (b.schema.extension id).parent (b.schema.extension id).field =
        .ok fieldType ∧
      part.decls =
        [b.extensionDecl (b.schema.extension id) extended fieldType.type name tag, .blank] := by
  simp only [extensionPart, steps_eq_ok] at h
  obtain ⟨-, -, -, -, extended, -, fieldType, htype, tag, -, rfl⟩ := h
  exact ⟨extended, fieldType, _, tag, htype, rfl⟩

theorem byReference_iff {x : ExtensionNode} {kind : FieldKind} :
    x.ByReference b.schema kind ↔ ¬ (x.field.isRepeated = false ∧ kind.needsPointer = true ∧
      b.setup.heldByValue x.parent x.field = true) := by
  rw [ExtensionNode.ByReference, ← FieldKind.needsPointer_eq_false]
  cases hparent : x.parent with
  | none => simp [Setup.heldByValue]
  | some m =>
    simp only [Setup.heldByValue, Option.mem_some_iff, forall_eq', schema]
    cases x.field.isRepeated <;> cases kind.needsPointer <;> simp

/-- An extension is described under one type. If its values are held by reference, then it is the
type that the runtime looks for, a slice or a pointer; if not, then it is the bare type of one
value, which has no nil. -/
theorem extensionPart_type (h : b.extensionPart id = .ok part) :
    ∃ kind elem type, (b.schema.extension id).field.fieldKind = .ok kind ∧
      b.setup.NamesType b.file (b.schema.extension id).field kind elem ∧
      part.decls.flatMap Decl.extensionTypes = [type] ∧
      (∃ line ∈ part.decls.flatMap Decl.lines,
        line.text = "ExtensionType: (" ++ type.text ++ ")(nil),") ∧
      ((b.schema.extension id).ByReference b.schema kind → type.hasNil = true ∧
        type = kind.extensionType (b.schema.extension id).field.isRepeated elem) ∧
      (¬ (b.schema.extension id).ByReference b.schema kind →
        type.hasNil = false ∧ type = elem) := by
  obtain ⟨extended, fieldType, name, tag, htype, hdecls⟩ := extensionPart_decls h
  obtain ⟨kind, elem, hkind, hnames, hcases⟩ := Setup.fieldType_cases htype
  refine ⟨kind, elem, fieldType.type, hkind, hnames, ?_, ?_, ?_, ?_⟩
  · rw [hdecls]
    rfl
  · rw [hdecls]
    refine ⟨(Entry.keyed (.name "ExtensionType") (.convert fieldType.type .nil)).line,
      by simp [extensionDecl, Decl.lines], ?_⟩
    rw [← String.toList_inj]
    simp [Entry.line, Line.text, Expr.convert, Expr.nil, Expr.lexemes, Expr.listLexemes,
      TypeExpr.text, toList_spell, chars, ident, punct, blank]
  · intro hreference
    rw [if_neg (byReference_iff.mp hreference)] at hcases
    exact ⟨hcases ▸ hnames.hasNil_extensionType _, hcases⟩
  · intro hvalue
    rw [byReference_iff, not_not] at hvalue
    rw [if_pos hvalue] at hcases
    refine ⟨?_, hcases⟩
    rw [hcases, ← Bool.not_eq_true, hnames.hasNil]
    intro hbytes
    rw [hbytes] at hvalue
    exact absurd hvalue.2.1 (by decide)

/-- A message with an extension of itself inside, and the same extension outside of it. -/
def scopedRequest (dialect : String) : Request where
  filesToGenerate := ["a.proto"]
  files :=
    [{ name := some "a.proto", package := some "p", syntaxName := some dialect
       messages :=
        [{ name := some "M"
           extensions :=
            [{ name := some "x", number := some 100, label := some 1, kind := some 5,
               extendee := some ".p.M" }] }]
       extensions :=
        [{ name := some "y", number := some 101, label := some 1, kind := some 5,
           extendee := some ".p.M" }] }]

def scopedBinder (dialect : String) : Binder := ⟨setupOf (scopedRequest dialect), ⟨0⟩, []⟩

/-- The extension inside of a message of the second dialect is described under a pointer. -/
theorem extensionPart_type_pointer :
    (∃ out, (generateWith [] (scopedRequest "proto2") ()).1 = .ok out) ∧
    ((scopedBinder "proto2").schema.extension ⟨0⟩).varName = "E_M_X" ∧
    ∃ part, (scopedBinder "proto2").extensionPart ⟨0⟩ = .ok part ∧
      part.decls.flatMap Decl.extensionTypes = [.pointer (.name "int32")] := by
  let b := scopedBinder "proto2"
  have hchecked : (scopedRequest "proto2").Checked := by decide +kernel
  have hpart := eq_ok_of_isOk {} (by decide +kernel : (b.extensionPart ⟨0⟩).isOk = true)
  have hfield : (b.schema.extension ⟨0⟩).field.fieldKind = .ok .int32 ∧
      (b.schema.extension ⟨0⟩).field.isRepeated = false ∧
      ∀ m ∈ (b.schema.extension ⟨0⟩).parent, (b.schema.message m).proto3 = false ∧
        (b.schema.extension ⟨0⟩).field.oneofIndex = none := by
    decide +kernel
  obtain ⟨hint32, hsingle, hparent⟩ := hfield
  obtain ⟨kind, elem, type, hkind, hnames, htypes, -, hpointer, -⟩ := extensionPart_type hpart
  cases hkind.symm.trans hint32
  obtain rfl : elem = .name "int32" := hnames
  rw [(hpointer (.inr (.inr hparent))).2, hsingle] at htypes
  exact ⟨generate_of_checked hchecked, by decide +kernel, _, hpart, htypes⟩

/-- An extension inside of a message of the third dialect is described under its bare type, which
has no nil. -/
theorem extensionPart_type_bare :
    (∃ out, (generateWith [] (scopedRequest "proto3") ()).1 = .ok out) ∧
    Setup.ofRequest (scopedRequest "proto3") = .ok (scopedBinder "proto3").setup ∧
    ∃ id part, ((scopedBinder "proto3").schema.extension id).varName = "E_M_X" ∧
      (scopedBinder "proto3").extensionPart id = .ok part ∧
      part.decls.flatMap Decl.extensionTypes = [.name "int32"] ∧
      "ExtensionType: (int32)(nil)," ∈ (part.decls.flatMap Decl.lines).map Line.text := by
  have hchecked : (scopedRequest "proto3").Checked := by decide +kernel
  have hparts : ∃ part ∈ ((scopedBinder "proto3").extensionPart ⟨0⟩).toOption,
      part.decls.flatMap Decl.extensionTypes = [.name "int32"] ∧
      "ExtensionType: (int32)(nil)," ∈ (part.decls.flatMap Decl.lines).map Line.text := by
    decide +kernel
  obtain ⟨part, hpart, htypes⟩ := hparts
  exact ⟨generate_of_checked hchecked, hchecked.setup, ⟨0⟩, part, by decide +kernel,
    eq_ok_of_toOption hpart, htypes⟩

end Binder

end GoBindings
