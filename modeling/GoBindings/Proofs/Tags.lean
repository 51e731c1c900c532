import GoBindings.Proofs.FieldTypes

/-!
# Tags of fields

Tags stand in raw literals, and the names of files stand in comments. In tidy files none of these
texts ends what it stands in.
-/

namespace GoBindings

open List Schema Go Descriptor Text

/-- A character without a glyph. -/
def isControl (c : Char) : Bool := c.toNat < 0x20 || (0x7f ≤ c.toNat && c.toNat ≤ 0x9f)

namespace Descriptor

/-- The texts of a field that are copied to its tag hold no raw quote. -/
structure Field.Tidy (f : Field) : Prop where
  json : ∀ json ∈ f.jsonName, rawQuote ∉ json.toList
  default : f.fieldKind = .ok .string ∨ f.fieldKind = .ok .bytes →
    ∀ value ∈ f.defaultValue, rawQuote ∉ value.toList

instance (f : Field) : Decidable f.Tidy :=
  decidable_of_iff ((∀ json ∈ f.jsonName, rawQuote ∉ json.toList) ∧
      (f.fieldKind = .ok .string ∨ f.fieldKind = .ok .bytes →
        ∀ value ∈ f.defaultValue, rawQuote ∉ value.toList))
    ⟨fun h => ⟨h.1, h.2⟩, fun h => ⟨h.json, h.default⟩⟩

/-- The texts of a field that its tag shows as they are: its name in JSON, and its default unless a
number stands for it. -/
def Field.copied (f : Field) : List String :=
  f.jsonName.toList ++ match f.fieldKind with
    | .error _ | .ok .bool | .ok .enum => []
    | .ok _ => f.defaultValue.toList

structure File.Tidy (f : File) : Prop where
  name : ∀ c ∈ (f.name.getD "").toList, isControl c = false
  comment : ¬ ['*', '/'] <:+: (f.name.getD "").toList
  package : ∃ parts, (∀ part ∈ parts, isIdentifier part = true) ∧
    f.package.getD "" = join "." parts
  fields : ∀ m ∈ f.allMessages, ∀ field ∈ m.fields, field.Tidy

end Descriptor

namespace Go

/-- A text that may stand in a raw literal. -/
def Unquoted (text : String) : Prop := rawQuote ∉ text.toList

instance (text : String) : Decidable (Unquoted text) := inferInstanceAs (Decidable (¬ _))

variable {a b : String}

theorem unquoted_append : Unquoted (a ++ b) ↔ Unquoted a ∧ Unquoted b := by
  rw [Unquoted, String.toList_append, mem_append, not_or]
  rfl

theorem Unquoted.append (ha : Unquoted a) (hb : Unquoted b) : Unquoted (a ++ b) :=
  unquoted_append.mpr ⟨ha, hb⟩

theorem IsTail.unquoted (h : IsTail a) : Unquoted a := by
  intro hmem
  exact absurd (all_eq_true.mp h rawQuote hmem) (by decide)

theorem IsName.unquoted (h : IsName a) : Unquoted a := h.isTail.unquoted

theorem IsNumber.unquoted (h : IsNumber a) : Unquoted a := by
  intro hmem
  rcases h.mem rawQuote hmem with h | h <;> exact absurd h (by decide)

theorem unquoted_quote : Unquoted (quote a) ↔ Unquoted a := by
  refine ⟨fun h hmem => h ?_, rawQuote_not_mem_quote⟩
  rw [quote, String.toList_ofList]
  refine mem_cons_of_mem _ (mem_append_left _ (mem_flatMap.mpr ⟨_, hmem, ?_⟩))
  decide

theorem Unquoted.quote (h : Unquoted a) : Unquoted (quote a) := unquoted_quote.mpr h

theorem unquoted_of_isIdentifier (h : isIdentifier a = true) : Unquoted a :=
  (isName_of_isIdentifier h).unquoted

theorem unquoted_join {sep : String} {texts : List String} (hsep : Unquoted sep) :
    Unquoted (join sep texts) ↔ ∀ text ∈ texts, Unquoted text := by
  induction texts with
  | nil => exact iff_of_true not_mem_nil (by simp)
  | cons text texts ih =>
    cases texts with
    | nil => simp [join]
    | cons text' texts =>
      rw [join, unquoted_append, unquoted_append, ih, forall_mem_cons (a := text)]
      · simp only [hsep, and_true]
      · simp

theorem unquoted_dotted {names : List String}
    (h : ∀ name ∈ names, isIdentifier name = true) : Unquoted (join "." names) :=
  (unquoted_join (by decide)).mpr fun name hname => unquoted_of_isIdentifier (h name hname)

end Go

theorem Descriptor.File.Tidy.unquoted_package {f : File} (h : f.Tidy) :
    Unquoted (f.package.getD "") := by
  obtain ⟨parts, hparts, heq⟩ := h.package
  rw [heq]
  exact unquoted_dotted hparts

namespace Text

variable {sep : Char} {piece cs : List Char}

/-- The piece of a text after its last separator, or all of a text without one. -/
def IsLastPiece (sep : Char) (piece cs : List Char) : Prop :=
  sep ∉ piece ∧ (piece = cs ∨ (sep :: piece) <:+ cs)

theorem IsLastPiece.subset (h : IsLastPiece sep piece cs) : piece ⊆ cs := by
  rcases h.2 with rfl | hsuffix
  · exact List.Subset.refl _
  · exact fun c hc => hsuffix.subset (mem_cons_of_mem sep hc)

private theorem not_mem_of_cutLast?_eq_none (h : cutLast? sep cs = none) : sep ∉ cs := by
  induction cs with
  | nil => exact not_mem_nil
  | cons c cs ih =>
    rw [cutLast?] at h
    cases hcs : cutLast? sep cs with
    | some cut => simp [hcs] at h
    | none =>
      have hc : c ≠ sep := by
        rintro rfl
        simp [hcs] at h
      exact not_mem_cons_of_ne_of_not_mem (Ne.symm hc) (ih hcs)

theorem isLastPiece_afterLast : IsLastPiece sep (afterLast sep cs) cs := by
  have hcut : ∀ {cs : List Char} {cut : List Char × List Char}, cutLast? sep cs = some cut →
      sep ∉ cut.2 ∧ (sep :: cut.2) <:+ cs := by
    intro cs cut h
    induction cs generalizing cut with
    | nil => cases h
    | cons c cs ih =>
      rw [cutLast?] at h
      cases hcs : cutLast? sep cs with
      | some rest =>
        rw [hcs] at h
        cases h
        exact ⟨(ih hcs).1, (ih hcs).2.trans (suffix_cons c cs)⟩
      | none =>
        rw [hcs] at h
        by_cases hc : c = sep
        · rw [if_pos hc] at h
          cases h
          exact ⟨not_mem_of_cutLast?_eq_none hcs, hc ▸ suffix_refl _⟩
        · rw [if_neg hc] at h
          cases h
  rw [afterLast]
  split
  · rename_i hcs
    exact ⟨(hcut hcs).1, .inr (hcut hcs).2⟩
  · rename_i hcs
    exact ⟨not_mem_of_cutLast?_eq_none hcs, .inl rfl⟩

end Text

namespace Tag

private theorem unquoted_item {key : String} (hkey : Go.Unquoted key) {value : Option String} :
    Go.Unquoted (item key value) ↔ ∀ v ∈ value, Go.Unquoted v := by
  cases value with
  | none => exact iff_of_true not_mem_nil (by simp)
  | some v =>
    have hcomma : Go.Unquoted "," := by decide
    have hequals : Go.Unquoted "=" := by decide
    simp [item, unquoted_append, hkey, hcomma, hequals]

private theorem unquoted_flag {name : String} (h : Go.Unquoted name) (set : Bool) :
    Go.Unquoted (flag name set) := by
  have hcomma : Go.Unquoted "," := by decide
  cases set with
  | true => exact hcomma.append h
  | false => exact not_mem_nil

/-- The texts of a tag that come from the schema. -/
structure Unquoted (t : Tag) : Prop where
  name : Go.Unquoted t.name
  json : ∀ v ∈ t.json, Go.Unquoted v
  enumName : ∀ v ∈ t.enumName, Go.Unquoted v
  defaultText : ∀ v ∈ t.defaultText, Go.Unquoted v

theorem unquoted_quoted {t : Tag} : Go.Unquoted t.quoted ↔ t.Unquoted := by
  have hwire : Go.Unquoted t.wire.text := by cases t.wire <;> decide
  have hlabel : Go.Unquoted ((t.label.map Label.text).getD "") := by
    rcases t.label with _ | label
    · decide
    · cases label <;> decide
  have hcomma : Go.Unquoted "," := by decide
  have hnumber : Go.Unquoted (toString t.number.toInt) := (isNumber_int _).unquoted
  have hpacked := unquoted_flag (by decide : Go.Unquoted "packed") t.packed
  have hproto3 := unquoted_flag (by decide : Go.Unquoted "proto3") t.proto3Bytes
  have honeof := unquoted_flag (by decide : Go.Unquoted "oneof") t.oneof
  have hitems : Go.Unquoted t.text ↔ Go.Unquoted t.name ∧ (∀ v ∈ t.json, Go.Unquoted v) ∧
      (∀ v ∈ t.enumName, Go.Unquoted v) ∧ ∀ v ∈ t.defaultText, Go.Unquoted v := by
    simp only [text, unquoted_append, unquoted_item (by decide : Go.Unquoted "name"),
      unquoted_item (by decide : Go.Unquoted "json"),
      unquoted_item (by decide : Go.Unquoted "enum"),
      unquoted_item (by decide : Go.Unquoted "def"), hwire, hlabel, hcomma, hnumber, hpacked,
      hproto3, honeof, Option.mem_some_iff, forall_eq', true_and, and_assoc]
  rw [quoted, unquoted_quote, hitems]
  exact ⟨fun h => ⟨h.1, h.2.1, h.2.2.1, h.2.2.2⟩,
    fun h => ⟨h.name, h.json, h.enumName, h.defaultText⟩⟩

end Tag

namespace Schema

variable {P : Field → Prop} {s : Schema} {files : List File}

variable (hs : s.SoundWith P files) (hpackages : ∀ f ∈ files, Unquoted (f.package.getD ""))

include hs hpackages

theorem SoundWith.package_unquoted (id : FileId) : Unquoted (s.file id).package := by
  rcases hs.file_cases id with h | h
  · exact hpackages _ h
  · rw [h]
    exact not_mem_nil

theorem SoundWith.unquoted_of_resolve {name : String} {current : FileId} {object : Object}
    (h : s.resolve s.typeTable name current = .ok object) : Unquoted name := by
  obtain ⟨hdeclared, f, hf, rfl⟩ := Schema.resolve_declares hs.mirrors h
  have hpackage : Unquoted f.package := hpackages _ (hs.protos f hf)
  have hname := unquoted_dotted (hs.declared_name hdeclared).2
  have hdot : Unquoted "." := by decide
  rw [qualifiedName]
  split
  · exact hdot.append hname
  · exact ((hdot.append hpackage).append hdot).append hname

end Schema

namespace Setup

variable {P : Field → Prop} {s : Setup} {files : List File} {file : FileId}
  {field : Field} {kind : FieldKind}
variable {object : Object} {e : EnumNode} {name : String}

variable {message : MessageId} {wire : WireKind} {tag : Tag} {text : Option String}

theorem asEnum_eq_ok (h : s.asEnum object = .ok e) :
    ∃ id, s.schema.underlying object = .enum id ∧ e = s.schema.enum id := by
  rw [asEnum] at h
  split at h
  · rename_i id hid
    exact ⟨id, hid, (Except.ok.inj h).symm⟩
  · exact absurd h (by simp)

theorem underlyingEnum_eq_ok (h : s.underlyingEnum name file = .ok (object, e)) :
    s.resolve name file = .ok object ∧ s.asEnum object = .ok e := by
  simp only [underlyingEnum, steps_eq_ok] at h
  obtain ⟨_, hobject, _, he, rfl, rfl⟩ := h
  exact ⟨hobject, he⟩

theorem asEnum_sound (hs : s.SoundWith P files)
    (ho : s.schema.Declares (s.schema.underlying object)) (h : s.asEnum object = .ok e) :
    (∃ id, s.schema.underlying object = .enum id ∧ e = s.schema.enum id) ∧ e.Sound := by
  obtain ⟨id, hid, rfl⟩ := asEnum_eq_ok h
  rw [hid] at ho
  exact ⟨⟨id, hid, rfl⟩, hs.schema.enum_sound ho⟩

theorem underlyingEnum_sound (hs : s.SoundWith P files)
    (h : s.underlyingEnum name file = .ok (object, e)) :
    s.resolve name file = .ok object ∧
      (∃ id, s.schema.underlying object = .enum id ∧ e = s.schema.enum id) ∧ e.Sound := by
  obtain ⟨hobject, he⟩ := underlyingEnum_eq_ok h
  exact ⟨hobject, asEnum_sound hs (resolve_declares hs hobject) he⟩

private theorem unquoted_tagDefault (hkind : field.fieldKind = .ok kind)
    (h : s.tagDefault file field kind = .ok text) :
    (∀ v ∈ text, Unquoted v) ↔ kind ∉ [.bool, .enum] → ∀ v ∈ field.defaultValue, Unquoted v := by
  rw [tagDefault] at h
  cases hvalue : field.defaultValue with
  | none =>
    rw [hvalue] at h
    cases h
    simp
  | some value =>
    rw [hvalue] at h
    cases kind with
    | bool =>
      cases h
      refine iff_of_true ?_ (by simp)
      split <;> decide
    | enum =>
      rw [bind_eq_ok] at h
      obtain ⟨⟨object, e⟩, -, h⟩ := h
      simp only at h
      split at h
      · cases h
        simpa using (isNumber_int _).unquoted
      · exact absurd h (by simp)
    | _ =>
      cases h
      simp

private theorem tagName_unquoted (hname : isIdentifier field.nameText = true)
    (htype : kind = .group → Unquoted field.typeNameText) : Unquoted (tagName field kind) := by
  unfold tagName
  split
  · rw [Unquoted, String.toList_ofList]
    exact fun h => htype rfl (isLastPiece_afterLast.subset h)
  · exact unquoted_of_isIdentifier hname

private theorem unquoted_tagJson (hname : Unquoted name) :
    (∀ v ∈ tagJson field name, Unquoted v) ↔ ∀ v ∈ field.jsonName, Unquoted v := by
  refine ⟨fun h v hv => ?_, fun h v hv => h v (Option.filter_eq_some_iff.mp hv).1⟩
  by_cases hshown : v ≠ "" ∧ v ≠ name
  · exact h v (Option.filter_eq_some_iff.mpr ⟨hv, by simpa using hshown⟩)
  · by_cases hempty : v = ""
    · rw [hempty]
      exact not_mem_nil
    · rw [not_not.mp fun hne => hshown ⟨hempty, hne⟩]
      exact hname

private theorem tagEnum_unquoted (hs : s.SoundWith P files)
    (hpackages : ∀ f ∈ files, Unquoted (f.package.getD ""))
    (h : s.tagEnum file field kind = .ok text) : ∀ v ∈ text, Unquoted v := by
  unfold tagEnum at h
  split at h
  · rw [bind_eq_ok] at h
    obtain ⟨⟨object, e⟩, he, h⟩ := h
    obtain ⟨-, -, hsound⟩ := underlyingEnum_sound hs he
    cases h
    have hname : Unquoted (camelCaseScope e.typeName) := hsound.name.isName.unquoted
    have hdot : Unquoted "." := by decide
    have hpackage := hs.schema.package_unquoted hpackages e.file
    simp only [Option.mem_some_iff, forall_eq', inPackage]
    split
    · exact hname
    · exact (hpackage.append hdot).append hname
  · cases h
    simp

/-- The tag of a field whose type is known. Its name and that of its enum hold no raw quote, so
that one can come only from the texts that are copied. -/
theorem fieldTag_unquoted_iff (hs : s.SoundWith P files)
    (hpackages : ∀ f ∈ files, Unquoted (f.package.getD ""))
    (hname : isIdentifier field.nameText = true) {parent : Option MessageId} {t : FieldType}
    (ht : s.fieldType file parent field = .ok t)
    (h : s.fieldTag file message field wire = .ok tag) :
    tag.Unquoted ↔ ∀ text ∈ field.copied, Unquoted text := by
  rw [fieldTag, bind_eq_ok] at h
  obtain ⟨kind, hkind, h⟩ := h
  simp only [bind_eq_ok] at h
  obtain ⟨text, htext, enumName, henum, h⟩ := h
  cases h
  have hgroup : kind = .group → Unquoted field.typeNameText := by
    rintro rfl
    rw [fieldType, hkind] at ht
    simp only [bind_eq_ok, Except.ok.injEq, exists_eq_left'] at ht
    obtain ⟨elem, helem, -⟩ := ht
    simp only [elementType, FieldKind.scalar?, bind_eq_ok] at helem
    obtain ⟨object, hobject, -⟩ := helem
    rw [resolve, hs.types] at hobject
    exact hs.schema.unquoted_of_resolve hpackages hobject
  have htagName := tagName_unquoted hname hgroup
  have hcopied : (∀ text ∈ field.copied, Unquoted text) ↔ (∀ v ∈ field.jsonName, Unquoted v) ∧
      (kind ∉ [.bool, .enum] → ∀ v ∈ field.defaultValue, Unquoted v) := by
    rw [Field.copied, hkind, forall_mem_append]
    cases kind <;> simp
  rw [hcopied, ← unquoted_tagJson htagName, ← unquoted_tagDefault hkind htext]
  exact ⟨fun hu => ⟨hu.json, hu.defaultText⟩,
    fun hu => ⟨htagName, hu.1, tagEnum_unquoted hs hpackages henum, hu.2⟩⟩

theorem unquoted_copied (hplain : field.Plain) (htidy : field.Tidy) :
    ∀ text ∈ field.copied, Unquoted text := by
  rw [Field.copied, forall_mem_append]
  refine ⟨fun v hv => htidy.json v (Option.mem_toList.mp hv), ?_⟩
  cases hvalue : field.defaultValue with
  | none => split <;> simp
  | some value =>
    cases hkind : field.fieldKind with
    | error e => simp
    | ok kind =>
      have hfits := hplain.default kind value hkind hvalue
      have hcopied : field.fieldKind = .ok .string ∨ field.fieldKind = .ok .bytes →
          Unquoted value := fun h => htidy.default h value hvalue
      have hnumber : IsNumber value ∨ value ∈ ["inf", "-inf", "nan"] → Unquoted value := by
        rintro (hn | hn)
        · exact hn.unquoted
        · simp only [mem_cons, not_mem_nil, or_false] at hn
          rcases hn with rfl | rfl | rfl <;> decide
      cases kind with
      | bool => simp
      | enum => simp
      | string => simpa using hcopied (.inl hkind)
      | bytes => simpa using hcopied (.inr hkind)
      | group => exact absurd (hvalue.symm.trans (hplain.typed (.inl hkind))) (by simp)
      | message => exact absurd (hvalue.symm.trans (hplain.typed (.inr hkind))) (by simp)
      | _ => simpa using hnumber hfits

theorem isIdentifier_enumDefault (hs : s.SoundWith P files)
    (h : s.fieldTag file message field wire = .ok tag) (hkind : field.fieldKind = .ok .enum)
    {value : String} (hvalue : field.defaultValue = some value) : isIdentifier value = true := by
  rw [fieldTag, hkind] at h
  simp only [bind_eq_ok, Except.ok.injEq, exists_eq_left'] at h
  obtain ⟨text, htext, -⟩ := h
  simp only [tagDefault, hvalue, bind_eq_ok] at htext
  obtain ⟨⟨object, e⟩, he, htext⟩ := htext
  obtain ⟨-, -, hsound⟩ := underlyingEnum_sound hs he
  cases hnumber : e.numberOf? value with
  | none => simp [hnumber] at htext
  | some n =>
    obtain ⟨v, hv, -⟩ := Option.map_eq_some_iff.mp hnumber
    have hname : v.name.getD "" = value := by simpa using find?_some hv
    exact hname ▸ hsound.plain.values v (mem_of_find?_eq_some hv)

end Setup

end GoBindings
