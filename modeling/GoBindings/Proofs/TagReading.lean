import GoBindings.Proofs.Execution
import GoBindings.Proofs.Rows
import GoBindings.Proofs.Tags

/-!
# Tags are read back

The runtime takes a tag apart at its commas. What it finds is what the field was declared with, even
if the default holds commas and texts that look like other items.
-/

namespace GoBindings

open List Schema Go Descriptor Text

namespace Text

theorem intercalate_splitOn (sep : Char) (cs : List Char) :
    intercalate [sep] (splitOn sep cs) = cs := by
  induction cs with
  | nil => rfl
  | cons c cs ih =>
    obtain ⟨piece, pieces, hsplit⟩ := exists_cons_of_ne_nil (splitOn_ne_nil sep cs)
    rw [hsplit] at ih
    rw [splitOn]
    split
    · rename_i hc
      rw [hsplit, hc]
      exact congrArg (sep :: ·) ih
    · rw [hsplit]
      cases pieces <;> exact congrArg (c :: ·) ih

end Text

namespace Tag

/-- The items of a tag, from its pieces between commas. The first piece that starts with `def=` goes
on to the end. -/
def items : List (List Char) → List (List Char)
  | [] => []
  | piece :: rest =>
    if (dropStart? "def=".toList piece).isSome then [intercalate [','] (piece :: rest)]
    else piece :: items rest

/-- The value of the first item with a key. -/
def value? (key : String) (items : List (List Char)) : Option String :=
  (items.findSome? (dropStart? (key ++ "=").toList)).map String.ofList

def hasFlag (name : String) (items : List (List Char)) : Bool := items.contains name.toList

def readWire? (item : List Char) : Option WireKind :=
  [.varint, .fixed32, .fixed64, .zigzag32, .zigzag64, .bytes, .group].find?
    fun kind => kind.text.toList = item

/-- A field without a label has an empty item for it. -/
def readLabel? (item : List Char) : Option (Option Label) :=
  [none, some .optional, some .required, some .repeated].find?
    fun label => ((label.map Label.text).getD "").toList = item

/-- The first three items have their places, the others are told by their keys. -/
def ofItems? : List (List Char) → Option Tag
  | wire :: number :: label :: rest => do
    let wire ← readWire? wire
    let number ← decimal? (String.ofList number)
    let label ← readLabel? label
    let name ← value? "name" rest
    return {
      wire, number := .ofInt number, label, packed := hasFlag "packed" rest, name,
      json := value? "json" rest, proto3Bytes := hasFlag "proto3" rest,
      enumName := value? "enum" rest, oneof := hasFlag "oneof" rest,
      defaultText := value? "def" rest }
  | _ => none

def read? (quoted : String) : Option Tag := do
  let text ← unquote? quoted
  ofItems? (items (Text.splitOn ',' text.toList))

section Splitting

/-- A piece that is an item of its own. -/
def IsPiece (piece : List Char) : Prop :=
  ',' ∉ piece ∧ dropStart? "def=".toList piece = none

instance (piece : List Char) : Decidable (IsPiece piece) := inferInstanceAs (Decidable (_ ∧ _))

theorem items_cons {piece : List Char} (h : IsPiece piece) (rest : List (List Char)) :
    items (piece :: rest) = piece :: items rest := by
  rw [items, h.2]
  rfl

theorem items_default (value : List Char) :
    items (Text.splitOn ',' ("def=".toList ++ value)) = ["def=".toList ++ value] := by
  obtain ⟨piece, pieces, hsplit⟩ := exists_cons_of_ne_nil (Text.splitOn_ne_nil ',' value)
  have hpieces :
      Text.splitOn ',' ("def=".toList ++ value) = ("def=".toList ++ piece) :: pieces := by
    simp [Text.splitOn, hsplit]
  have hjoin := intercalate_splitOn ',' ("def=".toList ++ value)
  rw [hpieces] at hjoin ⊢
  rw [items, dropStart?_append, hjoin]
  rfl

/-- Pieces between commas are the items, and a default at the end is one of them. -/
theorem items_splitOn {first : List Char} {pieces : List (List Char)} {default : Option (List Char)}
    (hfirst : IsPiece first) (hpieces : ∀ piece ∈ pieces, IsPiece piece) :
    items (Text.splitOn ','
      (first ++ (pieces ++ default.toList.map ("def=".toList ++ ·)).flatMap (',' :: ·))) =
      first :: (pieces ++ default.toList.map ("def=".toList ++ ·)) := by
  induction pieces generalizing first with
  | nil =>
    cases default with
    | none =>
      simp only [Option.toList_none, map_nil, append_nil, flatMap_nil]
      rw [splitOn_of_not_mem hfirst.1, items_cons hfirst]
      rfl
    | some value =>
      simp only [Option.toList_some, map_cons, map_nil, nil_append,
        flatMap_cons, flatMap_nil, append_nil]
      rw [splitOn_append, splitOn_of_not_mem hfirst.1, singleton_append,
        items_cons hfirst, items_default]
  | cons piece pieces ih =>
    rw [forall_mem_cons] at hpieces
    rw [cons_append, flatMap_cons, cons_append, splitOn_append,
      splitOn_of_not_mem hfirst.1, singleton_append, items_cons hfirst,
      ih hpieces.1 hpieces.2]

end Splitting

section Lookup

variable {key name other : String}

/-- The item of a flag, if it is set. -/
def flagItems (name : String) (set : Bool) : List (List Char) := if set then [name.toList] else []

/-- The item with a key, if it has a value. -/
def keyItems (key : String) (value : Option String) : List (List Char) :=
  value.toList.map fun v => (key ++ "=").toList ++ v.toList

theorem dropStart?_eq_none {start cs : List Char} (h : start.head? ≠ cs.head?) (hne : start ≠ []) :
    dropStart? start cs = none := by
  cases start with
  | nil => exact absurd rfl hne
  | cons d ds =>
    cases cs with
    | nil => rfl
    | cons c cs =>
      have hdc : d ≠ c := fun heq => h (congrArg some heq)
      rw [dropStart?, if_neg hdc]

theorem key_ne_nil (key : String) : (key ++ "=").toList ≠ [] := by
  rw [String.toList_append]
  exact append_ne_nil_of_right_ne_nil _ (by decide)

theorem value?_append (a b : List (List Char)) :
    value? key (a ++ b) = (value? key a).or (value? key b) := by
  rw [value?, findSome?_append, Option.map_or]
  rfl

theorem value?_keyItems (value : Option String) : value? key (keyItems key value) = value := by
  cases value with
  | none => rfl
  | some v =>
    simp only [value?, keyItems, Option.toList_some, map_cons, findSome?_cons, dropStart?_append,
      Option.map_some, String.ofList_toList]

theorem value?_keyItems_of_head (h : (key ++ "=").toList.head? ≠ (other ++ "=").toList.head?)
    (value : Option String) : value? key (keyItems other value) = none := by
  cases value with
  | none => rfl
  | some v =>
    have hhead : ((other ++ "=").toList ++ v.toList).head? = (other ++ "=").toList.head? :=
      head?_append_of_ne_nil _ (key_ne_nil other)
    have hdrop := dropStart?_eq_none (hhead.symm ▸ h) (key_ne_nil key)
    simp only [value?, keyItems, Option.toList_some, map_cons, map_nil,
      findSome?_cons, findSome?_nil, hdrop, Option.map_none]

theorem value?_flagItems (h : (key ++ "=").toList.head? ≠ name.toList.head?) (set : Bool) :
    value? key (flagItems name set) = none := by
  cases set with
  | false => rfl
  | true =>
    have hdrop := dropStart?_eq_none h (key_ne_nil key)
    simp only [value?, flagItems, if_true, findSome?_cons, findSome?_nil, hdrop,
      Option.map_none]

theorem hasFlag_append (a b : List (List Char)) :
    hasFlag name (a ++ b) = (hasFlag name a || hasFlag name b) := by
  simp [hasFlag]

theorem hasFlag_flagItems (set : Bool) : hasFlag name (flagItems name set) = set := by
  cases set <;> simp [hasFlag, flagItems]

theorem hasFlag_flagItems_of_ne (h : name ≠ other) (set : Bool) :
    hasFlag name (flagItems other set) = false := by
  cases set <;> simp [hasFlag, flagItems, String.toList_inj, h]

theorem hasFlag_keyItems (h : name.toList.head? ≠ (key ++ "=").toList.head?)
    (value : Option String) : hasFlag name (keyItems key value) = false := by
  cases value with
  | none => rfl
  | some v =>
    have hne : name.toList ≠ (key ++ "=").toList ++ v.toList := by
      intro heq
      rw [heq, head?_append_of_ne_nil _ (key_ne_nil key)] at h
      exact h rfl
    simpa [hasFlag, keyItems] using hne

end Lookup

section RoundTrip

/-- The items between the label and the default. -/
def options (t : Tag) : List (List Char) :=
  flagItems "packed" t.packed ++ keyItems "name" (some t.name) ++ keyItems "json" t.json ++
    flagItems "proto3" t.proto3Bytes ++ keyItems "enum" t.enumName ++ flagItems "oneof" t.oneof

/-- All items but the first. -/
def laterItems (t : Tag) : List (List Char) :=
  (toString t.number.toInt).toList :: ((t.label.map Label.text).getD "").toList :: t.options

theorem toList_flag (name : String) (set : Bool) :
    (flag name set).toList = (flagItems name set).flatMap (',' :: ·) := by
  cases set <;> simp [flag, flagItems]

theorem toList_item (key : String) (value : Option String) :
    (item key value).toList = (keyItems key value).flatMap (',' :: ·) := by
  cases value <;> simp [item, keyItems]

theorem toList_text (t : Tag) : t.text.toList = t.wire.text.toList ++
    (t.laterItems ++ keyItems "def" t.defaultText).flatMap (',' :: ·) := by
  simp only [text, laterItems, options, String.toList_append, toList_flag, toList_item,
    flatMap_append, flatMap_cons, cons_append, append_assoc]
  rfl

/-- The texts that stand before the default hold no comma. -/
structure Commaless (t : Tag) : Prop where
  name : ',' ∉ t.name.toList
  json : ∀ v ∈ t.json, ',' ∉ v.toList
  enumName : ∀ v ∈ t.enumName, ',' ∉ v.toList

theorem isPiece_keyItems {key : String} {value : Option String} (hkey : ',' ∉ (key ++ "=").toList)
    (hhead : "def=".toList.head? ≠ (key ++ "=").toList.head?) (h : ∀ v ∈ value, ',' ∉ v.toList) :
    ∀ piece ∈ keyItems key value, IsPiece piece := by
  rw [keyItems, forall_mem_map]
  intro v hv
  constructor
  · rw [mem_append, not_or]
    exact ⟨hkey, h v (Option.mem_toList.mp hv)⟩
  · apply dropStart?_eq_none
    · rwa [head?_append_of_ne_nil _ (key_ne_nil key)]
    · decide

theorem isPiece_flagItems {name : String} (h : IsPiece name.toList) (set : Bool) :
    ∀ piece ∈ flagItems name set, IsPiece piece := by
  cases set with
  | false => simp [flagItems]
  | true => simpa [flagItems] using h

theorem isPiece_number (n : Int) : IsPiece (toString n).toList := by
  have hchars : ∀ c ∈ (toString n).toList, c.isDigit = true ∨ c = '-' := by
    intro c hc
    cases n with
    | ofNat n => exact .inl (isDigit_toString hc)
    | negSucc n =>
      have htext : toString (Int.negSucc n) = "-" ++ toString (n + 1) := rfl
      rw [htext, String.toList_append, mem_append] at hc
      rcases hc with hc | hc
      · exact .inr (mem_singleton.mp hc)
      · exact .inl (isDigit_toString hc)
  constructor
  · intro hcomma
    rcases hchars _ hcomma with h | h
    · cases h
    · cases h
  · apply dropStart?_eq_none
    · intro hhead
      have hd : 'd' ∈ (toString n).toList := mem_of_mem_head? hhead.symm
      rcases hchars _ hd with h | h
      · cases h
      · cases h
    · decide

theorem readWire?_text (wire : WireKind) : readWire? wire.text.toList = some wire := by
  cases wire <;> decide

theorem readLabel?_text (label : Option Label) :
    readLabel? ((label.map Label.text).getD "").toList = some label := by
  rcases label with - | label
  · decide
  · cases label <;> decide

theorem ofItems?_items (t : Tag) :
    ofItems? (t.wire.text.toList :: (t.laterItems ++ keyItems "def" t.defaultText)) = some t := by
  let rest := t.options ++ keyItems "def" t.defaultText
  have hvalues : value? "name" rest = some t.name ∧ value? "json" rest = t.json ∧
      value? "enum" rest = t.enumName ∧ value? "def" rest = t.defaultText := by
    refine ⟨?_, ?_, ?_, ?_⟩ <;>
      simp (disch := decide) only [rest, options, value?_append, value?_keyItems,
        value?_keyItems_of_head, value?_flagItems, Option.none_or, Option.or_none]
  have hflags : hasFlag "packed" rest = t.packed ∧ hasFlag "proto3" rest = t.proto3Bytes ∧
      hasFlag "oneof" rest = t.oneof := by
    refine ⟨?_, ?_, ?_⟩ <;>
      simp (disch := decide) only [rest, options, hasFlag_append, hasFlag_flagItems,
        hasFlag_flagItems_of_ne, hasFlag_keyItems, Bool.or_false, Bool.false_or]
  change ofItems? (_ :: _ :: _ :: rest) = _
  simp only [ofItems?, readWire?_text, String.ofList_toList, decimal?_int, readLabel?_text, hvalues,
    hflags, Int32.ofInt_toInt, Option.bind_eq_bind, Option.bind_some]
  rfl

/-- A tag is read back if no comma stands before its default. -/
theorem read?_quoted {t : Tag} (h : t.Commaless) : read? t.quoted = some t := by
  have hpieces : ∀ piece ∈ t.laterItems, IsPiece piece := by
    have hlabel : IsPiece ((t.label.map Label.text).getD "").toList := by
      rcases t.label with - | label
      · decide
      · cases label <;> decide
    simp only [laterItems, options, forall_mem_cons, forall_mem_append]
    refine ⟨isPiece_number _, hlabel, ⟨⟨⟨⟨isPiece_flagItems (by decide) _, ?_⟩, ?_⟩,
      isPiece_flagItems (by decide) _⟩, ?_⟩, isPiece_flagItems (by decide) _⟩
    · exact isPiece_keyItems (by decide) (by decide) fun v hv => Option.mem_some.mp hv ▸ h.name
    · exact isPiece_keyItems (by decide) (by decide) h.json
    · exact isPiece_keyItems (by decide) (by decide) h.enumName
  have hwire : IsPiece t.wire.text.toList := by cases t.wire <;> decide
  have hdefault : keyItems "def" t.defaultText =
      (t.defaultText.map String.toList).toList.map ("def=".toList ++ ·) := by
    cases t.defaultText <;> rfl
  have hitems : items (Text.splitOn ',' t.text.toList) =
      t.wire.text.toList :: (t.laterItems ++ keyItems "def" t.defaultText) := by
    rw [toList_text, hdefault]
    exact items_splitOn hwire hpieces
  rw [read?, quoted, unquote?_quote]
  simp only [Option.bind_eq_bind, Option.bind_some, hitems, ofItems?_items]

end RoundTrip

end Tag

namespace Setup

variable {s : Setup} {file : FileId} {message : MessageId} {field : Field}
  {kind : FieldKind} {wire : WireKind} {tag : Tag}

/-- The name under which an enum is registered. -/
def enumReference (s : Setup) (e : EnumNode) : String :=
  inPackage (s.schema.file e.file).package (camelCaseScope e.typeName)

/-- How a declared default stands in a tag. -/
def IsDefaultText (s : Setup) (file : FileId) (field : Field) (kind : FieldKind)
    (value text : String) : Prop :=
  match kind with
  | .bool => text = if value = "true" then "1" else "0"
  | .enum => ∃ object e v, s.underlyingEnum field.typeNameText file = .ok (object, e) ∧
      e.proto.values.find? (fun v => v.name.getD "" = value) = some v ∧
      text = toString (v.number.getD 0).toInt
  | _ => text = value

/-- What is known about a field from its tag. -/
structure TagTells (s : Setup) (file : FileId) (m : MessageNode) (field : Field)
    (kind : FieldKind) (wire : WireKind) (t : Tag) : Prop where
  wire : t.wire = wire
  number : t.number = field.numberValue
  label : t.label = field.label?
  packed : t.packed = true ↔ field.options.bind (·.packed) = some true ∨
    field.options.bind (·.packed) = none ∧ m.proto3 = true ∧ field.label? = some .repeated ∧
      kind.isPackable = true
  name : kind ≠ .group → t.name = field.nameText
  groupName : kind = .group → IsLastPiece '.' t.name.toList field.typeNameText.toList
  json (name : String) : t.json = some name ↔
    field.jsonName = some name ∧ name ≠ "" ∧ name ≠ t.name
  enumName (name : String) : t.enumName = some name ↔ kind = .enum ∧ ∃ object e,
    s.underlyingEnum field.typeNameText file = .ok (object, e) ∧ name = s.enumReference e
  proto3Bytes : t.proto3Bytes = true ↔ m.proto3 = true ∧ kind = .bytes
  oneof : t.oneof = true ↔ field.oneofIndex.isSome = true
  noDefault : field.defaultValue = none → t.defaultText = none
  default (value : String) : field.defaultValue = some value →
    ∃ text, t.defaultText = some text ∧ s.IsDefaultText file field kind value text

theorem isPacked_iff {m : MessageNode} : isPacked m field kind = true ↔
    field.options.bind (·.packed) = some true ∨ field.options.bind (·.packed) = none ∧
      m.proto3 = true ∧ field.label? = some .repeated ∧ kind.isPackable = true := by
  rw [isPacked]
  cases field.options.bind (·.packed) with
  | some packed => simp
  | none => simp [Field.isRepeated, and_assoc]

theorem tagEnum_eq_some {text : Option String} (h : s.tagEnum file field kind = .ok text)
    (name : String) : text = some name ↔ kind = .enum ∧ ∃ object e,
      s.underlyingEnum field.typeNameText file = .ok (object, e) ∧ name = s.enumReference e := by
  by_cases hkind : kind = .enum
  · subst hkind
    rw [tagEnum, bind_eq_ok] at h
    obtain ⟨⟨object, e⟩, he, h⟩ := h
    cases h
    simp only [he, Except.ok.injEq, Prod.mk.injEq, Option.some.injEq, true_and]
    constructor
    · intro hname
      exact ⟨object, e, ⟨rfl, rfl⟩, hname.symm⟩
    · rintro ⟨_, _, ⟨rfl, rfl⟩, hname⟩
      exact hname.symm
  · have hnone : s.tagEnum file field kind = .ok none := by
      unfold tagEnum
      split
      · exact absurd rfl hkind
      · rfl
    cases hnone.symm.trans h
    simp [hkind]

theorem tagDefault_eq_some {text : Option String} (h : s.tagDefault file field kind = .ok text)
    {value : String} (hvalue : field.defaultValue = some value) :
    ∃ shown, text = some shown ∧ s.IsDefaultText file field kind value shown := by
  simp only [tagDefault, hvalue] at h
  cases kind with
  | enum =>
    rw [bind_eq_ok] at h
    obtain ⟨⟨object, e⟩, he, h⟩ := h
    simp only [EnumNode.numberOf?] at h
    cases hv : e.proto.values.find? fun v => v.name.getD "" = value with
    | none => simp [hv] at h
    | some v =>
      rw [hv] at h
      exact ⟨_, (pure_eq_ok.mp h).symm, object, e, v, he, hv, rfl⟩
  | _ => exact ⟨_, (Except.ok.inj h).symm, rfl⟩

theorem tagTells_of_fieldTag (h : s.fieldTag file message field wire = .ok tag) :
    ∃ kind, field.fieldKind = .ok kind ∧
      s.TagTells file (s.schema.message message) field kind wire tag := by
  rw [fieldTag, bind_eq_ok] at h
  obtain ⟨kind, hkind, h⟩ := h
  simp only [bind_eq_ok] at h
  obtain ⟨text, htext, enumName, henum, h⟩ := h
  cases h
  refine ⟨kind, hkind, rfl, rfl, rfl, isPacked_iff, ?_, ?_, ?_, tagEnum_eq_some henum, by simp,
    Iff.rfl, ?_, fun value hvalue => tagDefault_eq_some htext hvalue⟩
  · intro hgroup
    cases kind <;> first | rfl | exact absurd rfl hgroup
  · rintro rfl
    rw [tagName, String.toList_ofList]
    exact isLastPiece_afterLast
  · simp [tagJson]
  · intro hvalue
    rw [tagDefault, hvalue] at htext
    exact (Except.ok.inj htext).symm

/-- The texts of a field that stand in its tag before the default hold no comma. -/
structure FieldCommaless (s : Setup) (file : FileId) (field : Field) : Prop where
  name : ',' ∉ field.nameText.toList
  typeName : ',' ∉ field.typeNameText.toList
  json : ∀ json ∈ field.jsonName, ',' ∉ json.toList
  enumName (object : Object) (e : EnumNode) : field.fieldKind = .ok .enum →
    s.underlyingEnum field.typeNameText file = .ok (object, e) → ',' ∉ (s.enumReference e).toList

theorem TagTells.commaless {m : MessageNode} (h : s.TagTells file m field kind wire tag)
    (hkind : field.fieldKind = .ok kind) (hfield : s.FieldCommaless file field) :
    tag.Commaless where
  name := by
    by_cases hgroup : kind = .group
    · exact fun hcomma => hfield.typeName ((h.groupName hgroup).subset hcomma)
    · exact h.name hgroup ▸ hfield.name
  json name hname := hfield.json name ((h.json name).mp hname).1
  enumName name hname := by
    obtain ⟨rfl, object, e, he, rfl⟩ := (h.enumName name).mp hname
    exact hfield.enumName object e hkind he

/-- From the tag of a field everything that was put into it is known again. Only the default may
hold commas, and it may hold any text. -/
theorem fieldTag_read (h : s.fieldTag file message field wire = .ok tag)
    (hfield : s.FieldCommaless file field) :
    ∃ kind t, field.fieldKind = .ok kind ∧ Tag.read? tag.quoted = some t ∧
      s.TagTells file (s.schema.message message) field kind wire t := by
  obtain ⟨kind, hkind, htells⟩ := tagTells_of_fieldTag h
  exact ⟨kind, tag, hkind, Tag.read?_quoted (htells.commaless hkind hfield), htells⟩

/-- Its default looks like three more items. -/
def cunning : Field :=
  { name := some "f", number := some 7, label := some 1, kind := some 9,
    defaultValue := some "a,def=\"b\"\n,oneof,json=g", jsonName := some "F" }

theorem fieldTag_read_cunning : ∃ tag,
    (default : Setup).fieldTag default default cunning .bytes = .ok tag ∧
      ∃ kind t, cunning.fieldKind = .ok kind ∧ Tag.read? tag.quoted = some t ∧
        TagTells default default ((default : Setup).schema.message default) cunning kind .bytes t :=
  ⟨_, rfl, fieldTag_read rfl
    { name := by decide
      typeName := by decide
      json := by decide
      enumName := fun _ _ hkind => absurd hkind (by decide) }⟩

end Setup

end GoBindings
