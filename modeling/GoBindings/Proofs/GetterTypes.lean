import GoBindings.Proofs.ExtensionTypes
import GoBindings.Proofs.Imports

/-!
# Types of getters

The type of a getter follows from the kind of its field and the Go name of what the field refers
to: messages are held by pointers, and enums are not.
-/

namespace GoBindings

open Schema Go Descriptor Lexeme List

variable {t name : TypeExpr} {kind : FieldKind} {repeated : Bool}

/-- A type with no star before it, nor before its elements. -/
structure Go.TypeExpr.Starless (t : TypeExpr) : Prop where
  isStarred : t.isStarred = false
  hasStarredElem : t.hasStarredElem = false

/-- A type that is written as a name, and not like one whose defaults have a form of their own. -/
structure Go.TypeExpr.Plain (t : TypeExpr) : Prop extends t.Starless where
  text : t.text ∉ ["bool", "string", "byte", "[]byte"]

theorem Go.TypeExpr.unstarred_eq_self (h : t.isStarred = false) : t.unstarred = t := by
  cases t with
  | name n => rw [unstarred, if_neg (of_decide_eq_false h)]
  | pointer => cases h
  | _ => rfl

theorem Go.TypeExpr.dropBrackets_suffix (cs : List Char) : dropBrackets cs <:+ cs := by
  fun_induction dropBrackets cs with
  | case1 cs ih => exact ih.trans ((suffix_cons _ _).trans (suffix_cons _ _))
  | case2 cs => exact suffix_rfl

section Names

variable {s : Setup} {object : Object}

theorem Setup.goName_forms (h : s.goName object = .ok t) :
    let n := camelCaseScope (s.schema.typeName object)
    t = .name n ∨ ∃ package, t = .qualified package n := by
  rw [goName, bind_eq_ok] at h
  obtain ⟨package, -, h⟩ := h
  cases h
  split
  · exact .inl rfl
  · exact .inr ⟨package, rfl⟩

theorem Setup.goName_starless (h : s.goName object = .ok t)
    (hname : '*' ∉ (camelCaseScope (s.schema.typeName object)).toList) : t.Starless := by
  rcases goName_forms h with rfl | ⟨package, rfl⟩
  · refine ⟨decide_eq_false fun hhead => hname (mem_of_head? hhead),
      decide_eq_false fun hhead => hname ?_⟩
    exact (TypeExpr.dropBrackets_suffix _).subset (mem_of_head? hhead)
  · exact ⟨rfl, rfl⟩

theorem Setup.goName_plain (h : s.goName object = .ok t)
    (hname : IsName (camelCaseScope (s.schema.typeName object))) : t.Plain := by
  refine ⟨goName_starless h (hname.not_mem (by decide)), ?_⟩
  have hlower : ∀ c ∈ (camelCaseScope (s.schema.typeName object)).toList.head?,
      c.isLower = false := isLower_head_camelCase _
  rcases goName_forms h with ht | ⟨package, ht⟩ <;>
    generalize camelCaseScope (s.schema.typeName object) = n at hname hlower ht <;>
    subst ht <;> intro hmem
  · simp only [Binder.text_name, mem_cons, not_mem_nil, or_false] at hmem
    rcases hmem with rfl | rfl | rfl | rfl
    · exact absurd (hlower 'b' rfl) (by decide)
    · exact absurd (hlower 's' rfl) (by decide)
    · exact absurd (hlower 'b' rfl) (by decide)
    · cases hname
  · have hdot : '.' ∈ (TypeExpr.qualified package n).text.toList := by
      simp [TypeExpr.text, TypeExpr.lexemes, spell, punct]
    have hnone : ∀ text ∈ ["bool", "string", "byte", "[]byte"], '.' ∉ text.toList := by decide
    exact hnone _ hmem hdot

end Names

/-- What the values of a kind are held as, where `name` is the Go name that they have. -/
def FieldKind.heldAs (kind : FieldKind) (repeated : Bool) (name : TypeExpr) : TypeExpr :=
  let t := if kind = .message then .pointer name else name
  if repeated then .slice t else t

theorem FieldKind.hasStarredElem_heldAs (h : name.Starless) :
    (kind.heldAs repeated name).hasStarredElem = decide (kind = .message) := by
  by_cases hkind : kind = .message <;> cases repeated <;>
    simp [heldAs, hkind, TypeExpr.hasStarredElem, h.hasStarredElem]

theorem FieldKind.isStarred_heldAs (h : name.Starless) :
    (kind.heldAs repeated name).isStarred = (decide (kind = .message) && !repeated) := by
  cases repeated with
  | true => simp [heldAs, TypeExpr.isStarred]
  | false =>
    by_cases hkind : kind = .message
    · simp [heldAs, hkind, TypeExpr.isStarred]
    · simp [heldAs, hkind, h.isStarred]

namespace Setup

variable {P : Field → Prop} {s : Setup} {files : List File} {file : FileId}
  {message : Option MessageId} {field : Field} {kind : FieldKind} {t : FieldType}

/-- The names of what the field refers to have no stars. -/
def NamesStarless (s : Setup) (file : FileId) (field : Field) : Prop :=
  ∀ object name, s.resolve field.typeNameText file = .ok object → s.goName object = .ok name →
    name.Starless

theorem SoundWith.namesStarless (hs : s.SoundWith P files) : s.NamesStarless file field :=
  fun _ _ hobject hname =>
    (goName_plain hname (hs.schema.declared_name (resolve_declares hs hobject)).isName).toStarless

/-- The type of a field that refers to a message or an enum. A single enum may be held by a
pointer. -/
theorem fieldType_heldAs (hstars : s.NamesStarless file field)
    (h : s.fieldType file message field = .ok t) (hkind : field.fieldKind = .ok kind)
    (hnamed : kind = .message ∨ kind = .enum) :
    ∃ object name, s.resolve field.typeNameText file = .ok object ∧ s.goName object = .ok name ∧
      name.Starless ∧ (kind = .message → t.type = kind.heldAs field.isRepeated name) ∧
      (kind = .enum → t.type.unstarred = kind.heldAs field.isRepeated name) := by
  obtain ⟨kind', name, hkind', hname, htype⟩ := fieldType_cases h
  cases hkind.symm.trans hkind'
  have hscalar : kind.scalar? = none := by rcases hnamed with rfl | rfl <;> rfl
  rw [NamesType, hscalar] at hname
  obtain ⟨object, hobject, hname⟩ := hname
  have hstarless := hstars object name hobject hname
  refine ⟨object, name, hobject, hname, hstarless, fun hmessage => ?_, fun henum => ?_⟩
  · subst hmessage
    rw [htype]
    cases field.isRepeated <;> rfl
  · subst henum
    rw [htype]
    split
    · rename_i hsingle
      rw [TypeExpr.unstarred_eq_self hstarless.isStarred, hsingle.1]
      rfl
    · cases field.isRepeated <;> rfl

theorem fieldType_text (h : s.fieldType file message field = .ok t)
    (hkind : field.fieldKind = .ok kind) (hscalar : kind.scalar? = none)
    (hplain : ∀ object, s.resolve field.typeNameText file = .ok object →
      IsName (camelCaseScope (s.schema.typeName object))) :
    t.type.unstarred.text ∉ ["bool", "string", "[]byte"] := by
  obtain ⟨kind', name, hkind', hname, htype⟩ := fieldType_cases h
  cases hkind.symm.trans hkind'
  rw [NamesType, hscalar] at hname
  obtain ⟨object, hobject, hname⟩ := hname
  have hplain := goName_plain hname (hplain object hobject)
  have hforms : t.type.unstarred = name ∨ ∃ elem, t.type.unstarred = .slice elem ∧
      (elem = name ∨ elem = .pointer name) := by
    have hkinds := FieldKind.scalar?_eq_none.mp hscalar
    simp only [mem_cons, not_mem_nil, or_false] at hkinds
    rw [htype]
    split
    · exact .inl (TypeExpr.unstarred_eq_self hplain.isStarred)
    · rcases hkinds with rfl | rfl | rfl <;> cases field.isRepeated <;>
        simp [FieldKind.extensionType, TypeExpr.unstarred]
  rcases hforms with heq | ⟨elem, heq, helem⟩ <;> rw [heq]
  · have hsubset : ["bool", "string", "[]byte"] ⊆ ["bool", "string", "byte", "[]byte"] := by decide
    exact fun hmem => hplain.text (hsubset hmem)
  · have hbyte : elem.text.toList ≠ "byte".toList := by
      rcases helem with rfl | rfl
      · exact fun hbyte => hplain.text (by simp [String.toList_inj.mp hbyte])
      · simp [TypeExpr.text, TypeExpr.lexemes, spell, punct]
    simp only [mem_cons, ← String.toList_inj]
    simpa using hbyte

end Setup

theorem MapPlan.Source.value_heldAs {b : Binder} {field : Field} {map : MapPlan}
    (e : map.Source b field) (hstars : b.setup.NamesStarless b.file e.value)
    (hnamed : e.kind = .message ∨ e.kind = .enum) :
    ∃ object name, b.setup.resolve e.value.typeNameText b.file = .ok object ∧
      b.setup.goName object = .ok name ∧ name.Starless ∧
      map.target = some (b.schema.underlying object) ∧
      map.value = e.kind.heldAs e.value.isRepeated name := by
  obtain ⟨object, name, hobject, hname, hstarless, hmessage, henum⟩ :=
    Setup.fieldType_heldAs hstars e.hvalueType e.hkind hnamed
  refine ⟨object, name, hobject, hname, hstarless, ?_, ?_⟩
  · rcases e.target with ⟨-, object', hobject', htarget⟩ | ⟨-, hother⟩
    · rw [htarget, Except.ok.inj (hobject.symm.trans hobject')]
    · exact absurd hnamed (by simpa using hother)
  · rw [e.hvalue]
    split
    · exact hmessage (by assumption)
    · exact henum (hnamed.resolve_left (by assumption))

namespace Binder

variable {b : Binder} {id : MessageId} {p : FieldPlan}

theorem getterType_eq_unstarred (h : p.kind.needsPointer = true) :
    getterType p = p.type.unstarred := by
  cases hstar : p.type.isStarred with
  | true => simp [getterType, getterDerefs, h, hstar]
  | false => simp [getterType, TypeExpr.unstarred_eq_self hstar]

theorem getterType_heldAs (hp : p.Made b id) (hstars : b.setup.NamesStarless b.file p.field)
    (hmap : p.map = none) (hnamed : p.kind = .message ∨ p.kind = .enum) :
    ∃ object name, b.setup.resolve p.field.typeNameText b.file = .ok object ∧
      b.setup.goName object = .ok name ∧ name.Starless ∧
      getterType p = p.kind.heldAs p.field.isRepeated name := by
  obtain ⟨object, name, hobject, hname, hstarless, hmessage, henum⟩ :=
    Setup.fieldType_heldAs hstars hp.fieldType hp.kind hnamed
  have htype : p.type = p.fieldType.type := by
    rcases hp.map with ⟨-, htype, -⟩ | ⟨map, -, -, hsome, -⟩
    · exact htype
    · simp [hmap] at hsome
  refine ⟨object, name, hobject, hname, hstarless, ?_⟩
  rcases hnamed with hkind | hkind
  · have hderefs : getterDerefs p = false := by
      rw [getterDerefs, hkind]
      rfl
    rw [getterType, hderefs, htype, hmessage hkind]
    rfl
  · rw [getterType_eq_unstarred (by rw [hkind]; rfl), htype, henum hkind]

end Binder

end GoBindings
