import GoBindings.Proofs.Exports

/-!
# Forwarding

What a generated file declares for the objects that it passes on is valid, and it names the
packages of files that it imports, or that are imported for it.
-/

namespace GoBindings

open List Schema Go

namespace Binder

variable {b : Binder} {R : Rules} {known : FileId → Prop} {files : List Descriptor.File}
  {given : List String}
variable {part : Part} {target : Object} {name : TypeExpr}

variable {type : String} {fits : String → Prop}

section Declarations

variable {name package : String}

private theorem enumForward_valid (proto3 : Bool) (hname : IsName name)
    (hpackage : R.package package) : ∀ d ∈ enumForward name proto3 package, d.InBody R := by
  simp only [enumForward, forall_mem_append, forall_mem_ite, forall_mem_cons]
  simp +decide [returning, toRemote, Decl.InBody, hname, hpackage]

private theorem valueForward_valid (sort : ValueSort) {cast : Option String} (hname : IsName name)
    (hcast : ∀ type ∈ cast, IsName type) (hpackage : R.package package) :
    (valueForward sort name cast package).InBody R := by
  cases cast with
  | none => simp [valueForward, Decl.InBody, hname, hpackage]
  | some type => simp [valueForward, Decl.InBody, hname, hpackage, hcast type rfl]

variable {remote : TypeExpr}

private theorem extensionForwards_valid (isMessageSet : Bool) (hname : IsName name)
    (hremote : remote.Valid R) (hp : R.package b.proto) :
    ∀ d ∈ b.extensionForwards name isMessageSet remote, d.InBody R := by
  simp only [extensionForwards, forall_mem_append, forall_mem_ite]
  simp +decide [returning, pointerToRemote, toRemote, hname, hremote, hp]

private theorem unionForward_valid {t : FuncType} {names : List String} {call : Expr}
    (htype : IsName type) (hremote : remote.Valid R) (hname : IsName name) (ht : t.Valid R)
    (hnames : ∀ n ∈ names, IsName n) (hcall : call.Valid R) (hne : names ≠ []) :
    (unionForward type remote name t names call).InBody R := by
  have hbind := bindMessage_valid (R := R) htype
  have hall : Expr.ValidAll R (names.map Expr.name) := by
    rw [Expr.validAll_iff, forall_mem_map]
    exact hnames
  refine Decl.inBody_func.mpr (funcOf_valid hname ht ?_)
  simp +decide [pointerToRemote, toRemote, hbind, hremote, hall, hcall, hne]

private theorem unionForwards_valid (hname : IsName name) (hremote : remote.Valid R)
    (hp : R.package b.proto) : ∀ d ∈ b.unionForwards name remote, d.InBody R := by
  obtain ⟨hwriter, hreader, hsizer⟩ := isName_unionFuncs hname
  have hwriterType := writerType_valid hp (by decide : IsName "buf")
  have hreaderType := readerType_valid hp (by decide : IsName "buf")
  have hsizerType : (b.sizerType (.one (.name "int"))).Valid R :=
    sizerType_valid hp (by simp +decide)
  simp only [unionForwards, forall_mem_cons]
  refine ⟨?_, ?_, ?_, ?_, by simp⟩
  · simp +decide [-FuncType.valid_iff, unionFuncResults, hname, hwriter, hreader, hsizer,
      hwriterType, hreaderType, hsizerType]
  · exact unionForward_valid hname hremote hwriter hwriterType (by decide) (by simp +decide)
      (by simp)
  · exact unionForward_valid hname hremote hreader hreaderType (by decide) (by simp +decide)
      (by simp)
  · exact unionForward_valid hname hremote hsizer hsizerType (by decide) (by simp +decide)
      (by simp)

end Declarations

/-- What the files are known by that a generated file may name: the direct ones. -/
structure Forwarding (b : Binder) (known : FileId → Prop) : Prop where
  generated : b.setup.isGenerated b.file = true
  direct : ∀ file, b.schema.isDirect file b.file = true → known file

/-- The name by which a type of another file is written. -/
structure LocalName (b : Binder) (known : FileId → Prop) (name : TypeExpr) (part : Part) :
    Prop where
  named : name.Named
  packages : ∀ q ∈ name.packages, q ∈ part.uses
  decls : part.decls = []
  inits : part.inits = []
  uses : ∀ x ∈ part.uses, ∃ file, b.setup.PackageOf file x ∧ (known file ∨ file ∈ part.indirect)

theorem localName_eq_ok (h : b.localName target = .ok (name, part)) :
    (∃ own, b.schema.reexportIn? target b.file = some own ∧
      b.setup.goName (.reexport own) = .ok name ∧ part = {}) ∨
    ∃ object indirect, b.setup.goName object = .ok name ∧
      part = { uses := name.packages, indirect } ∧
      (∀ file ∈ indirect, file = b.schema.fileOf target) ∧
      (object = target ∧ b.schema.isDirect (b.schema.fileOf target) b.file = true ∨
        b.schema.reexportOf? target b.file = some object ∨
        object = target ∧ indirect = [b.schema.fileOf target]) := by
  cases hown : b.schema.reexportIn? target b.file with
  | some own =>
    simp only [localName, hown, steps_eq_ok] at h
    obtain ⟨name', hname, rfl, rfl⟩ := h
    exact .inl ⟨own, rfl, hname, rfl⟩
  | none =>
    simp only [localName, hown, steps_eq_ok, Prod.mk.injEq] at h
    obtain ⟨name', hname, rfl, rfl⟩ := h
    refine .inr ⟨_, _, hname, rfl, ?_⟩
    split
    · rename_i hdirect
      exact ⟨by simp, .inl ⟨rfl, hdirect⟩⟩
    · split
      · rename_i hreexport
        exact ⟨by simp, .inr (.inl hreexport)⟩
      · exact ⟨by simp, .inr (.inr ⟨rfl, rfl⟩)⟩

theorem localName_sound (hs : b.setup.Sound files) (hb : b.Forwarding known)
    (htarget : b.schema.Declares target) (h : b.localName target = .ok (name, part)) :
    b.LocalName known name part := by
  rcases localName_eq_ok h with
    ⟨own, hown, hname, rfl⟩ | ⟨object, indirect, hname, rfl, -, hobject⟩
  · have howns : b.node.Owns b.schema b.file := hs.schema.owns_file b.file
    obtain ⟨-, hfile, hdeclares, -⟩ := howns.reexports own (mem_of_find?_eq_some hown)
    have hdeclares : b.schema.Declares (b.schema.underlying (.reexport own)) := hdeclares
    obtain ⟨hnamed, hpackages⟩ := Setup.goName_spec hs hdeclares hname
    refine ⟨hnamed, fun q hq => ?_, rfl, rfl, by simp⟩
    -- The generated package is not named by itself.
    obtain ⟨hpackage, hne⟩ := hpackages q hq
    have hsame : b.setup.schema.fileOf (.reexport own) = b.file := hfile
    rw [hsame] at hpackage
    exact absurd (hs.of_generated hb.generated hpackage) hne
  · have hdeclares : b.schema.Declares (b.schema.underlying object) := by
      rcases hobject with ⟨rfl, -⟩ | hreexport | ⟨rfl, -⟩
      · rwa [underlying_of_declares htarget]
      · obtain ⟨r, rfl, rfl, -⟩ := reexportOf?_eq_some hs.schema.mirrors hreexport
        exact htarget
      · rwa [underlying_of_declares htarget]
    obtain ⟨hnamed, hpackages⟩ := Setup.goName_spec hs hdeclares hname
    refine ⟨hnamed, fun q hq => hq, rfl, rfl, fun q hq => ⟨_, hpackages q hq, ?_⟩⟩
    rcases hobject with ⟨rfl, hdirect⟩ | hreexport | ⟨rfl, rfl⟩
    · exact .inl (hb.direct _ hdirect)
    · refine .inl (hb.direct _ ?_)
      obtain ⟨r, rfl, -, hmem, -⟩ := reexportOf?_eq_some hs.schema.mirrors hreexport
      exact isDirect_iff.mpr (.inr hmem)
    · exact .inr (by simp [schema])

private theorem LocalName.declare (h : b.LocalName known name part) {d : Decl}
    (hd : (∀ x ∈ given, R.package x) → name.Valid R → d.InBody R) :
    (part ++ { decls := [d] }).Sound b R known given where
  decls hu := by
    simp only [Part.uses_append, append_nil, forall_mem_append] at hu
    simpa [h.decls] using hd hu.1 (h.named.valid fun q hq => hu.2 q (h.packages q hq))
  inits := by simp [h.inits]
  uses x hx := by
    simp only [Part.uses_append, append_nil] at hx
    simpa using .inr (h.uses x hx)

private theorem copyingGetter_valid {getter index elem : String} {t : TypeExpr} {value : Expr}
    {convert : Expr → Expr} (htype : IsName type) (hgetter : IsName getter) (ht : t.Valid R)
    (hvalue : value.Valid R) (hindex : IsName index) (helem : IsName elem)
    (hconvert : (convert (.name elem)).Valid R) :
    (copyingGetter ⟨some "m", true, type⟩ getter t value index elem convert).Valid R := by
  simp +decide [copyingGetter, htype, hgetter, ht, hvalue, hindex, helem, hconvert]

theorem getterForward_sound (hs : b.setup.Sound files) (hb : b.Forwarding known) {remote : TypeExpr}
    {g : GetterSymbol} (htype : IsName type) (hremote : (∀ x ∈ given, R.package x) → remote.Valid R)
    (hname : IsName g.name) (hshape : g.shape.Sound b.schema fits)
    (hfits : ∀ q, fits q → R.package q) (h : b.getterForward type remote g = .ok part) :
    part.Sound b R known given := by
  have hvalue (hu : ∀ x ∈ given, R.package x) :
      (Expr.method (pointerToRemote remote) g.name []).Valid R := by
    simp +decide [pointerToRemote, toRemote, hremote hu, hname]
  unfold getterForward at h
  split at h
  · rename_i t ht
    rw [ht] at hshape
    cases h
    refine ⟨fun hu => ?_, by simp, by simp⟩
    have hvalue := hvalue fun x hx => hu x (by simp [hx])
    have hvalid : t.Valid R := hshape.1.valid fun q hq => hfits q (hshape.2 q hq)
    simpa +decide [returning, htype, hname, hvalid] using hvalue
  · rename_i target pointer repeated ht
    rw [ht] at hshape
    simp only [steps_eq_ok] at h
    obtain ⟨⟨name, part'⟩, hlocal, rfl⟩ := h
    refine (localName_sound hs hb hshape hlocal).declare fun hu hlocal => ?_
    have hvalue := hvalue hu
    split
    · refine Decl.inBody_func.mpr (copyingGetter_valid htype hname ?_ hvalue (by decide)
        (by decide) ?_)
      · cases pointer <;> simpa using hlocal
      · cases pointer <;> simpa +decide using hlocal
    · cases pointer <;>
        simpa +decide [returning, htype, hname, hlocal] using hvalue
  · rename_i key target pointer ht
    rw [ht] at hshape
    obtain ⟨hkey, hkeys, htarget⟩ := hshape
    simp only [steps_eq_ok] at h
    obtain ⟨⟨name, part'⟩, hlocal, rfl⟩ := h
    refine (localName_sound hs hb htarget hlocal).declare fun hu hlocal => ?_
    have hkey : key.Valid R := hkey.valid fun q hq => hfits q (hkeys q hq)
    refine Decl.inBody_func.mpr (copyingGetter_valid htype hname ?_ (hvalue hu) (by decide)
      (by decide) ?_)
    · cases pointer <;> simpa using ⟨hkey, hlocal⟩
    · cases pointer <;> simpa +decide using hlocal

section Symbols

variable {package : String} {fits : String → Prop}

private theorem messageForward_sound (hs : b.setup.Sound files) (hb : b.Forwarding known)
    {m : MessageSymbol} (hm : (Symbol.message m).Sound b.schema fits)
    (hfits : ∀ q, fits q → R.package q) (hpackage : package ∈ given)
    (h : b.messageForward m package = .ok part) : part.Sound b R known given := by
  obtain ⟨hname, hgetters⟩ := hm
  have hremote (hu : ∀ x ∈ given, R.package x) : (TypeExpr.qualified package m.name).Valid R :=
    ⟨hu package hpackage, hname⟩
  simp only [messageForward, steps_eq_ok] at h
  obtain ⟨getters, hparts, rfl⟩ := h
  refine Part.Sound.append ⟨fun hu => ?_, by simp, by simp⟩
    (Part.Sound.additive.concat_mapM hparts fun g hg part hpart => ?_)
  · simp only [forall_mem_append, forall_mem_ite, forall_mem_singleton,
      Bool.or_eq_true] at hu
    have hremote := hremote hu.1
    simp only [forall_mem_append, forall_mem_ite]
    refine ⟨⟨?_, fun he => ?_, by simp⟩, fun ho => ?_, by simp⟩
    · simpa +decide [returning, pointerToRemote, toRemote, Decl.InBody, hname] using hremote
    · exact extensionForwards_valid m.isMessageSet hname hremote (hu.2.1 (.inl he))
    · exact unionForwards_valid hname hremote (hu.2.1 (.inr ho))
  · obtain ⟨hgetter, hshape⟩ := hgetters g hg
    exact getterForward_sound hs hb hname hremote hgetter hshape hfits hpart

theorem symbolForward_sound (hs : b.setup.Sound files) (hb : b.Forwarding known) {x : Symbol}
    (hx : x.Sound b.schema fits) (hfits : ∀ q, fits q → R.package q) (hpackage : package ∈ given)
    (h : b.symbolForward package x = .ok part) : part.Sound b R known given := by
  cases x with
  | message m => exact messageForward_sound hs hb hx hfits hpackage h
  | enum name proto3 =>
    cases h
    exact ⟨fun hu => enumForward_valid proto3 hx (hu package (by simp [hpackage])), by simp,
      by simp⟩
  | value sort name cast =>
    cases h
    refine ⟨fun hu => ?_, by simp, by simp⟩
    simpa using valueForward_valid sort hx.1 hx.2 (hu package (by simp [hpackage]))

end Symbols

theorem oneLine_fileName (hs : b.setup.Sound files) (htidy : ∀ f ∈ files, f.Tidy)
    (file : FileId) : OneLine (b.schema.file file).name := by
  rcases hs.schema.file_cases file with hproto | hdefault
  · intro hmem
    exact absurd ((htidy _ hproto).name '\n' hmem) (by decide)
  · rw [schema, hdefault]
    decide

private theorem oneLine_lastName (hs : b.setup.Sound files) (htarget : b.schema.Declares target) :
    OneLine ((b.schema.typeName target).getLast?.getD "") := by
  have hplain : PlainName (b.schema.typeName target) := by
    rw [typeName, underlying_of_declares htarget]
    exact hs.schema.declared_name htarget
  rw [getLast?_eq_some_getLast hplain.1]
  exact (isName_of_isIdentifier (hplain.2 _ (getLast_mem hplain.1))).oneLine

theorem forwardPart_sound (hs : b.setup.Sound files) (htidy : R.strict → ∀ f ∈ files, f.Tidy)
    (hb : b.Forwarding known) (hexports : b.exports.Sound b.schema fits)
    (hfits : ∀ q, fits q → R.package q) {id : ReexportId} (hid : id ∈ b.node.reexports)
    (h : b.forwardPart id = .ok part) : part.Sound b R known given := by
  have howns : b.node.Owns b.schema b.file := hs.schema.owns_file b.file
  obtain ⟨-, -, hdeclares, hdependency⟩ := howns.reexports id hid
  have hname := oneLine_lastName hs hdeclares
  have hfile (hstrict : R.strict) :=
    oneLine_fileName hs (htidy hstrict) (b.schema.fileOf (b.schema.reexport id).target)
  simp only [forwardPart] at h
  split at h
  · cases h
    refine ⟨fun _ => ?_, by simp, by simp⟩
    simp only [forall_mem_cons]
    refine ⟨⟨fun hstrict => ?_, rfl⟩, ⟨trivial, rfl⟩, by simp⟩
    exact show OneLine _ by simp +decide [hname, hfile hstrict]
  · rename_i hgenerated
    simp only [steps_eq_ok] at h
    obtain ⟨package, hpackage, symbols, hsymbols, rfl⟩ := h
    have hne := hs.of_foreign (Bool.eq_false_iff.mpr hgenerated) hpackage
    refine Part.Sound.of_uses (?_ : Part.Sound b R known [package] _) (by simp)
    refine (Part.Sound.append ⟨fun _ => ?_, by simp, ?_⟩ (Part.Sound.additive.concat_mapM hsymbols
      fun x hx part hpart => ?_)).append ⟨by simp [Decl.InBody], by simp, by simp⟩
    · rw [forall_mem_singleton]
      refine ⟨fun hstrict => ?_, rfl⟩
      exact show OneLine _ by simp +decide [hname, hfile hstrict]
    · simp only [forall_mem_singleton]
      refine .inr ⟨_, ⟨hpackage, hne⟩, .inl (hb.direct _ ?_)⟩
      simpa [isDirect] using .inr hdependency
    · exact symbolForward_sound hs hb (hexports.of hx) hfits (by simp) hpart

end Binder

end GoBindings
