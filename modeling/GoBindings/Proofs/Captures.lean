import GoBindings.Proofs.Alike

/-!
# Captured packages

A name that is bound in a function hides a package of the same name. In the functions of a generated
file this can happen to the packages of other files, under fourteen names, and to no others.
-/

namespace GoBindings

open List Schema Go Descriptor Setup Binder

variable {q : String}

namespace Go

/-- A package that is named, with the names that are bound at that place. -/
structure Use where
  package : String
  scope : List String
  deriving DecidableEq, Repr

/-- The name means something else than the package. -/
def Use.isCaptured (u : Use) : Bool := u.scope.contains u.package

namespace Expr

mutual

@[simp] def packages : Expr → List String
  | name _ | number _ | literal _ => []
  | qualified package _ => [package]
  | type t => t.packages
  | select e _ | paren e | star e | address e | spread e => e.packages
  | call f args => f.packages ++ packagesAll args
  | index e i => e.packages ++ i.packages
  | composite t elems => t.packages ++ packagesAll elems
  | assert e t => e.packages ++ t.packages
  | binary left _ right | tight left _ right => left.packages ++ right.packages

@[simp] def packagesAll : List Expr → List String
  | [] => []
  | e :: es => e.packages ++ packagesAll es

end

@[simp] theorem packages_quoted (s : String) : (quoted s).packages = [] := rfl

@[simp] theorem packages_int (n : Int) : (int n).packages = [] := rfl

@[simp] theorem packages_nat (n : Nat) : (nat n).packages = [] := rfl

theorem packagesAll_eq_flatMap (es : List Expr) : packagesAll es = es.flatMap packages := by
  induction es with
  | nil => rfl
  | cons e es ih => rw [packagesAll, ih, flatMap_cons]

@[simp] theorem packagesAll_map {α : Type} (f : α → Expr) (xs : List α) :
    packagesAll (xs.map f) = xs.flatMap fun x => (f x).packages := by
  rw [packagesAll_eq_flatMap, flatMap_map]

/-- The variable that an expression declares on the left of a declaration. -/
@[simp] def declared? : Expr → Option String
  | name n => if n = "_" then none else some n
  | _ => none

end Expr

namespace Simple

def packages : Simple → List String
  | eval e => e.packages
  | assign left _ right => Expr.packagesAll left ++ Expr.packagesAll right
  | ret values => Expr.packagesAll values

/-- The variables that a statement declares for those after it. -/
def declares : Simple → List String
  | assign left op _ => if op = ":=" then left.filterMap Expr.declared? else []
  | _ => []

end Simple

@[simp] def usesIn (scope packages : List String) : List Use := packages.map fun p => ⟨p, scope⟩

namespace Stmt

def declares : Stmt → List String
  | simple s | noted s _ => s.declares
  | _ => []

-- Unfolded as a whole these would be so at variables too.
attribute [simp] Simple.packages.eq_1 Simple.packages.eq_2 Simple.packages.eq_3
  Simple.declares.eq_1 Simple.declares.eq_2 declares.eq_1 declares.eq_2 declares.eq_3

mutual

/-- The packages that a statement names. What a statement declares is bound after it, and in the
rest of it where it has a block. -/
@[simp] def uses (scope : List String) : Stmt → List Use
  | simple s | noted s _ => usesIn scope s.packages
  | comment _ => []
  | retList values t elems =>
    usesIn scope (Expr.packagesAll values ++ t.packages ++ Expr.packagesAll elems)
  | ifThen init cond body =>
    let inner := (init.toList.flatMap Simple.declares) ++ scope
    usesIn scope (init.toList.flatMap Simple.packages) ++ usesIn inner cond.packages ++
      usesAll inner body
  | ifLine cond s => usesIn scope (cond.packages ++ s.packages)
  | typeSwitch var subject cases => usesIn scope subject.packages ++ usesCases scope [var] cases
  | switchOn subject cases => usesIn scope subject.packages ++ usesCases scope [] cases
  | forRange key value subject body =>
    usesIn scope subject.packages ++ usesAll (key :: value :: scope) body

@[simp] def usesAll (scope : List String) : List Stmt → List Use
  | [] => []
  | s :: ss => s.uses scope ++ usesAll (s.declares ++ scope) ss

/-- The labels stand outside of what the switch binds in its cases. -/
@[simp] def usesCase (scope bound : List String) : Case → List Use
  | .on label body | .onNoted label _ body =>
    usesIn scope label.packages ++ usesAll (bound ++ scope) body
  | .otherwise body => usesAll (bound ++ scope) body

@[simp] def usesCases (scope bound : List String) : List Case → List Use
  | [] => []
  | c :: cs => usesCase scope bound c ++ usesCases scope bound cs

end

theorem mem_usesCases {u : Use} {scope bound : List String} {cs : List Case} :
    u ∈ usesCases scope bound cs ↔ ∃ c ∈ cs, u ∈ usesCase scope bound c := by
  induction cs with
  | nil => simp
  | cons c cs ih => simp [ih]

@[simp] theorem usesCases_append (scope bound : List String) (cs cs' : List Case) :
    usesCases scope bound (cs ++ cs') = usesCases scope bound cs ++ usesCases scope bound cs' := by
  induction cs with
  | nil => rfl
  | cons c cs ih => simp [ih]

theorem mem_usesAll_append {u : Use} {scope : List String} {ss ss' : List Stmt}
    (h : ∀ s ∈ ss, s.declares = []) : u ∈ usesAll scope (ss ++ ss') ↔
      (∃ s ∈ ss, u ∈ s.uses scope) ∨ u ∈ usesAll scope ss' := by
  induction ss with
  | nil => simp
  | cons s ss ih =>
    rw [forall_mem_cons] at h
    rw [cons_append, usesAll, h.1, nil_append, mem_append, ih h.2]
    simp [or_assoc]

end Stmt

namespace Func

/-- The names bound in the whole body: the receiver, the parameters, and a result with a name. -/
@[simp] def scope (f : Func) : List String :=
  (f.receiver.bind (·.name)).toList ++ f.params.flatMap (·.names) ++
    match f.results with
    | .named n _ => [n]
    | _ => []

@[simp] def uses (f : Func) : List Use :=
  match f.body with
  | .empty => []
  | .line s => usesIn f.scope s.packages
  | .block body => Stmt.usesAll f.scope body

end Func

/-- The packages that are named in the body of a function. -/
def Decl.uses : Decl → List Use
  | func f => f.uses
  | _ => []

/-- The packages that are hidden where they are named. -/
def Decl.captured (d : Decl) : List String := (d.uses.filter Use.isCaptured).map (·.package)

attribute [simp] Decl.uses.eq_1 Decl.uses.eq_2 TypeExpr.packages

end Go

/-- The names by which a package can be hidden: those of receivers, parameters and variables that
are bound where a type or a constant of another file can be named. -/
def capturingNames : List String :=
  ["m", "x", "data", "buf", "o", "s", "i", "k", "v", "msg", "tag", "wire", "b", "err"]

/-- The names that are bound where a support package can be named. -/
def localNames : List String := "n" :: capturingNames

/-- The packages that the key of a map names. -/
def GetterShape.keyPackages : GetterShape → List String
  | .map key _ _ => key.packages
  | _ => []

def Symbol.keyPackages : Symbol → List String
  | .message m => m.getters.flatMap (·.shape.keyPackages)
  | _ => []

/-- The keys of maps in the getters of exported messages name packages of other files only. -/
def Exports.KeysForeign (s : Setup) (exports : Exports) : Prop :=
  ∀ e ∈ exports, ∀ q ∈ e.2.keyPackages, ∃ file, s.PackageOf file q

namespace Binder

variable {P : Field → Prop} {b : Binder} {files : List File}
variable {part : Part} {id : MessageId}

variable {p : FieldPlan} {unions : List (Option UnionPlan)}

/-- If a package is hidden then it is that of another file, and the name is one of those that can
hide it. -/
def Explains (b : Binder) (u : Use) : Prop :=
  u.isCaptured = true → u.package ∈ capturingNames ∧ ∃ file, b.setup.PackageOf file u.package

/-- No support package is called like a variable. -/
def SupportVisible (b : Binder) : Prop := ∀ q ∈ [b.proto, b.fmt, b.math], q ∉ localNames

/-- Another file has the package. -/
def IsForeign (b : Binder) (q : String) : Prop := ∃ file, b.setup.PackageOf file q

theorem SupportVisible.explains (h : b.SupportVisible) {scope : List String}
    (hq : q ∈ [b.proto, b.fmt, b.math]) (hscope : scope ⊆ localNames) : b.Explains ⟨q, scope⟩ :=
  fun hcaptured => absurd (hscope (contains_iff_mem.mp hcaptured)) (h q hq)

theorem IsForeign.explains {scope : List String} (h : b.IsForeign q)
    (hscope : scope ⊆ capturingNames) : b.Explains ⟨q, scope⟩ :=
  fun hcaptured => ⟨hscope (contains_iff_mem.mp hcaptured), h⟩

/-- What declarations hide is explained. -/
def ExplainsAll (b : Binder) (ds : List Decl) : Prop := ∀ d ∈ ds, ∀ u ∈ d.uses, b.Explains u

/-- Statements of the `init` function declare nothing, and what declarations hide is explained. -/
structure PartExplained (b : Binder) (part : Part) : Prop where
  decls : b.ExplainsAll part.decls
  inits : ∀ s ∈ part.inits, s.declares = []

theorem PartExplained.append {p q : Part} (hp : b.PartExplained p) (hq : b.PartExplained q) :
    b.PartExplained (p ++ q) :=
  ⟨forall_mem_append.mpr ⟨hp.decls, hq.decls⟩, forall_mem_append.mpr ⟨hp.inits, hq.inits⟩⟩

theorem PartExplained.additive : Part.Additive b.PartExplained :=
  ⟨⟨by simp [ExplainsAll], by simp⟩, .append⟩

section Templates

variable (h : b.SupportVisible) {type : String}
variable {plan : MessagePlan}
variable {scope : List String}

include h

theorem explains_proto (hscope : scope ⊆ localNames) : b.Explains ⟨b.proto, scope⟩ :=
  h.explains (by simp) hscope

theorem explains_fmt (hscope : scope ⊆ localNames) : b.Explains ⟨b.fmt, scope⟩ :=
  h.explains (by simp) hscope

theorem explains_math (hscope : scope ⊆ localNames) : b.Explains ⟨b.math, scope⟩ :=
  h.explains (by simp) hscope

theorem enumDecls_explained (node : EnumNode) : b.ExplainsAll (b.enumDecls node) := by
  simp only [ExplainsAll, enumDecls, forall_mem_append, forall_mem_cons, forall_mem_ite]
  simp +decide [enumPointerFunc, enumStringFunc, enumUnmarshalFunc, descriptorFunc, wellKnownFunc,
    explains_proto h]

theorem messageDecls_explained (type : String) (m : MessageNode) :
    b.ExplainsAll ((b.messageFuncs m type).map Decl.func ++ b.extensionDecls m type) := by
  simp only [ExplainsAll, messageFuncs, extensionDecls, messageSetDecls, rangeDecls,
    forall_mem_append, forall_mem_map, forall_mem_cons, forall_mem_ite]
  simp +decide [descriptorFunc, wellKnownFunc, explains_proto h]

omit h in
theorem unionTypes_explained {types : List Decl} (htypes : unionTypes type plan = .ok types) :
    b.ExplainsAll types := by
  simp only [unionTypes, steps_eq_ok] at htypes
  obtain ⟨markers, hmarkers, rfl⟩ := htypes
  have hflat : b.ExplainsAll markers.flatten := by
    intro d hd
    obtain ⟨ds, hds, hd⟩ := mem_flatten.mp hd
    obtain ⟨p, -, hp⟩ := exists_of_mem_mapM hmarkers hds
    unfold markerDecl at hp
    cases honeof : p.oneof with
    | none => simp_all
    | some i =>
      simp only [honeof, steps_eq_ok] at hp
      obtain ⟨union, -, rfl⟩ := hp
      simp_all
  simp only [ExplainsAll, forall_mem_append, forall_mem_map, forall_mem_singleton]
  refine ⟨⟨⟨⟨⟨⟨⟨?_, ?_⟩, ?_⟩, ?_⟩, hflat⟩, ?_⟩, ?_⟩, ?_⟩ <;> simp [wrapperDecl, unionGetter]

theorem writeCase_explained (p : FieldPlan) :
    ∀ u ∈ Stmt.usesCase ["m", "msg", "b"] ["x"] (b.writeCase p), b.Explains u := by
  cases hkind : p.kind <;>
    simp +decide [writeCase, hkind, writeKey, writeValue, onBuffer, conversion, guardError,
      explains_proto h, explains_math h]

theorem sizeCase_explained (p : FieldPlan) :
    ∀ u ∈ Stmt.usesCase ["m", "msg", "n"] ["x"] (b.sizeCase p), b.Explains u := by
  cases hkind : p.kind <;>
    simp +decide [sizeCase, hkind, sizeValue, addKeySize, addSize, varintSize, conversion,
      explains_proto h]

omit h in
private theorem switches_explained {case : FieldPlan → Case}
    (plan : MessagePlan) (unknown : UnionPlan → Stmt) (rest : List Stmt)
    (hcase : ∀ p, ∀ u ∈ Stmt.usesCase scope ["x"] (case p), b.Explains u)
    (hunknown : ∀ union, ∀ u ∈ (unknown union).uses ("x" :: scope), b.Explains u)
    (hrest : ∀ u ∈ Stmt.usesAll scope rest, b.Explains u) :
    ∀ u ∈ Stmt.usesAll scope (((numberedUnions plan.unions).flatMap fun (union, i) =>
      unionSwitch union ((membersOf plan.fields i).map case) (unknown union)) ++ rest),
      b.Explains u := by
  intro u hu
  have hsilent : ∀ s ∈ (numberedUnions plan.unions).flatMap fun (union, i) =>
      unionSwitch union ((membersOf plan.fields i).map case) (unknown union), s.declares = [] := by
    intro s hs
    obtain ⟨⟨union, i⟩, -, hs⟩ := mem_flatMap.mp hs
    simp only [unionSwitch, mem_cons, not_mem_nil, or_false] at hs
    rcases hs with rfl | rfl <;> simp
  rcases (Stmt.mem_usesAll_append hsilent).mp hu with ⟨s, hs, hu⟩ | hu
  · obtain ⟨⟨union, i⟩, -, hs⟩ := mem_flatMap.mp hs
    rcases mem_cons.mp hs with rfl | hs
    · simp at hu
    obtain rfl := mem_singleton.mp hs
    simp only [Stmt.uses, Expr.packages, usesIn, map_nil, nil_append, Stmt.mem_usesCases,
      mem_append, mem_map, mem_cons, not_mem_nil, or_false] at hu
    obtain ⟨c, ⟨p, -, rfl⟩ | rfl | rfl, hu⟩ := hu
    · exact hcase p u hu
    · simp at hu
    · exact hunknown union u (by simpa using hu)
  · exact hrest u hu

theorem writerFunc_explained (plan : MessagePlan) :
    ∀ u ∈ (b.writerFunc type plan).uses, b.Explains u := by
  have hswitches := switches_explained plan
    (fun union => .ret (.call (.qualified b.fmt "Errorf")
      [.literal ("\"" ++ type ++ "." ++ union.name ++ " has unexpected type %T\""), .name "x"]))
    [.ret .nil] (writeCase_explained h) (by simp +decide [explains_fmt h]) (by simp)
  simpa [writerFunc, funcOf, writerType, bindMessage] using hswitches

theorem sizerFunc_explained (plan : MessagePlan) :
    ∀ u ∈ (b.sizerFunc type plan).uses, b.Explains u := by
  have hswitches := switches_explained plan
    (fun _ => .eval (.call (.name "panic") [.call (.qualified b.fmt "Sprintf")
      [.literal "\"proto: unexpected type %T in oneof\"", .name "x"]]))
    [.ret (.name "n")] (sizeCase_explained h) (by simp +decide [explains_fmt h]) (by simp)
  simpa [sizerFunc, funcOf, sizerType, bindMessage] using hswitches

theorem readCase_explained {cases : List Case} (htype : ∀ q ∈ p.type.packages, b.IsForeign q)
    (hcases : b.readCase unions p = .ok cases) :
    ∀ c ∈ cases, ∀ u ∈ Stmt.usesCase ["m", "msg", "tag", "wire", "b"] [] c, b.Explains u := by
  have hforeign {scope : List String} (hscope : scope ⊆ capturingNames) :
      ∀ q ∈ p.type.packages, b.Explains ⟨q, scope⟩ := fun q hq => (htype q hq).explains hscope
  unfold readCase at hcases
  cases honeof : p.oneof with
  | none =>
    simp only [honeof] at hcases
    cases hcases
    simp
  | some i =>
    simp only [honeof, steps_eq_ok] at hcases
    obtain ⟨union, -, rfl⟩ := hcases
    cases hkind : p.kind <;>
      simp +decide [readMember, hkind, readValue, onBuffer, conversion, setUnion,
        TypeExpr.packages_unstarred, explains_proto h, explains_math h]
    all_goals exact hforeign (by decide)

theorem unionPart_explained (htypes : ∀ p ∈ plan.fields, ∀ q ∈ p.type.packages, b.IsForeign q)
    (hpart : b.unionPart type plan = .ok part) : b.PartExplained part := by
  simp only [unionPart, steps_eq_ok] at hpart
  obtain ⟨reader, hreader, rfl⟩ := hpart
  simp only [readerFunc, steps_eq_ok] at hreader
  obtain ⟨cases, hcases, rfl⟩ := hreader
  have hread : ∀ u ∈ Stmt.usesCases ["m", "msg", "tag", "wire", "b"] [] cases.flatten,
      b.Explains u := by
    intro u hu
    obtain ⟨c, hc, hu⟩ := Stmt.mem_usesCases.mp hu
    obtain ⟨cs, hcs, hc⟩ := mem_flatten.mp hc
    obtain ⟨p, hp, heq⟩ := exists_of_mem_mapM hcases hcs
    exact readCase_explained h (htypes p hp) heq c hc u hu
  refine ⟨?_, by simp⟩
  simp only [ExplainsAll, forall_mem_cons]
  refine ⟨by simp, ?_, by simp, writerFunc_explained h plan, by simp, ?_, by simp,
    sizerFunc_explained h plan, by simp, by simp⟩
  · simp [unionFuncs]
  · simpa [funcOf, readerType, bindMessage] using hread

end Templates

section Forwards

variable {package : String} (hforeign : b.IsForeign package) {name : String}

include hforeign

private theorem explains_remote {scope : List String} (hscope : scope ⊆ capturingNames) :
    b.Explains ⟨package, scope⟩ := hforeign.explains hscope

theorem enumForward_explained (proto3 : Bool) :
    b.ExplainsAll (enumForward name proto3 package) := by
  simp only [ExplainsAll, enumForward, forall_mem_append, forall_mem_ite,
    forall_mem_cons]
  simp +decide [returning, toRemote, explains_remote hforeign]

theorem extensionForwards_explained (isMessageSet : Bool) :
    b.ExplainsAll (b.extensionForwards name isMessageSet (.qualified package name)) := by
  simp only [ExplainsAll, extensionForwards, forall_mem_append, forall_mem_ite,
    forall_mem_cons]
  simp +decide [returning, pointerToRemote, toRemote, explains_remote hforeign]

theorem unionForwards_explained :
    b.ExplainsAll (b.unionForwards name (.qualified package name)) := by
  simp only [ExplainsAll, unionForwards, forall_mem_cons]
  simp +decide [unionForward, funcOf, writerType, readerType, sizerType, bindMessage,
    pointerToRemote, toRemote, explains_remote hforeign]

omit hforeign in
private theorem localName_foreign {target : Object} {type : TypeExpr}
    (h : b.localName target = .ok (type, part)) :
    part.decls = [] ∧ part.inits = [] ∧ ∀ q ∈ type.packages, b.IsForeign q := by
  rcases localName_eq_ok h with ⟨own, -, hname, rfl⟩ | ⟨object, indirect, hname, rfl, -⟩ <;>
    exact ⟨rfl, rfl, fun q hq => ⟨_, goName_packages hname q hq⟩⟩

omit hforeign in
private theorem copyingGetter_explained {getter index elem : String} {t : TypeExpr} {value : Expr}
    {convert : Expr → Expr} (hvalue : ∀ q ∈ value.packages, b.IsForeign q)
    (ht : ∀ q ∈ t.packages, b.IsForeign q)
    (hconvert : ∀ q ∈ (convert (.name elem)).packages, b.IsForeign q)
    (hscope : [index, elem] ⊆ capturingNames) :
    ∀ u ∈ (copyingGetter ⟨some "m", true, name⟩ getter t value index elem convert).uses,
      b.Explains u := by
  have hinner : index :: elem :: ["s", "o", "m"] ⊆ capturingNames :=
    append_subset.mpr ⟨hscope, by decide⟩
  simp +decide [copyingGetter]
  rintro u (⟨q, hq, rfl⟩ | ⟨q, hq, rfl⟩ | ⟨q, hq, rfl⟩)
  · exact (hvalue q hq).explains (by decide)
  · exact (ht q hq).explains (by decide)
  · exact (hconvert q hq).explains hinner

theorem getterForward_explained {g : GetterSymbol}
    (hkeys : ∀ q ∈ g.shape.keyPackages, b.IsForeign q)
    (h : b.getterForward name (.qualified package name) g = .ok part) : b.PartExplained part := by
  have hvalue : ∀ q ∈ (Expr.method (pointerToRemote (.qualified package name)) g.name []).packages,
      b.IsForeign q := by
    simpa [pointerToRemote, toRemote] using hforeign
  have hconvert (pointer : Bool) (type : TypeExpr) (x : Expr) : (if pointer then
      Expr.convert (.pointer type) x else .call (.type type) [x]).packages =
        type.packages ++ x.packages := by
    cases pointer <;> simp
  have helem (pointer : Bool) (type : TypeExpr) :
      (if pointer then TypeExpr.pointer type else type).packages = type.packages := by
    cases pointer <;> simp
  unfold getterForward at h
  split at h
  · cases h
    refine ⟨?_, by simp⟩
    simp only [ExplainsAll, returning]
    simp +decide [pointerToRemote, toRemote, explains_remote hforeign]
  · simp only [steps_eq_ok] at h
    obtain ⟨⟨type, part'⟩, hlocal, rfl⟩ := h
    obtain ⟨hnone, hinits, htype⟩ := localName_foreign hlocal
    refine ⟨?_, by simp [hinits]⟩
    simp only [ExplainsAll, Part.decls_append, hnone, nil_append, forall_mem_singleton]
    split
    · refine copyingGetter_explained hvalue ?_ ?_ (by decide)
      · rw [TypeExpr.packages, helem]
        exact htype
      · rw [hconvert]
        simpa using htype
    · simp only [returning, Decl.uses, Func.uses, Simple.packages, Expr.packagesAll, hconvert,
        append_nil, usesIn, forall_mem_map, forall_mem_append]
      exact ⟨fun q hq => (htype q hq).explains (by simp +decide),
        fun q hq => (hvalue q hq).explains (by simp +decide)⟩
  · rename_i key target pointer hshape
    simp only [steps_eq_ok] at h
    obtain ⟨⟨type, part'⟩, hlocal, rfl⟩ := h
    obtain ⟨hnone, hinits, htype⟩ := localName_foreign hlocal
    rw [hshape] at hkeys
    refine ⟨?_, by simp [hinits]⟩
    simp only [ExplainsAll, Part.decls_append, hnone, nil_append, forall_mem_singleton]
    refine copyingGetter_explained hvalue ?_ ?_ (by decide)
    · rw [TypeExpr.packages, helem, forall_mem_append]
      exact ⟨hkeys, htype⟩
    · rw [hconvert]
      simpa using htype

theorem messageForward_explained {m : MessageSymbol}
    (hkeys : ∀ g ∈ m.getters, ∀ q ∈ g.shape.keyPackages, b.IsForeign q)
    (h : b.messageForward m package = .ok part) : b.PartExplained part := by
  simp only [messageForward, steps_eq_ok] at h
  obtain ⟨getters, hgetters, rfl⟩ := h
  refine PartExplained.append ⟨?_, by simp⟩ (PartExplained.additive.concat_mapM hgetters
    fun g hg part hpart => getterForward_explained hforeign (hkeys g hg) hpart)
  simp only [ExplainsAll, forall_mem_append, forall_mem_ite]
  refine ⟨⟨?_, fun _ => extensionForwards_explained hforeign _, by simp⟩,
    fun _ => unionForwards_explained hforeign, by simp⟩
  simp only [forall_mem_cons]
  simp +decide [returning, pointerToRemote, toRemote, explains_remote hforeign]

theorem symbolForward_explained {x : Symbol} (hkeys : ∀ q ∈ x.keyPackages, b.IsForeign q)
    (h : b.symbolForward package x = .ok part) : b.PartExplained part := by
  cases x with
  | message m =>
    refine messageForward_explained hforeign (fun g hg q hq => hkeys q ?_) h
    exact mem_flatMap.mpr ⟨g, hg, hq⟩
  | enum name proto3 =>
    cases h
    exact ⟨enumForward_explained hforeign proto3, by simp⟩
  | value sort name cast =>
    cases h
    exact ⟨by simp [ExplainsAll, valueForward], by simp⟩

end Forwards

section Getters

variable {id : MessageId} {p : FieldPlan}
variable {uses : List String} {d : Option DefaultPlan}

variable {stmt : Stmt} {m : MessageNode}

theorem isForeign_of_made (hs : b.setup.SoundWith P files) (h : p.Made b id) :
    ∀ q ∈ p.type.packages, b.IsForeign q := by
  intro q hq
  have hrefers : b.RefersAll (fun _ => True) p.field := by simp [RefersAll, Refers]
  obtain ⟨file, hfile, -⟩ := h.known hs hrefers q ((h.named hs).2.2.1 q hq)
  exact ⟨file, hfile⟩

private theorem enumZero_explained {field : Field}
    (h : b.enumZero field = .ok (stmt, uses)) : ∀ u ∈ stmt.uses ["m"], b.Explains u := by
  simp only [enumZero, bind_eq_ok] at h
  obtain ⟨object, -, node, -, h⟩ := h
  split at h
  · rw [bind_eq_ok] at h
    obtain ⟨⟨constant, uses'⟩, hconstant, h⟩ := h
    cases h
    simp only [enumConstant, steps_eq_ok] at hconstant
    obtain ⟨package, hpackage, hconstant⟩ := hconstant
    split at hconstant
    · cases hconstant
      simp
    · rename_i hne
      cases hconstant
      have hforeign : b.IsForeign package := ⟨_, hpackage, hne⟩
      simp +decide [hforeign.explains]
  · cases h
    simp

private theorem getterFallback_explained (h : b.getterFallback p d = .ok (stmt, uses)) :
    ∀ u ∈ stmt.uses ["m"], b.Explains u := by
  unfold getterFallback at h
  split at h
  all_goals first
    | exact enumZero_explained h
    | obtain ⟨rfl, -⟩ := Prod.mk.inj (Except.ok.inj h)
      simp

private theorem getterBody_explained {body : List Stmt}
    (h : b.getterBody m unions p d = .ok (body, uses)) :
    ∀ u ∈ Stmt.usesAll ["m"] body, b.Explains u := by
  unfold getterBody at h
  cases honeof : p.oneof with
  | none =>
    simp only [honeof] at h
    split at h
    · cases h
      simp
    · rw [bind_eq_ok] at h
      obtain ⟨⟨stmt, uses'⟩, hfallback, h⟩ := h
      cases h
      have hstmt := getterFallback_explained hfallback
      split <;> split <;> simpa using hstmt
  | some i =>
    simp only [honeof, bind_eq_ok] at h
    obtain ⟨union, -, ⟨stmt, uses'⟩, hfallback, h⟩ := h
    cases h
    simpa using getterFallback_explained hfallback

theorem getterPart_explained {type : String} {symbol : Option GetterSymbol}
    (h : b.getterPart m type unions p d = .ok (part, symbol)) : b.PartExplained part := by
  simp only [getterPart, steps_eq_ok] at h
  obtain ⟨shape, -, ⟨body, uses⟩, hbody, h⟩ := h
  cases h
  exact ⟨by simpa [ExplainsAll] using getterBody_explained hbody, by simp⟩

end Getters

theorem extensionPart_explained {id : ExtensionId} (h : b.extensionPart id = .ok part) :
    b.PartExplained part := by
  simp only [extensionPart, steps_eq_ok] at h
  obtain ⟨-, -, -, -, -, -, -, -, -, -, rfl⟩ := h
  refine ⟨by simp [ExplainsAll, extensionDecl], ?_⟩
  simp [registerMessageSet]

theorem messagePart_explained (hs : b.setup.SoundWith P files) (hvisible : b.SupportVisible)
    (hid : id.index < b.schema.messages.length) (h : b.messagePart id = .ok part) :
    b.PartExplained part := by
  obtain ⟨e⟩ := messagePart_eq_ok h
  have hplan := planMessage_sound (hs.schema.message_sound hid) e.hplan
  have htypes : ∀ p ∈ e.plan.fields, ∀ q ∈ p.type.packages, b.IsForeign q :=
    fun p hp => isForeign_of_made hs (hplan.fields p hp)
  have hP : Part.Additive b.PartExplained := PartExplained.additive
  rw [e.hpart]
  refine (((((((PartExplained.mk ?_ (by simp)).append (hP.concat fun part hpart => ?_)).append
    ⟨?_, by simp⟩).append (hP.concat fun part hpart => ?_)).append
    ⟨by simp [ExplainsAll], by simp⟩).append ?_).append (hP.concat_mapM e.hextensions
    fun x _ part hpart => extensionPart_explained hpart)).append
    ⟨by simp [ExplainsAll], by simp [registerMessage]⟩
  · have hstruct := e.hstruct
    simp only [structDecl, steps_eq_ok] at hstruct
    obtain ⟨members, -, hstruct⟩ := hstruct
    have hdecls := messageDecls_explained hvisible (b.messageType id) (b.schema.message id)
    simp only [ExplainsAll, forall_mem_append] at hdecls ⊢
    refine ⟨⟨⟨by simp, ?_⟩, hdecls.1⟩, hdecls.2⟩
    simp [← hstruct]
  · obtain ⟨d, -, hpart⟩ := mem_flatMap.mp hpart
    obtain ⟨d, -, rfl⟩ := mem_map.mp hpart
    exact ⟨by simp [ExplainsAll, defaultPart, DefaultPlan.decl], by simp [defaultPart]⟩
  · rcases e.htypes with ⟨-, hnone⟩ | htypes
    · simp [ExplainsAll, hnone]
    · simpa [ExplainsAll] using unionTypes_explained htypes
  · obtain ⟨⟨part, symbol⟩, hgetter, rfl⟩ := mem_map.mp hpart
    obtain ⟨⟨p, d⟩, -, hgetter⟩ := exists_of_mem_mapM e.hgetters hgetter
    exact getterPart_explained hgetter
  · rcases e.hfuncs with ⟨-, hnone⟩ | ⟨-, hfuncs⟩
    · rw [hnone]
      exact ⟨by simp [ExplainsAll], by simp⟩
    · exact unionPart_explained hvisible htypes hfuncs

theorem forwardPart_explained (hs : b.setup.SoundWith P files)
    (hexports : b.exports.KeysForeign b.setup) {id : ReexportId} (h : b.forwardPart id = .ok part) :
    b.PartExplained part := by
  simp only [forwardPart] at h
  split at h
  · cases h
    exact ⟨by simp [ExplainsAll], by simp⟩
  · rename_i hgenerated
    simp only [steps_eq_ok] at h
    obtain ⟨package, hpackage, symbols, hsymbols, rfl⟩ := h
    have hforeign : b.IsForeign package :=
      ⟨_, hpackage, hs.of_foreign (Bool.eq_false_iff.mpr hgenerated) hpackage⟩
    refine (PartExplained.append ⟨by simp [ExplainsAll], by simp⟩
      (PartExplained.additive.concat_mapM hsymbols fun x hx part hpart => ?_)).append
      ⟨by simp [ExplainsAll], by simp⟩
    obtain ⟨e, he, rfl⟩ := mem_map.mp hx
    exact symbolForward_explained hforeign (hexports e (mem_filter.mp he).1) hpart

theorem declarations_explained (hs : b.setup.SoundWith P files) (hvisible : b.SupportVisible)
    (hexports : b.exports.KeysForeign b.setup) (h : b.declarations = .ok part) :
    b.PartExplained part := by
  have howns := hs.schema.owns_file b.file
  refine declarations_induct PartExplained.additive ?_ (fun id _ part hpart => ?_) (fun id _ => ?_)
    (fun id hid part hpart => ?_) (fun id _ part hpart => extensionPart_explained hpart) h
  · rw [versionPart]
    split <;> exact ⟨by simp [ExplainsAll], by simp⟩
  · exact forwardPart_explained hs hexports hpart
  · exact ⟨enumDecls_explained hvisible _, by simp [enumPart]⟩
  · exact messagePart_explained hs hvisible (howns.messages id (mem_filter.mp hid).1).1 hpart

private theorem explains_nothing (q : String) : b.Explains ⟨q, []⟩ := by
  simp [Explains, Use.isCaptured]

private theorem initBody_explained {inits : List Simple} (h : ∀ s ∈ inits, s.declares = []) :
    ∀ u ∈ Stmt.usesAll [] (inits.map Stmt.simple), b.Explains u := by
  induction inits with
  | nil => simp
  | cons s inits ih =>
    rw [forall_mem_cons] at h
    rw [map_cons, Stmt.usesAll, Stmt.declares, h.1]
    exact forall_mem_append.mpr
      ⟨forall_mem_map.mpr fun q _ => explains_nothing q, ih h.2⟩

theorem bodyDecls_explained (h : b.PartExplained part) : b.ExplainsAll (b.bodyDecls part) := by
  refine forall_mem_append.mpr ⟨forall_mem_append.mpr ⟨h.decls, ?_⟩, ?_⟩
  · simp only [initPart, forall_mem_ite, forall_mem_singleton]
    refine ⟨by simp, fun _ => initBody_explained ?_⟩
    simp only [forall_mem_append, forall_mem_map]
    exact ⟨h.inits, by simp [registerEnum], by simp [registerExtension]⟩
  · simp [embeddedDecls, explains_nothing]

private theorem getterShape?_keys (hs : b.setup.SoundWith P files) (h : p.Made b id)
    {shape : GetterShape} (hshape : b.getterShape? p = .ok (some shape)) :
    ∀ q ∈ shape.keyPackages, b.IsForeign q := by
  unfold getterShape? at hshape
  split at hshape
  · simp at hshape
  · rename_i map hmap hgroup
    rcases h.map with ⟨hnone, -⟩ | ⟨map', e, -, hmap', -⟩
    · simp [hmap] at hnone
    cases hmap.symm.trans hmap'
    split at hshape
    · cases hshape
      intro q hq
      rw [GetterShape.keyPackages, (e.sound hs).1.2] at hq
      obtain ⟨-, object, -, -, -, hpackage⟩ :=
        (fieldType_sound hs e.hkeyType).origin q (by simpa using hq)
      exact ⟨_, hpackage⟩
    · cases hshape
      simp [GetterShape.keyPackages]
  · simp only [steps_eq_ok] at hshape
    obtain ⟨object, -, hshape⟩ := hshape
    cases hshape
    simp [GetterShape.keyPackages]
  · simp only [steps_eq_ok] at hshape
    obtain ⟨object, -, hshape⟩ := hshape
    cases hshape
    simp [GetterShape.keyPackages]
  · cases hshape
    simp [GetterShape.keyPackages]

private theorem extensionPart_keysForeign {id : ExtensionId} (h : b.extensionPart id = .ok part) :
    part.exports.KeysForeign b.setup := by
  simp only [extensionPart, steps_eq_ok] at h
  obtain ⟨-, -, -, -, -, -, -, -, -, -, rfl⟩ := h
  simp [Exports.KeysForeign, Symbol.keyPackages]

private theorem messagePart_keysForeign (hs : b.setup.SoundWith P files)
    (hid : id.index < b.schema.messages.length) (h : b.messagePart id = .ok part) :
    part.exports.KeysForeign b.setup := by
  obtain ⟨e⟩ := messagePart_eq_ok h
  have hplan := planMessage_sound (hs.schema.message_sound hid) e.hplan
  rw [e.exports_eq]
  refine forall_mem_append.mpr ⟨forall_mem_append.mpr ⟨?_, ?_⟩, ?_⟩
  · simp [Symbol.keyPackages]
  · simp only [messageExports, forall_mem_ite, forall_mem_singleton]
    refine ⟨by simp, fun _ q hq => ?_⟩
    obtain ⟨g, hg, hq⟩ := mem_flatMap.mp hq
    obtain ⟨⟨part, symbol⟩, hgetter, hg⟩ := mem_filterMap.mp hg
    obtain ⟨⟨p, d⟩, hpd, hgetter⟩ := exists_of_mem_mapM e.hgetters hgetter
    have hmade := hplan.fields p (of_mem_zip hpd).1
    exact getterShape?_keys hs hmade ((getterPart_eq_ok hgetter).2 g hg).2 q hq
  · intro x hx
    obtain ⟨part, hpart, hx⟩ := mem_flatMap.mp hx
    obtain ⟨id, -, hpart⟩ := exists_of_mem_mapM e.hextensions hpart
    exact extensionPart_keysForeign hpart x hx

theorem declarations_keysForeign (hs : b.setup.SoundWith P files) (h : b.declarations = .ok part) :
    part.exports.KeysForeign b.setup := by
  have howns := hs.schema.owns_file b.file
  refine forall_exports (fun id _ x hx => ?_) (fun id hid part hpart => ?_)
    (fun id _ part hpart => extensionPart_keysForeign hpart) h
  · obtain ⟨symbol, hsymbol, rfl⟩ := mem_map.mp hx
    rcases mem_cons.mp hsymbol with rfl | hsymbol
    · simp [Symbol.keyPackages]
    · obtain ⟨v, -, rfl⟩ := mem_map.mp hsymbol
      simp [Symbol.keyPackages]
  · exact messagePart_keysForeign hs (howns.messages id (mem_filter.mp hid).1).1 hpart

end Binder

/-- The support packages have names of their own. -/
theorem Setup.supportVisible {r : Request} {s : Setup} (hs : ofRequest r = .ok s)
    (file : FileId) (exports : Exports) : (Binder.mk s file exports).SupportVisible := by
  obtain ⟨schema, -, -, -, hassign, -⟩ := ofRequest_eq_ok hs
  have hapart : ∀ key ∈ supportPackages, ∀ n ∈ localNames, ¬ key.toList <+: n.toList := by decide
  have hlocal {key : String} (hkey : key ∈ supportPackages) :
      s.packages.supportName key ∉ localNames := supportName_notMem hassign hkey (hapart key hkey)
  simp only [SupportVisible, forall_mem_cons]
  exact ⟨hlocal (by decide), hlocal (by decide), hlocal (by decide), by simp⟩

/-- A package that is hidden in a generated file belongs to a file that is not generated, and it has
one of fourteen names. -/
theorem generate_captured {σ : Type} {r : Request} {s : Setup} {state : σ}
    {out : List GeneratedFile}
    (hplain : ∀ f ∈ r.files, f.PlainWith fun field => isIdentifier field.nameText = true)
    (h : (generateWith [] r state).1 = .ok out) (hs : ofRequest r = .ok s) :
    ∀ b ∈ s.binders [] s.schema.fileIds, s.isGenerated b.file = true →
      ∃ part imports text, b.declarations = .ok part ∧
        format (Printer.linesText (b.sourceLines part imports)) = .ok text ∧
        ⟨b.node.goFileName, text⟩ ∈ out ∧ ∀ d ∈ b.bodyDecls part, ∀ q ∈ d.captured,
          q ∈ capturingNames ∧
            ∃ file, s.isGenerated file = false ∧ s.packages.of file = .ok q := by
  intro b hb hgenerated
  have hsound := ofRequest_sound hs hplain
  obtain ⟨rfl, -, hexports⟩ := binders_invariant (P := Exports.KeysForeign s) hb
    (forall_mem_nil _) fun file exports part hexports hpart =>
      forall_mem_append.mpr ⟨hexports,
        declarations_keysForeign (b := ⟨s, file, exports⟩) hsound hpart⟩
  obtain ⟨source, text, hsource, hformat, hout⟩ := exists_of_generateWith h hs hb hgenerated
  obtain ⟨part, imports, hpart, -, rfl⟩ := (assembled_eq_ok hgenerated).mp hsource
  have hexplained := bodyDecls_explained (declarations_explained hsound
    (supportVisible hs b.file b.exports) hexports hpart)
  refine ⟨part, imports, text, hpart, hformat, hout, fun d hd q hq => ?_⟩
  obtain ⟨u, hu, rfl⟩ := mem_map.mp hq
  obtain ⟨hu, hcaptured⟩ := mem_filter.mp hu
  obtain ⟨hname, file, hof, hne⟩ := hexplained d hd u hu hcaptured
  refine ⟨hname, file, Bool.eq_false_iff.mpr fun hfile => hne ?_, hof⟩
  exact hsound.of_generated hfile hof

section Hiding

/-- A file `c.proto` that names types of `a.proto` and passes on what `d.proto` declares. -/
def hidingRequest (a d : String) : Request where
  filesToGenerate := ["c.proto"]
  files :=
    [{ name := some "a.proto", package := some a, messages := [{ name := some "T" }]
       enums := [{ name := some "E", values := [{ name := some "E_ZERO", number := some 0 }] }] },
     { name := some "d.proto", package := some d, dependencies := ["a.proto"]
       messages :=
        [{ name := some "M"
           fields :=
             [{ name := some "list", number := some 1, label := some 3, kind := some 11,
                typeName := some ("." ++ a ++ ".T") },
              { name := some "table", number := some 2, label := some 3, kind := some 11,
                typeName := some ("." ++ d ++ ".M.TableEntry") }]
           nested :=
             [{ name := some "TableEntry"
                fields :=
                  [{ name := some "key", number := some 1, label := some 1, kind := some 9 },
                   { name := some "value", number := some 2, label := some 1, kind := some 11,
                     typeName := some ("." ++ a ++ ".T") }]
                options := some { mapEntry := some true } }] },
         { name := some "S", extensionRanges := [{ start := some 100, stop := some 200 }]
           options := some { messageSetWireFormat := some true } }]
       enums := [{ name := some "G", values := [{ name := some "G_ZERO", number := some 0 }] }] },
     { name := some "c.proto", package := some "c", dependencies := ["a.proto", "d.proto"]
       publicDependencies := [1]
       messages :=
         [{ name := some "N"
            fields :=
              [{ name := some "e", number := some 1, label := some 1, kind := some 14,
                 typeName := some ("." ++ a ++ ".E") },
               { name := some "t", number := some 2, label := some 1, kind := some 11,
                 typeName := some ("." ++ a ++ ".T"), oneofIndex := some 0 },
               { name := some "f", number := some 3, label := some 1, kind := some 14,
                 typeName := some ("." ++ a ++ ".E"), oneofIndex := some 0 }]
            oneofs := [{ name := some "u" }] }] }]

/-- A request in which a name hides a package. -/
def hidingBy (q : String) : Request :=
  if q ∈ ["data", "buf"] then hidingRequest "a" q else hidingRequest q "d"

/-- Each of the fourteen names does hide a package in some run. -/
theorem captured_in_run : capturingNames.length = 14 ∧ ∀ q ∈ capturingNames, ∃ r s out,
    (∀ f ∈ r.files, f.PlainWith fun field => isIdentifier field.nameText = true) ∧
    (generateWith [] r ()).1 = .ok out ∧ ofRequest r = .ok s ∧
    ∃ b ∈ s.binders [] s.schema.fileIds, s.isGenerated b.file = true ∧
      ∃ part, b.declarations = .ok part ∧ ∃ d ∈ b.bodyDecls part, q ∈ d.captured := by
  have hall : ∀ q ∈ capturingNames, (hidingBy q).Checked ∧
      (∀ f ∈ (hidingBy q).files, f.PlainWith fun field => isIdentifier field.nameText = true) ∧
      ∃ b ∈ (setupOf (hidingBy q)).binders [] (setupOf (hidingBy q)).schema.fileIds,
        (setupOf (hidingBy q)).isGenerated b.file = true ∧
        ∃ part ∈ b.declarations.toOption, ∃ d ∈ b.bodyDecls part, q ∈ d.captured := by
    decide +kernel
  refine ⟨rfl, fun q hq => ?_⟩
  obtain ⟨hchecked, hplain, b, hb, hgenerated, part, hpart, hcaptured⟩ := hall q hq
  obtain ⟨out, hout⟩ := generate_of_checked hchecked
  exact ⟨hidingBy q, setupOf (hidingBy q), out, hplain, hout, hchecked.setup, b, hb, hgenerated,
    part, eq_ok_of_toOption hpart, hcaptured⟩

private theorem mem_byFile {names : PackageNames} {file : FileId} (h : names.of file = .ok q) :
    (file, q) ∈ names.byFile := by
  rw [PackageNames.of] at h
  split at h
  · rename_i name hlookup
    obtain ⟨before, after, heq, -⟩ := lookup_eq_some_iff.mp hlookup
    simp [heq, ← Except.ok.inj h]
  · cases h

/-- Nothing is hidden where the packages are called otherwise. -/
theorem generate_captured_apart :
    (∃ out, (generateWith [] (hidingRequest "a" "d") ()).1 = .ok out) ∧
    ∃ b ∈ (setupOf (hidingRequest "a" "d")).binders []
        (setupOf (hidingRequest "a" "d")).schema.fileIds,
      (setupOf (hidingRequest "a" "d")).isGenerated b.file = true ∧
      ∃ part, b.declarations = .ok part ∧ ∀ d ∈ b.bodyDecls part, d.captured = [] := by
  have hchecked : (hidingRequest "a" "d").Checked := by decide +kernel
  have hplain : ∀ f ∈ (hidingRequest "a" "d").files,
      f.PlainWith fun field => isIdentifier field.nameText = true := by
    decide +kernel
  have hnames : ∀ e ∈ (setupOf (hidingRequest "a" "d")).packages.byFile, e.2 ∉ capturingNames := by
    decide +kernel
  have hsome : ∃ b ∈ (setupOf (hidingRequest "a" "d")).binders []
      (setupOf (hidingRequest "a" "d")).schema.fileIds,
      (setupOf (hidingRequest "a" "d")).isGenerated b.file = true := by
    decide +kernel
  obtain ⟨out, hout⟩ := generate_of_checked hchecked
  obtain ⟨b, hb, hgenerated⟩ := hsome
  obtain ⟨part, -, -, hpart, -, -, hcaptured⟩ :=
    generate_captured hplain hout hchecked.setup b hb hgenerated
  refine ⟨⟨out, hout⟩, b, hb, hgenerated, part, hpart, fun d hd => ?_⟩
  refine eq_nil_iff_forall_not_mem.mpr fun q hq => ?_
  obtain ⟨hname, file, -, hof⟩ := hcaptured d hd q hq
  exact hnames _ (mem_byFile hof) hname

end Hiding

end GoBindings
