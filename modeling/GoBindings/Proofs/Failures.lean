import GoBindings.Bind.File
import GoBindings.Proofs.Outcomes

/-!
# Failures

Nothing but laying a file out fails for bad source, and nothing but the look-up of a union fails for
a oneof without members.
-/

namespace GoBindings

open Schema Go Descriptor Setup

/-- The errors that come up in one place only. -/
inductive Rare where
  | source
  | union
  deriving DecidableEq, Repr

@[simp] def Error.isRare (rare : Rare) : Error → Bool
  | .badSource _ => rare = .source
  | .oneofWithoutMembers _ => rare = .union
  | _ => false

/-- Whatever the computation fails for, it is not a certain rare error. -/
def NotFor {α : Type} (rare : Rare) (x : Except Error α) : Prop :=
  ∀ e, e.isRare rare = true → x ≠ .error e

def NotForSource {α : Type} (x : Except Error α) : Prop := ∀ bad, x ≠ .error (.badSource bad)

theorem notForSource_iff {α : Type} {x : Except Error α} : NotForSource x ↔ NotFor .source x := by
  refine ⟨fun h e he => ?_, fun h bad => h (.badSource bad) rfl⟩
  cases e with
  | badSource bad => exact h bad
  | _ => simp at he

variable {rare : Rare}

section Monad

variable {α β : Type} {x y : Except Error α} {f : α → Except Error β}
variable {e : Error}

@[simp] theorem notFor_ok (a : α) : NotFor rare (.ok a : Except Error α) := nofun

@[simp] theorem notFor_pure (a : α) : NotFor rare (pure a : Except Error α) := nofun

@[simp] theorem notFor_error : NotFor rare (.error e : Except Error α) ↔ e.isRare rare = false := by
  simp [NotFor, imp_not_comm]

@[simp] theorem notFor_throw :
    NotFor rare (throw e : Except Error α) ↔ e.isRare rare = false := notFor_error

@[simp] theorem notFor_bind :
    NotFor rare (x >>= f) ↔ NotFor rare x ∧ ∀ a, x = .ok a → NotFor rare (f a) := by
  cases x <;> simp

@[simp] theorem notFor_map {g : α → β} : NotFor rare (g <$> x) ↔ NotFor rare x := by
  cases x <;> simp

@[simp] theorem notFor_ite {c : Prop} [Decidable c] :
    NotFor rare (if c then x else y) ↔ (c → NotFor rare x) ∧ (¬ c → NotFor rare y) := by
  split <;> simp_all

theorem NotFor.mapM_of_mem {xs : List α} (h : ∀ a ∈ xs, NotFor rare (f a)) :
    NotFor rare (xs.mapM f) := by
  induction xs with
  | nil => simp
  | cons a xs ih =>
    rw [List.forall_mem_cons] at h
    simp [h.1, ih h.2]

@[simp] theorem NotFor.mapM (h : ∀ a, NotFor rare (f a)) (xs : List α) :
    NotFor rare (xs.mapM f) := .mapM_of_mem fun a _ => h a

@[simp] theorem NotFor.foldlM {g : β → α → Except Error β} (h : ∀ b a, NotFor rare (g b a))
    (xs : List α) (b : β) : NotFor rare (xs.foldlM g b) := by
  induction xs generalizing b with
  | nil => simp
  | cons a xs ih => simp [h, ih]

end Monad

section Setups

variable {s : Schema} {setup : Setup}

private theorem withNested_notFor (messages : List MessageEntry)
    (enums : List (EnumId × EnumNode)) (entry : MessageEntry) :
    NotFor rare (withNested messages enums entry) := by
  simp [withNested]

private theorem addFile_notFor (s : Schema) (f : File) : NotFor rare (s.addFile f) := by
  simp [addFile, withNested_notFor]

private theorem fileNamed_notFor (s : Schema) (name : String) : NotFor rare (s.fileNamed name) := by
  unfold fileNamed
  split <;> simp

private theorem linkFile_notFor (s : Schema) (id : FileId) : NotFor rare (s.linkFile id) := by
  have hpublic (f : FileNode) (dependencies : List FileId) (i : Int32) :
      NotFor rare (publicDependency f dependencies i) := by
    unfold publicDependency
    split <;> simp
  simp [linkFile, fileNamed_notFor, hpublic]

private theorem choosePackage_notFor (p : Parameters) (first : String × Bool)
    (rest : List (String × Bool)) : NotFor rare (choosePackage p first rest) := by
  have hexplicit (found : Option String) (x : String × Bool) :
      NotFor rare (explicitPackage found x) := by
    unfold explicitPackage
    split
    · simp
    · split
      · simp
      · split <;> simp
  have hagree (expected : String) (names : List String) :
      NotFor rare (checkAgree expected names) := by
    unfold checkAgree
    split <;> simp
  rw [choosePackage, notFor_bind]
  refine ⟨.foldlM hexplicit _ _, fun name _ => ?_⟩
  split
  · simp
  · split <;> simp [hagree]

private theorem assignPackageNames_notFor (s : Schema) (generated : List FileId)
    (p : Parameters) : NotFor rare (assignPackageNames s generated p) := by
  unfold assignPackageNames
  split
  · simp
  · simp [choosePackage_notFor]

theorem Setup.ofRequest_notFor (r : Request) : NotFor rare (ofRequest r) := by
  have hfiles : NotFor rare (Schema.ofFiles r.files) := by
    simp [ofFiles, addFile_notFor, linkFile_notFor]
  unfold ofRequest
  split
  · simp
  · simp [hfiles, fileNamed_notFor, assignPackageNames_notFor]

theorem Setup.ofRequest_notForSource (r : Request) : NotForSource (ofRequest r) :=
  notForSource_iff.mpr (ofRequest_notFor r)

end Setups

section Fields

variable (s : Setup) (file : FileId) (field : Field)

@[simp] private theorem of_notFor (names : PackageNames) : NotFor rare (names.of file) := by
  unfold PackageNames.of
  split <;> simp

@[simp] private theorem fieldKind_notFor : NotFor rare field.fieldKind := by
  unfold Field.fieldKind
  split <;> simp

namespace Setup

@[simp] private theorem resolve_notFor (name : String) : NotFor rare (s.resolve name file) := by
  unfold resolve Schema.resolve
  split <;> simp

@[simp] private theorem goName_notFor (object : Object) : NotFor rare (s.goName object) := by
  simp [goName]

@[simp] private theorem asEnum_notFor (object : Object) : NotFor rare (s.asEnum object) := by
  unfold asEnum
  split <;> simp

@[simp] private theorem underlyingEnum_notFor (name : String) :
    NotFor rare (s.underlyingEnum name file) := by
  simp [underlyingEnum]

@[simp] private theorem fieldTag_notFor (message : MessageId) (wire : WireKind) :
    NotFor rare (s.fieldTag file message field wire) := by
  have hdefault (kind : FieldKind) : NotFor rare (s.tagDefault file field kind) := by
    unfold tagDefault
    split
    · simp
    · split
      · simp
      · rw [notFor_bind]
        refine ⟨by simp, fun e _ => ?_⟩
        split
        split <;> simp
      · simp
  have henum (kind : FieldKind) : NotFor rare (s.tagEnum file field kind) := by
    unfold tagEnum
    split <;> simp
  simp [fieldTag, hdefault, henum]

@[simp] private theorem fieldType_notFor (message : Option MessageId) :
    NotFor rare (s.fieldType file message field) := by
  have helement (kind : FieldKind) : NotFor rare (s.elementType file field kind) := by
    unfold elementType
    split
    · simp
    · split <;> simp
  simp [fieldType, helement]

end Setup

end Fields

namespace Binder

variable {b : Binder}

section Plans

@[simp] private theorem planMap_notFor (field : Field) (kind : FieldKind) :
    NotFor rare (b.planMap field kind) := by
  have hvalue (field : Field) (kind : FieldKind) (type : TypeExpr) :
      NotFor rare (b.mapValue field kind type) := by
    unfold mapValue
    split <;> simp
  unfold planMap
  split
  · rw [notFor_bind]
    refine ⟨by simp, fun object _ => ?_⟩
    split
    · simp only
      split
      · simp [planEntry, hvalue]
      · simp
    · simp
  · simp

@[simp] private theorem planMessage_notFor (id : MessageId) : NotFor rare (b.planMessage id) := by
  have hunion (m : MessageNode) (type : String) (field : Field) (plan : MessagePlan) :
      NotFor rare (planUnion m type field plan) := by
    unfold planUnion
    split
    · simp
    · simp only
      split <;> simp
  refine .foldlM (fun plan field => ?_) _ _
  simp [planField, hunion]

/-- The unions that members name are looked up without a certain error. -/
def FindsUnions (rare : Rare) (plan : MessagePlan) : Prop :=
  ∀ p ∈ plan.fields, ∀ i, p.oneof = some i → NotFor rare (unionAt plan.unions i)

end Plans

section Messages

variable {plan : MessagePlan} {p : FieldPlan}

@[simp] private theorem planDefault_notFor (type : String) (p : FieldPlan) :
    NotFor rare (b.planDefault type p) := by
  simp only [planDefault, notFor_ite, notFor_pure, implies_true, true_and]
  intro _ _ _ _
  split
  · simp
  · simp only [notFor_ite, notFor_bind, resolve_notFor, true_and, notFor_pure, implies_true,
      and_true]
    intro _ object _
    split <;> simp [enumConstant]

private theorem getterPart_notFor (hplan : FindsUnions rare plan) (hp : p ∈ plan.fields)
    (m : MessageNode) (type : String) (d : Option DefaultPlan) :
    NotFor rare (b.getterPart m type plan.unions p d) := by
  have hshape : NotFor rare (b.getterShape? p) := by
    unfold getterShape?
    split
    · simp
    · split <;> simp
    · simp
    · simp
    · simp
  have hzero : NotFor rare (b.enumZero p.field) := by
    simp only [enumZero, notFor_bind, resolve_notFor, asEnum_notFor, true_and]
    intro object _ node _
    split <;> simp [enumConstant]
  have hfallback : NotFor rare (b.getterFallback p d) := by
    unfold getterFallback
    split <;> simp [hzero]
  have hbody : NotFor rare (b.getterBody m plan.unions p d) := by
    simp only [getterBody]
    split
    · simp [hfallback]
    · rename_i i hi
      simp [hfallback, hplan p hp i hi]
  simp [getterPart, hshape, hbody]

private theorem fieldMembers_notFor (hplan : FindsUnions rare plan) (m : MessageNode)
    (seen : List Nat) (i : Nat) {ps : List FieldPlan} (hps : ∀ p ∈ ps, p ∈ plan.fields) :
    NotFor rare (b.fieldMembers m plan seen i ps) := by
  induction ps generalizing seen i with
  | nil => simp [fieldMembers]
  | cons p ps ih =>
    rw [List.forall_mem_cons] at hps
    rw [fieldMembers]
    split
    · simp [ih _ _ hps.2]
    · rename_i oi hoi
      simp [ih _ _ hps.2, hplan p hps.1 oi hoi]

private theorem unionTypes_notFor (hplan : FindsUnions rare plan) (type : String) :
    NotFor rare (unionTypes type plan) := by
  have hmarkers : NotFor rare (plan.fields.mapM (markerDecl plan.unions)) := by
    refine .mapM_of_mem fun p hp => ?_
    unfold markerDecl
    split
    · simp
    · rename_i i hi
      simp [hplan p hp i hi]
  simp [unionTypes, hmarkers]

private theorem unionPart_notFor (hplan : FindsUnions rare plan) (type : String) :
    NotFor rare (b.unionPart type plan) := by
  have hcases : NotFor rare (plan.fields.mapM (b.readCase plan.unions)) := by
    refine .mapM_of_mem fun p hp => ?_
    unfold readCase
    split
    · simp
    · rename_i i hi
      simp [hplan p hp i hi]
  simp [unionPart, readerFunc, hcases]

@[simp] private theorem extensionPart_notFor (id : ExtensionId) :
    NotFor rare (b.extensionPart id) := by
  have hmessage (x : ExtensionNode) (extendee : Object) :
      NotFor rare (b.extendedMessage x extendee) := by
    unfold extendedMessage
    split <;> simp
  simp [extensionPart, hmessage]

theorem messagePart_notFor {id : MessageId}
    (hplan : ∀ plan, b.planMessage id = .ok plan → FindsUnions rare plan) :
    NotFor rare (b.messagePart id) := by
  simp only [messagePart, notFor_bind, planMessage_notFor, true_and]
  intro plan hid
  have hunions := hplan plan hid
  have hstruct : NotFor rare (b.structDecl (b.schema.message id)
      (camelCaseScope (b.schema.message id).typeName) plan) := by
    simp [structDecl, fieldMembers_notFor hunions]
  have hgetters (defaults : List (Option DefaultPlan)) :
      NotFor rare ((plan.fields.zip defaults).mapM fun q => b.getterPart (b.schema.message id)
        (camelCaseScope (b.schema.message id).typeName) plan.unions q.1 q.2) :=
    .mapM_of_mem fun q hq => getterPart_notFor hunions (List.of_mem_zip hq).1 _ _ q.2
  simp [hstruct, hgetters, unionTypes_notFor hunions, unionPart_notFor hunions]

end Messages

section Forwards

@[simp] private theorem localName_notFor (target : Object) : NotFor rare (b.localName target) := by
  unfold localName
  split <;> simp

@[simp] private theorem getterForward_notFor (type : String) (remote : TypeExpr)
    (g : GetterSymbol) : NotFor rare (b.getterForward type remote g) := by
  unfold getterForward
  split <;> simp

@[simp] private theorem forwardPart_notFor (id : ReexportId) : NotFor rare (b.forwardPart id) := by
  have hsymbol (package : String) (x : Symbol) : NotFor rare (b.symbolForward package x) := by
    cases x <;> simp [symbolForward, messageForward]
  simp [forwardPart, hsymbol]

end Forwards

theorem declarations_notFor (hplans : ∀ id plan, b.planMessage id = .ok plan →
    FindsUnions rare plan) : NotFor rare b.declarations := by
  simp [declarations, messagePart_notFor (hplans _)]

theorem declarations_notForSource : NotForSource b.declarations := by
  refine notForSource_iff.mpr (declarations_notFor fun _ plan _ _ _ i _ => ?_)
  unfold unionAt
  split <;> simp

theorem source_notFor (body extra : Printer) (indirect : List FileId) :
    NotFor rare (b.source body extra indirect) := by
  simp [source, importDecls, dependencyImports, dependencyImport, indirectImports, indirectImport]

end Binder

end GoBindings
