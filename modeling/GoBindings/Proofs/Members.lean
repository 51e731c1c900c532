import GoBindings.Proofs.MemberNames
import GoBindings.Proofs.SafeRequests

/-!
# Members of messages

The fields of the struct of a message, its getters and its methods have different names, with one
exception: the getter of a union may be called like a field of the struct.
-/

namespace GoBindings

open List Schema Go

namespace MessagePlan

variable {plan next : MessagePlan} {oneof : Option Nat}

def unionNames (plan : MessagePlan) : List String :=
  (Binder.declaredUnions plan.unions).map (·.name)

/-- The fields of the struct: those of no union, and the unions. -/
def structNames (plan : MessagePlan) : List String :=
  (plan.fields.filter (·.oneof.isNone)).map (·.name) ++ plan.unionNames

/-- The getters of all fields and of the unions. -/
def getterNames (plan : MessagePlan) : List String :=
  plan.fields.map (·.getter) ++ plan.unionNames.map ("Get" ++ ·)

/-- Where the names of a message come from while its fields are planned. -/
structure Named (plan : MessagePlan) : Prop where
  nodup : plan.names.used.Nodup
  used : plan.names.used.Perm (reservedMembers ++ plan.fields.map (·.name) ++
    plan.fields.map (·.getter) ++ plan.unionNames)
  getter : ∀ p ∈ plan.fields, p.getter = "Get" ++ p.name
  oneof : ∀ p ∈ plan.fields, p.oneof = p.field.oneofIndex.map position
  /-- The unions are those of the oneofs with members. -/
  unions : ∀ i, (∃ union, plan.unions[i]? = some (some union)) ↔
    ∃ p ∈ plan.fields, p.oneof = some i

/-- How a field finds its union: it has none, it joins one, or it is the first member of one, which
takes a name then. -/
inductive FindsUnion (plan : MessagePlan) : Option Nat → MessagePlan → Prop
  | alone : FindsUnion plan none plan
  | joined {i : Nat} {union : UnionPlan} (h : plan.unions[i]? = some (some union)) :
      FindsUnion plan (some i) plan
  | first {i : Nat} {union : UnionPlan} (base : String) (h : plan.unions[i]? = some none)
      (hname : union.name = (plan.names.allocateOne base).1) :
      FindsUnion plan (some i)
        { plan with names := (plan.names.allocateOne base).2
                    unions := plan.unions.set i (some union) }

end MessagePlan

namespace MemberNames

variable {m : MemberNames}

theorem used_allocateField (m : MemberNames) (base : String) : (m.allocateField base).2.used =
    (m.allocateField base).1.1 :: (m.allocateField base).1.2 :: m.used := rfl

theorem nodup_allocateField (hm : m.used.Nodup) (base : String) :
    (m.allocateField base).2.used.Nodup := by
  have hne : base ≠ "Get" ++ base := by
    intro heq
    have hlength := congrArg String.length heq
    simp at hlength
  have hnodup := nodup_used_allocate hm (by simpa using hne : [base, "Get" ++ base].Nodup)
  rwa [allocate_pair] at hnodup

theorem getter_allocateField (m : MemberNames) (base : String) :
    (m.allocateField base).1.2 = "Get" ++ (m.allocateField base).1.1 :=
  String.append_assoc ..

theorem used_allocateOne (m : MemberNames) (name : String) :
    (m.allocateOne name).2.used = (m.allocateOne name).1 :: m.used := rfl

theorem nodup_allocateOne (hm : m.used.Nodup) (name : String) :
    (m.allocateOne name).2.used.Nodup := by
  have hnodup := nodup_used_allocate hm (nodup_singleton name)
  rwa [allocate_singleton] at hnodup

end MemberNames

namespace MessagePlan.FindsUnion

variable {plan next : MessagePlan} {oneof : Option Nat}

private theorem declaredUnions_set {unions : List (Option UnionPlan)} {i : Nat} (union : UnionPlan)
    (h : unions[i]? = some none) :
    (Binder.declaredUnions (unions.set i (some union))).Perm
      (union :: Binder.declaredUnions unions) := by
  induction unions generalizing i with
  | nil => simp at h
  | cons u unions ih =>
    cases i with
    | zero =>
      obtain rfl : u = none := by simpa using h
      exact .refl _
    | succ i =>
      have hrest := ih (by simpa using h)
      cases u with
      | none => exact hrest
      | some first => exact (hrest.cons first).trans (.swap union first _)

variable (h : plan.FindsUnion oneof next)

include h

theorem fields_eq : next.fields = plan.fields := by
  cases h <;> rfl

theorem length_unions :
    next.unions.length = plan.unions.length := by
  cases h with
  | alone => rfl
  | joined _ => rfl
  | first _ _ _ => exact length_set

theorem nodup (hplan : plan.names.used.Nodup) :
    next.names.used.Nodup := by
  cases h with
  | alone => exact hplan
  | joined _ => exact hplan
  | first base _ _ => exact MemberNames.nodup_allocateOne hplan base

theorem used :
    (next.names.used ++ plan.unionNames).Perm (plan.names.used ++ next.unionNames) := by
  cases h with
  | alone => exact .refl _
  | joined _ => exact .refl _
  | @first i union base hunion hname =>
    refine .trans ?_ ((declaredUnions_set union hunion).symm.map _ |>.append_left _)
    rw [MemberNames.used_allocateOne, ← hname]
    exact perm_middle.symm

theorem unions_iff (i : Nat) :
    (∃ union, next.unions[i]? = some (some union)) ↔
      (∃ union, plan.unions[i]? = some (some union)) ∨ oneof = some i := by
  cases h with
  | alone => simp
  | @joined j union hunion =>
    refine ⟨.inl, ?_⟩
    rintro (hi | hi)
    · exact hi
    · cases hi
      exact ⟨union, hunion⟩
  | @first j union base hunion hname =>
    have hj : j < plan.unions.length := (List.getElem?_eq_some_iff.mp hunion).1
    by_cases hi : j = i
    · subst hi
      simp [hj]
    · simp [hi]

end MessagePlan.FindsUnion

namespace Binder

variable {b : Binder} {id : MessageId} {m : MessageNode} {type : String}
  {field : Descriptor.Field} {plan plan' : MessagePlan}

section Planning

theorem planUnion_finds {oneof : Option Nat}
    (h : planUnion m type field plan = .ok (oneof, plan')) :
    oneof = field.oneofIndex.map position ∧ plan.FindsUnion oneof plan' := by
  unfold planUnion at h
  split at h
  · rename_i hindex
    cases h
    exact ⟨by rw [hindex]; rfl, .alone⟩
  · rename_i i hindex
    rw [hindex]
    simp only at h
    split at h
    · rename_i hunion
      cases h
      exact ⟨rfl, .joined hunion⟩
    · rename_i hunion _
      cases h
      exact ⟨rfl, .first _ hunion rfl⟩
    · cases h

/-- What planning a field adds to the plans of a message. -/
theorem planField_adds (h : b.planField id m type plan field = .ok plan') :
    ∃ (p : FieldPlan) (next : MessagePlan), plan' = { next with fields := next.fields ++ [p] } ∧
      p.oneof = p.field.oneofIndex.map position ∧
      p.name = (plan.names.allocateField (camelCase field.nameText)).1.1 ∧
      p.getter = (plan.names.allocateField (camelCase field.nameText)).1.2 ∧
      (p.oneof.isSome = true → p.wrapper = b.wrapperName m type p.name) ∧
      MessagePlan.FindsUnion
        { plan with names := (plan.names.allocateField (camelCase field.nameText)).2 }
        p.oneof next := by
  simp only [planField, steps_eq_ok] at h
  obtain ⟨kind, -, fieldType, -, tag, -, ⟨oneof, next⟩, hunion, map, -, rfl⟩ := h
  obtain ⟨honeof, hfinds⟩ := planUnion_finds hunion
  exact ⟨_, next, rfl, honeof, rfl, rfl, fun hsome => if_pos hsome, hfinds⟩

theorem planField_named (hplan : plan.Named) (h : b.planField id m type plan field = .ok plan') :
    plan'.Named := by
  obtain ⟨p, next, rfl, honeof, hname, hgetter, -, hfinds⟩ := planField_adds h
  have hfields : next.fields = plan.fields := hfinds.fields_eq
  refine ⟨hfinds.nodup (MemberNames.nodup_allocateField hplan.nodup _),
    perm_iff_count.mpr fun name => ?_, ?_, ?_, fun i => ?_⟩
  · have hbefore := hplan.used.count_eq name
    have hafter := hfinds.used.count_eq name
    simp only [hfields, MemberNames.used_allocateField, ← hname, ← hgetter, MessagePlan.unionNames,
      count_append, count_cons, count_nil, map_append, map_cons,
      map_nil] at hbefore hafter ⊢
    omega
  · refine forall_mem_append.mpr ⟨hfields ▸ hplan.getter, forall_mem_singleton.mpr ?_⟩
    rw [hgetter, hname]
    exact MemberNames.getter_allocateField _ _
  · exact forall_mem_append.mpr ⟨hfields ▸ hplan.oneof, forall_mem_singleton.mpr honeof⟩
  · refine (hfinds.unions_iff i).trans ?_
    simp only [hfields, hplan.unions i, mem_append, mem_singleton, or_and_right,
      exists_or, exists_eq_left]

theorem planMessage_unions (h : b.planMessage id = .ok plan) :
    plan.unions.length = (b.schema.message id).proto.oneofs.length := by
  refine foldlM_invariant
    (P := fun plan => plan.unions.length = (b.schema.message id).proto.oneofs.length) h (by simp)
    fun plan field plan' _ hplan hstep => ?_
  obtain ⟨p, next, rfl, -, -, -, -, hfinds⟩ := planField_adds hstep
  exact hfinds.length_unions.trans hplan

/-- The plans of a message take every name once. -/
theorem planMessage_named (h : b.planMessage id = .ok plan) : plan.Named := by
  have hreserved : reservedMembers.Nodup := by decide
  refine foldlM_invariant h ⟨hreserved, ?_, by simp, by simp, fun i => ?_⟩
    fun plan field plan' _ hplan hstep => planField_named hplan hstep
  · simp [MessagePlan.unionNames, declaredUnions]
  · simp only [getElem?_map]
    simp

end Planning

end Binder

/-- The methods that a message has, or may have, whatever its fields are. -/
def messageMethods : List String :=
  ["Reset", "String", "ProtoMessage", "Descriptor", "Marshal", "Unmarshal", "ExtensionRangeArray"]

/-- The members that only the runtime knows. -/
def runtimeMembers : List String :=
  ["XXX_InternalExtensions", "XXX_unrecognized", "XXX_WellKnownType", "MarshalJSON",
   "UnmarshalJSON", "XXX_OneofFuncs"]

namespace MessagePlan.Named

variable {plan : MessagePlan} (h : plan.Named)

include h

private theorem count_le_one (name : String) :
    reservedMembers.count name + (plan.fields.map (·.name)).count name +
      (plan.fields.map (·.getter)).count name + plan.unionNames.count name ≤ 1 := by
  have hnodup := nodup_iff_count_le_one.mp (h.used.nodup_iff.mp h.nodup) name
  simpa only [count_append] using hnodup

theorem nodup_names : (plan.fields.map (·.name)).Nodup := by
  refine nodup_iff_count_le_one.mpr fun name => ?_
  have hle := h.count_le_one name
  omega

theorem nodup_unionNames : plan.unionNames.Nodup := by
  refine nodup_iff_count_le_one.mpr fun union => ?_
  have hle := h.count_le_one union
  omega

private theorem getter_not_mem {union : String} (hunion : union ∈ plan.unionNames) :
    "Get" ++ union ∉ plan.fields.map (·.getter) ∧ "Get" ++ union ∉ messageMethods := by
  refine ⟨fun hmem => ?_, fun hmem => ?_⟩
  · obtain ⟨p, hp, heq⟩ := mem_map.mp hmem
    rw [h.getter p hp, String.append_right_inj] at heq
    -- Now the union and a field would have one name.
    have hfield : 0 < (plan.fields.map (·.name)).count union :=
      count_pos_iff.mpr (mem_map.mpr ⟨p, hp, heq⟩)
    have hcount : 0 < plan.unionNames.count union := count_pos_iff.mpr hunion
    have hle := h.count_le_one union
    omega
  · have hmethods : ∀ method ∈ messageMethods, method.toList.take 3 ≠ ['G', 'e', 't'] := by decide
    exact hmethods _ hmem (by simp)

theorem nodup_members_iff :
    (plan.structNames ++ plan.getterNames ++ messageMethods).Nodup ↔
      ∀ name ∈ plan.structNames, ∀ union ∈ plan.unionNames, name ≠ "Get" ++ union := by
  refine ⟨fun hnodup name hname union hunion heq => ?_, fun hne => ?_⟩
  · have hstruct := (nodup_append.mp (nodup_append.mp hnodup).1).2.2
    refine hstruct name hname name (mem_append_right _ ?_) rfl
    exact mem_map.mpr ⟨union, hunion, heq.symm⟩
  · refine nodup_iff_count_le_one.mpr fun name => ?_
    have hle := h.count_le_one name
    have hplain : ((plan.fields.filter (·.oneof.isNone)).map (·.name)).count name ≤
        (plan.fields.map (·.name)).count name :=
      (filter_sublist.map _).count_le name
    have hmethods : messageMethods.count name ≤ reservedMembers.count name :=
      (by decide : messageMethods.Subperm reservedMembers).count_le name
    simp only [structNames, getterNames, count_append]
    by_cases hgetter : name ∈ plan.unionNames.map ("Get" ++ ·)
    · obtain ⟨union, hunion, rfl⟩ := mem_map.mp hgetter
      obtain ⟨hfields, hfixed⟩ := h.getter_not_mem hunion
      have hstruct : plan.structNames.count ("Get" ++ union) = 0 :=
        count_eq_zero.mpr fun hmem => hne _ hmem union hunion rfl
      have honce : (plan.unionNames.map ("Get" ++ ·)).count ("Get" ++ union) ≤ 1 :=
        nodup_iff_count_le_one.mp
          (h.nodup_unionNames.map fun a b hab => (String.append_right_inj _).mp hab) _
      rw [structNames, count_append] at hstruct
      rw [count_eq_zero.mpr hfields, count_eq_zero.mpr hfixed]
      omega
    · rw [count_eq_zero.mpr hgetter]
      omega

end MessagePlan.Named

namespace Go

/-- The name by which a member of a struct is selected. -/
def Member.name? : Member → Option String
  | .field name _ _ | .union name _ _ | .unrecognized name _ => some name
  | .embedded (.name name) _ | .embedded (.qualified _ name) _ => some name
  | _ => none

/-- Whether a member is more than a comment. -/
def Member.isCode : Member → Bool
  | .comment _ => false
  | _ => true

/-- The members that a declaration gives to a type: the fields of its struct, or a method. -/
def Decl.membersOf (type : String) : Decl → List String
  | .struct name members => if name = type then members.filterMap Member.name? else []
  | .func f => match f.receiver with
    | some receiver => if receiver.type = type then [f.name] else []
    | none => []
  | _ => []

/-- The type that a method belongs to. -/
def Func.owner? (f : Func) : Option String := f.receiver.map (·.type)

theorem Decl.membersOf_func (type : String) (f : Func) :
    (Decl.func f).membersOf type = if f.owner? = some type then [f.name] else [] := by
  rw [membersOf, Func.owner?]
  cases f.receiver <;> simp

end Go

namespace MessagePlan

/-- The union that a field is a member of. -/
def unionOf? (plan : MessagePlan) (p : FieldPlan) : Option UnionPlan :=
  p.oneof.bind fun i => plan.unions[i]?.join

/-- Whether the field at a place is in no oneof or the first member of its oneof. -/
def leads (fields : List FieldPlan) (p : FieldPlan) (k : Nat) : Bool :=
  p.oneof.isNone || (fields.take k).all fun q => q.oneof ≠ p.oneof

/-- The fields that have a place in the struct: those of no oneof, and the first member of each
oneof. -/
def placed (fields : List FieldPlan) : List FieldPlan :=
  (fields.zipIdx.filter fun (p, k) => leads fields p k).map (·.1)

/-- What stands in the struct at the place of a field. -/
def member? (plan : MessagePlan) (p : FieldPlan) : Option Member :=
  if p.oneof.isNone then some (.field p.name p.type p.structTag)
  else (plan.unionOf? p).map fun u =>
    .union u.name u.interface ⟨[("protobuf_oneof", Text.quote u.schemaName)]⟩

def oneofMembers (plan : MessagePlan) : List FieldPlan := plan.fields.filter (·.oneof.isSome)

end MessagePlan

namespace Binder

variable {b : Binder} {id : MessageId} {m : MessageNode} {type : String} {plan : MessagePlan}
variable {part : Part} {α β : Type} {ps : List FieldPlan} {view : Decl → List α}

section Unions

theorem unionAt_eq_ok {unions : List (Option UnionPlan)} {i : Nat} {u : UnionPlan} :
    unionAt unions i = .ok u ↔ unions[i]?.join = some u := by
  rw [unionAt]
  cases unions[i]?.join <;> simp

theorem mem_numberedUnions_iff {unions : List (Option UnionPlan)} {u : UnionPlan} {i : Nat} :
    (u, i) ∈ numberedUnions unions ↔ unions[i]? = some (some u) := by
  simp [numberedUnions, mem_zipIdx_iff_getElem?]

theorem declaredUnions_eq (unions : List (Option UnionPlan)) :
    declaredUnions unions = (numberedUnions unions).map (·.1) := by
  have hzip : unions = unions.zipIdx.map (·.1) := (zipIdx_map_fst 0 unions).symm
  conv => lhs; rw [declaredUnions, hzip, filterMap_map]
  rw [numberedUnions, map_filterMap]
  refine filterMap_congr fun u _ => ?_
  cases hu : u.1 <;> simp [hu]

theorem places_numberedUnions (unions : List (Option UnionPlan)) :
    (numberedUnions unions).map (·.2) =
      (range unions.length).filter fun i => unions[i]?.join.isSome := by
  have hzip : unions.zipIdx =
      (range unions.length).map fun i => (unions[i]?.join, i) := by
    refine ext_getElem (by simp) fun i hi hi' => ?_
    have hlt : i < unions.length := by simpa using hi
    simp [hlt]
  rw [numberedUnions, hzip, filterMap_map, map_filterMap, ← filterMap_eq_filter]
  refine filterMap_congr fun i _ => ?_
  cases hu : unions[i]?.join <;> simp [Option.guard, hu]

/-- The oneofs with a union are those with a member. -/
theorem isSome_unionAt_iff (h : plan.Named) (i : Nat) :
    plan.unions[i]?.join.isSome = plan.fields.any fun p => p.oneof = some i := by
  have hunions := h.unions i
  rw [Bool.eq_iff_iff, any_eq_true]
  simp only [decide_eq_true_eq]
  rw [← hunions]
  rcases plan.unions[i]? with - | - | u <;> simp

theorem unionOf?_eq {p : FieldPlan} {i : Nat} (h : p.oneof = some i) :
    plan.unionOf? p = plan.unions[i]?.join := by
  rw [MessagePlan.unionOf?, h]
  rfl

end Unions

section Struct

variable {members : List Member}

private theorem filter_remarks
    (h : ∀ x ∈ members, ∃ text, x = .comment text) : members.filter (·.isCode) = [] := by
  refine filter_eq_nil_iff.mpr fun x hx => ?_
  obtain ⟨text, rfl⟩ := h x hx
  simp [Member.isCode]

private theorem filter_unionMembers (u : UnionPlan) (i : Nat) :
    (b.unionMembers m plan u i).filter (·.isCode) =
      [.union u.name u.interface ⟨[("protobuf_oneof", Text.quote u.schemaName)]⟩] := by
  rw [unionMembers, filter_append, filter_remarks]
  · rfl
  · simp only [forall_mem_append, forall_mem_ite, forall_mem_cons, forall_mem_map]
    simp

private theorem filter_fieldMembers (before : List FieldPlan) {seen : List Nat} {i : Nat}
    (hseen : ∀ j, j ∈ seen ↔ ∃ q ∈ before, q.oneof = some j)
    (h : b.fieldMembers m plan seen i ps = .ok members) :
    (members.filter (·.isCode)).map some = (((ps.zipIdx before.length).filter fun (p, k) =>
      MessagePlan.leads (before ++ ps) p k).map (·.1)).map plan.member? := by
  induction ps generalizing before seen i members with
  | nil =>
    cases h
    rfl
  | cons p ps ih =>
    have hrest {seen : List Nat} {rest : List Member}
        (hseen : ∀ j, j ∈ seen ↔ (∃ q ∈ before, q.oneof = some j) ∨ p.oneof = some j)
        (h : b.fieldMembers m plan seen (i + 1) ps = .ok rest) :=
      ih (before ++ [p]) (by simpa using hseen) h
    have hleads : MessagePlan.leads (before ++ p :: ps) p before.length =
        (p.oneof.isNone || before.all fun q => q.oneof ≠ p.oneof) := by
      rw [MessagePlan.leads, take_left]
    simp only [append_assoc, singleton_append, length_append,
      length_singleton] at hrest
    rw [fieldMembers] at h
    rw [zipIdx_cons, filter_cons]
    cases honeof : p.oneof with
    | none =>
      simp only [honeof, steps_eq_ok] at h
      obtain ⟨rest, h, rfl⟩ := h
      rw [if_pos (by simp [hleads, honeof]), filter_append, filter_remarks (by simp)]
      have hmember : plan.member? p = some (.field p.name p.type p.structTag) := by
        simp [MessagePlan.member?, honeof]
      rw [map_cons, map_cons, hmember, ← hrest (by simpa [honeof] using hseen) h]
      rfl
    | some oi =>
      simp only [honeof] at h
      split at h
      · rename_i hmem
        have hfound := (hseen oi).mp (contains_iff_mem.mp hmem)
        rw [if_neg (by simpa [hleads, honeof] using hfound)]
        refine hrest (fun j => ?_) h
        rw [hseen, honeof]
        refine (or_iff_left_of_imp ?_).symm
        rintro ⟨rfl⟩
        exact hfound
      · rename_i hmem
        simp only [steps_eq_ok] at h
        obtain ⟨u, hu, rest, h, rfl⟩ := h
        have hnew : ¬ ∃ q ∈ before, q.oneof = some oi := by
          rw [← hseen]
          simpa using hmem
        have hmember : plan.member? p = some
            (.union u.name u.interface ⟨[("protobuf_oneof", Text.quote u.schemaName)]⟩) := by
          rw [MessagePlan.member?, if_neg (by simp [honeof]), unionOf?_eq honeof,
            unionAt_eq_ok.mp hu]
          rfl
        rw [if_pos (by simpa [hleads, honeof] using hnew), filter_append,
          filter_unionMembers, map_cons, map_cons, hmember, ← hrest
            (fun j => by simp [hseen, honeof, or_comm, eq_comm]) h]
        rfl

theorem code_structDecl (h : b.structDecl m type plan = .ok (.struct type members)) :
    ∃ placed runtime, members.filter (·.isCode) = placed ++ runtime ∧
      placed.map some = (MessagePlan.placed plan.fields).map plan.member? ∧
      (runtime.map Member.name?).Sublist
        [some "XXX_InternalExtensions", some "XXX_unrecognized"] := by
  simp only [structDecl, steps_eq_ok] at h
  obtain ⟨fields, hfields, heq⟩ := h
  obtain ⟨-, rfl⟩ := Decl.struct.inj heq
  rw [append_assoc, filter_append]
  refine ⟨_, _, rfl, filter_fieldMembers [] (by simp) hfields, ?_⟩
  split <;> split <;> simp [Member.isCode, Member.name?]

end Struct

section Shaping

/-- Whether a declaration is a type with members or a function. -/
def isShaping : Decl → Bool
  | .struct _ _ | .wrapper _ _ _ _ | .interface _ _ | .func _ => true
  | _ => false

private theorem flatMap_shaping (h : ∀ d, isShaping d = false → view d = []) (decls : List Decl) :
    decls.flatMap view = (decls.filter isShaping).flatMap view := by
  induction decls with
  | nil => rfl
  | cons d decls ih =>
    cases hd : isShaping d with
    | false =>
      rw [filter_cons_of_neg (by simp [hd]), flatMap_cons, h d hd, nil_append, ih]
    | true => rw [filter_cons_of_pos hd, flatMap_cons, flatMap_cons, ih]

private theorem filter_funcs (fs : List Func) :
    (fs.map Decl.func).filter isShaping = fs.map .func :=
  filter_eq_self.mpr (by simp [isShaping])

/-- The methods that a message has whatever its fields are. -/
def AreFixed (type : String) (fs : List Func) : Prop :=
  ∃ methods runtime : List String, methods.Sublist messageMethods ∧
    runtime.Sublist ["XXX_WellKnownType", "MarshalJSON", "UnmarshalJSON"] ∧
    (fs.map fun f => (f.owner?, f.name)).Perm ((methods ++ runtime).map (some type, ·))

private theorem messageFuncs_fixed (b : Binder) (m : MessageNode) (type : String) :
    ∃ runtime : List String, runtime.Sublist ["XXX_WellKnownType"] ∧
      (b.messageFuncs m type).map (fun f => (f.owner?, f.name)) =
        (["Reset", "String", "ProtoMessage", "Descriptor"] ++ runtime).map (some type, ·) := by
  rw [messageFuncs]
  split
  · exact ⟨_, .refl _, rfl⟩
  · exact ⟨[], nil_sublist _, rfl⟩

private theorem extensionDecls_fixed (b : Binder) (m : MessageNode) (type : String) :
    ∃ (fs : List Func) (methods runtime : List String),
      (b.extensionDecls m type).filter isShaping = fs.map .func ∧
      methods.Sublist ["Marshal", "Unmarshal", "ExtensionRangeArray"] ∧
      runtime.Sublist ["MarshalJSON", "UnmarshalJSON"] ∧
      (fs.map fun f => (f.owner?, f.name)).Perm ((methods ++ runtime).map (some type, ·)) := by
  rw [extensionDecls]
  split
  · exact ⟨[], [], [], rfl, nil_sublist _, nil_sublist _, .refl _⟩
  · split
    · refine ⟨[_, _, _, _, _], _, _, rfl, .refl _, .refl _, ?_⟩
      exact Perm.map (some type, ·) (by decide : ["Marshal", "Unmarshal", "MarshalJSON",
        "UnmarshalJSON", "ExtensionRangeArray"].Perm _)
    · exact ⟨[_], ["ExtensionRangeArray"], [], rfl, by decide, nil_sublist _, .refl _⟩

def IsMarker (plan : MessagePlan) (p : FieldPlan) (f : Func) : Prop :=
  f.owner? = some p.wrapper ∧ (plan.unionOf? p).map (·.interface) = some f.name

private theorem markers_funcs {markers : List (List Decl)}
    (h : ps.mapM (markerDecl plan.unions) = .ok markers) :
    ∃ fs : List Func, markers.flatten = fs.map .func ∧
      Forall₂ (IsMarker plan) (ps.filter (·.oneof.isSome)) fs := by
  induction mapM_eq_ok h with
  | nil => exact ⟨[], rfl, .nil⟩
  | @cons p decls ps markers hp hps ih =>
    obtain ⟨fs, hfs, hmarkers⟩ := ih (mapM_eq_ok_iff.mpr hps)
    rw [markerDecl] at hp
    cases honeof : p.oneof with
    | none =>
      simp only [honeof] at hp
      cases hp
      exact ⟨fs, hfs, by simpa [honeof] using hmarkers⟩
    | some i =>
      simp only [honeof, steps_eq_ok] at hp
      obtain ⟨u, hu, rfl⟩ := hp
      refine ⟨_ :: fs, congrArg (_ :: ·) hfs, ?_⟩
      rw [filter_cons_of_pos (by simp [honeof])]
      refine .cons ⟨rfl, ?_⟩ hmarkers
      rw [unionOf?_eq honeof, unionAt_eq_ok.mp hu]
      rfl

def IsGetterOf (type : String) (p : FieldPlan) (f : Func) : Prop :=
  f.owner? = some type ∧ f.name = p.getter ∧ f.results = .one (.type (getterType p))

private theorem getterPart_func {unions : List (Option UnionPlan)} {p : FieldPlan}
    {d : Option DefaultPlan} {getter : Part × Option GetterSymbol}
    (h : b.getterPart m type unions p d = .ok getter) :
    ∃ f, getter.1.decls = [.func f, .blank] ∧ IsGetterOf type p f := by
  simp only [getterPart, steps_eq_ok] at h
  obtain ⟨shape, -, ⟨body, uses⟩, -, rfl⟩ := h
  exact ⟨_, rfl, rfl, rfl, rfl⟩

private theorem getters_funcs {defaults : List (Option DefaultPlan)}
    (hlength : ps.length = defaults.length) {getters : List (Part × Option GetterSymbol)}
    (h : ((ps.zip defaults).mapM fun (p, d) => b.getterPart m type plan.unions p d) = .ok getters) :
    ∃ fs : List Func, (Part.concat (getters.map (·.1))).decls.filter isShaping = fs.map .func ∧
      Forall₂ (IsGetterOf type) ps fs := by
  induction ps generalizing defaults getters with
  | nil =>
    rw [zip_nil_left, mapM_nil, pure_eq_ok] at h
    exact ⟨[], by rw [← h]; rfl, .nil⟩
  | cons p ps ih =>
    cases defaults with
    | nil => simp at hlength
    | cons d defaults =>
      rw [zip_cons_cons] at h
      simp only [mapM_cons, steps_eq_ok] at h
      obtain ⟨getter, hgetter, rest, hrest, rfl⟩ := h
      obtain ⟨fs, hfs, hgetters⟩ := ih (by simpa using hlength) hrest
      obtain ⟨f, hf, hgetter⟩ := getterPart_func hgetter
      refine ⟨f :: fs, ?_, .cons hgetter hgetters⟩
      rw [map_cons, map_cons, ← hfs, Part.concat, Part.decls_append, hf]
      rfl

private theorem filter_plain {decls : List Decl} (h : ∀ d ∈ decls, isShaping d = false) :
    decls.filter isShaping = [] :=
  filter_eq_nil_iff.mpr fun d hd => by simp [h d hd]

/-- The functions for unions that a message declares, if it has oneofs. -/
def IsUnionFuncs (b : Binder) (m : MessageNode) (type : String) (plan : MessagePlan)
    (fs : List Func) : Prop :=
  m.proto.oneofs.isEmpty = true ∧ fs = [] ∨
    m.proto.oneofs.isEmpty = false ∧ ∃ reader, b.readerFunc type plan = .ok reader ∧
      fs = [b.unionFuncs type (b.sizerType (.named "n" (.name "int"))) plan.oneofMembers,
        b.writerFunc type plan, reader, b.sizerFunc type plan]

/-- The types and functions that a message declares. -/
structure MessageSource.Shaping {part : Part} (e : MessageSource b id part) (type : String) where
  members : List Member
  fixed : List Func
  markers : List Func
  getters : List Func
  funcs : List Func
  htype : type = b.messageType id
  decls : part.decls.filter isShaping = .struct type members :: (fixed.map .func ++
    (numberedUnions e.plan.unions).map (fun u => .interface u.1.interface u.1.interface) ++
    e.plan.oneofMembers.map wrapperDecl ++ markers.map .func ++
    (numberedUnions e.plan.unions).map (fun u => .func (unionGetter type u.1)) ++
    getters.map .func ++ funcs.map .func)
  hmembers : e.struct = .struct type members
  hfixed : AreFixed type fixed
  hmarkers : Forall₂ (IsMarker e.plan) e.plan.oneofMembers markers
  hgetters : Forall₂ (IsGetterOf type) e.plan.fields getters
  hfuncs : b.IsUnionFuncs (b.schema.message id) type e.plan funcs

private theorem filter_types (e : MessageSource b id part)
    (htype : type = b.messageType id) :
    ∃ markers : List Func, e.types.filter isShaping =
      (numberedUnions e.plan.unions).map (fun u => Decl.interface u.1.interface u.1.interface) ++
      e.plan.oneofMembers.map wrapperDecl ++ markers.map .func ++
      (numberedUnions e.plan.unions).map (fun u => .func (unionGetter type u.1)) ∧
      Forall₂ (IsMarker e.plan) e.plan.oneofMembers markers := by
  rcases e.htypes with ⟨hempty, hnone⟩ | htypes
  · -- Without oneofs there are no unions, and so no members.
    have hunions : e.plan.unions = [] := by
      rw [← length_eq_zero_iff, planMessage_unions e.hplan, length_eq_zero_iff]
      exact isEmpty_iff.mp hempty
    have hmembers : e.plan.oneofMembers = [] := by
      refine filter_eq_nil_iff.mpr fun p hp hsome => ?_
      obtain ⟨i, hi⟩ := Option.isSome_iff_exists.mp hsome
      obtain ⟨u, hu⟩ := ((planMessage_named e.hplan).unions i).mpr ⟨p, hp, hi⟩
      simp [hunions] at hu
    refine ⟨[], ?_, by rw [hmembers]; exact .nil⟩
    rw [hnone, hmembers, hunions]
    rfl
  · simp only [unionTypes, steps_eq_ok] at htypes
    obtain ⟨markers, hmarkers, htypes⟩ := htypes
    obtain ⟨fs, hfs, hforall⟩ := markers_funcs hmarkers
    refine ⟨fs, ?_, hforall⟩
    have hinterfaces : ((declaredUnions e.plan.unions).map fun u =>
        Decl.interface u.interface u.interface).filter isShaping =
          (numberedUnions e.plan.unions).map fun u => .interface u.1.interface u.1.interface := by
      rw [filter_eq_self.mpr (by simp [isShaping]), declaredUnions_eq, map_map]
      rfl
    have hwrappers : ((e.plan.fields.filter (·.oneof.isSome)).map wrapperDecl).filter isShaping =
        e.plan.oneofMembers.map wrapperDecl :=
      filter_eq_self.mpr (forall_mem_map.mpr fun _ _ => rfl)
    have hgetters : ((declaredUnions e.plan.unions).map fun u =>
        Decl.func (unionGetter type u)).filter isShaping =
          (numberedUnions e.plan.unions).map fun u => .func (unionGetter type u.1) := by
      rw [filter_eq_self.mpr (by simp [isShaping]), declaredUnions_eq, map_map]
      rfl
    have hblank : [Decl.blank].filter isShaping = [] := rfl
    rw [← htypes, hfs, ← htype]
    simp only [filter_append, hinterfaces, hwrappers, filter_funcs, hgetters, hblank,
      append_nil]

private theorem filter_unionFuncs (e : MessageSource b id part)
    (htype : type = b.messageType id) :
    ∃ fs : List Func, e.funcs.decls.filter isShaping = fs.map .func ∧
      b.IsUnionFuncs (b.schema.message id) type e.plan fs := by
  rcases e.hfuncs with ⟨hempty, hnone⟩ | ⟨hempty, hfuncs⟩
  · exact ⟨[], by rw [hnone]; rfl, .inl ⟨hempty, rfl⟩⟩
  · rw [← htype] at hfuncs
    simp only [unionPart, steps_eq_ok] at hfuncs
    obtain ⟨reader, hreader, hfuncs⟩ := hfuncs
    exact ⟨_, by rw [← hfuncs]; rfl, .inr ⟨hempty, reader, hreader, rfl⟩⟩

theorem MessageSource.shaping (e : MessageSource b id part) :
    Nonempty (e.Shaping (b.messageType id)) := by
  generalize htype : b.messageType id = type
  obtain ⟨known, hknown, hmethods⟩ := messageFuncs_fixed b (b.schema.message id) type
  obtain ⟨fs, ranges, json, hranges, hmethodsLe, hjson, hfixed⟩ :=
    extensionDecls_fixed b (b.schema.message id) type
  obtain ⟨markers, htypes, hmarkers⟩ := filter_types e htype.symm
  obtain ⟨getters, hdecls, hgetters⟩ := getters_funcs (mapM_eq_ok e.hdefaults).length_eq
    (htype ▸ e.hgetters)
  obtain ⟨funcs, hfuncs, hunionFuncs⟩ := filter_unionFuncs e htype.symm
  obtain ⟨members, hstruct⟩ : ∃ members, e.struct = .struct type members := by
    obtain ⟨members, -, hmembers⟩ := bind_eq_ok.mp e.hstruct
    exact ⟨_, htype ▸ (pure_eq_ok.mp hmembers).symm⟩
  have hcomments : ((b.commentAt (b.schema.message id).path).map Decl.comment).filter isShaping =
      [] := filter_plain (forall_mem_map.mpr fun _ _ => rfl)
  have hdefaults : (Part.concat (e.defaults.flatMap fun d =>
      d.toList.map (defaultPart id))).decls.filter isShaping = [] := by
    refine filter_plain fun d hd => ?_
    rw [Part.decls_concat] at hd
    obtain ⟨part, hpart, hd⟩ := mem_flatMap.mp hd
    obtain ⟨default, -, hpart⟩ := mem_flatMap.mp hpart
    obtain ⟨plan, -, rfl⟩ := mem_map.mp hpart
    rw [mem_singleton.mp hd]
    rfl
  have hextensions : (Part.concat e.extensions).decls.filter isShaping = [] := by
    refine filter_plain fun d hd => ?_
    rw [Part.decls_concat] at hd
    obtain ⟨part, hpart, hd⟩ := mem_flatMap.mp hd
    obtain ⟨x, -, hx⟩ := exists_of_mem_mapM e.hextensions hpart
    simp only [extensionPart, steps_eq_ok] at hx
    obtain ⟨_, -, _, -, _, -, _, -, _, -, rfl⟩ := hx
    simp only [mem_cons, not_mem_nil, or_false] at hd
    rcases hd with rfl | rfl <;> rfl
  refine ⟨⟨members, b.messageFuncs (b.schema.message id) type ++ fs, markers, getters, funcs,
    htype.symm, ?_, hstruct, ?_, hmarkers, hgetters, hunionFuncs⟩⟩
  swap
  · refine ⟨_, _, hmethodsLe.append_left ["Reset", "String", "ProtoMessage", "Descriptor"],
      hknown.append hjson, ?_⟩
    rw [map_append, hmethods]
    refine (hfixed.append_left _).trans ?_
    rw [← map_append]
    refine Perm.map _ (perm_iff_count.mpr fun name => ?_)
    simp only [count_append]
    omega
  have hblank : isShaping .blank = false := rfl
  have hshaping : isShaping (.struct type members) = true := rfl
  rw [e.decls_eq, hstruct, htype]
  simp only [filter_append, filter_cons, hblank, hshaping, hcomments, filter_funcs,
    hranges, hdefaults, htypes, hdecls, hfuncs, hextensions, map_append, append_assoc,
    nil_append, append_nil, cons_append, Bool.false_eq_true, if_false, if_true]

end Shaping

section Members

variable {fs : List Func}

theorem flatMap_nothing (as : List α) : as.flatMap (fun _ => ([] : List β)) = [] := by
  simp

theorem map_of_forall₂ {γ : Type} {view : β → γ} {g : α → γ} {as : List α} {bs : List β}
    (h : Forall₂ (fun a b => view b = g a) as bs) : bs.map view = as.map g := by
  induction h with
  | nil => rfl
  | cons hab _ ih => rw [map_cons, hab, ih, map_cons]

/-- What a view shows of the declarations of a message, one kind of them after the other. -/
theorem MessageSource.Shaping.flatMap_decls {e : MessageSource b id part} (sh : e.Shaping type)
    (hview : ∀ d, isShaping d = false → view d = []) :
    part.decls.flatMap view = view (.struct type sh.members) ++
      sh.fixed.flatMap (fun f => view (.func f)) ++
      (numberedUnions e.plan.unions).flatMap
        (fun u => view (.interface u.1.interface u.1.interface)) ++
      e.plan.oneofMembers.flatMap (fun p => view (wrapperDecl p)) ++
      sh.markers.flatMap (fun f => view (.func f)) ++
      (numberedUnions e.plan.unions).flatMap (fun u => view (.func (unionGetter type u.1))) ++
      sh.getters.flatMap (fun f => view (.func f)) ++
      sh.funcs.flatMap (fun f => view (.func f)) := by
  rw [flatMap_shaping hview, sh.decls]
  simp only [flatMap_cons, flatMap_append, flatMap_map, append_assoc]

theorem filter_placed (fields : List FieldPlan) :
    (MessagePlan.placed fields).filter (·.oneof.isNone) = fields.filter (·.oneof.isNone) := by
  conv => rhs; rw [← zipIdx_map_fst 0 fields]
  rw [MessagePlan.placed, filter_map, filter_map, filter_filter]
  refine congrArg _ (filter_congr fun x _ => ?_)
  simp +contextual [MessagePlan.leads]

private theorem places_placed (h : plan.Named) :
    ((MessagePlan.placed plan.fields).filterMap (·.oneof)).Perm
      ((numberedUnions plan.unions).map (·.2)) := by
  rw [MessagePlan.placed, filterMap_map]
  refine (perm_ext_iff_of_nodup ?_ ?_).mpr fun j => ?_
  · -- The first of two fields of one oneof keeps the second from leading.
    rw [Nodup, pairwise_filterMap, pairwise_filter, pairwise_iff_getElem]
    intro i k hi hk hik _ hleads x hx y hy hxy
    simp only [Function.comp_apply, getElem_zipIdx, Nat.zero_add] at hx hy hleads
    have hlt : i < plan.fields.length := by simpa using hi
    rw [MessagePlan.leads, hy, Option.isNone_some, Bool.false_or, all_eq_true] at hleads
    have hmem : plan.fields[i] ∈ plan.fields.take k :=
      mem_take_iff_getElem.mpr ⟨i, by omega, rfl⟩
    exact of_decide_eq_true (hleads _ hmem) (hx.trans (congrArg some hxy))
  · rw [places_numberedUnions]
    exact nodup_range.filter _
  · have hunion : j ∈ (numberedUnions plan.unions).map (·.2) ↔
        ∃ p ∈ plan.fields, p.oneof = some j := by
      rw [← h.unions]
      simp [mem_numberedUnions_iff]
    simp only [hunion, mem_filterMap, mem_filter]
    constructor
    · rintro ⟨⟨p, k⟩, ⟨hp, -⟩, hj⟩
      exact ⟨p, fst_mem_of_mem_zipIdx hp, hj⟩
    · intro hex
      let hits (p : FieldPlan) : Bool := p.oneof = some j
      have hlt : plan.fields.findIdx hits < plan.fields.length :=
        findIdx_lt_length_of_exists (by simpa [hits] using hex)
      have hj : (plan.fields[plan.fields.findIdx hits]).oneof = some j :=
        of_decide_eq_true (findIdx_getElem (w := hlt))
      refine ⟨(_, _), ⟨mk_mem_zipIdx_iff_getElem?.mpr (getElem?_eq_getElem hlt), ?_⟩, hj⟩
      rw [MessagePlan.leads, Bool.or_eq_true, all_eq_true]
      refine .inr fun q hq => ?_
      obtain ⟨i, hi, rfl⟩ := mem_take_iff_getElem.mp hq
      have hi : i < plan.fields.findIdx hits := by omega
      simpa [hj, hits] using not_of_lt_findIdx hi

private theorem names_placed (ps : List FieldPlan) :
    (ps.filterMap fun p => (plan.member? p).bind Member.name?).Perm
      ((ps.filter (·.oneof.isNone)).map (·.name) ++
        (ps.filterMap (·.oneof)).filterMap fun i => plan.unions[i]?.join.map (·.name)) := by
  induction ps with
  | nil => exact .refl _
  | cons p ps ih =>
    cases hp : p.oneof with
    | none => simpa [hp, MessagePlan.member?, Member.name?] using ih
    | some i =>
      have hname : (plan.member? p).bind Member.name? = plan.unions[i]?.join.map (·.name) := by
        rw [MessagePlan.member?, if_neg (by simp [hp]), unionOf?_eq hp]
        cases plan.unions[i]?.join <;> rfl
      rw [filterMap_cons, hname, filter_cons_of_neg (by simp [hp]),
        filterMap_cons_some hp, filterMap_cons]
      cases plan.unions[i]?.join.map (·.name) with
      | none => exact ih
      | some name => exact (ih.cons name).trans perm_middle.symm

private theorem names_structDecl (h : plan.Named) {members : List Member}
    (hstruct : b.structDecl m type plan = .ok (.struct type members)) :
    ∃ runtime, runtime.Sublist ["XXX_InternalExtensions", "XXX_unrecognized"] ∧
      (members.filterMap Member.name?).Perm (plan.structNames ++ runtime) := by
  obtain ⟨placed, runtime, hcode, hplaced, hruntime⟩ := code_structDecl hstruct
  have hnames : members.filterMap Member.name? =
      placed.filterMap Member.name? ++ runtime.filterMap Member.name? := by
    rw [← filterMap_append, ← hcode, filterMap_filter]
    refine filterMap_congr fun x _ => ?_
    cases x <;> rfl
  have hfields : placed.filterMap Member.name? = (MessagePlan.placed plan.fields).filterMap
      fun p => (plan.member? p).bind Member.name? := by
    have hsome := congrArg (filterMap (Option.bind · Member.name?)) hplaced
    simpa using hsome
  have hunions : plan.unionNames = ((numberedUnions plan.unions).map (·.2)).filterMap fun i =>
      plan.unions[i]?.join.map (·.name) := by
    rw [MessagePlan.unionNames, declaredUnions_eq, map_map, filterMap_map,
      ← filterMap_eq_map]
    refine filterMap_congr fun u hu => ?_
    simp [mem_numberedUnions_iff.mp hu]
  refine ⟨runtime.filterMap Member.name?, ?_, ?_⟩
  · simpa using hruntime.filterMap id
  · rw [hnames, hfields, MessagePlan.structNames, hunions, ← filter_placed]
    exact ((names_placed _).trans (((places_placed h).filterMap _).append_left _)).append_right _

private theorem IsUnionFuncs.names (h : b.IsUnionFuncs m type plan fs) :
    (fs.flatMap fun f => (Decl.func f).membersOf type).Sublist ["XXX_OneofFuncs"] := by
  rcases h with ⟨-, rfl⟩ | ⟨-, reader, hreader, rfl⟩
  · exact nil_sublist _
  · obtain ⟨cases, -, hreader⟩ := bind_eq_ok.mp hreader
    cases hreader
    simp [Decl.membersOf, unionFuncs, writerFunc, sizerFunc, funcOf]

theorem MessageSource.wrapper_ne (e : MessageSource b id part) {p : FieldPlan}
    (hp : p ∈ e.plan.fields) (hsome : p.oneof.isSome = true) :
    p.wrapper ≠ b.messageType id := by
  intro heq
  obtain ⟨k, hk⟩ := (planMessage_made e.hplan p hp).wrapper hsome
  have hlength := congrArg String.length (heq.symm.trans hk)
  have hunderscore : "_".length = 1 := rfl
  simp only [String.length_append] at hlength
  omega

private theorem names_methods {names : List String}
    (h : (fs.map fun f => (f.owner?, f.name)).Perm (names.map (some type, ·))) :
    (fs.flatMap fun f => (Decl.func f).membersOf type).Perm names := by
  have hnames : (fs.flatMap fun f => (Decl.func f).membersOf type) = fs.map (·.name) := by
    rw [map_eq_flatMap]
    refine flatMap_congr fun f hf => ?_
    obtain ⟨name, -, heq⟩ := mem_map.mp (h.subset (mem_map_of_mem hf))
    rw [Decl.membersOf_func, if_pos (congrArg Prod.fst heq).symm]
  rw [hnames]
  simpa [Function.comp_def] using h.map Prod.snd

theorem MessageSource.members (e : MessageSource b id part) :
    ∃ fixed runtime, fixed.Sublist messageMethods ∧ runtime.Sublist runtimeMembers ∧
      (part.decls.flatMap (Decl.membersOf (b.messageType id))).Perm
        (e.plan.structNames ++ e.plan.getterNames ++ fixed ++ runtime) := by
  obtain ⟨sh⟩ := e.shaping
  have hstruct := e.hstruct
  have hne (p) (hp : p ∈ e.plan.oneofMembers) :=
    e.wrapper_ne (mem_filter.mp hp).1 (mem_filter.mp hp).2
  generalize b.messageType id = type at sh hne hstruct ⊢
  obtain ⟨methods, known, hmethods, hknown, hfixed⟩ := sh.hfixed
  obtain ⟨inStruct, hinStruct, hstruct⟩ :=
    names_structDecl (planMessage_named e.hplan) (sh.hmembers ▸ hstruct)
  refine ⟨methods, inStruct ++ known ++ _, hmethods,
    (hinStruct.append hknown).append sh.hfuncs.names, perm_iff_count.mpr fun name => ?_⟩
  have hmarkers : (sh.markers.flatMap fun f => (Decl.func f).membersOf type) = [] := by
    refine flatMap_eq_nil_iff.mpr fun f hf => ?_
    obtain ⟨p, hp, hmarker⟩ := exists_of_mem_forall₂ sh.hmarkers.flip hf
    rw [Decl.membersOf_func, hmarker.1, if_neg (by simpa using hne p hp)]
  have hgetters : (sh.getters.map fun f => (f.owner?, f.name)) =
      (e.plan.fields.map (·.getter)).map (some type, ·) := by
    rw [map_map]
    exact map_of_forall₂ (sh.hgetters.imp fun p f h => by rw [h.1, h.2.1]; rfl)
  have hunions : ((numberedUnions e.plan.unions).flatMap fun u =>
      (Decl.func (unionGetter type u.1)).membersOf type) = e.plan.unionNames.map ("Get" ++ ·) := by
    rw [MessagePlan.unionNames, declaredUnions_eq, map_map, map_map, map_eq_flatMap]
    exact flatMap_congr fun u _ => if_pos rfl
  have hmembers : (Decl.struct type sh.members).membersOf type =
      sh.members.filterMap Member.name? := if_pos rfl
  have hinterface (u : UnionPlan) :
      (Decl.interface u.interface u.interface).membersOf type = [] := rfl
  have hwrapper (p : FieldPlan) : (wrapperDecl p).membersOf type = [] := rfl
  have hplain (d) (hd : isShaping d = false) : d.membersOf type = [] := by
    cases d with
    | struct | func => cases hd
    | _ => rfl
  rw [sh.flatMap_decls hplain]
  simp only [hmembers, hinterface, hwrapper, hmarkers, hunions, flatMap_nothing, count_append,
    count_nil, hstruct.count_eq name, (names_methods hfixed).count_eq name,
    (names_methods (.of_eq hgetters)).count_eq name, MessagePlan.getterNames]
  omega

/-- The struct of a message and its methods have the names that its fields, its unions and all
messages need. They are different unless a field of the struct is called like the getter of a
union. -/
theorem messagePart_members {part : Part} (h : b.messagePart id = .ok part) :
    ∃ plan fixed runtime, b.planMessage id = .ok plan ∧
      plan.fields.map (·.field) = (b.schema.message id).proto.fields ∧
      (∀ p ∈ plan.fields, p.oneof = p.field.oneofIndex.map position) ∧
      (∀ i, (∃ union, plan.unions[i]? = some (some union)) ↔ ∃ p ∈ plan.fields, p.oneof = some i) ∧
      fixed.Sublist messageMethods ∧ runtime.Sublist runtimeMembers ∧
      (part.decls.flatMap (Decl.membersOf (camelCaseScope (b.schema.message id).typeName))).Perm
        (plan.structNames ++ plan.getterNames ++ fixed ++ runtime) ∧
      ((plan.structNames ++ plan.getterNames ++ messageMethods).Nodup ↔
        ∀ name ∈ plan.structNames, ∀ union ∈ plan.unionNames, name ≠ "Get" ++ union) := by
  obtain ⟨e⟩ := messagePart_eq_ok h
  obtain ⟨fixed, runtime, hfixed, hruntime, hmembers⟩ := e.members
  have hnamed := planMessage_named e.hplan
  exact ⟨e.plan, fixed, runtime, e.hplan, planMessage_fields e.hplan, hnamed.oneof, hnamed.unions,
    hfixed, hruntime, hmembers, hnamed.nodup_members_iff⟩

/-- A message with a union, and a field that asks for the name of its getter. -/
def getterRequest (oneofIndex : Option Int32) : Descriptor.Request where
  filesToGenerate := ["c.proto"]
  files :=
    [{ name := some "c.proto", package := some "c"
       messages :=
        [{ name := some "M"
           fields :=
             [{ name := some "a", number := some 1, label := some 1, kind := some 5,
                oneofIndex := some 0 },
              { name := some "get_foo", number := some 2, label := some 1, kind := some 5,
                oneofIndex },
              { name := some "string", number := some 3, label := some 1, kind := some 5 }]
           oneofs := [{ name := some "foo" }] }] }]

def getterBinder (oneofIndex : Option Int32) : Binder :=
  ⟨setupOf (getterRequest oneofIndex), ⟨0⟩, []⟩

/-- Where that field is a member of the union it is no field of the struct. -/
theorem messagePart_members_inside :
    (∃ out, (generateWith [] (getterRequest (some 0)) ()).1 = .ok out) ∧
    ∃ part plan, (getterBinder (some 0)).messagePart ⟨0⟩ = .ok part ∧
      (getterBinder (some 0)).planMessage ⟨0⟩ = .ok plan ∧
      plan.structNames = ["String_", "Foo"] ∧
      plan.getterNames = ["GetA", "GetGetFoo", "GetString_", "GetFoo"] ∧
      (plan.structNames ++ plan.getterNames ++ messageMethods).Nodup := by
  have hchecked : (getterRequest (some 0)).Checked := by decide +kernel
  have hpart := eq_ok_of_isOk {} (by decide +kernel :
    ((getterBinder (some 0)).messagePart ⟨0⟩).isOk = true)
  have hnames : ∀ plan ∈ ((getterBinder (some 0)).planMessage ⟨0⟩).toOption,
      plan.structNames = ["String_", "Foo"] ∧ plan.unionNames = ["Foo"] ∧
      plan.getterNames = ["GetA", "GetGetFoo", "GetString_", "GetFoo"] := by
    decide +kernel
  obtain ⟨plan, fixed, runtime, hplan, -, -, -, -, -, -, hnodup⟩ := messagePart_members hpart
  obtain ⟨hstruct, hunions, hgetters⟩ := hnames plan (by rw [hplan]; rfl)
  refine ⟨generate_of_checked hchecked, _, plan, hpart, hplan, hstruct, hgetters, hnodup.mpr ?_⟩
  rw [hstruct, hunions]
  decide

/-- Otherwise the struct has a field and a method of that name. -/
theorem messagePart_getter_taken :
    (∃ out, (generateWith [] (getterRequest none) ()).1 = .ok out) ∧
    Setup.ofRequest (getterRequest none) = .ok (getterBinder none).setup ∧
    ((((getterBinder none).schema.message ⟨0⟩).proto.fields.map (·.nameText)).Nodup) ∧
    ∃ part plan, (getterBinder none).messagePart ⟨0⟩ = .ok part ∧
      (getterBinder none).planMessage ⟨0⟩ = .ok plan ∧
      "GetFoo" ∈ plan.structNames ∧ "GetFoo" ∈ plan.getterNames ∧
      (part.decls.flatMap (Decl.membersOf "M")).count "GetFoo" = 2 := by
  have hchecked : (getterRequest none).Checked := by decide +kernel
  have hparts : ∃ part ∈ ((getterBinder none).messagePart ⟨0⟩).toOption,
      (part.decls.flatMap (Decl.membersOf "M")).count "GetFoo" = 2 := by
    decide +kernel
  have hplans : ∃ plan ∈ ((getterBinder none).planMessage ⟨0⟩).toOption,
      "GetFoo" ∈ plan.structNames ∧ "GetFoo" ∈ plan.getterNames := by
    decide +kernel
  obtain ⟨part, hpart, htwice⟩ := hparts
  obtain ⟨plan, hplan, hnames⟩ := hplans
  exact ⟨generate_of_checked hchecked, hchecked.setup, by decide +kernel, part, plan,
    eq_ok_of_toOption hpart, eq_ok_of_toOption hplan, hnames.1, hnames.2, htwice⟩

end Members

end Binder

end GoBindings
