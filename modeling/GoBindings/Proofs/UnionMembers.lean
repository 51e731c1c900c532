import GoBindings.Proofs.Members
import GoBindings.Proofs.UnionCodec

/-!
# Members of unions

A value that the functions for the unions of a message write is read back by them, and the size that
they give is that of what they write.
-/

namespace GoBindings

open List Schema Go Wire Descriptor Setup

section Types

variable {s : Setup} {file : FileId} {field : Field} {kind : FieldKind} {t : FieldType}
  {Message : TypeExpr → Type} {v : Value Message}

theorem notMem_of_isLower {n : String} {names : List String}
    (hn : ∀ c ∈ n.toList.head?, c.isLower = false)
    (hnames : ∀ m ∈ names, m.toList.head?.any Char.isLower = true) : n ∉ names := by
  intro hmem
  obtain ⟨c, hc, hlower⟩ := (Option.any_eq_true _ _).mp (hnames n hmem)
  exact Bool.false_ne_true ((hn c hc).symm.trans hlower)

theorem Setup.goName_declared {object : Object} {name : TypeExpr} (h : s.goName object = .ok name) :
    name.isDeclared = true ∧ ∀ n ∈ name.roots, n ∈ name.packages ∨
      ∀ c ∈ n.toList.head?, c.isLower = false := by
  rw [goName, bind_eq_ok] at h
  obtain ⟨package, -, h⟩ := h
  cases h
  split
  · have hlower : ∀ c ∈ (camelCaseScope (s.schema.typeName object)).toList.head?,
        c.isLower = false := isLower_head_camelCase _
    have htypes : camelCaseScope (s.schema.typeName object) ∉ predeclaredTypes :=
      notMem_of_isLower hlower (by decide)
    refine ⟨by simpa [TypeExpr.isDeclared] using htypes, fun n hn => .inr ?_⟩
    obtain rfl := mem_singleton.mp hn
    exact hlower
  · exact ⟨rfl, fun n hn => .inl hn⟩

theorem exists_enum {t : TypeExpr} (ht : t.isDeclared = true) (hv : v.HasType t) :
    ∃ n, v = .enum t n := by
  obtain ⟨rfl, -⟩ := hv
  cases v with
  | enum t n => exact ⟨n, rfl⟩
  | _ => exact absurd ht (by simp +decide [Value.type, TypeExpr.isDeclared])

theorem exists_message {t : TypeExpr} (hv : v.HasType (.pointer t)) : ∃ m, v = .message t m := by
  obtain ⟨htype, hsound⟩ := hv
  cases v with
  | message t' m =>
    obtain rfl := TypeExpr.pointer.inj htype
    exact ⟨m, rfl⟩
  | enum t' n =>
    obtain rfl : t' = .pointer t := htype
    exact absurd hsound (by simp [Value.IsSound, TypeExpr.isDeclared])
  | _ => cases htype

theorem Setup.elementType_holds (h : s.elementType file field kind = .ok t)
    (hv : v.HasType t.type) : kind.Holds t.type v := by
  unfold elementType at h
  split at h
  · rename_i type wire hscalar
    cases h
    obtain ⟨htype, hsound⟩ := hv
    cases kind <;> cases hscalar <;> cases v <;>
      simp_all [Value.type, Value.IsSound, TypeExpr.isDeclared, predeclaredTypes] <;> constructor
  · simp only [bind_eq_ok] at h
    obtain ⟨object, -, name, hname, h⟩ := h
    have hdeclared := (goName_declared hname).1
    cases kind with
    | group | message =>
      cases h
      obtain ⟨m, rfl⟩ := exists_message hv
      constructor
      exact hdeclared
    | enum =>
      cases h
      obtain ⟨n, rfl⟩ := exists_enum hdeclared hv
      exact .enum name n hdeclared
    | _ => contradiction

/-- The names in the type of a field hide nothing but packages. -/
theorem Setup.elementType_roots (h : s.elementType file field kind = .ok t) :
    ∀ n ∈ t.type.roots, n ∈ t.type.packages ∨ n ∉ Binder.unionVariables := by
  unfold elementType at h
  split at h
  · rename_i type wire hscalar
    cases h
    have hapart : ∀ n ∈ type.roots, n ∉ Binder.unionVariables := by
      cases kind <;> cases hscalar <;> decide
    exact fun n hn => .inr (hapart n hn)
  · simp only [bind_eq_ok] at h
    obtain ⟨object, -, name, hname, h⟩ := h
    have hroots : ∀ n ∈ name.roots, n ∈ name.packages ∨ n ∉ Binder.unionVariables := fun n hn =>
      ((goName_declared hname).2 n hn).imp_right fun hn => notMem_of_isLower hn (by decide)
    split at h <;> obtain rfl := pure_eq_ok.mp h <;> exact hroots

end Types

namespace Binder

variable {b : Binder} {id : MessageId} {p : FieldPlan} {plan : MessagePlan}
variable {r : Request} {i : Nat}

theorem elementType_of_made (h : p.Made b id) (honeof : p.oneof.isSome = true)
    (hsingle : p.field.isRepeated = false) (hmap : p.map = none) :
    ∃ t, b.setup.elementType b.file p.field p.kind = .ok t ∧ p.type = t.type := by
  have htype : p.type = p.fieldType.type := by
    rcases h.map with ⟨-, htype, -⟩ | ⟨map, -, -, hsome, -⟩
    · exact htype
    · simp [hmap] at hsome
  have hfield := h.fieldType
  simp only [fieldType, h.kind, hsingle, heldByValue, h.oneof honeof, bind_eq_ok,
    Bool.or_true, if_true, Bool.false_eq_true, if_false, pure_eq_ok] at hfield
  obtain ⟨kind, hkind, t, ht, heq⟩ := hfield
  cases hkind
  exact ⟨t, ht, by rw [htype, ← heq]⟩

theorem wrapper_notMem (h : p.Made b id) (honeof : p.oneof.isSome = true) :
    p.wrapper ∉ unionVariables := by
  have hplain : ∀ n ∈ unionVariables, '_' ∉ n.toList := by decide
  obtain ⟨k, hk⟩ := h.wrapper honeof
  refine fun hmem => hplain _ hmem ?_
  simp [hk]

theorem exists_unionAt {type : String} {reader : Func} (h : b.readerFunc type plan = .ok reader)
    (hp : p ∈ plan.fields) (honeof : p.oneof = some i) :
    ∃ union, unionAt plan.unions i = .ok union := by
  simp only [readerFunc, bind_eq_ok] at h
  obtain ⟨cases, hcases, -⟩ := h
  obtain ⟨c, -, hc⟩ := exists_of_mem_forall₂ (mapM_eq_ok hcases) hp
  rcases readCase_eq_ok hc with ⟨hnone, -⟩ | ⟨j, union, hj, hunion, -⟩
  · rw [honeof] at hnone
    cases hnone
  · cases honeof.symm.trans hj
    exact ⟨union, hunion⟩

theorem exists_mem_switches {union : UnionPlan} (hunion : unionAt plan.unions i = .ok union)
    (hp : p ∈ plan.fields) (honeof : p.oneof = some i) {block : List Stmt} {first last : Stmt}
    {switch : UnionPlan × Nat → List Stmt}
    (hblock : block = first :: (numberedUnions plan.unions).flatMap switch ++ [last])
    {case : FieldPlan → Case} {unknown : UnionPlan → Stmt}
    (hswitch : ∀ union i, switch (union, i) =
      unionSwitch union ((membersOf plan.fields i).map case) (unknown union)) :
    ∃ cases, .typeSwitch "x" (.select (.name "m") union.name) cases ∈ block ∧ case p ∈ cases := by
  have hnumbered : (union, i) ∈ numberedUnions plan.unions :=
    mem_numberedUnions_iff.mpr (Option.join_eq_some_iff.mp (unionAt_eq_ok.mp hunion))
  have hcase : case p ∈ (membersOf plan.fields i).map case :=
    mem_map_of_mem (mem_filter.mpr ⟨hp, decide_eq_true honeof⟩)
  refine ⟨_, ?_, mem_append_left [.on .nil [], .otherwise [unknown union]] hcase⟩
  rw [hblock]
  refine mem_append_left _ (mem_cons_of_mem _ (mem_flatMap.mpr ⟨_, hnumbered, ?_⟩))
  rw [hswitch]
  exact mem_cons_of_mem _ (mem_singleton.mpr rfl)

theorem readerVariables_subset (kind : FieldKind) : readerVariables kind ⊆ unionVariables := by
  unfold readerVariables
  split <;> decide

theorem roots_visible {t : FieldType} (h : b.setup.elementType b.file p.field p.kind = .ok t)
    (hvisible : ∀ q ∈ t.type.packages, q ∉ readerVariables p.kind) :
    ∀ n ∈ t.type.roots, n ∉ readerVariables p.kind := by
  intro n hn hmem
  rcases elementType_roots h n hn with hpackage | hapart
  · exact hvisible n hpackage hmem
  · exact hapart (readerVariables_subset _ hmem)

section Source

variable {part : Part} (e : MessageSource b id part)

theorem MessageSource.wrapperDecl_mem (hp : p ∈ e.plan.fields) (honeof : p.oneof.isSome = true) :
    wrapperDecl p ∈ part.decls := by
  obtain ⟨sh⟩ := e.shaping
  have hmem : wrapperDecl p ∈ e.plan.oneofMembers.map wrapperDecl :=
    mem_map_of_mem (mem_filter.mpr ⟨hp, honeof⟩)
  refine mem_of_mem_filter (p := isShaping) ?_
  rw [sh.decls]
  simp only [mem_append, mem_cons]
  tauto

theorem MessageSource.exists_reader (honeofs : (b.schema.message id).proto.oneofs.isEmpty = false) :
    let type := b.messageType id
    ∃ reader, b.readerFunc type e.plan = .ok reader ∧
      ∀ f ∈ [b.writerFunc type e.plan, reader, b.sizerFunc type e.plan],
        Decl.func f ∈ part.decls := by
  obtain ⟨sh⟩ := e.shaping
  obtain ⟨-, reader, hreader, hfuncs⟩ := sh.hfuncs.resolve_left fun h => by simp [honeofs] at h
  refine ⟨reader, hreader, fun f hf => mem_of_mem_filter (p := isShaping) ?_⟩
  rw [sh.decls, hfuncs]
  refine mem_cons_of_mem _ (mem_append_right _ ?_)
  exact mem_map_of_mem (mem_cons_of_mem _ hf)

end Source

variable {Message : TypeExpr → Type} {env : Env Message} {v : Value Message}

/-- The code of a message runs in an environment: the packages have their names there, none of which
is a name of the language, and its declarations are in the package. -/
structure Hosted (b : Binder) (part : Part) (env : Env Message) : Prop where
  proto : env.proto = b.proto
  math : env.math = b.math
  decls : part.decls ⊆ env.decls
  imports : ∀ n ∈ predeclaredNames, n ∉ env.imports

theorem Hosted.sees {part : Part} (h : b.Hosted part env) (hs : ofRequest r = .ok b.setup) :
    b.Sees env [] := by
  obtain ⟨schema, -, -, -, hassign, -⟩ := ofRequest_eq_ok hs
  have hapart : ∀ key ∈ supportPackages, ∀ n ∈ unionVariables, ¬ key.toList <+: n.toList := by
    decide
  have hsupport {key : String} (hkey : key ∈ supportPackages) :
      b.setup.packages.supportName key ∉ unionVariables :=
    supportName_notMem hassign hkey (hapart key hkey)
  exact ⟨h.proto, h.math, ⟨hsupport (by decide), hsupport (by decide)⟩, by simp, h.imports⟩

/-- A value of a member of a union is written as a key and what belongs to it, measured by its
length, and read as it was, up to the end of what was written. -/
theorem messagePart_members_roundTrip {r : Request} {part : Part}
    (hs : ofRequest r = .ok b.setup) (hpart : b.messagePart id = .ok part)
    (hplan : b.planMessage id = .ok plan)
    (honeofs : (b.schema.message id).proto.oneofs.isEmpty = false)
    (hnumbers : ((b.schema.message id).proto.fields.map (·.numberValue)).Nodup)
    (henv : b.Hosted part env) (hrun : env.runtime.Lawful) (hp : p ∈ plan.fields)
    {i : Nat} (honeof : p.oneof = some i) (hsingle : p.field.isRepeated = false)
    (hmap : p.map = none) (hnumber : IsFieldNumber p.field.numberValue)
    (hvisible : ∀ q ∈ p.type.packages, q ∉ readerVariables p.kind) (hv : v.HasType p.type) :
    let type := camelCaseScope (b.schema.message id).typeName
    let writer := b.writerFunc type plan
    let sizer := b.sizerFunc type plan
    let wire := p.fieldType.wire.wireType
    ∃ reader union bytes,
      b.readerFunc type plan = .ok reader ∧ unionAt plan.unions i = .ok union ∧
      (∀ f ∈ [writer, reader, sizer], Decl.func f ∈ part.decls) ∧
      (∃ cases, .typeSwitch "x" (.select (.name "m") union.name) cases ∈ writer.block ∧
        b.writeCase p ∈ cases) ∧
      (∃ cases, .typeSwitch "x" (.select (.name "m") union.name) cases ∈ sizer.block ∧
        b.sizeCase p ∈ cases) ∧
      (∀ buffer, writer.marshal env (b.writeCase p) p.wrapper v buffer =
        some (buffer.bytes bytes)) ∧
      (∀ n, sizer.measure env (b.sizeCase p) p.wrapper v n =
        some (n + Int64.ofNat bytes.length)) ∧
      ∀ before rest : List UInt8, (before ++ bytes ++ rest).length < UInt64.size →
        ∃ next, (Cursor.between before (bytes ++ rest)).key =
            (.ok (p.field.numberValue, wire), next) ∧
          reader.unmarshal env p.field.numberValue wire next =
            some ([.value (.bool true), .error none], [(union.name, .wrapper p.wrapper v)],
              .between (before ++ bytes) rest) := by
  obtain ⟨e⟩ := messagePart_eq_ok hpart
  cases e.hplan.symm.trans hplan
  obtain ⟨reader, hreader, hfuncs⟩ := e.exists_reader honeofs
  obtain ⟨union, hunion⟩ := exists_unionAt hreader hp honeof
  have hmember : p.oneof.isSome = true := by rw [honeof, Option.isSome_some]
  have hmade := planMessage_made hplan p hp
  obtain ⟨t, ht, htype⟩ := elementType_of_made hmade hmember hsingle hmap
  have hholds : p.kind.Holds p.type v := htype ▸ elementType_holds ht (htype ▸ hv)
  have hroots : ∀ n ∈ p.type.roots, n ∉ readerVariables p.kind :=
    htype ▸ roots_visible ht (htype ▸ hvisible)
  have hsees := henv.sees hs
  have hwrapper : wrapperDecl p ∈ env.decls :=
    henv.decls (e.wrapperDecl_mem hp hmember)
  have hnumbers' : (e.plan.fields.map (·.field.numberValue)).Nodup := by
    rw [← planMessage_fields hplan, map_map] at hnumbers
    exact hnumbers
  refine ⟨reader, union, memberBytes env.runtime p v, hreader, hunion, hfuncs,
    exists_mem_switches hunion hp honeof rfl fun _ _ => rfl,
    exists_mem_switches hunion hp honeof rfl fun _ _ => rfl,
    marshal_writeCase hsees hholds hwrapper hnumber, measure_sizeCase hsees hholds hwrapper hrun,
    ?_⟩
  intro before rest hroom
  rw [memberBytes, append_assoc]
  refine ⟨_, Cursor.key_between hnumber before _ _, ?_⟩
  rw [← append_assoc]
  exact unmarshal_readerFunc hsees hholds hwrapper hrun hnumber hreader hnumbers' hp honeof hunion
    (wrapper_notMem hmade hmember) hroots (by simpa [memberBytes] using hroom)

section Samples

/-- Messages that hold one number, in their first field. -/
def numberRuntime : Runtime fun _ => UInt64 where
  zero _ := 0
  encode m := Varint.encode (makeKey 1 .varint) ++ Varint.encode m
  decode _ bs := do
    let (_, key) ← Varint.decode? bs
    let (m, _) ← Varint.decode? (bs.drop key)
    return m
  decodeGroup _ bs := do
    let (_, key) ← Varint.decode? bs
    let (m, count) ← Varint.decode? (bs.drop key)
    let (_, last) ← Varint.decode? (bs.drop (key + count))
    return (m, key + count + last)
  size m := Varint.size (makeKey 1 .varint) + Varint.size m

theorem numberRuntime_lawful : numberRuntime.Lawful := by
  have hsize (v : UInt64) : Varint.size v = (Varint.encode v).length :=
    (Varint.length_encode v).symm
  refine ⟨fun m => ?_, fun m number rest _ => ?_, fun m => ?_⟩
  · have hm : Varint.decode? (Varint.encode m) = some (m, Varint.size m) := by
      simpa using Varint.decode?_encode m []
    simp [numberRuntime, Varint.decode?_encode, hsize, hm]
  · simp [numberRuntime, Varint.decode?_encode, hsize, Nat.add_assoc]
  · simp [numberRuntime, hsize]

/-- A message with one member of a union, and a package with an enum. -/
def memberRequest (package : String) (kind : Int32) (typeName : String) : Request where
  filesToGenerate := ["c.proto"]
  files :=
    [{ name := some "a.proto", package := some package
       enums := [{ name := some "E", values := [{ name := some "E_ZERO", number := some 0 }] }] },
     { name := some "c.proto", package := some "c", dependencies := ["a.proto"]
       messages :=
        [{ name := some "M"
           fields :=
             [{ name := some "f", number := some 1, label := some 1, kind := some kind,
                typeName := some typeName, oneofIndex := some 0 }]
           nested :=
             [{ name := some "TableEntry"
                fields :=
                  [{ name := some "key", number := some 1, label := some 1, kind := some 9 },
                   { name := some "value", number := some 2, label := some 1, kind := some 9 }]
                options := some { mapEntry := some true } }]
           oneofs := [{ name := some "u" }] }] }]

def memberBinder (r : Request) : Binder := ⟨setupOf r, ⟨1⟩, []⟩

def memberPart (r : Request) : Part :=
  ((memberBinder r).messagePart ⟨0⟩).toOption.getD {}

def memberPlan (r : Request) : MessagePlan :=
  ((memberBinder r).planMessage ⟨0⟩).toOption.getD { unions := [] }

def memberReader (r : Request) : Func :=
  ((memberBinder r).readerFunc "M" (memberPlan r)).toOption.getD { name := "", body := .empty }

def memberEnv (r : Request) : Env fun _ => UInt64 where
  runtime := numberRuntime
  proto := (memberBinder r).proto
  math := (memberBinder r).math
  imports := (memberPart r).uses
  decls := (memberPart r).decls

/-- What can be evaluated to see that the sample of a request is what it should be. -/
def hasMember (r : Request) : Bool :=
  (ofRequest r).isOk && ((memberBinder r).messagePart ⟨0⟩).isOk &&
    ((memberBinder r).planMessage ⟨0⟩).isOk &&
    ((memberBinder r).readerFunc "M" (memberPlan r)).isOk && (memberPlan r).fields.length = 1

theorem exists_member (h : hasMember r = true) :
    ofRequest r = .ok (memberBinder r).setup ∧
    (memberBinder r).messagePart ⟨0⟩ = .ok (memberPart r) ∧
    (memberBinder r).planMessage ⟨0⟩ = .ok (memberPlan r) ∧
    (memberBinder r).readerFunc "M" (memberPlan r) = .ok (memberReader r) ∧
    ∃ p, (memberPlan r).fields = [p] := by
  simp only [hasMember, Bool.and_eq_true, decide_eq_true_eq] at h
  obtain ⟨⟨⟨⟨hsetup, hpart⟩, hplan⟩, hreader⟩, hlength⟩ := h
  exact ⟨eq_ok_of_isOk default hsetup, eq_ok_of_isOk _ hpart, eq_ok_of_isOk _ hplan,
    eq_ok_of_isOk _ hreader, length_eq_one_iff.mp hlength⟩

/-- What the member becomes if it is written and read again. -/
def passed (r : Request) (p : FieldPlan) (v : Value fun _ => UInt64) :
    Option (List (Operand fun _ => UInt64) × List (String × Operand fun _ => UInt64) ×
      Cursor) := do
  let writer := (memberBinder r).writerFunc "M" (memberPlan r)
  let out ← writer.marshal (memberEnv r) ((memberBinder r).writeCase p) p.wrapper v {}
  match (Cursor.between [] out.data).key with
  | (.ok (number, wire), next) => (memberReader r).unmarshal (memberEnv r) number wire next
  | _ => none

/-- A single entry of a map, and types from packages whose names are hidden or hide others. -/
def lostMembers : List (Request × Value fun _ => UInt64) :=
  [(memberRequest "a" 11 ".c.M.TableEntry", .map (.name "string") (.name "string")),
   (memberRequest "m" 14 ".m.E", .enum (.qualified "m" "E") 1),
   (memberRequest "uint64" 14 ".uint64.E", .enum (.qualified "uint64" "E") 1)]

/-- None of these three members is read as it was written. -/
theorem members_lost : lostMembers.length = 3 ∧ ∀ c ∈ lostMembers,
    ofRequest c.1 = .ok (memberBinder c.1).setup ∧
    (memberBinder c.1).messagePart ⟨0⟩ = .ok (memberPart c.1) ∧
    (memberBinder c.1).planMessage ⟨0⟩ = .ok (memberPlan c.1) ∧
    (memberBinder c.1).readerFunc "M" (memberPlan c.1) = .ok (memberReader c.1) ∧
    ∃ p, (memberPlan c.1).fields = [p] ∧ p.oneof = some 0 ∧ p.field.isRepeated = false ∧
      p.field.numberValue = 1 ∧ c.2.HasType p.type ∧ passed c.1 p c.2 = none := by
  have hmember : ∀ c ∈ lostMembers, hasMember c.1 = true := by decide +kernel
  have hlost : ∀ c ∈ lostMembers, ∀ p ∈ (memberPlan c.1).fields,
      p.oneof = some 0 ∧ p.field.isRepeated = false ∧ p.field.numberValue = 1 ∧
      c.2.type = p.type ∧ (passed c.1 p c.2).isNone = true := by
    decide +kernel
  have hsound : ∀ c ∈ lostMembers, c.2.IsSound := by
    simp [lostMembers, Value.IsSound, TypeExpr.isDeclared]
  refine ⟨rfl, fun c hc => ?_⟩
  obtain ⟨hsetup, hpart, hplan, hreader, p, hp⟩ := exists_member (hmember c hc)
  have hfields := hlost c hc
  rw [hp, forall_mem_singleton] at hfields
  obtain ⟨honeof, hsingle, hnumber, htype, hnone⟩ := hfields
  exact ⟨hsetup, hpart, hplan, hreader, p, hp, honeof, hsingle, hnumber, ⟨htype, hsound c hc⟩,
    Option.isNone_iff_eq_none.mp hnone⟩

/-- A member that is an enum of another package. -/
def enumRequest : Request := memberRequest "a" 14 ".a.E"

theorem messagePart_members_roundTrip_enum :
    ∃ p, (memberPlan enumRequest).fields = [p] ∧
      passed enumRequest p (.enum (.qualified "a" "E") (-1)) =
        some ([.value (.bool true), .error none],
          [("U", .wrapper "M_F" (.enum (.qualified "a" "E") (-1)))],
          .between [8, 255, 255, 255, 255, 255, 255, 255, 255, 255, 1] []) := by
  have hmember : hasMember enumRequest = true := by decide +kernel
  obtain ⟨hsetup, hpart, hplan, hreader, p, hp⟩ := exists_member hmember
  have hM : camelCaseScope ((memberBinder enumRequest).schema.message ⟨0⟩).typeName = "M" := by
    decide +kernel
  have hU : ∀ union ∈ (unionAt (memberPlan enumRequest).unions 0).toOption, union.name = "U" := by
    decide +kernel
  have hfields : ∀ p ∈ (memberPlan enumRequest).fields, p.oneof = some 0 ∧
      p.field.isRepeated = false ∧ p.map.isNone = true ∧ p.field.numberValue = 1 ∧
      p.type = .qualified "a" "E" ∧ p.kind = .enum ∧ p.wrapper = "M_F" := by
    decide +kernel
  have hout : ∀ p ∈ (memberPlan enumRequest).fields,
      (((memberBinder enumRequest).writerFunc "M" (memberPlan enumRequest)).marshal
        (memberEnv enumRequest) ((memberBinder enumRequest).writeCase p) p.wrapper
        (.enum (.qualified "a" "E") (-1)) {}).map (·.data) =
          some [8, 255, 255, 255, 255, 255, 255, 255, 255, 255, 1] := by
    decide +kernel
  have henv : (memberBinder enumRequest).Hosted (memberPart enumRequest)
      (memberEnv enumRequest) :=
    ⟨rfl, rfl, Subset.refl _, by decide +kernel⟩
  rw [hp, forall_mem_singleton] at hfields hout
  obtain ⟨honeof, hsingle, hmap, hnumber, htype, hkind, hwrapper⟩ := hfields
  obtain ⟨reader, union, bytes, hreader', hunion, -, -, -, hwrite, -, hread⟩ :=
    messagePart_members_roundTrip hsetup hpart hplan (by decide +kernel) (by decide +kernel) henv
      numberRuntime_lawful (hp ▸ mem_singleton.mpr rfl) honeof hsingle
      (Option.isNone_iff_eq_none.mp hmap) (by rw [hnumber]; exact ⟨by decide, by decide⟩)
      (by rw [htype, hkind]; decide)
      (show (Value.enum (.qualified "a" "E") (-1)).HasType p.type from ⟨htype.symm, rfl⟩)
  rw [hM] at hreader' hwrite
  cases hreader'.symm.trans hreader
  have hbytes : bytes = [8, 255, 255, 255, 255, 255, 255, 255, 255, 255, 1] := by
    rw [hwrite] at hout
    exact Option.some.inj hout
  obtain ⟨next, hkey, hnext⟩ := hread [] [] (by rw [hbytes]; decide)
  rw [append_nil] at hkey
  refine ⟨p, hp, ?_⟩
  have hdata : (Buffer.bytes {} bytes).data = bytes := rfl
  rw [hU union (by rw [hunion]; rfl), hwrapper] at hnext
  simp only [passed, hwrite, Option.bind_eq_bind, Option.bind_some, hdata, hkey]
  rw [hnext, hbytes]
  rfl

end Samples

end Binder

end GoBindings
