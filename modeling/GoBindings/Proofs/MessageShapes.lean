import GoBindings.Proofs.Members
import GoBindings.Proofs.UnionCodec

/-!
# The shape of messages

A message declares for its fields, in order, a member of the struct, or a union at the place of its
first member, and a getter. For every oneof with members it declares an interface and a getter, and
for every member a wrapper, a marker and a case in each of the functions for unions.
-/

namespace GoBindings

open List Schema Go Descriptor Binder

namespace Go

/-- A struct with all that stands in it but comments. -/
def Decl.structs : Decl → List (String × List Member)
  | .struct name members => [(name, members.filter (·.isCode))]
  | _ => []

def Decl.interfaces : Decl → List (String × String)
  | .interface name method => [(name, method)]
  | _ => []

def Decl.wrappers : Decl → List (String × String × TypeExpr)
  | .wrapper name field type _ => [(name, field, type)]
  | _ => []

def Decl.funcs : Decl → List Func
  | .func f => [f]
  | _ => []

def Case.label? : Case → Option Expr
  | .on label _ | .onNoted label _ _ => some label
  | .otherwise _ => none

/-- What a statement switches on, and the labels of its cases. -/
def Stmt.switch? : Stmt → Option (Expr × List Expr)
  | .typeSwitch _ subject cases | .switchOn subject cases =>
    some (subject, cases.filterMap Case.label?)
  | _ => none

def Func.switches (f : Func) : List (Expr × List Expr) :=
  match f.body with
  | .block body => body.filterMap Stmt.switch?
  | _ => []

def Func.isGetter (f : Func) : Bool := "Get".toList.isPrefixOf f.name.toList

theorem Func.isGetter_append {f : Func} {name : String} (h : f.name = "Get" ++ name) :
    f.isGetter = true := by
  rw [isGetter, h, String.toList_append]
  exact isPrefixOf_iff_prefix.mpr (prefix_append _ _)

end Go

namespace MessagePlan

/-- The switches of a function that tells the members of unions apart: one for each union, with a
case for each of its members and one for none. -/
def unionSwitches (plan : MessagePlan) : List (Expr × List Expr) :=
  (numberedUnions plan.unions).map fun (u, i) =>
    (.select (.name "m") u.name, (plan.fields.filter fun p => p.oneof = some i).map (fun p =>
      Expr.type (.pointer (.name p.wrapper))) ++ [.nil])

end MessagePlan

/-- What the declarations of a message are for the plans of its fields. -/
structure MessageShape (m : MessageNode) (plan : MessagePlan) (decls : List Decl) : Prop where
  /-- The plans are those of the fields, in order. -/
  fields : plan.fields.map (·.field) = m.proto.fields
  oneof : ∀ p ∈ plan.fields, p.oneof = p.field.oneofIndex.map position
  /-- The unions are those of the oneofs with a member, in order. -/
  unions : (numberedUnions plan.unions).map (·.2) =
    (List.range m.proto.oneofs.length).filter fun i => plan.fields.any fun p => p.oneof = some i
  names : ∀ u ∈ numberedUnions plan.unions, ∃ o, m.proto.oneofs[u.2]? = some o ∧
    u.1.schemaName = o.name.getD ""
  struct : ∃ members runtime,
    decls.flatMap Decl.structs = [(camelCaseScope m.typeName, members ++ runtime)] ∧
      members.map some = (MessagePlan.placed plan.fields).map plan.member? ∧
      (runtime.map Member.name?).Sublist [some "XXX_InternalExtensions", some "XXX_unrecognized"]
  interfaces : decls.flatMap Decl.interfaces =
    (numberedUnions plan.unions).map fun u => (u.1.interface, u.1.interface)
  wrappers : decls.flatMap Decl.wrappers =
    plan.oneofMembers.map fun p => (p.wrapper, p.name, p.type)
  /-- All methods of other types are markers, each of the union that the member belongs to. -/
  markers : ((decls.flatMap Decl.funcs).filter fun f =>
      f.owner?.any (· ≠ camelCaseScope m.typeName)).map (fun f => (f.owner?, some f.name)) =
    plan.oneofMembers.map fun p => (some p.wrapper, (plan.unionOf? p).map (·.interface))
  getters : ((decls.flatMap Decl.funcs).filter fun f =>
      f.owner? = some (camelCaseScope m.typeName) && f.isGetter).map
        (fun f => (f.name, f.results)) =
    (numberedUnions plan.unions).map (fun u =>
      ("Get" ++ u.1.name, Results.one (.type (.name u.1.interface)))) ++
    plan.fields.map fun p => (p.getter, .one (.type (getterType p)))
  /-- The functions that are no methods are those for unions. -/
  functions : ((decls.flatMap Decl.funcs).filter (·.owner?.isNone)).map (fun f =>
      (f.name, f.switches)) =
    if m.proto.oneofs.isEmpty then []
    else
      [(writerName (camelCaseScope m.typeName), plan.unionSwitches),
       (readerName (camelCaseScope m.typeName), [(.name "tag",
         plan.oneofMembers.map fun p => .int p.field.numberValue.toInt)]),
       (sizerName (camelCaseScope m.typeName), plan.unionSwitches)]

namespace Binder

variable {b : Binder} {id : MessageId} {m : MessageNode} {type : String} {plan : MessagePlan}

theorem planMessage_schemaNames (h : b.planMessage id = .ok plan) :
    ∀ u ∈ numberedUnions plan.unions, ∃ o, (b.schema.message id).proto.oneofs[u.2]? = some o ∧
      u.1.schemaName = o.name.getD "" := by
  refine foldlM_invariant (P := fun plan => ∀ u ∈ numberedUnions plan.unions,
    ∃ o, (b.schema.message id).proto.oneofs[u.2]? = some o ∧ u.1.schemaName = o.name.getD "") h
    (fun u hu => ?_) fun plan field plan' _ hplan hstep u hu => ?_
  · rw [mem_numberedUnions_iff, getElem?_map] at hu
    simp at hu
  · simp only [planField, steps_eq_ok] at hstep
    obtain ⟨_, -, _, -, _, -, ⟨_, next⟩, hunion, _, -, rfl⟩ := hstep
    obtain ⟨-, -, hunions⟩ := planUnion_eq_ok hunion
    rcases hunions with heq | ⟨i, o, k, ho, heq⟩
    · exact hplan u (heq ▸ hu)
    · rw [mem_numberedUnions_iff] at hu
      by_cases hi : i = u.2
      · have hset : (plan.unions.set i (some _))[u.2]? = some (some u.1) := heq ▸ hu
        rw [hi, getElem?_set_self'] at hset
        obtain ⟨_, -, hset⟩ := Option.map_eq_some_iff.mp hset
        refine ⟨o, hi ▸ ho, ?_⟩
        rw [← Option.some.inj hset]
      · rw [show next.unions[u.2]? = plan.unions[u.2]? by
          rw [heq, getElem?_set_ne hi]] at hu
        exact hplan u (mem_numberedUnions_iff.mpr hu)

section Views

private theorem views_plain {d : Decl} (h : isShaping d = false) :
    d.structs = [] ∧ d.interfaces = [] ∧ d.wrappers = [] ∧ d.funcs = [] := by
  cases d with
  | struct | wrapper | interface | func => cases h
  | _ => exact ⟨rfl, rfl, rfl, rfl⟩

private theorem switches_unions (case : FieldPlan → Case) (unknown : UnionPlan × Nat → Stmt)
    (hcase : ∀ p, (case p).label? = some (.type (.pointer (.name p.wrapper)))) {first last : Stmt}
    (hfirst : first.switch? = none) (hlast : last.switch? = none) :
    (first :: (numberedUnions plan.unions).flatMap (fun u =>
      unionSwitch u.1 ((membersOf plan.fields u.2).map case) (unknown u)) ++ [last]).filterMap
        Stmt.switch? = plan.unionSwitches := by
  have hlabels (u : UnionPlan × Nat) :
      (unionSwitch u.1 ((membersOf plan.fields u.2).map case) (unknown u)).filterMap Stmt.switch? =
        [(.select (.name "m") u.1.name, (plan.fields.filter fun p => p.oneof = some u.2).map
          (fun p => Expr.type (.pointer (.name p.wrapper))) ++ [.nil])] := by
    have hcases : ((membersOf plan.fields u.2).map case).filterMap Case.label? =
        (membersOf plan.fields u.2).map fun p => Expr.type (.pointer (.name p.wrapper)) := by
      rw [filterMap_map, ← filterMap_eq_map]
      exact filterMap_congr fun p _ => hcase p
    simp only [unionSwitch, filterMap_cons, Stmt.switch?, filterMap_append, hcases]
    rfl
  rw [filterMap_append, filterMap_cons_none hfirst, filterMap_cons_none hlast,
    filterMap_nil, append_nil, filterMap_flatMap, MessagePlan.unionSwitches,
    map_eq_flatMap]
  exact flatMap_congr fun u _ => hlabels u

private theorem switches_readerFunc {reader : Func} (h : b.readerFunc type plan = .ok reader) :
    reader.switches = [(.name "tag",
      plan.oneofMembers.map fun p => .int p.field.numberValue.toInt)] := by
  simp only [readerFunc, steps_eq_ok] at h
  obtain ⟨cases, hcases, rfl⟩ := h
  have hlabels {ps : List FieldPlan} {cases : List (List Case)}
      (h : List.Forall₂ (fun p cs => b.readCase plan.unions p = .ok cs) ps cases) :
      cases.flatten.filterMap Case.label? = (ps.filter (·.oneof.isSome)).map fun p =>
        Expr.int p.field.numberValue.toInt := by
    induction h with
    | nil => rfl
    | @cons p cs ps cases hp _ ih =>
      rw [flatten_cons, filterMap_append, ih]
      rcases readCase_eq_ok hp with ⟨hnone, rfl⟩ | ⟨i, u, hi, -, rfl⟩
      · simp [hnone]
      · rw [filter_cons_of_pos (by simp [hi])]
        rfl
  have hcases := hlabels (mapM_eq_ok hcases)
  simp only [Func.switches, funcOf, filterMap_cons, Stmt.switch?,
    filterMap_append, hcases, Case.label?, filterMap_nil, append_nil]
  rfl

variable {part : Part} {e : MessageSource b id part} (sh : e.Shaping type)

include sh

private theorem MessageSource.Shaping.structs : part.decls.flatMap Decl.structs =
    (Decl.struct type sh.members).structs := by
  rw [sh.flatMap_decls fun d hd => (views_plain hd).1]
  simp [Decl.structs, wrapperDecl, flatMap_nothing]

private theorem MessageSource.Shaping.interfaces : part.decls.flatMap Decl.interfaces =
    (numberedUnions e.plan.unions).map fun u => (u.1.interface, u.1.interface) := by
  rw [sh.flatMap_decls fun d hd => (views_plain hd).2.1]
  simp [Decl.interfaces, wrapperDecl, flatMap_nothing, map_eq_flatMap]

private theorem MessageSource.Shaping.wrappers : part.decls.flatMap Decl.wrappers =
    e.plan.oneofMembers.map fun p => (p.wrapper, p.name, p.type) := by
  rw [sh.flatMap_decls fun d hd => (views_plain hd).2.2.1]
  simp [Decl.wrappers, wrapperDecl, flatMap_nothing, map_eq_flatMap]

private theorem MessageSource.Shaping.funcs_eq : part.decls.flatMap Decl.funcs =
    sh.fixed ++ sh.markers ++ (numberedUnions e.plan.unions).map (fun u => unionGetter type u.1) ++
      sh.getters ++ sh.funcs := by
  rw [sh.flatMap_decls fun d hd => (views_plain hd).2.2.2]
  simp [Decl.funcs, wrapperDecl, flatMap_nothing, map_eq_flatMap]

end Views

section Methods

variable {part : Part} {e : MessageSource b id part} (sh : e.Shaping type)

theorem IsUnionFuncs.owners {fs : List Func} (h : b.IsUnionFuncs m type plan fs) :
    (∀ f ∈ fs, f.owner? = none ∨ f.owner? = some type ∧ f.isGetter = false) ∧
    (fs.filter (·.owner?.isNone)).map (fun f => (f.name, f.switches)) =
      if m.proto.oneofs.isEmpty then []
      else
        [(writerName type, plan.unionSwitches),
         (readerName type, [(.name "tag",
           plan.oneofMembers.map fun p => .int p.field.numberValue.toInt)]),
         (sizerName type, plan.unionSwitches)] := by
  rcases h with ⟨hempty, rfl⟩ | ⟨hempty, reader, hreader, rfl⟩
  · simp [hempty]
  · have hswitches := switches_readerFunc hreader
    obtain ⟨cases, -, hreader⟩ := bind_eq_ok.mp hreader
    have hname : reader.owner? = none ∧ reader.name = readerName type := by
      rw [← pure_eq_ok.mp hreader]
      exact ⟨rfl, rfl⟩
    have hwriter : (b.writerFunc type plan).switches = plan.unionSwitches := by
      simp only [Func.switches]
      refine switches_unions b.writeCase _ (fun _ => rfl) ?_ ?_ <;> rfl
    have hsizer : (b.sizerFunc type plan).switches = plan.unionSwitches := by
      simp only [Func.switches]
      refine switches_unions b.sizeCase _ (fun _ => rfl) ?_ ?_ <;> rfl
    constructor
    · simp only [forall_mem_cons, not_mem_nil]
      exact ⟨.inr ⟨rfl, (by decide : "Get".toList.isPrefixOf "XXX_OneofFuncs".toList = false)⟩,
        .inl rfl, .inl hname.1, .inl rfl, fun _ h => h.elim⟩
    · have hmethod : (b.unionFuncs type (b.sizerType (.named "n" (.name "int")))
          plan.oneofMembers).owner?.isNone = false := rfl
      have hwriterOwner : (b.writerFunc type plan).owner?.isNone = true := rfl
      have hsizerOwner : (b.sizerFunc type plan).owner?.isNone = true := rfl
      simp only [filter_cons, hmethod, hwriterOwner, hname.1, hsizerOwner,
        Option.isNone_none, Bool.false_eq_true, if_false, if_true, map_cons, hwriter, hswitches,
        hname.2, hsizer, hempty]
      rfl

/-- Whose methods the functions are that a message declares. -/
structure MessageSource.Shaping.Owned (sh : e.Shaping type) : Prop where
  fixed : ∀ f ∈ sh.fixed, f.owner? = some type ∧ f.isGetter = false
  markers : ∀ f ∈ sh.markers, ∃ n, f.owner? = some n ∧ n ≠ type
  getters : ∀ f ∈ sh.getters, f.owner? = some type ∧ f.isGetter = true
  funcs : ∀ f ∈ sh.funcs, f.owner? = none ∨ f.owner? = some type ∧ f.isGetter = false

include sh

private theorem MessageSource.Shaping.owned : sh.Owned where
  fixed f hf := by
    obtain ⟨methods, runtime, hmethods, hruntime, hfixed⟩ := sh.hfixed
    obtain ⟨name, hname, heq⟩ := mem_map.mp (hfixed.subset (mem_map_of_mem hf))
    obtain ⟨howner, rfl⟩ := Prod.mk.inj heq
    have hnames : ∀ n ∈ messageMethods ++ ["XXX_WellKnownType", "MarshalJSON", "UnmarshalJSON"],
        "Get".toList.isPrefixOf n.toList = false := by decide
    exact ⟨howner.symm, hnames _ ((hmethods.append hruntime).subset hname)⟩
  markers f hf := by
    obtain ⟨p, hp, hmarker⟩ := exists_of_mem_forall₂ sh.hmarkers.flip hf
    obtain ⟨hp, hsome⟩ := mem_filter.mp hp
    exact ⟨p.wrapper, hmarker.1, sh.htype ▸ e.wrapper_ne hp hsome⟩
  getters f hf := by
    obtain ⟨p, hp, howner, hname, -⟩ := exists_of_mem_forall₂ sh.hgetters.flip hf
    have hgetter := (planMessage_named e.hplan).getter p hp
    exact ⟨howner, Func.isGetter_append (hname.trans hgetter)⟩
  funcs := sh.hfuncs.owners.1

private theorem MessageSource.Shaping.otherMethods :
    ((part.decls.flatMap Decl.funcs).filter fun f => f.owner?.any (· ≠ type)).map
      (fun f => (f.owner?, some f.name)) =
    e.plan.oneofMembers.map fun p => (some p.wrapper, (e.plan.unionOf? p).map (·.interface)) := by
  have howned := sh.owned
  have hmarkers : sh.markers.map (fun f => (f.owner?, some f.name)) = e.plan.oneofMembers.map
      fun p => (some p.wrapper, (e.plan.unionOf? p).map (·.interface)) :=
    map_of_forall₂ (sh.hmarkers.imp fun p f h => by rw [h.1, h.2])
  have hfilter : (part.decls.flatMap Decl.funcs).filter (fun f =>
      f.owner?.any (· ≠ type)) = sh.markers := by
    have hown {fs : List Func} (h : ∀ f ∈ fs, f.owner? = some type) :
        fs.filter (fun f => f.owner?.any (· ≠ type)) = [] :=
      filter_eq_nil_iff.mpr fun f hf => by simp [h f hf]
    rw [sh.funcs_eq]
    simp only [filter_append]
    rw [hown fun f hf => (howned.fixed f hf).1, hown fun f hf => (howned.getters f hf).1,
      hown (forall_mem_map.mpr fun _ _ => rfl), filter_eq_self.mpr ?_,
      filter_eq_nil_iff.mpr ?_]
    · simp
    · intro f hf
      rcases howned.funcs f hf with h | ⟨h, -⟩ <;> simp [h]
    · intro f hf
      obtain ⟨n, hn, hne⟩ := howned.markers f hf
      simpa [hn] using hne
  rw [hfilter, hmarkers]

private theorem MessageSource.Shaping.ownGetters :
    ((part.decls.flatMap Decl.funcs).filter fun f => f.owner? = some type && f.isGetter).map
      (fun f => (f.name, f.results)) =
    (numberedUnions e.plan.unions).map (fun u =>
      ("Get" ++ u.1.name, Results.one (.type (.name u.1.interface)))) ++
    e.plan.fields.map fun p => (p.getter, .one (.type (getterType p))) := by
  have howned := sh.owned
  have hgetters : sh.getters.map (fun f => (f.name, f.results)) =
      e.plan.fields.map fun p => (p.getter, .one (.type (getterType p))) :=
    map_of_forall₂ (sh.hgetters.imp fun p f h => by rw [h.2.1, h.2.2])
  have hfilter : (part.decls.flatMap Decl.funcs).filter (fun f =>
      f.owner? = some type && f.isGetter) =
        (numberedUnions e.plan.unions).map (fun u => unionGetter type u.1) ++ sh.getters := by
    rw [sh.funcs_eq]
    simp only [filter_append]
    rw [filter_eq_nil_iff.mpr ?_, filter_eq_nil_iff.mpr ?_, filter_eq_self.mpr ?_,
      filter_eq_self.mpr ?_, filter_eq_nil_iff.mpr ?_]
    · simp
    · intro f hf
      rcases howned.funcs f hf with h | ⟨-, h⟩ <;> simp [h]
    · intro f hf
      simp [howned.getters f hf]
    · refine forall_mem_map.mpr fun u _ => ?_
      have howner : (unionGetter type u.1).owner? = some type := rfl
      have hgetter : (unionGetter type u.1).isGetter = true := Func.isGetter_append rfl
      simp [howner, hgetter]
    · intro f hf
      obtain ⟨n, hn, hne⟩ := howned.markers f hf
      simp [hn, hne]
    · intro f hf
      simp [howned.fixed f hf]
  rw [hfilter, map_append, hgetters, map_map]
  rfl

theorem MessageSource.Shaping.functions :
    (part.decls.flatMap Decl.funcs).filter (·.owner?.isNone) =
      sh.funcs.filter (·.owner?.isNone) := by
  have howned := sh.owned
  have howner {fs : List Func} (h : ∀ f ∈ fs, ∃ n, f.owner? = some n) :
      fs.filter (·.owner?.isNone) = [] := by
    refine filter_eq_nil_iff.mpr fun f hf => ?_
    obtain ⟨n, hn⟩ := h f hf
    simp [hn]
  rw [sh.funcs_eq]
  simp only [filter_append]
  rw [howner fun f hf => ⟨_, (howned.fixed f hf).1⟩,
    howner fun f hf => (howned.markers f hf).imp fun _ h => h.1,
    howner (forall_mem_map.mpr fun _ _ => ⟨_, rfl⟩),
    howner fun f hf => ⟨_, (howned.getters f hf).1⟩]
  simp

end Methods

section Failures

theorem findsUnions_planMessage (h : b.planMessage id = .ok plan) : FindsUnions .union plan := by
  intro p hp i hi
  obtain ⟨u, hu⟩ := ((planMessage_named h).unions i).mpr ⟨p, hp, hi⟩
  rw [unionAt_eq_ok.mpr (by rw [hu]; rfl)]
  exact notFor_ok u

theorem output_notForUnion (b : Binder) : NotFor .union b.output := by
  have hdeclarations : NotFor .union b.declarations :=
    declarations_notFor fun _ _ h => findsUnions_planMessage h
  have hlayOut (source : String) : NotFor .union (layOut source) := by
    unfold layOut
    split <;> simp
  have houtcome : NotFor .union b.outcome := by
    simp [outcome, hdeclarations, assembled_notFor hdeclarations, hlayOut]
  exact notFor_map.mpr houtcome

theorem generate_notForUnion {σ : Type} (r : Request) (state : σ) :
    NotFor .union (generateWith [] r state).1 := by
  rw [generateWith_nil]
  simp [Setup.ofRequest_notFor, output_notForUnion]

end Failures

/-- A message declares for each field, for each oneof with members and for each of these members
what belongs to it, once and in order. That a oneof has no members is never an error. -/
theorem messagePart_shape (b : Binder) (id : MessageId) :
    (∀ part, b.messagePart id = .ok part → ∃ plan, b.planMessage id = .ok plan ∧
      MessageShape (b.schema.message id) plan part.decls) ∧
    (∀ i, b.messagePart id ≠ .error (.oneofWithoutMembers i)) ∧
    ∀ (r : Request) i, (generateWith [] r ()).1 ≠ .error (.oneofWithoutMembers i) := by
  refine ⟨fun part h => ?_, fun i => ?_, fun r i => generate_notForUnion r () _ rfl⟩
  · obtain ⟨e⟩ := messagePart_eq_ok h
    obtain ⟨sh⟩ := e.shaping
    have hnamed := planMessage_named e.hplan
    refine ⟨e.plan, e.hplan, planMessage_fields e.hplan, hnamed.oneof, ?_,
      planMessage_schemaNames e.hplan, ?_, sh.interfaces, sh.wrappers, sh.otherMethods,
      sh.ownGetters, ?_⟩
    · rw [places_numberedUnions, planMessage_unions e.hplan]
      exact filter_congr fun i _ => isSome_unionAt_iff hnamed i
    · obtain ⟨members, runtime, hcode, hmembers⟩ := code_structDecl (sh.hmembers ▸ e.hstruct)
      exact ⟨members, runtime, by rw [sh.structs, Decl.structs, hcode], hmembers⟩
    · rw [sh.functions]
      exact sh.hfuncs.owners.2
  · exact messagePart_notFor (fun _ hplan => findsUnions_planMessage hplan) _ rfl

/-- A message with two oneofs whose members mix with each other and with other fields, and a oneof
without members between them. -/
def mixedRequest : Request where
  filesToGenerate := ["c.proto"]
  files :=
    [{ name := some "c.proto", package := some "c"
       messages :=
        [{ name := some "M"
           fields :=
             [{ name := some "a", number := some 1, label := some 1, kind := some 5,
                oneofIndex := some 2 },
              { name := some "b", number := some 2, label := some 1, kind := some 9 },
              { name := some "c", number := some 3, label := some 1, kind := some 5,
                oneofIndex := some 0 },
              { name := some "d", number := some 4, label := some 1, kind := some 9,
                oneofIndex := some 2 },
              { name := some "e", number := some 5, label := some 3, kind := some 5 }]
           oneofs := [{ name := some "x" }, { name := some "unused" }, { name := some "y" }] }] }]

/-- The struct has a union where its first member stands, the rest follows the schema. -/
theorem messagePart_shape_mixed :
    (∃ out, (generateWith [] mixedRequest ()).1 = .ok out) ∧
    ∃ part plan, (mk (setupOf mixedRequest) ⟨0⟩ []).messagePart ⟨0⟩ = .ok part ∧
      MessageShape ((setupOf mixedRequest).schema.message ⟨0⟩) plan part.decls ∧
      (MessagePlan.placed plan.fields).map (·.name) = ["A", "B", "C", "E"] ∧
      (part.decls.flatMap Decl.structs).map (fun s => (s.1, s.2.filterMap Member.name?)) =
        [("M", ["Y", "B", "X", "E", "XXX_unrecognized"])] ∧
      part.decls.flatMap Decl.interfaces = [("isM_X", "isM_X"), ("isM_Y", "isM_Y")] ∧
      plan.oneofMembers.map (fun p => (p.wrapper, (plan.unionOf? p).map (·.interface))) =
        [("M_A", some "isM_Y"), ("M_C", some "isM_X"), ("M_D", some "isM_Y")] := by
  have hchecked : mixedRequest.Checked := by decide +kernel
  have hparts : ∃ part ∈ ((mk (setupOf mixedRequest) ⟨0⟩ []).messagePart ⟨0⟩).toOption,
      (part.decls.flatMap Decl.structs).map (fun s => (s.1, s.2.filterMap Member.name?)) =
        [("M", ["Y", "B", "X", "E", "XXX_unrecognized"])] := by
    decide +kernel
  have hplans : ∀ plan ∈ ((mk (setupOf mixedRequest) ⟨0⟩ []).planMessage ⟨0⟩).toOption,
      (MessagePlan.placed plan.fields).map (·.name) = ["A", "B", "C", "E"] ∧
      (numberedUnions plan.unions).map (fun u => (u.1.interface, u.1.interface)) =
        [("isM_X", "isM_X"), ("isM_Y", "isM_Y")] ∧
      plan.oneofMembers.map (fun p => (p.wrapper, (plan.unionOf? p).map (·.interface))) =
        [("M_A", some "isM_Y"), ("M_C", some "isM_X"), ("M_D", some "isM_Y")] := by
    decide +kernel
  obtain ⟨part, hpart, hstruct⟩ := hparts
  have hpart := eq_ok_of_toOption hpart
  obtain ⟨plan, hplan, hshape⟩ := (messagePart_shape _ _).1 part hpart
  obtain ⟨hplaced, hunions, hmembers⟩ := hplans plan (by rw [hplan]; rfl)
  exact ⟨generate_of_checked hchecked, part, plan, hpart, hshape, hplaced, hstruct,
    hshape.interfaces.trans hunions, hmembers⟩

end Binder

end GoBindings

