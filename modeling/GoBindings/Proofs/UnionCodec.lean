import GoBindings.Proofs.Execution
import GoBindings.Proofs.Messages
import GoBindings.Proofs.WireValues

/-!
# The members of unions are written, measured and read alike
-/

namespace GoBindings

open List Schema Go Wire Cursor

variable {kind : FieldKind}

section Words

@[simp] theorem toUInt32_signExtend (v : Int32) : v.toInt64.toUInt64.toUInt32 = v.toUInt32 := by
  apply UInt32.toBitVec_inj.mp
  ext i hi
  simp [BitVec.getElem_signExtend, hi, show i < 64 by omega]

theorem zigzag32_eq (v : Int32) :
    (v.toUInt32 <<< 1) ^^^ (v >>> 31).toUInt32 = ZigZag.encode32 v := by
  apply UInt32.toBitVec_inj.mp
  simp [ZigZag.encode32]

theorem zigzag64_eq (v : Int64) :
    (v <<< 1).toUInt64 ^^^ (v >>> 63).toUInt64 = ZigZag.encode64 v := by
  simp [ZigZag.encode64]

end Words

namespace Go

variable {Message : TypeExpr → Type} {env : Env Message} {scope : Scope Message}

/-- The runtime reads the messages that it wrote, and knows their size. -/
structure Runtime.Lawful (run : Runtime Message) : Prop where
  decode_encode : ∀ {t : TypeExpr} (m : Message t), run.decode t (run.encode m) = some m
  decodeGroup_encode : ∀ {t : TypeExpr} (m : Message t) {number : Int32} (rest : List UInt8),
    IsFieldNumber number →
    run.decodeGroup t
        (run.encode m ++ Varint.encode (makeKey number .endGroup) ++ rest) =
      some (m, (run.encode m ++ Varint.encode (makeKey number .endGroup)).length)
  size_eq : ∀ {t : TypeExpr} (m : Message t), run.size m = (run.encode m).length

/-- A call on a buffer adds bytes to it. -/
def Runtime.Writes (run : Runtime Message) (method : String) (x : Operand Message)
    (bytes : List UInt8) : Prop :=
  ∃ write, run.write? method x = some write ∧ ∀ buffer : Buffer,
    write buffer = buffer.bytes bytes

/-- The bytes of a value after its key. -/
def Value.payload (run : Runtime Message) (kind : FieldKind) (number : Int32) :
    Value Message → List UInt8
  | .float64 bits => Fixed.encode64 bits
  | .float32 bits => Fixed.encode32 bits
  | .int64 v =>
    match kind with
    | .sfixed64 => Fixed.encode64 v.toUInt64
    | .sint64 => Varint.encode (ZigZag.encode64 v)
    | _ => Varint.encode v.toUInt64
  | .uint64 v => if kind = .fixed64 then Fixed.encode64 v else Varint.encode v
  | .int32 v =>
    match kind with
    | .sfixed32 => Fixed.encode32 v.toUInt32
    | .sint32 => Varint.encode (ZigZag.encode32 v).toUInt64
    | _ => Varint.encode v.toInt64.toUInt64
  | .uint32 v =>
    if kind = .fixed32 then Fixed.encode32 v else Varint.encode v.toUInt64
  | .bool v => Varint.encode (if v then 1 else 0)
  | .string bs => Varint.encode bs.length.toUInt64 ++ bs
  | .bytes bs => Varint.encode bs.length.toUInt64 ++ bs
  | .enum _ v => Varint.encode v.toInt64.toUInt64
  | .message _ m =>
    if kind = .group then
      run.encode m ++ Varint.encode (makeKey number .endGroup)
    else Varint.encode (run.encode m).length.toUInt64 ++ run.encode m
  | .map _ _ => []

theorem Value.payload_group (run : Runtime Message) (number : Int32) {t : TypeExpr}
    (m : Message t) : (Value.message t m).payload run .group number =
      run.encode m ++ Varint.encode (makeKey number .endGroup) := rfl

theorem Value.payload_message (run : Runtime Message) (number : Int32) {t : TypeExpr}
    (m : Message t) : (Value.message t m).payload run .message number =
      Varint.encode (run.encode m).length.toUInt64 ++ run.encode m := rfl

end Go

variable {Message : TypeExpr → Type}

/-- The values of a member of a kind with a type. -/
inductive FieldKind.Holds : FieldKind → TypeExpr → Value Message → Prop
  | double (bits) : Holds .double (.name "float64") (.float64 bits)
  | float (bits) : Holds .float (.name "float32") (.float32 bits)
  | int64 (v) : Holds .int64 (.name "int64") (.int64 v)
  | uint64 (v) : Holds .uint64 (.name "uint64") (.uint64 v)
  | int32 (v) : Holds .int32 (.name "int32") (.int32 v)
  | fixed64 (v) : Holds .fixed64 (.name "uint64") (.uint64 v)
  | fixed32 (v) : Holds .fixed32 (.name "uint32") (.uint32 v)
  | bool (v) : Holds .bool (.name "bool") (.bool v)
  | string (bs) : Holds .string (.name "string") (.string bs)
  | group (t m) (h : t.isDeclared = true) : Holds .group (.pointer t) (.message t m)
  | message (t m) (h : t.isDeclared = true) : Holds .message (.pointer t) (.message t m)
  | bytes (bs) : Holds .bytes .bytes (.bytes bs)
  | uint32 (v) : Holds .uint32 (.name "uint32") (.uint32 v)
  | enum (t v) (h : t.isDeclared = true) : Holds .enum t (.enum t v)
  | sfixed32 (v) : Holds .sfixed32 (.name "int32") (.int32 v)
  | sfixed64 (v) : Holds .sfixed64 (.name "int64") (.int64 v)
  | sint32 (v) : Holds .sint32 (.name "int32") (.int32 v)
  | sint64 (v) : Holds .sint64 (.name "int64") (.int64 v)

theorem FieldKind.Holds.type_eq {t : TypeExpr} {v : Value Message} (h : kind.Holds t v) :
    v.type = t := by cases h <;> rfl

namespace Binder

variable {env : Env Message} {scope : Scope Message} {b : Binder}
variable {method field : String} {call : Expr} {x : Operand Message}

/-- The variables of the functions for unions. -/
def unionVariables : List String := ["msg", "tag", "wire", "b", "m", "x", "err", "t", "n", "s"]

/-- The code of a binder sees its packages and the names of the language. -/
structure Sees (b : Binder) (env : Env Message) (scope : Scope Message) : Prop where
  proto : env.proto = b.proto
  math : env.math = b.math
  apart : b.proto ∉ unionVariables ∧ b.math ∉ unionVariables
  locals : ∀ e ∈ scope, e.1 ∈ unionVariables
  imports : ∀ n ∈ predeclaredNames, n ∉ env.imports

namespace Sees

variable {f : Function}
variable {n : String}

variable (h : b.Sees env scope)

include h

theorem lookup_none (hn : n ∉ unionVariables) : scope.lookup n = none := by
  rw [lookup_eq_none_iff]
  intro e he
  exact bne_iff_ne.mpr fun heq => hn (heq ▸ h.locals e he)

theorem lookup_predeclared (hn : n ∈ predeclaredNames) :
    env.lookup scope n = Env.predeclared? n := by
  have hvariable : n ∉ unionVariables :=
    (show ∀ n ∈ predeclaredNames, n ∉ unionVariables by decide) n hn
  simp [Env.lookup, h.lookup_none hvariable, h.imports n hn]

theorem declare (hn : n ∈ unionVariables)
    (x : Operand Message) : b.Sees env ((n, x) :: scope) :=
  ⟨h.proto, h.math, h.apart, forall_mem_cons.mpr ⟨hn, h.locals⟩, h.imports⟩

theorem set (n : String) (x : Operand Message) :
    b.Sees env (scope.set n x) :=
  ⟨h.proto, h.math, h.apart, Scope.forall_mem_set h.locals, h.imports⟩

theorem eval_wireType (wire : WireType) :
    (Expr.qualified b.proto wire.goConstant).eval env scope = some (.constant wire.code) := by
  rw [Expr.eval, h.lookup_none h.apart.1]
  cases wire <;> simp +decide [Env.member?, h.proto, Env.wireConstant?]

theorem eval_conversion (hn : n ∈ predeclaredTypes) (e : Expr) :
    (conversion n e).eval env scope =
      (e.eval env scope).bind fun x => (x.convert (.name n)).map .value := by
  have hlookup := h.lookup_predeclared (mem_append_left _ hn)
  have htype : (Env.predeclared? n : Option (Operand Message)) = some (.type (.name n)) := by
    unfold Env.predeclared?
    split <;> simp_all +decide
  rw [conversion, Expr.eval, Expr.eval, hlookup, htype]
  cases he : e.eval env scope with
  | none | some x => simp [Expr.evalAll, he]

theorem eval_math
    (hf : (n, f) ∈ [("Float32bits", .float32bits), ("Float32frombits", .float32frombits),
      ("Float64bits", .float64bits), ("Float64frombits", Function.float64frombits)]) {e : Expr}
    (he : e.eval env scope = some x) :
    (Expr.call (.qualified b.math n) [e]).eval env scope = env.apply f [x] := by
  have hmember : env.member? b.math n = some (.function f) := by
    simp only [mem_cons, not_mem_nil, or_false] at hf
    rcases hf with ⟨rfl, rfl⟩ | ⟨rfl, rfl⟩ | ⟨rfl, rfl⟩ | ⟨rfl, rfl⟩ <;>
      simp +decide [Env.member?, h.math]
  simp [Expr.eval, Expr.evalAll, he, h.lookup_none h.apart.2, hmember]

theorem eval_proto
    (hf : (n, f) ∈ [("Size", .size), ("SizeVarint", Function.sizeVarint)]) {e : Expr}
    (he : e.eval env scope = some x) :
    (Expr.call (.qualified b.proto n) [e]).eval env scope = env.apply f [x] := by
  have hmember : env.member? b.proto n = some (.function f) := by
    simp only [mem_cons, not_mem_nil, or_false] at hf
    rcases hf with ⟨rfl, rfl⟩ | ⟨rfl, rfl⟩ <;> simp [Env.member?, h.proto]
  simp [Expr.eval, Expr.evalAll, he, h.lookup_none h.apart.1, hmember]

end Sees

theorem declares_wrapper {p : FieldPlan} (h : wrapperDecl p ∈ env.decls) :
    env.declares p.wrapper (some p.name) p.type = true ∧
      env.declares p.wrapper none p.type = true := by
  constructor <;> exact any_eq_true.mpr ⟨_, h, by simp [wrapperDecl]⟩

theorem eval_wrapped {w : String} {v : Value Message} (hx : scope.lookup "x" = some (.wrapper w v))
    (hw : env.declares w (some field) v.type = true) :
    (Expr.select (.name "x") field).eval env scope = some (.value v) := by
  simp [Expr.eval, hw, Env.lookup, hx]

section Writing

variable {st : State Message}

theorem results_write {e : Expr} {bytes : List UInt8} (hb : st.scope.lookup "b" = some .buffer)
    (he : e.eval env st.scope = some x) (hw : env.runtime.Writes method x bytes) :
    (onBuffer method [e]).results env st =
      some ([.error none], { st with output := st.output.bytes bytes }) := by
  obtain ⟨write, hwrite, heq⟩ := hw
  simp [onBuffer, Expr.results, eval_name hb, State.onBuffer, he, hwrite, heq]

theorem exec_write {e : Expr} {bytes : List UInt8} (hb : st.scope.lookup "b" = some .buffer)
    (he : e.eval env st.scope = some x) (hw : env.runtime.Writes method x bytes) :
    (Stmt.eval (onBuffer method [e])).exec env st =
      some ({ st with output := st.output.bytes bytes }, none) := by
  simp [Stmt.exec, Simple.exec, results_write hb he hw]

theorem exec_writeKey (st : State Message) (h : b.Sees env st.scope)
    (hb : st.scope.lookup "b" = some .buffer) {number : Int32}
    (hnumber : IsFieldNumber number) (wire : WireType) :
    (b.writeKey number wire).exec env st =
      some ({ st with
        output := st.output.bytes (Varint.encode (makeKey number wire)) }, none) := by
  have hor : number.toInt.toNat * 8 ||| wire.code = number.toInt.toNat * 8 + wire.code := by
    rw [← Nat.shiftLeft_eq _ 3, Nat.shiftLeft_add_eq_or_of_lt wire.code_lt]
  have hkey : UInt64.ofNat (number.toInt.toNat * 8 + wire.code) = makeKey number wire := by
    rw [← toNat_makeKey hnumber, UInt64.ofNat_toNat]
  have hbound := (makeKey number wire).toNat_lt
  rw [toNat_makeKey hnumber] at hbound
  have hshift : (Expr.tight (.int number.toInt) "<<" (.number "3")).eval env st.scope =
      some (.constant (number.toInt * 8)) := by
    rw [Expr.eval, eval_int]
    rfl
  have heval : (Expr.binary (.tight (.int number.toInt) "<<" (.number "3")) "|"
      (.qualified b.proto wire.goConstant)).eval env st.scope =
      some (.constant ↑(number.toInt.toNat * 8 + wire.code)) := by
    have hnat : (number.toInt * 8).toNat = number.toInt.toNat * 8 := by omega
    simp only [eval_binary hshift (h.eval_wireType wire), Operand.binary, Int.toNat_natCast, hnat,
      hor]
  have hfits : (0 : Int) ≤ ↑(number.toInt.toNat * 8 + wire.code) ∧
      (↑(number.toInt.toNat * 8 + wire.code) : Int) < 2 ^ 64 := by omega
  refine exec_write hb heval
    ⟨fun buffer => buffer.varint (makeKey number wire), ?_, fun _ => rfl⟩
  simp only [Runtime.write?, Operand.uint64?, if_pos hfits, Int.toNat_natCast, hkey,
    Option.map_some]

/-- A call that does not fail has no effect beyond its own. -/
theorem exec_guardError (h : b.Sees env st.scope) {st' : State Message}
    (hcall : call.results env st = some ([.error none], st')) (hscope : st'.scope = st.scope) :
    (guardError call).exec env st = some (st', none) := by
  obtain ⟨_, output, input, unions⟩ := st'
  obtain rfl := hscope
  have herr : (Expr.name "err").eval env (("err", .error none) :: st.scope) =
      some (.error none) := eval_name rfl
  have hnil : (Expr.name "nil").eval env (("err", .error none) :: st.scope) =
      some (.error none) := by
    rw [Expr.eval, (h.declare (by decide) _).lookup_predeclared (by decide)]
    rfl
  simp [guardError, Stmt.exec, Simple.exec, hcall, State.declare, eval_binary herr hnil,
    Operand.binary, State.leave]

theorem results_conversion (n : String) (e : Expr) :
    (conversion n e).results env st =
      ((conversion n e).eval env st.scope).map fun x => ([x], st) := rfl

theorem exec_setIf {cond : Expr} {v : Bool}
    (hcond : cond.eval env (("t", .value (.uint64 0)) :: st.scope) = some (.value (.bool v))) :
    (Stmt.ifThen none cond [.set (.name "t") (.number "1")]).exec env
        { st with scope := ("t", .value (.uint64 0)) :: st.scope } =
      some ({ st with scope := ("t", .value (.uint64 (if v then 1 else 0))) :: st.scope },
        none) := by
  have ht : env.lookup (("t", .value (.uint64 0)) :: st.scope) "t" = some (.value (.uint64 0)) := by
    simp [Env.lookup]
  cases v with
  | false => simp [Stmt.exec, hcond, State.leave]
  | true =>
    simp [Stmt.exec, hcond, State.leave, Stmt.execAll, Simple.exec, ht,
      eval_number "1" 1 rfl, Operand.uint64?, State.update, Scope.set]

theorem execAll_writeValue (st : State Message) (h : b.Sees env st.scope)
    (hb : st.scope.lookup "b" = some .buffer) {number : Int32} (hnumber : IsFieldNumber number)
    {t : TypeExpr} {v : Value Message} (hv : kind.Holds t v) {w : String}
    (hx : st.scope.lookup "x" = some (.wrapper w v))
    (hw : env.declares w (some field) v.type = true) :
    ∃ vars, Stmt.execAll env (b.writeValue kind number (.select (.name "x") field)) st =
      some ({ st with
        scope := vars ++ st.scope
        output := st.output.bytes (v.payload env.runtime kind number) }, none) := by
  have hvalue := eval_wrapped hx hw
  have hone {method : String} {e : Expr} {x : Operand Message} {bytes : List UInt8}
      (he : e.eval env st.scope = some x) (hw : env.runtime.Writes method x bytes) :
      ∃ vars, Stmt.execAll env [.eval (onBuffer method [e])] st =
        some ({ st with scope := vars ++ st.scope, output := st.output.bytes bytes }, none) :=
    ⟨[], execAll_single (exec_write hb he hw)⟩
  have hbits {bits : UInt64} (hv : (Operand.value v).bits? = some bits) :
      (conversion "uint64" (.select (.name "x") field)).eval env st.scope =
        some (.value (.uint64 bits)) := by
    simp [h.eval_conversion (show "uint64" ∈ predeclaredTypes by decide), hvalue, Operand.convert,
      hv]
  cases hv with
  | double bits =>
    exact hone (h.eval_math (f := .float64bits) (by simp) hvalue) ⟨_, rfl, fun _ => rfl⟩
  | float bits =>
    have hfloat : (conversion "uint64" (.call (.qualified b.math "Float32bits")
        [.select (.name "x") field])).eval env st.scope =
          some (.value (.uint64 bits.toUInt64)) := by
      rw [h.eval_conversion (by decide), h.eval_math (f := .float32bits) (by simp) hvalue]
      rfl
    exact hone hfloat ⟨_, rfl, fun _ => by simp [Value.payload, Buffer.fixed32]⟩
  | int64 v | uint64 v | int32 v | fixed64 v | uint32 v | enum t v | sfixed64 v =>
    exact hone (hbits rfl) ⟨_, rfl, fun _ => rfl⟩
  | fixed32 v | sfixed32 v | sint32 v =>
    refine hone (hbits rfl) ⟨_, rfl, fun _ => ?_⟩
    simp [Value.payload, Buffer.fixed32, Buffer.zigzag32, Buffer.varint]
  | sint64 v =>
    refine hone (hbits rfl) ⟨_, rfl, fun _ => ?_⟩
    simp [Value.payload, Buffer.zigzag64, Buffer.varint]
  | string bs | bytes bs =>
    exact hone hvalue ⟨_, rfl, fun buffer => buffer.lengthDelimited_eq bs⟩
  | bool v =>
    have hzero : (conversion "uint64" (.number "0")).results env st =
        some ([.value (.uint64 0)], st) := by
      rw [results_conversion, h.eval_conversion (by decide)]
      rfl
    have hcond : (Expr.select (.name "x") field).eval env
        (("t", .value (.uint64 0)) :: st.scope) = some (.value (.bool v)) :=
      eval_wrapped (by simpa [lookup_cons] using hx) hw
    refine ⟨[("t", .value (.uint64 (if v then 1 else 0)))], ?_⟩
    rw [writeValue, execAll_cons (exec_define hzero), execAll_cons (exec_setIf hcond)]
    refine execAll_single (exec_write ?_ (eval_name rfl) ⟨_, rfl, fun _ => rfl⟩)
    simpa [lookup_cons] using hb
  | group t m _ =>
    have hmarshal := results_write hb hvalue
      (show env.runtime.Writes "Marshal" _ (env.runtime.encode m) from ⟨_, rfl, fun _ => rfl⟩)
    refine ⟨[], ?_⟩
    rw [writeValue, execAll_cons (exec_guardError h hmarshal rfl),
      execAll_single (exec_writeKey
        { st with output := st.output.bytes (env.runtime.encode m) } h hb hnumber .endGroup)]
    simp [Value.payload, Buffer.bytes]
  | message t m _ =>
    have hencode := results_write hb hvalue
      (show env.runtime.Writes "EncodeMessage" _ _ from
        ⟨_, rfl, fun buffer => buffer.lengthDelimited_eq _⟩)
    exact ⟨[], execAll_single (exec_guardError h hencode rfl)⟩

end Writing

section Measuring

variable {st : State Message}
variable {y : Operand Message}

def sized (st : State Message) (n : Int64) : State Message := st.update "n" (.int n)

/-- Statements add to the size. -/
def Measures (env : Env Message) (st : State Message) (ss : List Stmt) (size : Nat) : Prop :=
  ∀ n, Stmt.execAll env ss (sized st n) = some (sized st (n + Int64.ofNat size), none)

theorem Measures.append {ss ss' : List Stmt} {i j : Nat} (h : Measures env st ss i)
    (h' : Measures env st ss' j) : Measures env st (ss ++ ss') (i + j) := by
  intro n
  rw [execAll_append (h n), h', Int64.ofNat_add, Int64.add_assoc]

/-- What the case of a sizer finds in its scope. -/
structure Measurable (b : Binder) (env : Env Message) (st : State Message) (w : String)
    (v : Value Message) : Prop where
  sees : b.Sees env st.scope
  n : ∃ k, st.scope.lookup "n" = some (.int k)
  x : st.scope.lookup "x" = some (.wrapper w v)

variable {w field : String} {v : Value Message} {kind : FieldKind}

/-- An expression has a value, whatever the size so far. -/
def Shows (env : Env Message) (st : State Message) (e : Expr) (y : Operand Message) : Prop :=
  ∀ n, e.eval env (sized st n).scope = some y

namespace Shows

variable {e : Expr} (he : Shows env st e y)

include he

theorem conversion (h : b.Measurable env st w v) (type : String) {u : Value Message}
    (hu : y.convert (.name type) = some u) (htype : type ∈ predeclaredTypes) :
    Shows env st (conversion type e) (.value u) := by
  intro n
  have hsees : b.Sees env (sized st n).scope := h.sees.set "n" (.int n)
  simp [hsees.eval_conversion htype, he n, hu]

theorem binary (op : String) {e' : Expr} {y' z : Operand Message} (he' : Shows env st e' y')
    (hz : y.binary op y' = some z) : Shows env st (.binary e op e') z :=
  fun n => (eval_binary (he n) (he' n)).trans hz

theorem paren : Shows env st (.paren e) y := by
  intro n
  rw [Expr.eval, he n]

end Shows

theorem measures_addSize (h : b.Measurable env st w v) {e : Expr} {size : Nat}
    (he : Shows env st e y) (hy : y.int? = some (Int64.ofNat size)) :
    Measures env st [.simple (addSize e)] size := by
  intro n
  obtain ⟨k, hk⟩ := h.n
  have hn : env.lookup (sized st n).scope "n" = some (.int n) := by
    simp [Env.lookup, sized, State.update, Scope.lookup_set_self hk]
  refine execAll_single ?_
  simp [Stmt.exec, addSize, Simple.exec, hn, he n, hy]
  simp [sized, State.update, Scope.set_set]

theorem measures_addKeySize (h : b.Measurable env st w v) (number : Int32) (wire : WireType) :
    Measures env st [addKeySize number wire]
      (Varint.encode (makeKey number wire)).length := by
  have hsize := Varint.size_le (makeKey number wire)
  have hfits : (0 : Int) ≤ Varint.size (makeKey number wire) ∧
      (Varint.size (makeKey number wire) : Int) < 2 ^ 63 := by
    rw [Varint.maxSize] at hsize
    omega
  refine measures_addSize h (fun _ => eval_nat _) ?_
  rw [Operand.int?, if_pos hfits, Int.toNat_natCast, Varint.length_encode]

theorem measures_varintSize (h : b.Measurable env st w v) {e : Expr} {bits : UInt64}
    (he : Shows env st e y) (hy : y.bits? = some bits) :
    Measures env st [b.varintSize e] (Varint.encode bits).length := by
  have hconversion : Shows env st (Binder.conversion "uint64" e) (.value (.uint64 bits)) :=
    he.conversion h "uint64" (by simp [Operand.convert, hy]) (by decide)
  rw [Varint.length_encode]
  exact measures_addSize h
    (fun n => (h.sees.set "n" (.int n)).eval_proto (f := .sizeVarint) (by simp) (hconversion n)) rfl

theorem measures_sizeValue (h : b.Measurable env st w v) (hrun : env.runtime.Lawful)
    (number : Int32) {t : TypeExpr} (hv : kind.Holds t v)
    (hw : env.declares w (some field) v.type = true) :
    ∃ vars, (vars = [] ∨ ∃ y, vars = [("s", y)]) ∧
      (∀ n, Stmt.execAll env (b.sizeValue kind (.select (.name "x") field)).1 (sized st n) =
        some (sized { st with scope := vars ++ st.scope } n, none)) ∧
      Measures env { st with scope := vars ++ st.scope }
        ((b.sizeValue kind (.select (.name "x") field)).2 ++
          if kind = .group then [addKeySize number .endGroup] else [])
        (v.payload env.runtime kind number).length := by
  have hsees (n : Int64) : b.Sees env (sized st n).scope := h.sees.set "n" (.int n)
  have hvalue : Shows env st (.select (.name "x") field) (.value v) :=
    fun _ => eval_wrapped ((Scope.lookup_set_ne (by decide)).trans h.x) hw
  have hplain {ss : List Stmt} {size : Nat} (hss : Measures env st ss size) :
      ∃ vars : Scope Message, (vars = [] ∨ ∃ y, vars = [("s", y)]) ∧
        (∀ n, Stmt.execAll env [] (sized st n) =
          some (sized { st with scope := vars ++ st.scope } n, none)) ∧
        Measures env { st with scope := vars ++ st.scope } (ss ++ []) size :=
    ⟨[], .inl rfl, fun _ => rfl, by simpa using hss⟩
  have hconstant (text : String) (n : Nat) (htext : text = toString n) :
      Shows env st (.number text) (.constant n) := fun _ => eval_number text n htext
  have hfixed (text : String) (n : Nat) (htext : text = toString n) (hn : n < 2 ^ 63) :
      Measures env st [.simple (addSize (.number text))] n := by
    refine measures_addSize h (hconstant text n htext) ?_
    rw [Operand.int?, if_pos (by omega), Int.toNat_natCast]
  cases hv with
  | double bits | fixed64 v | sfixed64 v => exact hplain (hfixed "8" 8 rfl (by decide))
  | float bits | fixed32 v | sfixed32 v => exact hplain (hfixed "4" 4 rfl (by decide))
  | bool v =>
    have hsize : (Varint.encode (if v then 1 else 0)).length = 1 := by
      cases v <;> simp [Varint.encode_eq, Varint.encodeNat]
    exact hplain (hsize ▸ hfixed "1" 1 rfl (by decide))
  | int64 v | uint64 v | int32 v | uint32 v | enum t v =>
    exact hplain (measures_varintSize h hvalue rfl)
  | string bs | bytes bs =>
    have hlength : Shows env st (.call (.name "len") [.select (.name "x") field])
        (.int (Int64.ofNat bs.length)) := by
      intro n
      simp only [Expr.eval.eq_6, Expr.evalAll, hvalue n]
      simp [Expr.eval, (hsees n).lookup_predeclared (show "len" ∈ predeclaredNames by decide),
        Env.predeclared?, Env.apply]
    have hsizes := (measures_varintSize h hlength rfl).append (measures_addSize h hlength rfl)
    refine hplain ?_
    rw [Value.payload, length_append]
    exact hsizes
  | group t m _ =>
    have hsize : Shows env st (.call (.qualified b.proto "Size") [.select (.name "x") field])
        (.int (Int64.ofNat (env.runtime.size m))) :=
      fun n => (hsees n).eval_proto (f := .size) (by simp) (hvalue n)
    have hsizes := (measures_addSize h hsize rfl).append (measures_addKeySize h number .endGroup)
    refine ⟨[], .inl rfl, fun _ => rfl, ?_⟩
    rw [hrun.size_eq] at hsizes
    rw [Value.payload_group, length_append]
    exact hsizes
  | message t m _ =>
    let size : Operand Message := .int (Int64.ofNat (env.runtime.size m))
    have hsize : Shows env st (.call (.qualified b.proto "Size") [.select (.name "x") field])
        size := fun n => (hsees n).eval_proto (f := .size) (by simp) (hvalue n)
    refine ⟨[("s", size)], .inr ⟨_, rfl⟩, fun n => ?_, ?_⟩
    · have hresults : (Expr.call (.qualified b.proto "Size")
          [.select (.name "x") field]).results env (sized st n) = some ([size], sized st n) :=
        congrArg (Option.map fun x => ([x], sized st n)) (hsize n)
      exact execAll_single (exec_define hresults)
    · have h' : b.Measurable env { st with scope := ("s", size) :: st.scope } w (.message t m) :=
        ⟨h.sees.declare (by decide) size, h.n, h.x⟩
      have hname : Shows env { st with scope := ("s", size) :: st.scope } (.name "s") size :=
        fun _ => eval_name rfl
      have hsizes := (measures_varintSize h' hname rfl).append (measures_addSize h' hname rfl)
      rw [hrun.size_eq] at hsizes
      rw [Value.payload_message, length_append]
      exact hsizes
  | sint32 v =>
    have hto := hvalue.conversion h "uint32" (u := .uint32 v.toUInt32)
      (by simp [Operand.convert, Operand.bits?]) (by decide)
    have hleft := (hto.binary "<<" (z := .value (.uint32 (v.toUInt32 <<< 1)))
      (hconstant "1" 1 rfl) (by simp [Operand.binary])).paren
    have hsame := hvalue.conversion h "int32" (u := .int32 v)
      (by simp [Operand.convert, Operand.bits?]) (by decide)
    have hsign := (hsame.binary ">>" (z := .value (.int32 (v >>> 31)))
      (hconstant "31" 31 rfl) (by simp [Operand.binary])).paren.conversion h "uint32"
        (u := .uint32 (v >>> 31).toUInt32) (by simp [Operand.convert, Operand.bits?]) (by decide)
    have hfold := hleft.binary "^" hsign
      (congrArg (fun u => some (Operand.value (.uint32 u))) (zigzag32_eq v))
    exact hplain (measures_varintSize h hfold rfl)
  | sint64 v =>
    have hleft := (hvalue.binary "<<" (z := .value (.int64 (v <<< 1))) (hconstant "1" 1 rfl)
      rfl).conversion h "uint64" rfl (by decide)
    have hsame := hvalue.conversion h "int64" (u := .int64 v)
      (by simp [Operand.convert, Operand.bits?]) (by decide)
    have hsign := (hsame.binary ">>" (z := .value (.int64 (v >>> 63))) (hconstant "63" 63 rfl)
      rfl).paren.conversion h "uint64" rfl (by decide)
    have hfold := hleft.binary "^" hsign
      (congrArg (fun u => some (Operand.value (.uint64 u))) (zigzag64_eq v))
    exact hplain (measures_varintSize h hfold rfl)

end Measuring

section Reading

variable {st : State Message} {union : UnionPlan} {p : FieldPlan} {v : Value Message}
variable {input : Cursor} {u : Value Message}

variable {value : Expr} {unions : List (Option UnionPlan)}

theorem convert_declared {t : TypeExpr} (h : t.isDeclared = true) (bits : UInt64) :
    (Operand.value (.uint64 bits) : Operand Message).convert t =
      some (.enum t bits.toUInt32.toInt32) := by
  simp only [Operand.convert, Operand.bits?, Option.pure_def, Option.bind_eq_bind, Option.bind_some]
  split
  · cases h
  · cases h
  · cases h
  · cases h
  · rw [if_pos h]

theorem exec_read (h : call.results env st = some ([.value u, .error none], { st with input })) :
    (Stmt.simple (.assign [.name "x", .name "err"] ":=" [call])).exec env st =
      some ({ st with
        scope := ("x", .value u) :: ("err", .error none) :: st.scope, input }, none) := by
  simp [Stmt.exec, Simple.exec, h, State.declare]

theorem results_read (hb : st.scope.lookup "b" = some .buffer) {zero : Value Message}
    {read : Cursor → Result (Value Message)}
    (hmethod : read? method = some (zero, read)) (hread : read st.input = (.ok u, input)) :
    (onBuffer method []).results env st = some ([.value u, .error none], { st with input }) := by
  simp [onBuffer, Expr.results, eval_name hb, State.onBuffer, State.readValue, hmethod,
    hread]

theorem exec_setUnion (hm : st.scope.lookup "m" = some .self)
    (hvalue : value.eval env st.scope = some (.value v)) (hw : st.scope.lookup p.wrapper = none)
    (hdeclared : env.declares p.wrapper none v.type = true) :
    (setUnion union p value).exec env st =
      some ({ st with unions := (union.name, .wrapper p.wrapper v) :: st.unions }, none) := by
  have hstruct : (Expr.address (.composite (.name p.wrapper) [value])).eval env st.scope =
      some (.wrapper p.wrapper v) := by
    simp [Expr.eval, Expr.evalAll, hvalue, hw, hdeclared]
  simp [setUnion, Stmt.exec, Simple.exec, eval_name hm, hstruct]

def readResults : List (Operand Message) := [.value (.bool true), .error none]

theorem execAll_ret (h : b.Sees env st.scope) (herr : st.scope.lookup "err" = some (.error none)) :
    Stmt.execAll env [.simple (.ret [.name "true", .name "err"])] st =
      some (st, some readResults) := by
  have htrue : (Expr.name "true").eval env st.scope = some (.value (.bool true)) := by
    rw [Expr.eval, h.lookup_predeclared (by decide)]
    rfl
  simp [Stmt.execAll, Stmt.exec, Simple.exec, Expr.evalAll, htrue, eval_name herr, readResults]

/-- Statements read a value, set the union to it and leave the cursor behind it. -/
def Reads (env : Env Message) (st : State Message) (union : UnionPlan) (p : FieldPlan)
    (v : Value Message) (input : Cursor) (ss : List Stmt) : Prop :=
  ∃ scope, Stmt.execAll env (ss ++ [.simple (.ret [.name "true", .name "err"])]) st =
    some ({ st with scope, input, unions := (union.name, .wrapper p.wrapper v) :: st.unions },
      some readResults)

theorem execAll_readPlain (h : b.Sees env st.scope) (hm : st.scope.lookup "m" = some .self)
    (hw : p.wrapper ∉ unionVariables) (hdeclared : env.declares p.wrapper none v.type = true)
    (hcall : call.results env st = some ([.value u, .error none], { st with input }))
    (hvalue : value.eval env (("x", .value u) :: ("err", .error none) :: st.scope) =
      some (.value v)) :
    Reads env st union p v input
      [.simple (.assign [.name "x", .name "err"] ":=" [call]), setUnion union p value] := by
  let st₁ : State Message :=
    { st with scope := ("x", .value u) :: ("err", .error none) :: st.scope, input }
  have hsees : b.Sees env st₁.scope := (h.declare (by decide) _).declare (by decide) _
  have hself : st₁.scope.lookup "m" = some .self := by simpa [st₁, lookup_cons] using hm
  have hset : (setUnion union p value).exec env st₁ =
      some ({ st₁ with unions := (union.name, .wrapper p.wrapper v) :: st₁.unions }, none) :=
    exec_setUnion hself hvalue (hsees.lookup_none hw) hdeclared
  refine ⟨st₁.scope, ?_⟩
  rw [cons_append, execAll_cons (exec_read hcall), cons_append, execAll_cons hset]
  exact execAll_ret hsees rfl

theorem execAll_readMessage (h : b.Sees env st.scope) (hb : st.scope.lookup "b" = some .buffer)
    (hm : st.scope.lookup "m" = some .self) (hw : p.wrapper ∉ unionVariables) {t : TypeExpr}
    {m : Message t} (hdeclared : env.declares p.wrapper none (.pointer t) = true)
    (ht : t.isDeclared = true) (hroots : ∀ n ∈ t.roots, st.scope.lookup n = none)
    {read : Cursor → Option (Message t) × Cursor}
    (hwrite : env.runtime.write? method (.value (.message t (env.runtime.zero t))) = none)
    (hmethod : env.runtime.readMessage? method t = some read)
    (hread : read st.input = (some m, input)) :
    Reads env st union p (.message t m) input
      [.define "msg" (.call (.name "new") [.type t]),
       .define "err" (onBuffer method [.name "msg"]), setUnion union p (.name "msg")] := by
  let fresh : Operand Message := .value (.message t (env.runtime.zero t))
  have hnew : (Expr.call (.name "new") [.type t]).results env st = some ([fresh], st) := by
    have heval : (Expr.call (.name "new") [.type t]).eval env st.scope = some fresh := by
      have hvisible : (t.roots.any fun n => (st.scope.lookup n).isSome) = false := by
        rw [any_eq_false]
        intro n hn
        simp [hroots n hn]
      simp [Expr.eval, Expr.evalAll, hvisible,
        h.lookup_predeclared (show "new" ∈ predeclaredNames by decide), Env.predeclared?, Env.apply,
        ht, fresh]
    exact congrArg (Option.map fun x => ([x], st)) heval
  let st₁ : State Message := { st with scope := ("msg", fresh) :: st.scope }
  let st₂ : State Message := { st with scope := ("msg", .value (.message t m)) :: st.scope, input }
  have hcall : (onBuffer method [.name "msg"]).results env st₁ = some ([.error none], st₂) := by
    have hbuffer : st₁.scope.lookup "b" = some .buffer := by simpa [st₁, lookup_cons] using hb
    have hmsg : (Expr.name "msg").eval env st₁.scope = some fresh := eval_name rfl
    simp [onBuffer, Expr.results, eval_name hbuffer, State.onBuffer, hmsg, fresh,
      hwrite, State.readMessage, hmethod, st₁, hread, State.update, Scope.set, st₂]
  let st₃ : State Message := { st₂ with scope := ("err", .error none) :: st₂.scope }
  have hsees : b.Sees env st₃.scope := (h.declare (by decide) _).declare (by decide) _
  have hself : st₃.scope.lookup "m" = some .self := by
    simpa [st₃, st₂, lookup_cons] using hm
  have hset : (setUnion union p (.name "msg")).exec env st₃ =
      some ({ st₃ with
        unions := (union.name, .wrapper p.wrapper (.message t m)) :: st₃.unions }, none) :=
    exec_setUnion hself (eval_name rfl) (hsees.lookup_none hw) hdeclared
  refine ⟨st₃.scope, ?_⟩
  rw [cons_append, execAll_cons (exec_define hnew), cons_append,
    execAll_cons (exec_define hcall), cons_append, execAll_cons hset]
  exact execAll_ret hsees rfl

/-- A member is read as it was written, and nothing more. -/
theorem execAll_readMember (h : b.Sees env st.scope) (hb : st.scope.lookup "b" = some .buffer)
    (hm : st.scope.lookup "m" = some .self) (hrun : env.runtime.Lawful)
    (hw : p.wrapper ∉ unionVariables) (hdeclared : env.declares p.wrapper none v.type = true)
    (hroots : ∀ n ∈ p.type.roots, st.scope.lookup n = none ∧ (p.kind = .enum → n ≠ "x" ∧ n ≠ "err"))
    {number : Int32} (hnumber : IsFieldNumber number) (hv : p.kind.Holds p.type v)
    {before rest : List UInt8}
    (hinput : st.input = .between before (v.payload env.runtime p.kind number ++ rest))
    (hroom : (before ++ v.payload env.runtime p.kind number ++ rest).length < UInt64.size) :
    Reads env st union p v (.between (before ++ v.payload env.runtime p.kind number) rest)
      (b.readMember union p) := by
  have hsees (u : Value Message) :
      b.Sees env (("x", .value u) :: ("err", .error none) :: st.scope) :=
    (h.declare (by decide) _).declare (by decide) _
  have hplain {α : Type} {method : String} {value : Expr} {zero : Value Message}
      {read : Cursor → Result α} {f : α → Value Message} {a : α} {bytes : List UInt8}
      (hinput : st.input = .between before (bytes ++ rest))
      (hmethod : read? method = some (zero, fun c => (read c).map f))
      (hread : read (.between before (bytes ++ rest)) = (.ok a, .between (before ++ bytes) rest))
      (hvalue : value.eval env (("x", .value (f a)) :: ("err", .error none) :: st.scope) =
        some (.value v)) : Reads env st union p v (.between (before ++ bytes) rest)
          [.simple (.assign [.name "x", .name "err"] ":=" [onBuffer method []]),
           setUnion union p value] :=
    execAll_readPlain h hm hw hdeclared
      (results_read hb hmethod (congrArg (Result.map f) (hinput ▸ hread))) hvalue
  have hto {u w : Value Message} {type : String} (htype : type ∈ predeclaredTypes := by decide)
      (hw : (Operand.value u).convert (.name type) = some w := by
        simp [Operand.convert, Operand.bits?]) :
      (conversion type (.name "x")).eval env
        (("x", .value u) :: ("err", .error none) :: st.scope) = some (.value w) := by
    simp [(hsees u).eval_conversion htype, eval_name, hw]
  have hx (u : Value Message) : (Expr.name "x").eval env
      (("x", .value u) :: ("err", .error none) :: st.scope) = some (.value u) := eval_name rfl
  unfold readMember
  generalize p.kind = kind at hv hinput hroom hroots ⊢
  generalize p.type = type at hv hroots ⊢
  cases hv with
  | uint64 v => exact hplain hinput rfl (varint_between before v rest) (hx _)
  | int64 v | int32 v | uint32 v => exact hplain hinput rfl (varint_between before _ rest) hto
  | bool v =>
    refine hplain hinput rfl (varint_between before _ rest)
      ((eval_binary (hx _) (eval_number "0" 0 rfl)).trans ?_)
    cases v <;> rfl
  | enum _ v ht =>
    have hvisible : (type.roots.any fun n => (List.lookup n (("x",
        .value (.uint64 v.toInt64.toUInt64)) :: ("err", .error none) :: st.scope)).isSome) =
          false := by
      rw [any_eq_false]
      intro n hn
      obtain ⟨hnone, hne⟩ := hroots n hn
      simp [lookup_cons, beq_eq_false_iff_ne.mpr (hne rfl).1,
        beq_eq_false_iff_ne.mpr (hne rfl).2, hnone]
    refine hplain hinput rfl (varint_between before _ rest) ?_
    simp only [Expr.eval, Expr.evalAll]
    simp [hvisible, Env.lookup, convert_declared ht]
  | double bits =>
    exact hplain hinput rfl (fixed64_between bits hroom)
      ((hsees _).eval_math (f := .float64frombits) (by simp) (hx _))
  | float bits =>
    exact hplain hinput rfl (fixed32_between bits hroom)
      ((hsees _).eval_math (f := .float32frombits) (x := .value (.uint32 bits)) (by simp) hto)
  | fixed64 v => exact hplain hinput rfl (fixed64_between v hroom) (hx _)
  | sfixed64 v => exact hplain hinput rfl (fixed64_between v.toUInt64 hroom) hto
  | fixed32 v | sfixed32 v => exact hplain hinput rfl (fixed32_between _ hroom) hto
  | sint32 v => exact hplain hinput rfl (zigzag32_between before v rest) hto
  | sint64 v => exact hplain hinput rfl (zigzag64_between before v rest) hto
  | string bs => exact hplain hinput rfl (lengthDelimited_between hroom) (hx _)
  | bytes bs =>
    have hread : st.input.lengthDelimited = _ :=
      hinput ▸ lengthDelimited_between hroom
    have hcopy : (Expr.name "true").eval env st.scope = some (.value (.bool true)) := by
      rw [Expr.eval, h.lookup_predeclared (by decide)]
      rfl
    refine execAll_readPlain h hm hw hdeclared ?_ (hx (.bytes bs))
    simp [onBuffer, Expr.results, eval_name hb, State.onBuffer, hcopy,
      Runtime.write?, State.readValue, read?, hread, Result.map, Except.map,
      Value.payload]
  | group t m ht =>
    refine execAll_readMessage h hb hm hw hdeclared ht (fun n hn => (hroots n hn).1) rfl rfl ?_
    simp only [hinput, Value.payload_group, rest_between,
      hrun.decodeGroup_encode m rest hnumber, advance_between]
  | message t m ht =>
    have hread : st.input.lengthDelimited = _ :=
      hinput ▸ lengthDelimited_between hroom
    refine execAll_readMessage h hb hm hw hdeclared ht (fun n hn => (hroots n hn).1) rfl rfl ?_
    simp [hread, hrun.decode_encode, Value.payload_message]

theorem isFor_int (n : Int32) (k : Int32) (note : String) (body : List Stmt) :
    (Case.onNoted (.int k.toInt) note body).isFor env scope (.int n.toInt64) =
      some (decide (n = k)) := by
  simp [Case.isFor, Int32.toInt_inj]

/-- Refuses a member with a wrong wire type. -/
def checkWire (b : Binder) (p : FieldPlan) : Stmt :=
  .ifThen none (.binary (.name "wire") "!="
    (.qualified b.proto p.fieldType.wire.wireType.goConstant))
    [.simple (.ret [.name "true", .qualified b.proto "ErrInternalBadWireType"])]

/-- The case of the reader for a member of a union. -/
def memberCase (b : Binder) (union : UnionPlan) (p : FieldPlan) : Case :=
  .onNoted (.int p.field.numberValue.toInt) (" " ++ union.schemaName ++ "." ++ p.field.nameText)
    (b.checkWire p :: (b.readMember union p ++ [.simple (.ret [.name "true", .name "err"])]))

theorem readCase_eq_ok {cases : List Case} (h : b.readCase unions p = .ok cases) :
    p.oneof = none ∧ cases = [] ∨
      ∃ i union, p.oneof = some i ∧ unionAt unions i = .ok union ∧
        cases = [b.memberCase union p] := by
  unfold readCase at h
  cases honeof : p.oneof with
  | none =>
    simp only [honeof] at h
    exact .inl ⟨rfl, (Except.ok.inj h).symm⟩
  | some i =>
    simp only [honeof, steps_eq_ok] at h
    obtain ⟨union, hunion, rfl⟩ := h
    exact .inr ⟨i, union, rfl, hunion, rfl⟩

theorem execFirst_readCases {fields : List FieldPlan} {cases : List (List Case)}
    (hcases : fields.mapM (b.readCase unions) = .ok cases)
    (hnumbers : (fields.map (·.field.numberValue)).Nodup) (hp : p ∈ fields) {c : Case}
    (hcase : b.readCase unions p = .ok [c]) (others : List Case) :
    Stmt.execFirst env (.int p.field.numberValue.toInt64) (cases.flatten ++ others) st =
      Stmt.execCase env c st := by
  induction mapM_eq_ok hcases with
  | nil => cases hp
  | @cons q cs fields cases hq hrest ih =>
    rw [map_cons, nodup_cons] at hnumbers
    rcases mem_cons.mp hp with rfl | hp
    · cases hq.symm.trans hcase
      rcases readCase_eq_ok hcase with ⟨-, hnil⟩ | ⟨i, union, -, -, hcons⟩
      · cases hnil
      · obtain rfl := (List.cons.inj hcons).1
        simp [Stmt.execFirst, memberCase, isFor_int]
    · have hne : p.field.numberValue ≠ q.field.numberValue := fun heq =>
        hnumbers.1 (mem_map.mpr ⟨p, hp, heq⟩)
      have hskip := ih (mapM_eq_ok_iff.mpr hrest) hnumbers.2 hp
      rcases readCase_eq_ok hq with ⟨-, rfl⟩ | ⟨i, union, -, -, rfl⟩
      · exact hskip
      · simpa [Stmt.execFirst, memberCase, isFor_int, hne] using hskip

end Reading

section Functions

variable {type : String} {plan : MessagePlan} {p : FieldPlan} {v : Value Message}
  (h : b.Sees env [])
  (hv : p.kind.Holds p.type v) (hw : wrapperDecl p ∈ env.decls)

/-- The bytes of a member: its key and its value. -/
def memberBytes (run : Runtime Message) (p : FieldPlan) (v : Value Message) : List UInt8 :=
  Varint.encode (makeKey p.field.numberValue p.fieldType.wire.wireType) ++
    v.payload run p.kind p.field.numberValue

/-- The variables that are bound where the reader names the type of a member. -/
def readerVariables (kind : FieldKind) : List String :=
  ["msg", "tag", "wire", "b", "m"] ++ if kind = .enum then ["x", "err"] else []

include h hv hw

theorem marshal_writeCase (hnumber : IsFieldNumber p.field.numberValue)
    (buffer : Buffer) :
    (b.writerFunc type plan).marshal env (b.writeCase p) p.wrapper v buffer =
      some (buffer.bytes (memberBytes env.runtime p v)) := by
  let st : State Message :=
    { scope := [("x", .wrapper p.wrapper v), ("m", .self), ("msg", .self), ("b", .buffer)]
      output := buffer }
  have hsees : b.Sees env st.scope := (((h.declare (by decide) _).declare (by decide) _).declare
    (by decide) _).declare (by decide) _
  let key := Varint.encode (makeKey p.field.numberValue p.fieldType.wire.wireType)
  have hkey := exec_writeKey st hsees rfl hnumber p.fieldType.wire.wireType
  obtain ⟨vars, hvalue⟩ := execAll_writeValue { st with output := st.output.bytes key } hsees rfl
    hnumber hv rfl (hv.type_eq ▸ (declares_wrapper hw).1)
  have hcase : Stmt.execCase env (b.writeCase p) st = some _ :=
    congrArg (Option.map _) ((execAll_cons hkey).trans hvalue)
  have hmarshal : (b.writerFunc type plan).marshal env (b.writeCase p) p.wrapper v buffer =
      (Stmt.execCase env (b.writeCase p) st).bind _ := rfl
  rw [hmarshal, hcase]
  simp [State.leave, Buffer.bytes, memberBytes, st, key]

theorem measure_sizeCase (hrun : env.runtime.Lawful) (n : Int64) :
    (b.sizerFunc type plan).measure env (b.sizeCase p) p.wrapper v n =
      some (n + Int64.ofNat (memberBytes env.runtime p v).length) := by
  let st : State Message :=
    { scope := [("x", .wrapper p.wrapper v), ("m", .self), ("n", .int 0), ("msg", .self)] }
  have hsees : b.Sees env st.scope := (((h.declare (by decide) _).declare (by decide) _).declare
    (by decide) _).declare (by decide) _
  have hst : b.Measurable env st p.wrapper v := ⟨hsees, ⟨0, rfl⟩, rfl⟩
  obtain ⟨vars, hvars, hbefore, hvalue⟩ := measures_sizeValue hst hrun p.field.numberValue hv
    (hv.type_eq ▸ (declares_wrapper hw).1)
  let st' : State Message := { st with scope := vars ++ st.scope }
  have hst' : b.Measurable env st' p.wrapper v := by
    rcases hvars with rfl | ⟨y, rfl⟩
    · exact hst
    · exact ⟨hsees.declare (by decide) y, ⟨0, rfl⟩, rfl⟩
  have hkey := measures_addKeySize hst' p.field.numberValue p.fieldType.wire.wireType
  have hall := hkey.append hvalue
  have hcase : Stmt.execCase env (b.sizeCase p) (sized st n) = some _ :=
    congrArg (Option.map _) ((execAll_append (hbefore n)).trans (hall n))
  have hmeasure : (b.sizerFunc type plan).measure env (b.sizeCase p) p.wrapper v n =
      (Stmt.execCase env (b.sizeCase p) (sized st n)).bind _ := rfl
  rw [hmeasure, hcase, memberBytes, length_append]
  rcases hvars with rfl | ⟨y, rfl⟩ <;> rfl

theorem unmarshal_readerFunc (hrun : env.runtime.Lawful)
    (hnumber : IsFieldNumber p.field.numberValue) {reader : Func}
    (hreader : b.readerFunc type plan = .ok reader)
    (hnumbers : (plan.fields.map (·.field.numberValue)).Nodup) (hp : p ∈ plan.fields) {i : Nat}
    (honeof : p.oneof = some i) {union : UnionPlan} (hunion : unionAt plan.unions i = .ok union)
    (hwrapper : p.wrapper ∉ unionVariables)
    (hroots : ∀ n ∈ p.type.roots, n ∉ readerVariables p.kind) {before rest : List UInt8}
    (hroom : (before ++ v.payload env.runtime p.kind p.field.numberValue ++ rest).length <
      UInt64.size) :
    reader.unmarshal env p.field.numberValue p.fieldType.wire.wireType
        (.between before (v.payload env.runtime p.kind p.field.numberValue ++ rest)) =
      some (readResults, [(union.name, .wrapper p.wrapper v)],
        .between (before ++ v.payload env.runtime p.kind p.field.numberValue) rest) := by
  simp only [readerFunc, steps_eq_ok] at hreader
  obtain ⟨cases, hcases, rfl⟩ := hreader
  let st : State Message :=
    { scope := [("m", .self), ("msg", .self), ("tag", .int p.field.numberValue.toInt64),
        ("wire", .int (Int64.ofNat p.fieldType.wire.wireType.code)), ("b", .buffer)]
      input := .between before (v.payload env.runtime p.kind p.field.numberValue ++ rest) }
  have hsees : b.Sees env st.scope := ((((h.declare (by decide) _).declare (by decide) _).declare
    (by decide) _).declare (by decide) _).declare (by decide) _
  have hcase : b.readCase plan.unions p = .ok [b.memberCase union p] := by
    simp only [readCase, honeof, hunion]
    rfl
  have hcheck : (b.checkWire p).exec env st = some (st, none) := by
    have hsame : (Int64.ofNat p.fieldType.wire.wireType.code).toInt =
        p.fieldType.wire.wireType.code := by
      cases p.fieldType.wire.wireType <;> rfl
    have hcond : (Expr.binary (.name "wire") "!="
        (.qualified b.proto p.fieldType.wire.wireType.goConstant)).eval env st.scope =
          some (.value (.bool false)) := by
      rw [eval_binary (eval_name rfl) (hsees.eval_wireType _)]
      simp [Operand.binary, hsame]
    simp [checkWire, Stmt.exec, hcond, State.leave]
  have hvisible : ∀ n ∈ p.type.roots, st.scope.lookup n = none ∧
      (p.kind = .enum → n ≠ "x" ∧ n ≠ "err") := by
    intro n hn
    have hn' := hroots n hn
    simp only [readerVariables, mem_append, mem_cons, not_mem_nil, or_false, not_or]
      at hn'
    obtain ⟨⟨hmsg, htag, hwire, hb, hm⟩, henum⟩ := hn'
    refine ⟨?_, fun hkind => ?_⟩
    · simp [st, lookup_cons, beq_eq_false_iff_ne.mpr hmsg, beq_eq_false_iff_ne.mpr htag,
        beq_eq_false_iff_ne.mpr hwire, beq_eq_false_iff_ne.mpr hb, beq_eq_false_iff_ne.mpr hm]
    · simpa [hkind] using henum
  have hdeclared : env.declares p.wrapper none v.type = true :=
    hv.type_eq ▸ (declares_wrapper hw).2
  obtain ⟨scope, hread⟩ : Reads env st union p v _ (b.readMember union p) :=
    execAll_readMember hsees rfl rfl hrun hwrapper hdeclared hvisible hnumber hv rfl hroom
  have hbody : Stmt.execCase env (b.memberCase union p) st = some _ :=
    congrArg (Option.map _) ((execAll_cons hcheck).trans hread)
  have hswitch := (execFirst_readCases hcases hnumbers hp hcase
    [.otherwise [.simple (.ret [.name "false", .nil])]]).trans hbody
  let start : State Message := { st with scope := st.scope.tail }
  let block : List Stmt := [bindMessage type, .switchOn (.name "tag") (cases.flatten ++
    [Case.otherwise [.simple (.ret [.name "false", .nil])]])]
  have hbind : (bindMessage type).exec env start = some (st, none) := by
    simp [bindMessage, Stmt.exec, Simple.exec, Expr.results, Expr.eval, Env.lookup, State.declare,
      start, st]
  have hblock : Stmt.execAll env block start = Stmt.execCase env (b.memberCase union p) st := by
    rw [execAll_cons hbind]
    have hswitch' : (Stmt.switchOn (.name "tag") (cases.flatten ++
        [Case.otherwise [.simple (.ret [.name "false", .nil])]])).exec env st = _ :=
      hswitch.trans hbody.symm
    simp only [Stmt.execAll, hswitch', hbody]
    rfl
  have hfunc : (funcOf (readerName type) (b.readerType "b") block).unmarshal env
      p.field.numberValue p.fieldType.wire.wireType start.input =
      (Stmt.execAll env block start).bind _ := rfl
  exact hfunc.trans (by rw [hblock, hbody]; rfl)

end Functions

end Binder

end GoBindings
