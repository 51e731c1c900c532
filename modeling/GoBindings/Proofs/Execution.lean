import GoBindings.Go.Decl
import GoBindings.Wire.Buffer
import GoBindings.Wire.Cursor
import Mathlib.Algebra.Group.Int.Defs
import Mathlib.Algebra.Group.Nat.Defs
import Mathlib.Data.List.Basic

/-!
# Running generated code

The statements that write, read and measure the members of unions, run by a reference interpreter. A
run is stuck on a statement that the compiler would refuse: a name that is hidden, an operand of a
wrong type.

Buffers of the runtime write and read as those of this project do. How messages are encoded is
left open.
-/

namespace GoBindings.Go

open List

open Wire (Buffer Cursor)

/-- The values that members of unions hold. A float is its bits and a string is its bytes; a message
is held by a pointer. Of maps there is the one without entries. -/
inductive Value (Message : TypeExpr → Type) where
  | bool (v : Bool)
  | int32 (v : Int32)
  | int64 (v : Int64)
  | uint32 (v : UInt32)
  | uint64 (v : UInt64)
  | float32 (bits : UInt32)
  | float64 (bits : UInt64)
  | string (bs : List UInt8)
  | bytes (bs : List UInt8)
  | enum (t : TypeExpr) (v : Int32)
  | message (t : TypeExpr) (m : Message t)
  | map (key value : TypeExpr)

/-- Functions of the language and of the packages `math` and `proto`. -/
inductive Function where
  | len
  | new
  | float32bits
  | float32frombits
  | float64bits
  | float64frombits
  | size
  | sizeVarint
  deriving DecidableEq, Repr

/-- What an expression or a variable stands for. -/
inductive Operand (Message : TypeExpr → Type) where
  | value (v : Value Message)
  /-- A number without a type. -/
  | constant (n : Int)
  | int (n : Int64)
  /-- A struct that wraps a value. -/
  | struct (type : String) (v : Value Message)
  /-- A pointer to such a struct. -/
  | wrapper (type : String) (v : Value Message)
  /-- An error, or none. -/
  | error (reason : Option String)
  /-- The message that has the unions. -/
  | self
  | buffer
  | type (t : TypeExpr)
  | function (f : Function)

variable {Message : TypeExpr → Type}

structure Runtime (Message : TypeExpr → Type) where
  zero : (t : TypeExpr) → Message t
  encode : {t : TypeExpr} → Message t → List UInt8
  decode : (t : TypeExpr) → List UInt8 → Option (Message t)
  /-- Reads up to the key that ends a group, and counts the bytes read with that key. -/
  decodeGroup : (t : TypeExpr) → List UInt8 → Option (Message t × Nat)
  size : {t : TypeExpr} → Message t → Nat

/-- What the code of a file refers to. -/
structure Env (Message : TypeExpr → Type) where
  runtime : Runtime Message
  /-- The names of two packages in the file. -/
  proto : String
  math : String
  /-- The names that the file gives to packages. -/
  imports : List String
  decls : List Decl

abbrev Scope (Message : TypeExpr → Type) := List (String × Operand Message)

/-- Gives a new value to the variable that is found first. -/
def Scope.set (n : String) (x : Operand Message) : Scope Message → Scope Message
  | [] => []
  | (m, y) :: scope => if m = n then (n, x) :: scope else (m, y) :: Scope.set n x scope

def predeclaredTypes : List String :=
  ["bool", "int32", "int64", "uint32", "uint64", "float32", "float64", "string", "int"]

/-- The names of the language itself. -/
def predeclaredNames : List String := predeclaredTypes ++ ["true", "false", "nil", "len", "new"]

namespace TypeExpr

/-- Whether the type has a declaration. -/
def isDeclared : TypeExpr → Bool
  | name n => !predeclaredTypes.contains n
  | qualified _ _ => true
  | _ => false

/-- The names by which the parts of the type are found. -/
def roots : TypeExpr → List String
  | name n => [n]
  | qualified package _ => [package]
  | pointer t => t.roots
  | slice t => t.roots
  | map k v => k.roots ++ v.roots
  | anything => []

end TypeExpr

namespace Value

def type : Value Message → TypeExpr
  | bool _ => .name "bool"
  | int32 _ => .name "int32"
  | int64 _ => .name "int64"
  | uint32 _ => .name "uint32"
  | uint64 _ => .name "uint64"
  | float32 _ => .name "float32"
  | float64 _ => .name "float64"
  | string _ => .name "string"
  | bytes _ => .bytes
  | enum t _ => t
  | message t _ => .pointer t
  | map key value => .map key value

/-- Enums and messages have declared types. -/
def IsSound : Value Message → Prop
  | enum t _ => t.isDeclared = true
  | message t _ => t.isDeclared = true
  | _ => True

/-- Whether the type has the value. -/
def HasType (v : Value Message) (t : TypeExpr) : Prop := v.type = t ∧ v.IsSound

end Value

namespace Operand

/-- A number by its lowest 64 bits, those of a signed number filled up with its sign. A constant has
to fit in every type. -/
def bits? : Operand Message → Option UInt64
  | value (.int32 v) => some v.toInt64.toUInt64
  | value (.int64 v) => some v.toUInt64
  | value (.uint32 v) => some v.toUInt64
  | value (.uint64 v) => some v
  | value (.enum _ v) => some v.toInt64.toUInt64
  | int n => some n.toUInt64
  | constant n => if 0 ≤ n ∧ n < 2 ^ 31 then some (UInt64.ofNat n.toNat) else none
  | _ => none

def uint64? : Operand Message → Option UInt64
  | value (.uint64 v) => some v
  | constant n => if 0 ≤ n ∧ n < 2 ^ 64 then some (UInt64.ofNat n.toNat) else none
  | _ => none

def int? : Operand Message → Option Int64
  | int n => some n
  | constant n => if 0 ≤ n ∧ n < 2 ^ 63 then some (Int64.ofNat n.toNat) else none
  | _ => none

def convert (t : TypeExpr) (x : Operand Message) : Option (Value Message) := do
  let bits ← x.bits?
  match t with
  | .name "int32" => return .int32 bits.toUInt32.toInt32
  | .name "int64" => return .int64 bits.toInt64
  | .name "uint32" => return .uint32 bits.toUInt32
  | .name "uint64" => return .uint64 bits
  | t => if t.isDeclared then return .enum t bits.toUInt32.toInt32 else none

/-- The operators that the code uses; a number is shifted by less than its width. -/
def binary (op : String) (x y : Operand Message) : Option (Operand Message) :=
  match op, x, y with
  | "<<", constant m, constant k => some (constant (m * 2 ^ k.toNat))
  | "|", constant m, constant n => some (constant ↑(m.toNat ||| n.toNat))
  | "!=", int m, constant n => some (value (.bool (m.toInt ≠ n)))
  | "!=", value (.uint64 m), constant n => some (value (.bool ((m.toNat : Int) ≠ n)))
  | "!=", error e, error none => some (value (.bool e.isSome))
  | "<<", value (.uint32 v), constant k =>
    if 0 ≤ k ∧ k < 32 then some (value (.uint32 (v <<< UInt32.ofNat k.toNat))) else none
  | "<<", value (.int64 v), constant k =>
    if 0 ≤ k ∧ k < 64 then some (value (.int64 (v <<< Int64.ofNat k.toNat))) else none
  | ">>", value (.int32 v), constant k =>
    if 0 ≤ k ∧ k < 32 then some (value (.int32 (v >>> Int32.ofNat k.toNat))) else none
  | ">>", value (.int64 v), constant k =>
    if 0 ≤ k ∧ k < 64 then some (value (.int64 (v >>> Int64.ofNat k.toNat))) else none
  | "^", value (.uint32 v), value (.uint32 w) => some (value (.uint32 (v ^^^ w)))
  | "^", value (.uint64 v), value (.uint64 w) => some (value (.uint64 (v ^^^ w)))
  | _, _, _ => none

end Operand

namespace Env

variable (env : Env Message)

/-- Whether a struct that wraps a value of the type is declared, with the field if one is given. -/
def declares (type : String) (field : Option String) (t : TypeExpr) : Bool :=
  env.decls.any fun
    | .wrapper type' field' t' _ => type' = type && field.all (· = field') && t' = t
    | _ => false

def predeclared? (n : String) : Option (Operand Message) :=
  match n with
  | "true" => some (.value (.bool true))
  | "false" => some (.value (.bool false))
  | "nil" => some (.error none)
  | "len" => some (.function .len)
  | "new" => some (.function .new)
  | n => if predeclaredTypes.contains n then some (.type (.name n)) else none

/-- A variable, or else a name of the language unless a package hides it. -/
def lookup (scope : Scope Message) (n : String) : Option (Operand Message) :=
  match scope.lookup n with
  | some x => some x
  | none => if env.imports.contains n then none else predeclared? n

def wireConstant? (n : String) : Option Nat :=
  ([.varint, .fixed64, .bytes, .startGroup, .endGroup, .fixed32].find? fun w : Wire.WireType =>
    w.goConstant = n).map Wire.WireType.code

/-- What a package has under a name. -/
def member? (package n : String) : Option (Operand Message) :=
  if package = env.proto ∧ n = "Size" then some (.function .size)
  else if package = env.proto ∧ n = "SizeVarint" then some (.function .sizeVarint)
  else if package = env.proto ∧ n = "ErrInternalBadWireType" then some (.error (some n))
  else if package = env.proto ∧ (wireConstant? n).isSome then
    (wireConstant? n).map fun code => .constant code
  else if package = env.math ∧ n = "Float32bits" then some (.function .float32bits)
  else if package = env.math ∧ n = "Float32frombits" then some (.function .float32frombits)
  else if package = env.math ∧ n = "Float64bits" then some (.function .float64bits)
  else if package = env.math ∧ n = "Float64frombits" then some (.function .float64frombits)
  else none

def apply (f : Function) (args : List (Operand Message)) : Option (Operand Message) :=
  match f, args with
  | .len, [.value (.string bs)] => some (.int (Int64.ofNat bs.length))
  | .len, [.value (.bytes bs)] => some (.int (Int64.ofNat bs.length))
  | .new, [.type t] =>
    if t.isDeclared then some (.value (.message t (env.runtime.zero t))) else none
  | .float32bits, [.value (.float32 bits)] => some (.value (.uint32 bits))
  | .float32frombits, [.value (.uint32 bits)] => some (.value (.float32 bits))
  | .float64bits, [.value (.float64 bits)] => some (.value (.uint64 bits))
  | .float64frombits, [.value (.uint64 bits)] => some (.value (.float64 bits))
  | .size, [.value (.message _ m)] => some (.int (Int64.ofNat (env.runtime.size m)))
  | .sizeVarint, [x] => x.uint64?.map fun v => .int (Int64.ofNat (Wire.Varint.size v))
  | _, _ => none

end Env

def digits? (cs : List Char) : Option Int :=
  if cs.all Char.isDigit then some (Nat.ofDigitChars 10 cs 0) else none

/-- The value of a decimal number with a sign or without. -/
def decimal? (text : String) : Option Int :=
  match text.toList with
  | '-' :: cs => (digits? cs).map (- ·)
  | cs => digits? cs

namespace Expr

mutual

/-- The value of an expression that calls nothing on a buffer. -/
def eval (env : Env Message) (scope : Scope Message) : Expr → Option (Operand Message)
  | name n => env.lookup scope n
  | qualified package n =>
    if (scope.lookup package).isSome then none else env.member? package n
  | type t => if t.roots.any fun n => (scope.lookup n).isSome then none else some (.type t)
  | number text => (decimal? text).map .constant
  | select e field => do
    match ← e.eval env scope with
    | .wrapper w v => if env.declares w (some field) v.type then some (.value v) else none
    | _ => none
  | call f args => do
    let args ← evalAll env scope args
    match ← f.eval env scope, args with
    | .type t, [x] => (x.convert t).map .value
    | .function f, args => env.apply f args
    | _, _ => none
  | paren e => e.eval env scope
  | address e => do
    match ← e.eval env scope with
    | .struct w v => some (.wrapper w v)
    | _ => none
  | composite t elems => do
    match t, ← evalAll env scope elems with
    | .name w, [.value v] =>
      if (scope.lookup w).isSome then none
      else if env.declares w none v.type then some (.struct w v) else none
    | _, _ => none
  | assert e _ => e.eval env scope
  | binary left op right => do (← left.eval env scope).binary op (← right.eval env scope)
  | tight left op right => do (← left.eval env scope).binary op (← right.eval env scope)
  | _ => none

def evalAll (env : Env Message) (scope : Scope Message) :
    List Expr → Option (List (Operand Message))
  | [] => some []
  | e :: es => do return (← e.eval env scope) :: (← evalAll env scope es)

end

end Expr

/-- What a call on a buffer writes. The calls for 32 bits take the lowest of their argument. -/
def Runtime.write? (run : Runtime Message) (method : String) (x : Operand Message) :
    Option (Buffer → Buffer) :=
  match method, x with
  | "EncodeVarint", x => x.uint64?.map fun v buffer => buffer.varint v
  | "EncodeFixed32", x => x.uint64?.map fun v buffer => buffer.fixed32 v.toUInt32
  | "EncodeFixed64", x => x.uint64?.map fun v buffer => buffer.fixed64 v
  | "EncodeZigzag32", x => x.uint64?.map fun v buffer => buffer.zigzag32 v.toUInt32.toInt32
  | "EncodeZigzag64", x => x.uint64?.map fun v buffer => buffer.zigzag64 v.toInt64
  | "EncodeStringBytes", .value (.string bs) => some fun buffer => buffer.lengthDelimited bs
  | "EncodeRawBytes", .value (.bytes bs) => some fun buffer => buffer.lengthDelimited bs
  | "EncodeMessage", .value (.message _ m) =>
    some fun buffer => buffer.lengthDelimited (run.encode m)
  | "Marshal", .value (.message _ m) => some fun buffer => buffer.bytes (run.encode m)
  | _, _ => none

/-- What a call on a buffer reads, after what it gives when it fails. -/
def read? (method : String) :
    Option (Value Message × (Cursor → Cursor.Result (Value Message))) :=
  match method with
  | "DecodeVarint" => some (.uint64 0, fun c => c.varint.map .uint64)
  | "DecodeFixed32" => some (.uint64 0, fun c => c.fixed32.map fun v => .uint64 v.toUInt64)
  | "DecodeFixed64" => some (.uint64 0, fun c => c.fixed64.map .uint64)
  | "DecodeZigzag32" =>
    some (.uint64 0, fun c => c.zigzag32.map fun v => .uint64 v.toUInt32.toUInt64)
  | "DecodeZigzag64" => some (.uint64 0, fun c => c.zigzag64.map fun v => .uint64 v.toUInt64)
  | "DecodeStringBytes" => some (.string [], fun c => c.lengthDelimited.map .string)
  | "DecodeRawBytes" => some (.bytes [], fun c => c.lengthDelimited.map .bytes)
  | _ => none

/-- What a call on a buffer reads into a message of a type. -/
def Runtime.readMessage? (run : Runtime Message) (method : String) (t : TypeExpr) :
    Option (Cursor → Option (Message t) × Cursor) :=
  match method with
  | "DecodeMessage" => some fun c =>
    match c.lengthDelimited with
    | (.ok bs, c) => (run.decode t bs, c)
    | (.error _, c) => (none, c)
  | "DecodeGroup" => some fun c =>
    match run.decodeGroup t c.rest with
    | some (m, count) => (some m, c.advance count)
    | none => (none, c)
  | _ => none

structure State (Message : TypeExpr → Type) where
  scope : Scope Message
  output : Buffer := {}
  input : Cursor := ⟨[], 0⟩
  /-- The unions that have been set, the last first. -/
  unions : List (String × Operand Message) := []

namespace State

variable (st : State Message)

def declare : List Expr → List (Operand Message) → Option (State Message)
  | [], [] => some st
  | .name n :: targets, x :: xs =>
    (declare targets xs).map fun st => { st with scope := (n, x) :: st.scope }
  | _, _ => none

def update (n : String) (x : Operand Message) : State Message :=
  { st with scope := Scope.set n x st.scope }

/-- The state after a block: its variables are gone. -/
def leave (outer : State Message) : State Message :=
  { st with scope := st.scope.drop (st.scope.length - outer.scope.length) }

def readValue (method : String) : Option (List (Operand Message) × State Message) := do
  let (zero, read) ← read? method
  match read st.input with
  | (.ok v, input) => return ([.value v, .error none], { st with input })
  | (.error _, input) => return ([.value zero, .error (some method)], { st with input })

/-- A call that reads into the message that a variable points to. -/
def readMessage (run : Runtime Message) (method n : String) (t : TypeExpr) :
    Option (List (Operand Message) × State Message) := do
  let read ← run.readMessage? method t
  match read st.input with
  | (some m, input) => return ([.error none], { st.update n (.value (.message t m)) with input })
  | (none, input) => return ([.error (some method)], { st with input })

/-- A call on the buffer. Those that read bytes are told whether to copy them. -/
def onBuffer (env : Env Message) (method : String) :
    List Expr → Option (List (Operand Message) × State Message)
  | [] => st.readValue method
  | [e] => do
    let x ← e.eval env st.scope
    match env.runtime.write? method x with
    | some write => return ([.error none], { st with output := write st.output })
    | none =>
      match e, x with
      | .name n, .value (.message t _) => st.readMessage env.runtime method n t
      | _, .value (.bool _) => st.readValue method
      | _, _ => none
  | _ => none

end State

/-- The results of an expression that may be a call on the buffer. -/
def Expr.results (env : Env Message) (st : State Message) :
    Expr → Option (List (Operand Message) × State Message)
  | .call (.select e method) args => do
    match ← e.eval env st.scope with
    | .buffer => st.onBuffer env method args
    | _ => none
  | e => (e.eval env st.scope).map fun x => ([x], st)

/-- The state after a statement, with what it returns if it does. -/
abbrev Outcome (Message : TypeExpr → Type) := State Message × Option (List (Operand Message))

def Simple.exec (env : Env Message) (st : State Message) : Simple → Option (Outcome Message)
  | .eval e => do
    let (_, st) ← e.results env st
    return (st, none)
  | .ret values => do return (st, some (← Expr.evalAll env st.scope values))
  | .assign targets ":=" [e] => do
    let (xs, st) ← e.results env st
    return (← st.declare targets xs, none)
  | .assign [.name n] "=" [e] => do
    match ← env.lookup st.scope n with
    | .value (.uint64 _) =>
      return (st.update n (.value (.uint64 (← (← e.eval env st.scope).uint64?))), none)
    | _ => none
  | .assign [.name n] "+=" [e] => do
    match ← env.lookup st.scope n with
    | .int k => return (st.update n (.int (k + (← (← e.eval env st.scope).int?))), none)
    | _ => none
  | .assign [.select target field] "=" [e] => do
    match ← target.eval env st.scope with
    | .self => return ({ st with unions := (field, ← e.eval env st.scope) :: st.unions }, none)
    | _ => none
  | _ => none

/-- Whether a case is the one for a number. -/
def Case.isFor (env : Env Message) (scope : Scope Message) (tag : Operand Message) :
    Case → Option Bool
  | .on label _ | .onNoted label _ _ => do
    match tag, ← label.eval env scope with
    | .int n, .constant k => return n.toInt = k
    | _, _ => none
  | .otherwise _ => some true

namespace Stmt

mutual

def exec (env : Env Message) : Stmt → State Message → Option (Outcome Message)
  | simple s, st => s.exec env st
  | noted s _, st => s.exec env st
  | comment _, st => some (st, none)
  | ifThen init cond body, st => do
    let inner ← match init with
      | some s => (s.exec env st).map (·.1)
      | none => some st
    match ← cond.eval env inner.scope with
    | .value (.bool true) => do
      let (last, result) ← execAll env body inner
      return (last.leave st, result)
    | .value (.bool false) => return (inner.leave st, none)
    | _ => none
  | switchOn subject cases, st => do
    execFirst env (← subject.eval env st.scope) cases st
  | _, _ => none

def execAll (env : Env Message) : List Stmt → State Message → Option (Outcome Message)
  | [], st => some (st, none)
  | s :: ss, st => do
    match ← exec env s st with
    | (st, none) => execAll env ss st
    | (st, some results) => return (st, some results)

def execCase (env : Env Message) : Case → State Message → Option (Outcome Message)
  | .on _ body, st => (execAll env body st).map fun (last, result) => (last.leave st, result)
  | .onNoted _ _ body, st =>
    (execAll env body st).map fun (last, result) => (last.leave st, result)
  | .otherwise body, st => (execAll env body st).map fun (last, result) => (last.leave st, result)

def execFirst (env : Env Message) (tag : Operand Message) :
    List Case → State Message → Option (Outcome Message)
  | [], st => some (st, none)
  | c :: cs, st => do
    if ← c.isFor env st.scope tag then execCase env c st else execFirst env tag cs st

end

end Stmt

namespace Func

/-- The parameters of a function, bound to arguments. -/
def bind (f : Func) (args : List (Operand Message)) : Scope Message :=
  (f.params.flatMap (·.names)).zip args

def block : Func → List Stmt
  | { body := .block body, .. } => body
  | _ => []

/-- What a case of a function that writes unions adds to a buffer, for a member with a value. -/
def marshal (env : Env Message) (f : Func) (c : Case) (wrapper : String) (v : Value Message)
    (output : Buffer) : Option Buffer := do
  let scope := ("x", .wrapper wrapper v) :: ("m", .self) :: f.bind [.self, .buffer]
  match ← Stmt.execCase env c { scope, output } with
  | (st, none) => return st.output
  | _ => none

/-- What a case of a function that measures unions makes of the size so far. -/
def measure (env : Env Message) (f : Func) (c : Case) (wrapper : String) (v : Value Message)
    (n : Int64) : Option Int64 := do
  let scope := ("x", .wrapper wrapper v) :: ("m", .self) :: ("n", .int n) :: f.bind [.self]
  match ← Stmt.execCase env c { scope } with
  | (st, none) =>
    match st.scope.lookup "n" with
    | some (.int n) => return n
    | _ => none
  | _ => none

/-- What a function that reads unions returns after a key, the union that it sets, and the cursor
after it. -/
def unmarshal (env : Env Message) (f : Func) (number : Int32) (wire : Wire.WireType)
    (input : Cursor) :
    Option (List (Operand Message) × List (String × Operand Message) × Cursor) := do
  let scope := f.bind [.self, .int number.toInt64, .int (Int64.ofNat wire.code), .buffer]
  match ← Stmt.execAll env f.block { scope, input } with
  | (st, some results) => return (results, st.unions, st.input)
  | _ => none

end Func

namespace Scope

variable {scope : Scope Message} {n : String} {x y : Operand Message}

theorem lookup_set_self (h : scope.lookup n = some y) : (scope.set n x).lookup n = some x := by
  induction scope with
  | nil => simp at h
  | cons e scope ih =>
    obtain ⟨m, z⟩ := e
    by_cases hm : m = n
    · simp [Scope.set, hm]
    · have hne : (n == m) = false := beq_eq_false_iff_ne.mpr (Ne.symm hm)
      simp only [lookup_cons, hne] at h
      simp [Scope.set, hm, lookup_cons, hne, ih h]

theorem lookup_set_ne {k : String} (h : k ≠ n) : (scope.set n x).lookup k = scope.lookup k := by
  induction scope with
  | nil => rfl
  | cons e scope ih =>
    obtain ⟨m, z⟩ := e
    by_cases hm : m = n
    · simp [Scope.set, hm, lookup_cons, beq_eq_false_iff_ne.mpr h]
    · simp [Scope.set, hm, lookup_cons, ih]

theorem set_set : (scope.set n x).set n y = scope.set n y := by
  induction scope with
  | nil => rfl
  | cons e scope ih =>
    obtain ⟨m, z⟩ := e
    by_cases hm : m = n
    · simp [Scope.set, hm]
    · simp [Scope.set, hm, ih]

theorem forall_mem_set {p : String → Prop} (h : ∀ e ∈ scope, p e.1) :
    ∀ e ∈ scope.set n x, p e.1 := by
  induction scope with
  | nil => exact h
  | cons e scope ih =>
    obtain ⟨hp, hscope⟩ := forall_mem_cons.mp h
    obtain ⟨m, z⟩ := e
    by_cases hm : m = n
    · simpa [Scope.set, hm] using ⟨hm ▸ hp, fun m z hmem => hscope (m, z) hmem⟩
    · simpa [Scope.set, hm] using ⟨hp, fun m z hmem => ih hscope (m, z) hmem⟩

end Scope

private theorem digits?_toString (n : Nat) : digits? (toString n).toList = some (n : Int) := by
  have hdigits : (Nat.toDigits 10 n).all Char.isDigit = true := by
    rw [all_eq_true]
    exact fun c hc => Nat.isDigit_of_mem_toDigits (by decide) (by decide) hc
  rw [digits?, Nat.toString_eq_ofList_toDigits, String.toList_ofList, if_pos hdigits,
    Nat.ofDigitChars_toDigits (by decide) (by decide)]

theorem decimal?_nat (n : Nat) : decimal? (toString n) = some (n : Int) := by
  have hdigits := digits?_toString n
  unfold decimal?
  split
  · rename_i cs heq
    rw [heq] at hdigits
    simp [digits?] at hdigits
  · exact hdigits

theorem decimal?_int (n : Int) : decimal? (toString n) = some n := by
  cases n with
  | ofNat n => exact decimal?_nat n
  | negSucc n =>
    have heq : toString (Int.negSucc n) = "-" ++ toString (n + 1) := rfl
    rw [decimal?, heq, String.toList_append]
    exact congrArg (Option.map (- ·)) (digits?_toString (n + 1))

section Rules

variable {env : Env Message} {scope : Scope Message} {st : State Message}
variable {st' : State Message} {x : Operand Message}

variable {n : String} {s : Stmt} {ss : List Stmt}

@[simp] theorem eval_int (n : Int) : (Expr.int n).eval env scope = some (.constant n) := by
  rw [Expr.int, Expr.eval, decimal?_int, Option.map_some]

@[simp] theorem eval_nat (n : Nat) : (Expr.nat n).eval env scope = some (.constant n) := by
  rw [Expr.nat, Expr.eval, decimal?_nat, Option.map_some]

theorem eval_number (text : String) (n : Nat) (h : text = toString n) :
    (Expr.number text).eval env scope = some (.constant n) := h ▸ eval_nat n

theorem eval_name (h : scope.lookup n = some x) : (Expr.name n).eval env scope = some x := by
  simp [Expr.eval, Env.lookup, h]

theorem eval_binary {left right : Expr} {op : String} {y : Operand Message}
    (hx : left.eval env scope = some x) (hy : right.eval env scope = some y) :
    (Expr.binary left op right).eval env scope = x.binary op y := by
  simp [Expr.eval, hx, hy]

theorem execAll_cons (h : s.exec env st = some (st', none)) :
    Stmt.execAll env (s :: ss) st = Stmt.execAll env ss st' := by
  simp [Stmt.execAll, h]

theorem execAll_append {ss' : List Stmt} (h : Stmt.execAll env ss st = some (st', none)) :
    Stmt.execAll env (ss ++ ss') st = Stmt.execAll env ss' st' := by
  induction ss generalizing st with
  | nil =>
    obtain rfl : st = st' := by simpa [Stmt.execAll] using h
    rfl
  | cons s ss ih =>
    cases hs : s.exec env st with
    | none => simp [Stmt.execAll, hs] at h
    | some outcome =>
      obtain ⟨st₁, _ | results⟩ := outcome
      · rw [cons_append, execAll_cons hs]
        exact ih (by rwa [execAll_cons hs] at h)
      · simp [Stmt.execAll, hs] at h

theorem execAll_single (h : s.exec env st = some (st', none)) :
    Stmt.execAll env [s] st = some (st', none) := by
  rw [execAll_cons h, Stmt.execAll]

theorem exec_define {e : Expr} (h : e.results env st = some ([x], st')) :
    (Stmt.define n e).exec env st = some ({ st' with scope := (n, x) :: st'.scope }, none) := by
  simp [Stmt.define, Simple.define, Stmt.exec, Simple.exec, h, State.declare]

end Rules

end GoBindings.Go
