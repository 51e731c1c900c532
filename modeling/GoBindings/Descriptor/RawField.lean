import GoBindings.Text.Utf8
import GoBindings.Wire.Fixed
import GoBindings.Wire.Kind
import GoBindings.Wire.Varint

/-!
# Raw fields

A serialized message is a sequence of fields, each a number and a payload. Reading a message of
some type means asking for the payloads of its field numbers: of a single value the last one
counts, the parts of a submessage are put together, and fields with other numbers are dropped.
-/

namespace GoBindings.Descriptor

open Wire (WireType)

inductive Payload where
  | varint (v : UInt64)
  | fixed64 (v : UInt64)
  | bytes (bs : List UInt8)
  /-- A group, of which only the greatest number of groups around a field in it is kept. -/
  | group (height : Nat)
  | fixed32 (v : UInt32)
  deriving DecidableEq, Repr, Inhabited

structure RawField where
  number : Nat
  payload : Payload
  deriving DecidableEq, Repr, Inhabited

namespace RawField

/-! ### Splitting bytes into fields

Every function takes the bytes from its own start and tells how many of them it has read. -/

/-- A number below 2^64 in at most ten bytes. -/
def varint? (bs : List UInt8) : Option (Nat × Nat) :=
  match Wire.Varint.decodeNat? Wire.Varint.maxSize bs with
  | some (v, count) => if v < UInt64.size then some (v, count) else none
  | none => none

theorem varint?_pos {bs : List UInt8} {v count : Nat} (h : varint? bs = some (v, count)) :
    0 < count ∧ count ≤ bs.length := by
  rw [varint?] at h
  split at h
  · next w k hw =>
    split at h
    · simp only [Option.some.injEq, Prod.mk.injEq] at h
      exact h.2 ▸ Wire.Varint.decodeNat?_pos hw
    · simp at h
  · simp at h

/-- The field number and wire type of a key below 2^32. -/
def splitKey? (key : Nat) : Option (Nat × WireType) :=
  if UInt32.size ≤ key ∨ key / 8 = 0 then none
  else (WireType.ofCode? (key % 8)).map fun wire => (key / 8, wire)

def key? (bs : List UInt8) : Option ((Nat × WireType) × Nat) :=
  match varint? bs with
  | some (v, count) => (splitKey? v).map fun k => (k, count)
  | none => none

theorem key?_pos {bs : List UInt8} {k : Nat × WireType} {count : Nat}
    (h : key? bs = some (k, count)) : 0 < count ∧ count ≤ bs.length := by
  rw [key?] at h
  split at h
  · next v n hv =>
    obtain ⟨k', _, he⟩ := Option.map_eq_some_iff.1 h
    simp only [Prod.mk.injEq] at he
    exact he.2 ▸ varint?_pos hv
  · simp at h

/-- A payload that holds no fields. -/
def plain? (wire : WireType) (bs : List UInt8) : Option (Payload × Nat) :=
  match wire with
  | .varint => (varint? bs).map fun (v, count) => (.varint v.toUInt64, count)
  | .fixed64 =>
    if bs.length < 8 then none else some (.fixed64 (Wire.Fixed.decode64 (bs.take 8)), 8)
  | .fixed32 =>
    if bs.length < 4 then none else some (.fixed32 (Wire.Fixed.decode32 (bs.take 4)), 4)
  | .bytes =>
    match varint? bs with
    | some (n, count) =>
      if bs.length < count + n then none
      else some (.bytes ((bs.drop count).take n), count + n)
    | none => none
  | .startGroup | .endGroup => none

/-- Reads fields until the groups, innermost first, are all closed. -/
def group? (groups : List Nat) (height consumed : Nat) (bs : List UInt8) : Option (Nat × Nat) :=
  match groups with
  | [] => some (height, consumed)
  | number :: outer =>
    match h : key? bs with
    | none => none
    | some ((inner, wire), count) =>
      have := key?_pos h
      let height' := max height (outer.length + 1)
      match wire with
      | .endGroup =>
        if inner = number then group? outer height (consumed + count) (bs.drop count) else none
      | .startGroup =>
        group? (inner :: number :: outer) height' (consumed + count) (bs.drop count)
      | wire =>
        match plain? wire (bs.drop count) with
        | none => none
        | some (_, n) =>
          group? (number :: outer) height' (consumed + count + n) ((bs.drop count).drop n)
termination_by bs.length
decreasing_by all_goals simp only [List.length_drop]; omega

def payload? (number : Nat) (wire : WireType) (bs : List UInt8) : Option (Payload × Nat) :=
  match wire with
  | .startGroup => (group? [number] 0 0 bs).map fun (height, count) => (.group height, count)
  | wire => plain? wire bs

def parse? (bs : List UInt8) : Option (List RawField) :=
  if bs.isEmpty then some []
  else
    match h : key? bs with
    | none => none
    | some ((number, wire), count) =>
      have := key?_pos h
      match payload? number wire (bs.drop count) with
      | none => none
      | some (payload, n) =>
        (parse? ((bs.drop count).drop n)).map (⟨number, payload⟩ :: ·)
termination_by bs.length
decreasing_by simp only [List.length_drop]; omega

/-! ### Putting fields into bytes -/

def key (number : Nat) (wire : WireType) : List UInt8 :=
  Wire.Varint.encodeNat (number * 8 + wire.code)

/-- The serialized form of a field; groups are never written. -/
def bytes (f : RawField) : List UInt8 :=
  match f.payload with
  | .varint v => key f.number .varint ++ Wire.Varint.encode v
  | .fixed64 v => key f.number .fixed64 ++ Wire.Fixed.encode64 v
  | .bytes bs => key f.number .bytes ++ Wire.Varint.encodeNat bs.length ++ bs
  | .fixed32 v => key f.number .fixed32 ++ Wire.Fixed.encode32 v
  | .group _ => []

def render (fs : List RawField) : List UInt8 := fs.flatMap bytes

/-! ### Reading fields by number -/

def payloads (number : Nat) (fs : List RawField) : List Payload :=
  (fs.filter (·.number = number)).map (·.payload)

/-- The level of nesting that passing over a payload needs. -/
def heightOf : Payload → Nat
  | .group height => height
  | _ => 0

/-- Fields with unknown numbers are passed over as long as their groups do not nest too deep. -/
def checkUnknown (limit : Nat) (known : List Nat) (fs : List RawField) : Option Unit :=
  if fs.all fun f => known.contains f.number || heightOf f.payload < limit then some () else none

def asText? : Payload → Option String
  | .bytes bs => Text.Utf8.decode? bs
  | _ => none

def asVarint? : Payload → Option UInt64
  | .varint v => some v
  | _ => none

def asFixed64? : Payload → Option UInt64
  | .fixed64 v => some v
  | _ => none

def asBytes? : Payload → Option (List UInt8)
  | .bytes bs => some bs
  | _ => none

/-- The numbers that fill the bytes. -/
def packed? (bs : List UInt8) : Option (List UInt64) :=
  if bs.isEmpty then some []
  else
    match h : varint? bs with
    | none => none
    | some (v, count) =>
      have := varint?_pos h
      (packed? (bs.drop count)).map (v.toUInt64 :: ·)
termination_by bs.length
decreasing_by simp only [List.length_drop]; omega

/-- Repeated numbers come one to a field, or packed. -/
def asVarints? : Payload → Option (List UInt64)
  | .varint v => some [v]
  | .bytes bs => packed? bs
  | _ => none

/-- The low 32 bits as a signed number. -/
def toInt32 (v : UInt64) : Int32 := v.toUInt32.toInt32

/-- The last value of a field, all values being well-formed. -/
def last? {α : Type} (read : Payload → Option α) (number : Nat) (fs : List RawField) :
    Option (Option α) :=
  ((payloads number fs).mapM read).map (·.getLast?)

def text? : Nat → List RawField → Option (Option String) := last? asText?

def texts (number : Nat) (fs : List RawField) : Option (List String) :=
  (payloads number fs).mapM asText?

def int32? : Nat → List RawField → Option (Option Int32) :=
  last? fun p => (asVarint? p).map toInt32

def int32s (number : Nat) (fs : List RawField) : Option (List Int32) :=
  ((payloads number fs).mapM asVarints?).map fun vs => vs.flatten.map toInt32

def bool? : Nat → List RawField → Option (Option Bool) :=
  last? fun p => (asVarint? p).map (· ≠ 0)

def uint64? : Nat → List RawField → Option (Option UInt64) := last? asVarint?

def int64? : Nat → List RawField → Option (Option Int64) :=
  last? fun p => (asVarint? p).map (·.toInt64)

def fixed64? : Nat → List RawField → Option (Option UInt64) := last? asFixed64?

def bytes? : Nat → List RawField → Option (Option (List UInt8)) := last? asBytes?

/-- The reader of submessages, if they may nest any further. -/
def below {α : Type} (limit : Nat) (read : Nat → List RawField → Option α) :
    Option (List RawField → Option α) :=
  match limit with
  | 0 => none
  | limit + 1 => some (read limit)

def submessages (number : Nat) (fs : List RawField) : Option (List (List RawField)) :=
  (payloads number fs).mapM fun p => (asBytes? p).bind parse?

def listOf {α : Type} (number : Nat) (read : Option (List RawField → Option α))
    (fs : List RawField) : Option (List α) := do
  match ← submessages number fs with
  | [] => return []
  | parts => parts.mapM (← read)

def one? {α : Type} (number : Nat) (read : Option (List RawField → Option α))
    (fs : List RawField) : Option (Option α) := do
  match ← submessages number fs with
  | [] => return none
  | parts => return some (← (← read) parts.flatten)

/-! ### Fields of values -/

def putText (number : Nat) (v : Option String) : List RawField :=
  v.toList.map fun s => ⟨number, .bytes (Text.Utf8.encode s)⟩

def putTexts (number : Nat) (vs : List String) : List RawField :=
  vs.map fun s => ⟨number, .bytes (Text.Utf8.encode s)⟩

def putInt32 (number : Nat) (v : Option Int32) : List RawField :=
  v.toList.map fun n => ⟨number, .varint n.toInt64.toUInt64⟩

def putInt32s (number : Nat) (vs : List Int32) : List RawField :=
  vs.map fun n => ⟨number, .varint n.toInt64.toUInt64⟩

def putPackedInt32s (number : Nat) (vs : List Int32) : List RawField :=
  if vs.isEmpty then []
  else [⟨number, .bytes (vs.flatMap fun n => Wire.Varint.encode n.toInt64.toUInt64)⟩]

def putBool (number : Nat) (v : Option Bool) : List RawField :=
  v.toList.map fun b => ⟨number, .varint (if b then 1 else 0)⟩

def putUint64 (number : Nat) (v : Option UInt64) : List RawField :=
  v.toList.map fun n => ⟨number, .varint n⟩

def putInt64 (number : Nat) (v : Option Int64) : List RawField :=
  v.toList.map fun n => ⟨number, .varint n.toUInt64⟩

def putFixed64 (number : Nat) (v : Option UInt64) : List RawField :=
  v.toList.map fun n => ⟨number, .fixed64 n⟩

def putBytes (number : Nat) (v : Option (List UInt8)) : List RawField :=
  v.toList.map fun bs => ⟨number, .bytes bs⟩

def putMessage (number : Nat) (v : Option (List RawField)) : List RawField :=
  v.toList.map fun fs => ⟨number, .bytes (render fs)⟩

def putMessages (number : Nat) (vs : List (List RawField)) : List RawField :=
  vs.map fun fs => ⟨number, .bytes (render fs)⟩

end RawField

end GoBindings.Descriptor
