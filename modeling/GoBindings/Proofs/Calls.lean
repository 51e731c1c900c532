import GoBindings.Proofs.Skipping
import GoBindings.Proofs.Unicode

/-!
# Sequences of calls

A cursor answers any sequence of calls. It only moves forward, up to the end of its data. Values
that were written one after the other are the answers to the calls that ask for them in this order.
-/

namespace GoBindings.Wire

open List Cursor

/-- What a cursor can be asked for. -/
inductive Call where
  | byte
  | bytes (n : UInt64)
  | varint
  | fixed32
  | fixed64
  | zigzag32
  | zigzag64
  | key
  | lengthDelimited
  | text
  | skip (number : Int32) (wire : WireType)
  deriving DecidableEq, Repr

/-- A value that can be written and asked for. -/
inductive Value where
  | byte (v : UInt8)
  | bytes (bs : List UInt8)
  | varint (v : UInt64)
  | fixed32 (v : UInt32)
  | fixed64 (v : UInt64)
  | zigzag32 (v : Int32)
  | zigzag64 (v : Int64)
  | key (number : Int32) (wire : WireType)
  | lengthDelimited (bs : List UInt8)
  | text (s : String)
  deriving DecidableEq, Repr

namespace Cursor

/-- The answer to a call; what is skipped has no value. -/
def answer (c : Cursor) : Call → Result (Option Value)
  | .byte => c.byte.map fun v => some (.byte v)
  | .bytes n => (c.bytes n.toNat).map fun bs => some (.bytes bs)
  | .varint => c.varint.map fun v => some (.varint v)
  | .fixed32 => c.fixed32.map fun v => some (.fixed32 v)
  | .fixed64 => c.fixed64.map fun v => some (.fixed64 v)
  | .zigzag32 => c.zigzag32.map fun v => some (.zigzag32 v)
  | .zigzag64 => c.zigzag64.map fun v => some (.zigzag64 v)
  | .key => c.key.map fun (number, wire) => some (.key number wire)
  | .lengthDelimited => c.lengthDelimited.map fun bs => some (.lengthDelimited bs)
  | .text => c.text.map fun s => some (.text s)
  | .skip number wire => (c.skip number wire).map fun _ => none

/-- The answers to calls that are made one after the other, also after one that fails. -/
def answers (c : Cursor) : List Call → List (Except Fault (Option Value)) × Cursor
  | [] => ([], c)
  | call :: calls =>
    let (first, d) := c.answer call
    let (rest, e) := d.answers calls
    (first :: rest, e)

/-- Where calls on the data lead from its start. -/
def after (data : List UInt8) (calls : List Call) : Cursor := ((mk data 0).answers calls).2

section Movement

/-- The other cursor stands on the same data, no further back, and no further on than its end. -/
structure Moves (c d : Cursor) : Prop where
  data : d.data = c.data
  forward : c.index ≤ d.index
  within : d.index ≤ max c.index c.data.length

variable {c d e : Cursor}

theorem Moves.refl (c : Cursor) : c.Moves c := ⟨rfl, Nat.le_refl _, Nat.le_max_left _ _⟩

theorem Moves.trans (h : c.Moves d) (h' : d.Moves e) : c.Moves e := by
  obtain ⟨hdata, hforward, hwithin⟩ := h
  obtain ⟨hdata', hforward', hwithin'⟩ := h'
  rw [hdata] at hwithin'
  exact ⟨hdata'.trans hdata, by omega, by omega⟩

theorem moves_advance {n : Nat} (h : n ≤ c.remaining) : c.Moves (c.advance n) := by
  rw [remaining] at h
  refine ⟨rfl, Nat.le_add_right _ _, ?_⟩
  rw [advance]
  dsimp only
  omega

theorem moves_byte (c : Cursor) : c.Moves c.byte.2 := by
  rw [byte]
  split
  · exact .refl c
  · rename_i b rest hrest
    have hlength : c.remaining = rest.length + 1 := by
      rw [remaining, ← length_drop]
      exact congrArg length hrest
    exact moves_advance (by omega)

theorem moves_bytes (c : Cursor) (n : Nat) : c.Moves (c.bytes n).2 := by
  rw [bytes]
  split
  · exact .refl c
  · split
    · exact .refl c
    · refine moves_advance ?_
      rw [remaining]
      omega

theorem moves_varint (c : Cursor) : c.Moves c.varint.2 := by
  rw [varint]
  split
  · rename_i v count hv
    have hle := (Varint.decode?_pos hv).2
    rw [rest, length_drop] at hle
    exact moves_advance hle
  · exact moves_advance (Nat.min_le_right _ _)

theorem moves_key (c : Cursor) : c.Moves c.key.2 := by
  have hvarint := moves_varint c
  rw [key]
  split
  · rename_i hv
    rwa [hv] at hvarint
  · rename_i hv
    rw [hv] at hvarint
    split <;> exact hvarint

theorem moves_lengthDelimited (c : Cursor) : c.Moves c.lengthDelimited.2 := by
  have hvarint := moves_varint c
  rw [lengthDelimited]
  split
  · rename_i hv
    rwa [hv] at hvarint
  · rename_i n d hv
    rw [hv] at hvarint
    exact hvarint.trans (moves_bytes d n.toNat)

theorem moves_skipPlain (c : Cursor) (wire : WireType) : c.Moves (c.skipPlain wire).2 := by
  cases wire with
  | varint => exact moves_varint c
  | fixed64 => exact moves_bytes c 8
  | fixed32 => exact moves_bytes c 4
  | bytes => exact moves_lengthDelimited c
  | startGroup => exact .refl c
  | endGroup => exact .refl c

private theorem moves_of_key {r : Except Fault (Int32 × WireType)} (h : c.key = (r, d)) :
    c.Moves d := by
  have hkey := moves_key c
  rwa [h] at hkey

private theorem moves_of_skipPlain {wire : WireType} {r : Except Fault Unit}
    (h : c.skipPlain wire = (r, d)) : c.Moves d := by
  have hskip := moves_skipPlain c wire
  rwa [h] at hskip

theorem Round.moves {s t : List Int32 × Cursor} (h : Round s t) : s.2.Moves t.2 := by
  cases h with
  | close hkey | start hkey => exact moves_of_key hkey
  | pass hkey _ _ hskip => exact (moves_of_key hkey).trans (moves_of_skipPlain hskip)

theorem Rounds.moves {s t : List Int32 × Cursor} (h : Rounds s t) : s.2.Moves t.2 := by
  induction h with
  | refl => exact .refl _
  | tail _ hround ih => exact ih.trans hround.moves

theorem Stops.moves {s : List Int32 × Cursor} {fault : Fault} (h : Stops s fault d) :
    s.2.Moves d := by
  cases h with
  | key hkey | close hkey _ => exact moves_of_key hkey
  | payload hkey _ _ hskip => exact (moves_of_key hkey).trans (moves_of_skipPlain hskip)

theorem moves_skip (c : Cursor) (number : Int32) (wire : WireType) :
    c.Moves (c.skip number wire).2 := by
  by_cases hwire : wire = .startGroup
  · subst hwire
    rw [skip]
    rcases skipGroups_cases [number] c with ⟨d, hrounds, heq⟩ | ⟨t, fault, d, hrounds, hstops, heq⟩
    · rw [heq]
      exact hrounds.moves
    · rw [heq]
      exact hrounds.moves.trans hstops.moves
  · rw [skip_of_ne hwire]
    exact moves_skipPlain c wire

theorem moves_answer (c : Cursor) (call : Call) : c.Moves (c.answer call).2 := by
  cases call with
  | byte => exact moves_byte c
  | bytes n => exact moves_bytes c n.toNat
  | varint | zigzag32 | zigzag64 => exact moves_varint c
  | fixed32 => exact moves_bytes c 4
  | fixed64 => exact moves_bytes c 8
  | key => exact moves_key c
  | lengthDelimited | text => exact moves_lengthDelimited c
  | skip number wire => exact moves_skip c number wire

theorem moves_answers (c : Cursor) (calls : List Call) : c.Moves (c.answers calls).2 := by
  induction calls generalizing c with
  | nil => exact .refl c
  | cons call calls ih => exact (moves_answer c call).trans (ih _)

end Movement

section Overflow

/-- The call comes to ask for a number of bytes at a cursor. -/
inductive Asks : Call → Cursor → Nat → Cursor → Prop
  | bytes {n c} : Asks (.bytes n) c n.toNat c
  | fixed32 {c} : Asks .fixed32 c 4 c
  | fixed64 {c} : Asks .fixed64 c 8 c
  | lengthDelimited {c v d} (h : c.varint = (.ok v, d)) : Asks .lengthDelimited c v.toNat d
  | text {c v d} (h : c.varint = (.ok v, d)) : Asks .text c v.toNat d
  | skipFixed32 {number c} : Asks (.skip number .fixed32) c 4 c
  | skipFixed64 {number c} : Asks (.skip number .fixed64) c 8 c
  | skipBytes {number c v d} (h : c.varint = (.ok v, d)) : Asks (.skip number .bytes) c v.toNat d
  /-- A field in a group that is open after some rounds. -/
  | skipGroup {number c group outer d inner wire e n f}
      (hrounds : Rounds ([number], c) (group :: outer, d))
      (hkey : d.key = (.ok (inner, wire), e)) (hwire : wire ≠ .startGroup)
      (h : Asks (.skip inner wire) e n f) : Asks (.skip number .startGroup) c n f

/-- The end of some bytes that a call comes to ask for has no 64-bit index. -/
def Overruns (call : Call) (c : Cursor) : Prop :=
  ∃ n d, Asks call c n d ∧ UInt64.size ≤ d.index + n

variable {c : Cursor}

theorem map_eq_overflow_iff {α β : Type} {f : α → β} {r : Result α} :
    (r.map f).1 = .error .overflow ↔ r.1 = .error .overflow := by
  obtain ⟨r, d⟩ := r
  cases r <;> simp [Result.map, Except.map]

theorem bytes_eq_overflow_iff {n : Nat} :
    (c.bytes n).1 = .error .overflow ↔ UInt64.size ≤ c.index + n := by
  rw [bytes]
  split
  · simpa
  · split <;> simpa using by omega

theorem varint_ne_overflow (c : Cursor) : c.varint.1 ≠ .error .overflow := by
  rw [varint]
  split <;> simp

theorem key_ne_overflow (c : Cursor) : c.key.1 ≠ .error .overflow := by
  have hvarint := varint_ne_overflow c
  rw [key]
  split
  · rename_i hv
    rw [hv] at hvarint
    simpa using hvarint
  · split <;> simp

theorem lengthDelimited_eq_overflow_iff : c.lengthDelimited.1 = .error .overflow ↔
    ∃ v d, c.varint = (.ok v, d) ∧ UInt64.size ≤ d.index + v.toNat := by
  have hvarint := varint_ne_overflow c
  rw [lengthDelimited]
  split
  · simp_all
  · rename_i v d hv
    rw [bytes_eq_overflow_iff]
    simp [hv]

private theorem skipPlain_eq_overflow_iff {number : Int32} {wire : WireType}
    (hwire : wire ≠ .startGroup) :
    (c.skipPlain wire).1 = .error .overflow ↔ Overruns (.skip number wire) c := by
  cases wire with
  | varint =>
    rw [skipPlain, map_eq_overflow_iff]
    constructor
    · intro h
      exact absurd h (varint_ne_overflow c)
    · rintro ⟨n, d, hasks, -⟩
      cases hasks
  | fixed64 =>
    rw [skipPlain, map_eq_overflow_iff, bytes_eq_overflow_iff]
    constructor
    · intro h
      exact ⟨8, c, .skipFixed64, h⟩
    · rintro ⟨n, d, hasks, h⟩
      cases hasks
      exact h
  | fixed32 =>
    rw [skipPlain, map_eq_overflow_iff, bytes_eq_overflow_iff]
    constructor
    · intro h
      exact ⟨4, c, .skipFixed32, h⟩
    · rintro ⟨n, d, hasks, h⟩
      cases hasks
      exact h
  | bytes =>
    rw [skipPlain, map_eq_overflow_iff, lengthDelimited_eq_overflow_iff]
    constructor
    · rintro ⟨v, d, hv, h⟩
      exact ⟨v.toNat, d, .skipBytes hv, h⟩
    · rintro ⟨n, d, hasks, h⟩
      cases hasks with
      | skipBytes hv => exact ⟨_, d, hv, h⟩
  | startGroup => exact absurd rfl hwire
  | endGroup =>
    constructor
    · intro h
      cases h
    · rintro ⟨n, d, hasks, -⟩
      cases hasks

private theorem skipGroups_eq_overflow_iff {number : Int32} :
    (skipGroups [number] c).1 = .error .overflow ↔ Overruns (.skip number .startGroup) c := by
  constructor
  · intro h
    obtain ⟨t, hrounds, hstops⟩ := skipGroups_eq_error_iff.mp (Prod.ext h rfl)
    cases hstops with
    | @key _ _ e _ _ hkey =>
      have hne := key_ne_overflow e
      rw [hkey] at hne
      exact absurd rfl hne
    | @payload _ _ inner wire _ e _ _ hkey hend hstart hskip =>
      have hoverflow : (e.skipPlain wire).1 = .error .overflow := by rw [hskip]
      obtain ⟨n, f, hasks, hsize⟩ := (skipPlain_eq_overflow_iff hstart).mp hoverflow
      exact ⟨n, f, .skipGroup hrounds hkey hstart hasks, hsize⟩
  · rintro ⟨n, f, hasks, hsize⟩
    cases hasks with
    | @skipGroup _ _ _ _ d inner wire e _ _ hrounds hkey hwire hasks =>
      have hoverflow := (skipPlain_eq_overflow_iff hwire).mpr ⟨n, f, hasks, hsize⟩
      have hend : wire ≠ .endGroup := by
        rintro rfl
        cases hasks
      have hskip : e.skipPlain wire = (.error .overflow, (e.skipPlain wire).2) :=
        Prod.ext hoverflow rfl
      have herror := skipGroups_eq_error_iff.mpr ⟨_, hrounds, .payload hkey hend hwire hskip⟩
      rw [herror]

private theorem not_overruns {call : Call} (h : ∀ n d, ¬ Asks call c n d) : ¬ Overruns call c := by
  rintro ⟨n, d, hasks, -⟩
  exact h n d hasks

/-- A call overflows exactly if it comes to ask for bytes that end beyond all 64-bit indices. -/
theorem answer_eq_overflow_iff {call : Call} :
    (c.answer call).1 = .error .overflow ↔ Overruns call c := by
  cases call with
  | byte =>
    refine iff_of_false ?_ (not_overruns (by rintro n d ⟨⟩))
    rw [answer, map_eq_overflow_iff, byte]
    split <;> simp
  | varint | zigzag32 | zigzag64 | key =>
    refine iff_of_false ?_ (not_overruns (by rintro n d ⟨⟩))
    simp [answer, map_eq_overflow_iff, zigzag32, zigzag64, varint_ne_overflow, key_ne_overflow]
  | bytes n | fixed32 | fixed64 =>
    simp only [answer, map_eq_overflow_iff, fixed32, fixed64, bytes_eq_overflow_iff]
    constructor
    · intro h
      exact ⟨_, c, by constructor, h⟩
    · rintro ⟨_, _, ⟨⟩, h⟩
      exact h
  | lengthDelimited | text =>
    simp only [answer, map_eq_overflow_iff, text, lengthDelimited_eq_overflow_iff]
    constructor
    · rintro ⟨v, d, hv, h⟩
      exact ⟨v.toNat, d, by constructor; exact hv, h⟩
    · rintro ⟨_, d, ⟨⟩, h⟩
      exact ⟨_, d, by assumption, h⟩
  | skip number wire =>
    rw [answer, map_eq_overflow_iff]
    by_cases hwire : wire = .startGroup
    · subst hwire
      exact skipGroups_eq_overflow_iff
    · rw [skip_of_ne hwire]
      exact skipPlain_eq_overflow_iff hwire

/-- Whatever calls were made before, a call leaves the data alone and moves the cursor forward, at
most to the end of the data. It overflows exactly if it comes to ask for bytes whose end has no
64-bit index; every other call gives a value or finds the bytes malformed. -/
theorem answer_after (data : List UInt8) (calls : List Call) (call : Call) :
    (after data calls).index ≤ ((after data calls).answer call).2.index ∧
    ((after data calls).answer call).2.index ≤ data.length ∧
    ((after data calls).answer call).2.data = data ∧
    (((after data calls).answer call).1 = .error .overflow ↔
      ∃ n d, Asks call (after data calls) n d ∧ UInt64.size ≤ d.index + n) := by
  have hbefore : (mk data 0).Moves (after data calls) := moves_answers _ calls
  have hcall := moves_answer (after data calls) call
  have hwithin := (hbefore.trans hcall).within
  dsimp only at hwithin
  exact ⟨hcall.forward, by omega, hcall.data.trans hbefore.data, answer_eq_overflow_iff⟩

/-- The length of a length-delimited value is added to an index before it is looked at. -/
theorem answer_lengthDelimited_overflow :
    (mk [255, 255, 255, 255, 255, 255, 255, 255, 255, 1] 0).answers [.lengthDelimited] =
      ([.error .overflow], ⟨[255, 255, 255, 255, 255, 255, 255, 255, 255, 1], 10⟩) := by
  decide

end Overflow

end Cursor

section Written

def Buffer.value (b : Buffer) : Value → Buffer
  | .byte v => b.byte v
  | .bytes bs => b.bytes bs
  | .varint v => b.varint v
  | .fixed32 v => b.fixed32 v
  | .fixed64 v => b.fixed64 v
  | .zigzag32 v => b.zigzag32 v
  | .zigzag64 v => b.zigzag64 v
  | .key number wire => b.key number wire
  | .lengthDelimited bs => b.lengthDelimited bs
  | .text s => b.text s

def Buffer.values (b : Buffer) (values : List Value) : Buffer := values.foldl Buffer.value b

def Value.call : Value → Call
  | .byte _ => .byte
  | .bytes bs => .bytes bs.length.toUInt64
  | .varint _ => .varint
  | .fixed32 _ => .fixed32
  | .fixed64 _ => .fixed64
  | .zigzag32 _ => .zigzag32
  | .zigzag64 _ => .zigzag64
  | .key _ _ => .key
  | .lengthDelimited _ => .lengthDelimited
  | .text _ => .text

/-- A key has a number that the format allows. -/
def Value.Numbered : Value → Prop
  | .key number _ => IsFieldNumber number
  | _ => True

instance : (v : Value) → Decidable v.Numbered
  | .key number _ => inferInstanceAs (Decidable (IsFieldNumber number))
  | .byte _ | .bytes _ | .varint _ | .fixed32 _ | .fixed64 _ | .zigzag32 _ | .zigzag64 _
  | .lengthDelimited _ | .text _ => inferInstanceAs (Decidable True)

def Value.encoded (v : Value) : List UInt8 := (({} : Buffer).value v).data

theorem Buffer.data_value (b : Buffer) (v : Value) : (b.value v).data = b.data ++ v.encoded := by
  cases v <;> simp [Value.encoded, value, byte, bytes, varint, fixed32, fixed64, zigzag32, zigzag64,
    key, lengthDelimited, text]

theorem Value.encoded_lengthDelimited (bs : List UInt8) :
    (Value.lengthDelimited bs).encoded = Varint.encode bs.length.toUInt64 ++ bs := by
  rw [Value.encoded, Buffer.value, Buffer.lengthDelimited_eq, Buffer.bytes, nil_append]

theorem Buffer.data_values (b : Buffer) (values : List Value) :
    (b.values values).data = b.data ++ values.flatMap Value.encoded := by
  induction values generalizing b with
  | nil => simp [Buffer.values]
  | cons v values ih =>
    rw [Buffer.values, foldl_cons, ← Buffer.values, ih, data_value, flatMap_cons,
      append_assoc]

namespace Cursor

variable {before rest : List UInt8}

theorem answer_between {v : Value} (hv : v.Numbered)
    (hsize : (before ++ v.encoded ++ rest).length < UInt64.size) :
    (between before (v.encoded ++ rest)).answer v.call =
      (.ok (some v), between (before ++ v.encoded) rest) := by
  cases v with
  | byte v => exact congrArg (Result.map _) (byte_between before v rest)
  | bytes bs =>
    have hlength : bs.length.toUInt64.toNat = bs.length := by
      refine UInt64.toNat_ofNat_of_lt (Nat.lt_of_le_of_lt ?_ hsize)
      simp only [Value.encoded, Buffer.value, Buffer.bytes, length_append]
      omega
    rw [Value.call, answer, hlength]
    exact congrArg (Result.map _) (bytes_between hsize)
  | varint v => exact congrArg (Result.map _) (varint_between before v rest)
  | fixed32 v => exact congrArg (Result.map _) (fixed32_between v hsize)
  | fixed64 v => exact congrArg (Result.map _) (fixed64_between v hsize)
  | zigzag32 v => exact congrArg (Result.map _) (zigzag32_between before v rest)
  | zigzag64 v => exact congrArg (Result.map _) (zigzag64_between before v rest)
  | key number wire =>
    exact congrArg (Result.map _) (key_between hv before wire rest)
  | lengthDelimited bs =>
    exact congrArg (Result.map _) (lengthDelimited_between hsize)
  | text s =>
    have hencoded :
        (Value.text s).encoded = (Value.lengthDelimited (Text.Utf8.encode s)).encoded :=
      rfl
    rw [hencoded, Value.encoded_lengthDelimited] at hsize ⊢
    rw [Value.call, answer, text, lengthDelimited_between hsize]
    simp [Result.map, Except.map, Text.Utf8.decodeLossy_encode]

theorem answers_between {values : List Value} (hvalues : ∀ v ∈ values, v.Numbered)
    (hsize : (before ++ values.flatMap Value.encoded).length < UInt64.size) :
    (between before (values.flatMap Value.encoded)).answers (values.map Value.call) =
      (values.map fun v => .ok (some v), between (before ++ values.flatMap Value.encoded) []) := by
  induction values generalizing before with
  | nil => simp [answers]
  | cons v values ih =>
    rw [flatMap_cons, ← append_assoc] at hsize
    have hfirst := answer_between (hvalues v mem_cons_self) hsize
    have hrest := ih (fun w hw => hvalues w (mem_cons_of_mem v hw)) hsize
    rw [flatMap_cons, map_cons, answers, hfirst]
    dsimp only
    rw [hrest, map_cons, append_assoc]

theorem key_between_malformed {number : Int32} (h : ¬ IsFieldNumber number) (wire : WireType) :
    (between before (Varint.encode (makeKey number wire) ++ rest)).key.1 = .error .malformed := by
  rw [key, varint_between]
  dsimp only
  rw [splitKey?_makeKey_none h]

/-- Values that are written one after the other are read back by the calls that ask for them, which
leave nothing over. A key with a number that is no field number is never read back. -/
theorem answers_written (values : List Value) (hvalues : ∀ v ∈ values, v.Numbered)
    (hsize : (({} : Buffer).values values).length < UInt64.size) :
    (∃ c, (mk (({} : Buffer).values values).data 0).answers (values.map Value.call) =
      (values.map fun v => .ok (some v), c) ∧ c.isEmpty = true) ∧
    ∀ (number : Int32) (wire : WireType), ¬ IsFieldNumber number →
      (mk (({} : Buffer).key number wire).data 0).key.1 = .error .malformed := by
  rw [Buffer.length, Buffer.data_values, nil_append] at hsize
  constructor
  · have hread : (between [] (values.flatMap Value.encoded)).answers (values.map Value.call) = _ :=
      answers_between hvalues hsize
    refine ⟨between (values.flatMap Value.encoded) [], ?_, ?_⟩
    · rw [Buffer.data_values]
      exact hread
    · simp [isEmpty, between]
  · intro number wire h
    have hkey : (between [] (Varint.encode (makeKey number wire) ++ [])).key.1 = _ :=
      key_between_malformed h wire
    rwa [append_nil] at hkey

/-- The values of a field with a text, and of a group with numbers and bytes as they are. -/
private def fieldAndGroup : List Value :=
  [.key 1 .bytes, .text "é/", .key 536870911 .startGroup, .zigzag32 (-2), .fixed64 7, .bytes [255]]

theorem answers_written_fieldAndGroup :
    (∀ v ∈ fieldAndGroup, v.Numbered) ∧
    (({} : Buffer).values fieldAndGroup).length < UInt64.size ∧
    (∃ c, (mk (({} : Buffer).values fieldAndGroup).data 0).answers
      [.key, .text, .key, .zigzag32, .fixed64, .bytes 1] =
        (fieldAndGroup.map fun v => .ok (some v), c) ∧ c.isEmpty = true) ∧
    ¬ IsFieldNumber (-1) ∧ (mk (({} : Buffer).key (-1) .varint).data 0).key.1 =
      .error .malformed := by
  have hvalues : ∀ v ∈ fieldAndGroup, v.Numbered := by decide
  have hsize : (({} : Buffer).values fieldAndGroup).length < UInt64.size := by
    decide +kernel
  have hread := answers_written fieldAndGroup hvalues hsize
  exact ⟨hvalues, hsize, hread.1, by decide, hread.2 (-1) .varint (by decide)⟩

end Cursor

end Written

end GoBindings.Wire
