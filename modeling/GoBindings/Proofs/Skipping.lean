import GoBindings.Proofs.Varints
import GoBindings.Wire.Skip
import Mathlib.Data.List.Forall2
import Mathlib.Logic.Relation

/-!
# What is passed over

Skipping a field accepts the payloads of a grammar and nothing else. Groups are passed over key by
key: every round of the loop takes a key off the data, so that it ends.
-/

namespace GoBindings.Wire

open List Cursor

namespace Cursor

variable {value : List UInt8}

/-- The bytes are all that a read takes where it gives the value. -/
def Reads {α : Type} (read : Cursor → Result α) (bs : List UInt8) (a : α) : Prop :=
  read ⟨bs, 0⟩ = (.ok a, ⟨bs, bs.length⟩)

section Reading

variable {c d : Cursor} {bs : List UInt8} {v : UInt64} {k : Int32 × WireType}

theorem reads_varint_iff : Reads varint bs v ↔
    Varint.IsVarint bs ∧ bs.length ≤ 10 ∧ v.toNat = Varint.groupSum bs % 2 ^ 64 := by
  rw [Reads, varint_eq_ok_iff]
  constructor
  · rintro ⟨first, rest, hrest, hfirst, hlength, hsum, hindex⟩
    obtain rfl : bs = first ++ rest := hrest
    have hcount : (first ++ rest).length = 0 + first.length := congrArg index hindex
    obtain rfl : rest = [] := length_eq_zero_iff.mp (by rw [length_append] at hcount; omega)
    rw [append_nil]
    exact ⟨hfirst, hlength, hsum⟩
  · rintro ⟨hbs, hlength, hsum⟩
    exact ⟨bs, [], (append_nil bs).symm, hbs, hlength, hsum, by rw [advance, Nat.zero_add]⟩

theorem Reads.varint_between (h : Reads varint bs v) (before rest : List UInt8) :
    (between before (bs ++ rest)).varint = (.ok v, between (before ++ bs) rest) := by
  obtain ⟨hbs, hlength, hsum⟩ := reads_varint_iff.mp h
  exact varint_eq_ok_iff.mpr
    ⟨bs, rest, rest_between .., hbs, hlength, hsum, (advance_between ..).symm⟩

theorem Reads.key_between (h : Reads key bs k) (before rest : List UInt8) :
    (between before (bs ++ rest)).key = (.ok k, between (before ++ bs) rest) := by
  rw [Reads, key] at h
  split at h
  · cases congrArg Prod.fst h
  · rename_i w e hw
    split at h
    · cases congrArg Prod.fst h
    · rename_i hsplit
      have hk : _ = k := Except.ok.inj (congrArg Prod.fst h)
      obtain rfl : e = ⟨bs, bs.length⟩ := congrArg Prod.snd h
      have hread : Reads varint bs w := hw
      rw [key, hread.varint_between]
      simp only [hsplit, hk]

/-- A cursor that has moved on by some bytes. -/
def Passes (c : Cursor) (bs : List UInt8) (d : Cursor) : Prop :=
  c.rest = bs ++ d.rest ∧ d = c.advance bs.length

theorem Passes.append {e : Cursor} {bs' : List UInt8} (h : Passes c bs d) (h' : Passes d bs' e) :
    Passes c (bs ++ bs') e := by
  obtain ⟨hrest, rfl⟩ := h
  obtain ⟨hrest', rfl⟩ := h'
  refine ⟨by rw [hrest, hrest', append_assoc], ?_⟩
  simp only [advance, length_append, Nat.add_assoc]

theorem passes_self (c : Cursor) : Passes c [] c := ⟨rfl, rfl⟩

theorem rest_advance (c : Cursor) (count : Nat) : (c.advance count).rest = c.rest.drop count := by
  rw [rest, rest, advance, drop_drop]

theorem passes_take {count : Nat} (h : count ≤ c.rest.length) :
    Passes c (c.rest.take count) (c.advance count) := by
  constructor
  · rw [rest_advance, take_append_drop]
  · rw [length_take, Nat.min_eq_left h]

theorem exists_of_varint (h : c.varint = (.ok v, d)) : ∃ bs, Passes c bs d ∧ Reads varint bs v := by
  obtain ⟨bs, rest, hrest, hbs, hlength, hsum, rfl⟩ := varint_eq_ok_iff.mp h
  refine ⟨bs, ⟨?_, rfl⟩, reads_varint_iff.mpr ⟨hbs, hlength, hsum⟩⟩
  rw [rest_advance, hrest, drop_left]

theorem exists_of_key (h : c.key = (.ok k, d)) : ∃ bs, Passes c bs d ∧ Reads key bs k := by
  rw [key] at h
  split at h
  · cases congrArg Prod.fst h
  · rename_i w e hw
    split at h
    · cases congrArg Prod.fst h
    · rename_i hsplit
      cases congrArg Prod.fst h
      obtain rfl : e = d := congrArg Prod.snd h
      obtain ⟨bs, hpasses, hreads⟩ := exists_of_varint hw
      refine ⟨bs, hpasses, ?_⟩
      rw [Reads, key, show (mk bs 0).varint = _ from hreads]
      simp only [hsplit]

theorem exists_of_bytes {n : Nat} (h : c.bytes n = (.ok value, d)) :
    value.length = n ∧ Passes c value d := by
  rw [bytes] at h
  split at h
  · cases congrArg Prod.fst h
  · split at h
    · cases congrArg Prod.fst h
    · cases congrArg Prod.fst h
      obtain rfl : c.advance n = d := congrArg Prod.snd h
      have hle : n ≤ c.rest.length := by
        rw [rest, length_drop]
        omega
      exact ⟨by rw [length_take, Nat.min_eq_left hle], passes_take hle⟩

end Reading

/-- The bytes of a field, cut after its key. -/
structure Piece where
  key : List UInt8
  number : Int32
  wire : WireType
  payload : List UInt8

def Piece.bytes (f : Piece) : List UInt8 := f.key ++ f.payload

/-- The payloads of a field, given its number and its wire type. -/
inductive Payload : Int32 → WireType → List UInt8 → Prop
  | varint {number bs v} (h : Reads Cursor.varint bs v) : Payload number .varint bs
  | fixed32 {number bs} (h : bs.length = 4) : Payload number .fixed32 bs
  | fixed64 {number bs} (h : bs.length = 8) : Payload number .fixed64 bs
  | bytes {number size v bs} (hsize : Reads Cursor.varint size v) (h : bs.length = v.toNat) :
      Payload number .bytes (size ++ bs)
  | group {number close} (fields : List Piece)
      (hkeys : ∀ f ∈ fields, Reads Cursor.key f.key (f.number, f.wire) ∧ f.wire ≠ .endGroup)
      (hpayloads : ∀ f ∈ fields, Payload f.number f.wire f.payload)
      (hclose : Reads Cursor.key close (number, .endGroup)) :
      Payload number .startGroup (fields.flatMap Piece.bytes ++ close)

theorem Payload.length_pos {number : Int32} {wire : WireType} {bs : List UInt8}
    (h : Payload number wire bs) : 0 < bs.length := by
  have hvarint {bs : List UInt8} {v : UInt64} (h : Reads Cursor.varint bs v) : 0 < bs.length := by
    simpa [remaining] using remaining_varint_lt h
  have hkey {bs : List UInt8} {k : Int32 × WireType} (h : Reads Cursor.key bs k) :
      0 < bs.length := by
    simpa [remaining] using remaining_key_lt h
  cases h with
  | varint h => exact hvarint h
  | fixed32 h => omega
  | fixed64 h => omega
  | bytes hsize _ =>
    have := hvarint hsize
    rw [length_append]
    omega
  | group fields _ _ hclose =>
    have := hkey hclose
    rw [length_append]
    omega

section Sound

variable {c d : Cursor} {number : Int32} {wire : WireType}

theorem Payload.cons_field {key payload group : List UInt8} {inner : Int32}
    (hkey : Reads Cursor.key key (inner, wire)) (hwire : wire ≠ .endGroup)
    (hpayload : Payload inner wire payload) (hgroup : Payload number .startGroup group) :
    Payload number .startGroup (key ++ payload ++ group) := by
  cases hgroup with
  | group fields hkeys hpayloads hclose =>
    have hcons := Payload.group (⟨key, inner, wire, payload⟩ :: fields)
      (forall_mem_cons.mpr ⟨⟨hkey, hwire⟩, hkeys⟩)
      (forall_mem_cons.mpr ⟨hpayload, hpayloads⟩) hclose
    simpa [Piece.bytes] using hcons

theorem Payload.close {key : List UInt8} (hkey : Reads Cursor.key key (number, .endGroup)) :
    Payload number .startGroup key :=
  Payload.group [] (by simp) (by simp) hkey

private theorem map_eq_ok {α β : Type} {f : α → β} {r : Result α} {b : β}
    (h : r.map f = (.ok b, d)) : ∃ a, r = (.ok a, d) ∧ f a = b := by
  obtain ⟨r, e⟩ := r
  cases r with
  | error fault => cases congrArg Prod.fst h
  | ok a =>
    obtain rfl : e = d := congrArg Prod.snd h
    exact ⟨a, rfl, Except.ok.inj (congrArg Prod.fst h)⟩

theorem exists_of_lengthDelimited (h : c.lengthDelimited = (.ok value, d)) :
    ∃ size v, Reads varint size v ∧ value.length = v.toNat ∧ Passes c (size ++ value) d := by
  rw [lengthDelimited] at h
  split at h
  · cases congrArg Prod.fst h
  · rename_i v e hv
    obtain ⟨size, hpasses, hreads⟩ := exists_of_varint hv
    obtain ⟨hlength, hvalue⟩ := exists_of_bytes h
    exact ⟨size, v, hreads, hlength, hpasses.append hvalue⟩

theorem payload_of_skipPlain (hwire : wire ≠ .startGroup) (h : c.skipPlain wire = (.ok (), d)) :
    ∃ bs, Passes c bs d ∧ Payload number wire bs := by
  cases wire with
  | varint =>
    obtain ⟨v, hv, -⟩ := map_eq_ok h
    obtain ⟨bs, hpasses, hreads⟩ := exists_of_varint hv
    exact ⟨bs, hpasses, .varint hreads⟩
  | fixed64 | fixed32 =>
    obtain ⟨value, hvalue, -⟩ := map_eq_ok h
    obtain ⟨hlength, hpasses⟩ := exists_of_bytes hvalue
    exact ⟨value, hpasses, by constructor; exact hlength⟩
  | bytes =>
    obtain ⟨value, hvalue, -⟩ := map_eq_ok h
    obtain ⟨size, v, hreads, hlength, hpasses⟩ := exists_of_lengthDelimited hvalue
    exact ⟨size ++ value, hpasses, .bytes hreads hlength⟩
  | startGroup => exact absurd rfl hwire
  | endGroup => cases congrArg Prod.fst h

theorem skip_of_ne (hwire : wire ≠ .startGroup) : c.skip number wire = c.skipPlain wire := by
  cases wire with
  | startGroup => exact absurd rfl hwire
  | _ => rfl

/-- One round of passing over the groups that are open, innermost first: the round takes a key, and
the payload of a field that is no group. -/
inductive Round : List Int32 × Cursor → List Int32 × Cursor → Prop
  | close {number outer c d} (hkey : c.key = (.ok (number, .endGroup), d)) :
      Round (number :: outer, c) (outer, d)
  | start {number outer inner c d} (hkey : c.key = (.ok (inner, .startGroup), d)) :
      Round (number :: outer, c) (inner :: number :: outer, d)
  | pass {number outer inner wire c d e} (hkey : c.key = (.ok (inner, wire), d))
      (hend : wire ≠ .endGroup) (hstart : wire ≠ .startGroup)
      (hskip : d.skipPlain wire = (.ok (), e)) : Round (number :: outer, c) (number :: outer, e)

/-- The rounds of the loop one after the other. -/
abbrev Rounds := Relation.ReflTransGen Round

/-- Where no further round can be made: there is no key, the key closes another group, or its
payload is not there. -/
inductive Stops : List Int32 × Cursor → Fault → Cursor → Prop
  | key {number outer c fault d} (hkey : c.key = (.error fault, d)) :
      Stops (number :: outer, c) fault d
  | close {number outer inner c d} (hkey : c.key = (.ok (inner, .endGroup), d))
      (hother : inner ≠ number) : Stops (number :: outer, c) .malformed d
  | payload {number outer inner wire c d fault e} (hkey : c.key = (.ok (inner, wire), d))
      (hend : wire ≠ .endGroup) (hstart : wire ≠ .startGroup)
      (hskip : d.skipPlain wire = (.error fault, e)) : Stops (number :: outer, c) fault e

section Loop

variable {s t : List Int32 × Cursor} {c d : Cursor}
variable {groups : List Int32}

theorem Round.remaining_lt (h : Round s t) : t.2.remaining < s.2.remaining := by
  cases h with
  | close hkey | start hkey => exact remaining_key_lt hkey
  | @pass _ _ _ wire _ d e hkey _ _ hskip =>
    have hle := remaining_skipPlain_le d wire
    rw [hskip] at hle
    exact Nat.lt_of_le_of_lt hle (remaining_key_lt hkey)

theorem skipGroups_of_key {inner : Int32} {outer : List Int32}
    (hkey : c.key = (.ok (inner, wire), d)) :
    skipGroups (number :: outer) c =
      match wire with
      | .endGroup => if inner = number then skipGroups outer d else (.error .malformed, d)
      | .startGroup => skipGroups (inner :: number :: outer) d
      | wire =>
        match d.skipPlain wire with
        | (.error fault, e) => (.error fault, e)
        | (.ok (), e) => skipGroups (number :: outer) e := by
  rw [skipGroups]
  split
  · simp_all
  · rename_i heq
    rw [hkey] at heq
    obtain ⟨⟨rfl, rfl⟩, rfl⟩ := by simpa using heq
    cases wire with
    | endGroup => rfl
    | startGroup => rfl
    | _ =>
      dsimp only
      split <;> simp_all

theorem Round.skipGroups_eq (h : Round s t) : skipGroups s.1 s.2 = skipGroups t.1 t.2 := by
  cases h with
  | close hkey | start hkey => simp [skipGroups_of_key hkey]
  | @pass number outer inner wire c d e hkey hend hstart hskip =>
    rw [skipGroups_of_key hkey]
    cases wire <;> simp_all

theorem Stops.skipGroups_eq {fault : Fault} (h : Stops s fault d) :
    skipGroups s.1 s.2 = (.error fault, d) := by
  cases h with
  | key hkey =>
    rw [skipGroups]
    split <;> simp_all
  | close hkey hother => simp [skipGroups_of_key hkey, hother]
  | @payload number outer inner wire c d fault e hkey hend hstart hskip =>
    rw [skipGroups_of_key hkey]
    cases wire <;> simp_all

theorem exists_stops {outer : List Int32} (h : ∀ t, ¬ Round (number :: outer, c) t) :
    ∃ fault d, Stops (number :: outer, c) fault d := by
  match hkey : c.key with
  | (.error fault, d) => exact ⟨fault, d, .key hkey⟩
  | (.ok (inner, wire), d) =>
    by_cases hend : wire = .endGroup
    · subst hend
      have hother : inner ≠ number := by
        rintro rfl
        exact h _ (.close hkey)
      exact ⟨.malformed, d, .close hkey hother⟩
    by_cases hstart : wire = .startGroup
    · subst hstart
      exact absurd (.start hkey) (h _)
    match hskip : d.skipPlain wire with
    | (.error fault, e) => exact ⟨fault, e, .payload hkey hend hstart hskip⟩
    | (.ok (), e) => exact absurd (.pass hkey hend hstart hskip) (h _)

theorem Rounds.skipGroups_eq (h : Rounds s t) : skipGroups s.1 s.2 = skipGroups t.1 t.2 := by
  induction h with
  | refl => rfl
  | tail _ hround ih => rw [ih, hround.skipGroups_eq]

theorem exists_last_round (s : List Int32 × Cursor) : ∃ t, Rounds s t ∧ ∀ u, ¬ Round t u := by
  induction hn : s.2.remaining using Nat.strongRecOn generalizing s with
  | ind n ih =>
    by_cases hround : ∃ u, Round s u
    · obtain ⟨u, hu⟩ := hround
      obtain ⟨t, ht, hlast⟩ := ih u.2.remaining (hn ▸ hu.remaining_lt) u rfl
      exact ⟨t, .head hu ht, hlast⟩
    · exact ⟨s, .refl, fun u hu => hround ⟨u, hu⟩⟩

theorem skipGroups_nil (c : Cursor) : skipGroups [] c = (.ok (), c) := by rw [skipGroups]

theorem skipGroups_cases (groups : List Int32) (c : Cursor) :
    (∃ d, Rounds (groups, c) ([], d) ∧ skipGroups groups c = (.ok (), d)) ∨
      ∃ t fault d, Rounds (groups, c) t ∧ Stops t fault d ∧
        skipGroups groups c = (.error fault, d) := by
  obtain ⟨⟨left, e⟩, hrounds, hlast⟩ := exists_last_round (groups, c)
  have heq : skipGroups groups c = skipGroups left e := hrounds.skipGroups_eq
  cases left with
  | nil => exact .inl ⟨e, hrounds, by rw [heq, skipGroups_nil]⟩
  | cons number outer =>
    obtain ⟨fault, d, hstops⟩ := exists_stops hlast
    exact .inr ⟨_, fault, d, hrounds, hstops, by rw [heq]; exact hstops.skipGroups_eq⟩

/-- Groups are passed over exactly if rounds lead to where all of them are closed. -/
theorem skipGroups_eq_ok_iff : skipGroups groups c = (.ok (), d) ↔ Rounds (groups, c) ([], d) := by
  constructor
  · intro h
    rcases skipGroups_cases groups c with ⟨e, hrounds, heq⟩ | ⟨t, fault, e, -, -, heq⟩
    · obtain rfl : e = d := congrArg Prod.snd (heq.symm.trans h)
      exact hrounds
    · cases congrArg Prod.fst (heq.symm.trans h)
  · intro h
    rw [h.skipGroups_eq, skipGroups_nil]

/-- The loop fails exactly if rounds lead to where it stops. -/
theorem skipGroups_eq_error_iff {fault : Fault} :
    skipGroups groups c = (.error fault, d) ↔ ∃ t, Rounds (groups, c) t ∧ Stops t fault d := by
  constructor
  · intro h
    rcases skipGroups_cases groups c with ⟨e, -, heq⟩ | ⟨t, fault', e, hrounds, hstops, heq⟩
    · cases congrArg Prod.fst (heq.symm.trans h)
    · have hsame := heq.symm.trans h
      obtain rfl : fault' = fault := Except.error.inj (congrArg Prod.fst hsame)
      obtain rfl : e = d := congrArg Prod.snd hsame
      exact ⟨t, hrounds, hstops⟩
  · rintro ⟨t, hrounds, hstops⟩
    rw [hrounds.skipGroups_eq, hstops.skipGroups_eq]

end Loop

/-- What rounds pass over until all groups are closed is the payload of each group in turn. -/
theorem payloads_of_rounds {s : List Int32 × Cursor} (h : Rounds s ([], d)) :
    ∃ ps, Forall₂ (fun number p => Payload number .startGroup p) s.1 ps ∧
      Passes s.2 ps.flatten d := by
  induction h using Relation.ReflTransGen.head_induction_on with
  | refl => exact ⟨[], .nil, passes_self d⟩
  | head hround _ ih =>
    obtain ⟨ps, hps, hpasses⟩ := ih
    cases hround with
    | close hkey =>
      obtain ⟨key, hk, hreads⟩ := exists_of_key hkey
      exact ⟨key :: ps, .cons (.close hreads) hps, hk.append hpasses⟩
    | start hkey =>
      -- The group that was opened is a field of the one around it.
      obtain ⟨key, hk, hreads⟩ := exists_of_key hkey
      cases hps with
      | cons hinner hps =>
        cases hps with
        | cons hnumber hps =>
          refine ⟨_, .cons (Payload.cons_field hreads (by simp) hinner hnumber) hps, ?_⟩
          simpa using hk.append hpasses
    | pass hkey hend hstart hskip =>
      obtain ⟨key, hk, hreads⟩ := exists_of_key hkey
      obtain ⟨payload, hp, hpayload⟩ := payload_of_skipPlain hstart hskip
      cases hps with
      | cons hnumber hps =>
        refine ⟨_, .cons (Payload.cons_field hreads hend hpayload hnumber) hps, ?_⟩
        simpa using (hk.append hp).append hpasses

theorem payload_of_skip (h : c.skip number wire = (.ok (), d)) :
    ∃ bs, Passes c bs d ∧ Payload number wire bs := by
  by_cases hwire : wire = .startGroup
  · subst hwire
    obtain ⟨ps, hps, hpasses⟩ := payloads_of_rounds (skipGroups_eq_ok_iff.mp h)
    cases hps with
    | cons hnumber hps =>
      cases hps
      exact ⟨_, by simpa using hpasses, hnumber⟩
  · rw [skip_of_ne hwire] at h
    exact payload_of_skipPlain hwire h

end Sound

section Complete

variable {number : Int32} {wire : WireType} {p : List UInt8}
variable {before rest : List UInt8}

theorem Payload.skipPlain_between (h : Payload number wire p) (hwire : wire ≠ .startGroup)
    (hroom : (before ++ p ++ rest).length < UInt64.size) :
    (between before (p ++ rest)).skipPlain wire = (.ok (), between (before ++ p) rest) := by
  cases h with
  | varint h => rw [skipPlain, h.varint_between]; rfl
  | fixed32 h | fixed64 h =>
    have hread := bytes_between hroom
    rw [h] at hread
    rw [skipPlain, hread]
    rfl
  | @bytes _ size v bs hsize h =>
    have hread : (between (before ++ size) (bs ++ rest)).bytes v.toNat = _ :=
      h ▸ bytes_between (by simpa using hroom)
    rw [skipPlain, lengthDelimited, append_assoc, hsize.varint_between]
    simp only [hread, append_assoc]
    rfl
  | group => exact absurd rfl hwire

/-- The payload of an open group is passed over by rounds that leave the groups around it. -/
theorem Payload.rounds_between (h : Payload number wire p) (hwire : wire = .startGroup)
    (outer : List Int32) (hroom : (before ++ p ++ rest).length < UInt64.size) :
    Rounds (number :: outer, between before (p ++ rest)) (outer, between (before ++ p) rest) := by
  induction h generalizing outer before rest with
  | varint | fixed32 | fixed64 | bytes => cases hwire
  | @group number close fields hkeys hpayloads hclose ih =>
    induction fields generalizing before with
    | nil =>
      have hkey := hclose.key_between before rest
      exact .single (.close hkey)
    | cons f fields ihfields =>
      rw [forall_mem_cons] at hkeys hpayloads ih
      obtain ⟨⟨hkey, hend⟩, hkeys⟩ := hkeys
      have hsplit : (f :: fields).flatMap Piece.bytes ++ close =
          f.key ++ (f.payload ++ (fields.flatMap Piece.bytes ++ close)) := by
        simp [Piece.bytes]
      have hjoin : before ++ ((f :: fields).flatMap Piece.bytes ++ close) =
          before ++ f.key ++ f.payload ++ (fields.flatMap Piece.bytes ++ close) := by
        simp only [hsplit, append_assoc]
      rw [hjoin] at hroom ⊢
      have hrest := ihfields hkeys hpayloads.2 ih.2 hroom
      have hread := hkey.key_between before
        (f.payload ++ (fields.flatMap Piece.bytes ++ close ++ rest))
      have hfield : (before ++ f.key ++ f.payload ++
          (fields.flatMap Piece.bytes ++ close ++ rest)).length < UInt64.size := by
        simpa only [append_assoc] using hroom
      have hbegin : f.key ++ (f.payload ++ (fields.flatMap Piece.bytes ++ close)) ++ rest =
          f.key ++ (f.payload ++ (fields.flatMap Piece.bytes ++ close ++ rest)) := by
        simp only [append_assoc]
      rw [hsplit, hbegin]
      by_cases hstart : f.wire = .startGroup
      · rw [hstart] at hread
        exact .head (.start hread) ((ih.1 hstart (number :: outer) hfield).trans hrest)
      · have hskip := hpayloads.1.skipPlain_between hstart hfield
        exact .head (.pass hread hend hstart hskip) hrest

theorem Payload.skip_between (h : Payload number wire p)
    (hroom : (before ++ p ++ rest).length < UInt64.size) :
    (between before (p ++ rest)).skip number wire = (.ok (), between (before ++ p) rest) := by
  by_cases hwire : wire = .startGroup
  · have hrounds := h.rounds_between hwire [] hroom
    subst hwire
    exact skipGroups_eq_ok_iff.mpr hrounds
  · rw [skip_of_ne hwire]
    exact h.skipPlain_between hwire hroom

end Complete

private theorem mk_eq_between {data : List UInt8} {i j : Nat} (hij : i ≤ j) (hj : j ≤ data.length) :
    mk data i = between (data.take i) ((data.drop i).take (j - i) ++ data.drop j) ∧
      mk data j = between (data.take i ++ (data.drop i).take (j - i)) (data.drop j) ∧
      data.take i ++ (data.drop i).take (j - i) ++ data.drop j = data := by
  have hdrop : data.drop j = (data.drop i).drop (j - i) := by
    rw [drop_drop, Nat.add_sub_cancel' hij]
  have hwhole : data.take i ++ (data.drop i).take (j - i) ++ data.drop j = data := by
    rw [hdrop, append_assoc, take_append_drop, take_append_drop]
  refine ⟨?_, ?_, hwhole⟩
  · rw [between, ← append_assoc, hwhole, length_take, Nat.min_eq_left (by omega)]
  · rw [between, hwhole]
    simp only [length_append, length_take, length_drop]
    congr 1
    omega

/-- Skipping a field succeeds exactly on the payloads of the grammar, and ends where they end. In a
group it makes one round after the other, each of which consumes at least one byte, until no group
is open or no further round can be made. -/
theorem skip_eq_ok_iff (data : List UInt8) (hsize : data.length < UInt64.size) (i : Nat)
    (number : Int32) (wire : WireType) :
    (∀ j, (mk data i).skip number wire = (.ok (), ⟨data, j⟩) ↔
      i ≤ j ∧ j ≤ data.length ∧ Payload number wire ((data.drop i).take (j - i))) ∧
    (wire = .startGroup → ∃ last, Rounds ([number], ⟨data, i⟩) last ∧ (∀ s, ¬ Round last s) ∧
      (((mk data i).skip number wire).1 = .ok () ↔ last.1 = [])) ∧
    ∀ s t, Round s t → t.2.remaining < s.2.remaining := by
  refine ⟨fun j => ⟨fun h => ?_, ?_⟩, ?_, fun s t h => h.remaining_lt⟩
  · obtain ⟨bs, ⟨hrest, hend⟩, hpayload⟩ := payload_of_skip h
    have hj : j = i + bs.length := congrArg index hend
    subst hj
    have hrest : data.drop i = bs ++ data.drop (i + bs.length) := hrest
    have hpart : (data.drop i).take (i + bs.length - i) = bs := by
      rw [hrest, Nat.add_sub_cancel_left, take_left]
    have hpos := hpayload.length_pos
    have hlength := congrArg length hrest
    simp only [length_append, length_drop] at hlength
    exact ⟨by omega, by omega, by rwa [hpart]⟩
  · rintro ⟨hij, hj, hpayload⟩
    obtain ⟨hstart, hend, hwhole⟩ := mk_eq_between hij hj
    rw [hstart, hend]
    exact hpayload.skip_between (by rwa [hwhole])
  · intro hwire
    subst hwire
    obtain ⟨last, hrounds, hlast⟩ := exists_last_round ([number], ⟨data, i⟩)
    refine ⟨last, hrounds, hlast, ?_⟩
    have heq : (mk data i).skip number .startGroup = _ := hrounds.skipGroups_eq
    rw [heq]
    obtain ⟨groups, c⟩ := last
    cases groups with
    | nil => simp [skipGroups_nil]
    | cons n outer =>
      obtain ⟨fault, d, hstops⟩ := exists_stops hlast
      simp [hstops.skipGroups_eq]

private theorem payload_nested : Payload 2 .startGroup [27, 29, 1, 0, 0, 0, 28, 20] := by
  have hnumber : Payload 3 .fixed32 [1, 0, 0, 0] := .fixed32 rfl
  have hinner : Payload 3 .startGroup ([29] ++ [1, 0, 0, 0] ++ [28]) :=
    .cons_field rfl (by decide) hnumber (.close rfl)
  have houter : Payload 2 .startGroup ([27] ++ ([29] ++ [1, 0, 0, 0] ++ [28]) ++ [20]) :=
    .cons_field rfl (by decide) hinner (.close rfl)
  exact houter

theorem skip_eq_ok_nested :
    ([19, 27, 29, 1, 0, 0, 0, 28, 20] : List UInt8).length < UInt64.size ∧
    (mk [19, 27, 29, 1, 0, 0, 0, 28, 20] 1).skip 2 .startGroup =
      (.ok (), ⟨[19, 27, 29, 1, 0, 0, 0, 28, 20], 9⟩) ∧
    ∃ last, Rounds ([2], ⟨[19, 27, 29, 1, 0, 0, 0, 28, 20], 1⟩) last ∧ (∀ s, ¬ Round last s) ∧
      (((mk [19, 27, 29, 1, 0, 0, 0, 28, 20] 1).skip 2 .startGroup).1 = .ok () ↔
        last.1 = []) := by
  have h := skip_eq_ok_iff [19, 27, 29, 1, 0, 0, 0, 28, 20] (by decide) 1 2 .startGroup
  exact ⟨by decide, (h.1 9).mpr ⟨by decide, by decide, payload_nested⟩, h.2.1 rfl⟩

end Cursor

end GoBindings.Wire
