import GoBindings.Wire.Cursor

/-!
# Skipping fields

The payload of a group is a sequence of fields up to the end key with the group's own number.
Groups nest; the numbers of those that are open stand in a list, innermost first.
-/

namespace GoBindings.Wire.Cursor

/-- Passes over a payload that holds no fields. A start key has no payload of its own here, and
an end key never announces one. -/
def skipPlain (c : Cursor) : WireType → Result Unit
  | .varint => c.varint.map fun _ => ()
  | .fixed64 => (c.bytes 8).map fun _ => ()
  | .fixed32 => (c.bytes 4).map fun _ => ()
  | .bytes => c.lengthDelimited.map fun _ => ()
  | .startGroup => (.ok (), c)
  | .endGroup => (.error .malformed, c)

theorem remaining_skipPlain_le (c : Cursor) (wire : WireType) :
    (c.skipPlain wire).2.remaining ≤ c.remaining := by
  cases wire with
  | varint => exact remaining_varint_le c
  | fixed64 => exact remaining_bytes_le c 8
  | fixed32 => exact remaining_bytes_le c 4
  | bytes => exact remaining_lengthDelimited_le c
  | startGroup => exact Nat.le_refl _
  | endGroup => exact Nat.le_refl _

/-- Passes over fields until all of the groups are closed. -/
def skipGroups (groups : List Int32) (c : Cursor) : Result Unit :=
  match groups with
  | [] => (.ok (), c)
  | number :: outer =>
    match hk : c.key with
    | (.error e, d) => (.error e, d)
    | (.ok (inner, wire), d) =>
      have := remaining_key_lt hk
      match wire with
      | .endGroup => if inner = number then skipGroups outer d else (.error .malformed, d)
      | .startGroup => skipGroups (inner :: number :: outer) d
      | wire =>
        match hs : d.skipPlain wire with
        | (.error e, f) => (.error e, f)
        | (.ok (), f) =>
          have : f.remaining ≤ d.remaining := by
            have hle := remaining_skipPlain_le d wire
            rw [hs] at hle
            exact hle
          skipGroups (number :: outer) f
termination_by c.remaining
decreasing_by all_goals omega

/-- Passes over the payload of a field whose key has been read. -/
def skip (c : Cursor) (number : Int32) : WireType → Result Unit
  | .startGroup => skipGroups [number] c
  | wire => c.skipPlain wire

def skipField (c : Cursor) : Result (Int32 × WireType) :=
  match c.key with
  | (.error e, c) => (.error e, c)
  | (.ok (number, wire), c) => (c.skip number wire).map fun _ => (number, wire)

end GoBindings.Wire.Cursor
