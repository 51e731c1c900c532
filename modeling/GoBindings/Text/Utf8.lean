/-!
# UTF-8

Bytes are read one character at a time. Where no character can be read, the longest part that
begins one is passed over as ill-formed, or a single byte if none does.
-/

namespace GoBindings.Text.Utf8

def encode (s : String) : List UInt8 := s.toList.flatMap String.utf8EncodeChar

/-- What a first byte announces: the bits it carries, the number of bytes that follow, and the
least and greatest value of the second byte. -/
structure Lead where
  bits : Nat
  count : Nat
  low : UInt8 := 0x80
  high : UInt8 := 0xBF
  deriving DecidableEq

def Lead.of? (b : UInt8) : Option Lead :=
  if b < 0xC2 then none
  else if b < 0xE0 then some { bits := b.toNat - 0xC0, count := 1 }
  else if b = 0xE0 then some { bits := 0, count := 2, low := 0xA0 }
  else if b = 0xED then some { bits := 0xD, count := 2, high := 0x9F }
  else if b < 0xF0 then some { bits := b.toNat - 0xE0, count := 2 }
  else if b = 0xF0 then some { bits := 0, count := 3, low := 0x90 }
  else if b < 0xF4 then some { bits := b.toNat - 0xF0, count := 3 }
  else if b = 0xF4 then some { bits := 4, count := 3, high := 0x8F }
  else none

/-- Reads `count` more bytes of a character, the first of them between `low` and `high`. -/
def readTail (bits : Nat) (low high : UInt8) : Nat → List UInt8 → Option Char × List UInt8
  | 0, bs => (some (Char.ofNat bits), bs)
  | _ + 1, [] => (none, [])
  | count + 1, b :: bs =>
    if low ≤ b ∧ b ≤ high then readTail (bits * 64 + (b.toNat - 0x80)) 0x80 0xBF count bs
    else (none, b :: bs)

/-- The character that starts with `b`, or `none` for an ill-formed part, and what follows. -/
def next (b : UInt8) (bs : List UInt8) : Option Char × List UInt8 :=
  if b < 0x80 then (some (Char.ofNat b.toNat), bs)
  else match Lead.of? b with
    | none => (none, bs)
    | some lead => readTail lead.bits lead.low lead.high lead.count bs

theorem length_readTail_le (bits : Nat) (low high : UInt8) (count : Nat) (bs : List UInt8) :
    (readTail bits low high count bs).2.length ≤ bs.length := by
  induction count generalizing bits low high bs with
  | zero => simp [readTail]
  | succ count ih =>
    cases bs with
    | nil => simp [readTail]
    | cons b bs =>
      rw [readTail]
      split
      · exact Nat.le_succ_of_le (ih ..)
      · exact Nat.le_refl _

theorem length_next_le (b : UInt8) (bs : List UInt8) : (next b bs).2.length ≤ bs.length := by
  rw [next]
  split
  · exact Nat.le_refl _
  · split
    · exact Nat.le_refl _
    · exact length_readTail_le ..

def parts : List UInt8 → List (Option Char)
  | [] => []
  | b :: bs =>
    have := length_next_le b bs
    (next b bs).1 :: parts (next b bs).2
termination_by bs => bs.length
decreasing_by simp; omega

def decode? (bs : List UInt8) : Option String :=
  ((parts bs).mapM id).map String.ofList

/-- The text with U+FFFD in place of each ill-formed part. -/
def decodeLossy (bs : List UInt8) : String :=
  String.ofList ((parts bs).map (·.getD '�'))

end GoBindings.Text.Utf8
