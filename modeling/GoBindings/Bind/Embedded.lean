import GoBindings.Bind.Part
import GoBindings.Descriptor.Write
import GoBindings.Gzip

/-!
# The embedded descriptor

A generated file ends with its descriptor, compressed, as rows of bytes. The reader of such rows
is beside their writer.
-/

namespace GoBindings

open Go

namespace Embedded

def rowSize : Nat := 16

def chunks : List UInt8 → List (List UInt8)
  | [] => []
  | b :: bs => (b :: bs).take rowSize :: chunks ((b :: bs).drop rowSize)
termination_by bs => bs.length
decreasing_by simp only [List.length_drop, List.length_cons, rowSize]; omega

def byteText (b : UInt8) : String :=
  String.ofList ['0', 'x', Nat.digitChar (b.toNat / 16), Nat.digitChar (b.toNat % 16)]

def row (bs : List UInt8) : Entry := .row (bs.map fun b => .number (byteText b))

/-- What follows the number of bytes in the comment above the rows. -/
def remark : String := " bytes of a gzipped FileDescriptorProto"

def entries (bs : List UInt8) : List Entry :=
  .comment (" " ++ toString bs.length ++ remark) :: (chunks bs).map row

def rowBytes? : List Char → Option (List UInt8)
  | [] => some []
  | '0' :: 'x' :: high :: low :: ',' :: rest => do
    let high ← Text.hexValue? high
    let low ← Text.hexValue? low
    return (16 * high + low).toUInt8 :: (← rowBytes? rest)
  | _ => none

/-- The bytes on an indented row, at least one. -/
def readRow? : List Char → Option (List UInt8)
  | '\t' :: c :: cs => rowBytes? (c :: cs)
  | _ => none

/-- The rows at the beginning of some lines, and the lines after them. -/
def readRows : List (List Char) → List (List UInt8) × List (List Char)
  | [] => ([], [])
  | line :: lines =>
    match readRow? line with
    | some bs =>
      let (rows, rest) := readRows lines
      (bs :: rows, rest)
    | none => ([], line :: lines)

def readRemark? (line : List Char) : Option String := do
  let rest ← Text.dropStart? "\t// ".toList line
  return String.ofList (← Text.dropEnd? remark.toList rest)

/-- The lines before the last comment about compressed bytes, the stated number, and the lines
after it. -/
def splitAtRemark? : List (List Char) → Option (List (List Char) × String × List (List Char))
  | [] => none
  | line :: lines =>
    match splitAtRemark? lines with
    | some (before, count, after) => some (line :: before, count, after)
    | none => (readRemark? line).map fun count => ([], count, lines)

end Embedded

structure Embedded where
  before : String
  count : String
  rows : List (List UInt8)
  after : String

namespace Embedded

def unlines (lines : List (List Char)) : String :=
  String.ofList (lines.flatMap fun line => line ++ ['\n'])

def ofSource? (source : String) : Option Embedded := do
  let cs ← Text.dropEnd? ['\n'] source.toList
  let (before, count, after) ← splitAtRemark? (Text.splitOn '\n' cs)
  let (rows, rest) := readRows after
  return ⟨unlines before, count, rows, unlines rest⟩

def bytes (d : Embedded) : List UInt8 := d.rows.flatten

/-- Whether the stated number is right and every row but the last is full. -/
def isRegular (d : Embedded) : Bool :=
  d.count = toString d.bytes.length && d.rows.dropLast.all (·.length = rowSize)

def descriptor? (d : Embedded)
    (decompress : List UInt8 → Option (List UInt8) := Gzip.decompress?) : Option (List UInt8) :=
  decompress d.bytes

end Embedded

namespace Binder

variable (b : Binder)

/-- The descriptor of the file without the places in its text. -/
def strippedProto : Descriptor.File := { b.node.proto with sourceInfo := none }

def embeddedBytes : List UInt8 := b.setup.compress b.strippedProto.encode

def embeddedDecls : List Decl :=
  let register : Func :=
    { name := "init"
      body := .line (.eval (.call (.qualified b.proto "RegisterFile")
        [.quoted b.node.name, .name b.node.varName])) }
  [.blank, .func register,
   .table b.node.varName false .bytes (Embedded.entries b.embeddedBytes)]

end Binder

end GoBindings
