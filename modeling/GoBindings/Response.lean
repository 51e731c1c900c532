import GoBindings.Descriptor.Read
import GoBindings.Generator
import GoBindings.Summary

/-!
# Requests and responses as bytes

A serialized request is answered by a serialized response with the generated files.
-/

namespace GoBindings

open Descriptor

def GeneratedFile.write (f : GeneratedFile) : List RawField :=
  RawField.putText 1 (some f.name) ++ RawField.putText 15 (some f.content)

def GeneratedFile.read (limit : Nat) (fs : List RawField) : Option GeneratedFile := do
  RawField.checkUnknown limit [1, 15] fs
  return ⟨(← RawField.text? 1 fs).getD "", (← RawField.text? 15 fs).getD ""⟩

namespace Response

def encode (files : List GeneratedFile) : List UInt8 :=
  RawField.render (RawField.putMessages 15 (files.map GeneratedFile.write))

def decode? (bs : List UInt8) : Option (List GeneratedFile) := do
  let fs ← RawField.parse? bs
  RawField.checkUnknown nestingLimit [15] fs
  RawField.listOf 15 (RawField.below nestingLimit GeneratedFile.read) fs

end Response

def parseRequest (bytes : List UInt8) : Except Error Request :=
  match Request.decode? bytes with
  | some r => .ok r
  | none => .error .malformedRequest

def generateBytesWith {σ : Type} (plugins : List (Plugin σ)) (request : List UInt8) :
    Run σ (List UInt8) := do
  let files ← generateWith plugins (← parseRequest request)
  return Response.encode files

def generateBytes (request : List UInt8) : Except Error (List UInt8) :=
  ((generateBytesWith ([] : List (Plugin Unit)) request).run ()).1

def describe (request : List UInt8) : Except Error String := do
  let setup ← Setup.ofRequest (← parseRequest request)
  let summary ← setup.summary
  return summary.toJson.pretty

end GoBindings
