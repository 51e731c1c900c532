import GoBindings.Go.Fault
import GoBindings.Schema.Object
import GoBindings.Text.Displayed

/-!
# Errors

Everything that can stop a run, and how it is reported.
-/

namespace GoBindings

open Schema (FileId)

inductive Error where
  /-- The operating system refused to read or write, for the reason that the code stands for. -/
  | system (code : Nat)
  | malformedRequest
  | noFilesToGenerate
  | fileNotFound (name : String)
  | inconsistentPackageNames (found expected : String)
  /-- The declarations nested in a message are not as many as it declares. -/
  | nestingMismatch (sort message : String)
  | unknownFieldKind (field : String) (kind : Int32)
  | unknownObject (typeName : String)
  | unresolvedEnumDefault (enumName value : String)
  | notAnEnum (name : String)
  | badSource (bad : Go.BadSource)
  | noPackageName (file : FileId)
  | publicDependencyOutOfRange (index : Int32) (file : String)
  | extendsNonMessage (extension extendee : String)
  | unknownOneof (field : String) (index : Nat)
  | oneofWithoutMembers (index : Nat)
  | plugin (text : String)
  deriving DecidableEq, Repr

namespace Error

/-- The reasons of the operating system for which reading or writing a file fails. -/
def reason : Nat → String
  | 1 => "Operation not permitted"
  | 2 => "No such file or directory"
  | 4 => "Interrupted system call"
  | 5 => "Input/output error"
  | 6 => "No such device or address"
  | 9 => "Bad file descriptor"
  | 11 => "Resource temporarily unavailable"
  | 12 => "Cannot allocate memory"
  | 13 => "Permission denied"
  | 16 => "Device or resource busy"
  | 17 => "File exists"
  | 19 => "No such device"
  | 20 => "Not a directory"
  | 21 => "Is a directory"
  | 22 => "Invalid argument"
  | 23 => "Too many open files in system"
  | 24 => "Too many open files"
  | 26 => "Text file busy"
  | 27 => "File too large"
  | 28 => "No space left on device"
  | 30 => "Read-only file system"
  | 32 => "Broken pipe"
  | 36 => "File name too long"
  | 40 => "Too many levels of symbolic links"
  | 122 => "Disk quota exceeded"
  | code => "Unknown error " ++ toString code

def message : Error → String
  | system code => "I/O error: " ++ reason code ++ " (os error " ++ toString code ++ ")"
  | malformedRequest => "parsing input proto: malformed message"
  | noFilesToGenerate => "no files to generate"
  | fileNotFound name => "could not find file named " ++ name
  | inconsistentPackageNames found expected =>
    "inconsistent package names: " ++ found ++ " " ++ expected
  | nestingMismatch sort message =>
    "internal error: " ++ sort ++ " nesting failure for " ++ message
  | unknownFieldKind field kind =>
    "unknown type " ++ toString kind.toInt ++ " for field " ++ field
  | unknownObject typeName => "can't find object with type " ++ typeName
  | unresolvedEnumDefault enumName value =>
    "cannot find value " ++ Text.displayed value ++ " for enum " ++ enumName
  | notAnEnum name => "unknown enum type " ++ name
  | badSource bad => "bad Go source code was generated: " ++ bad.message
  | noPackageName file =>
    "internal error: no package name defined for file #" ++ toString file.index
  | publicDependencyOutOfRange index file =>
    "internal error: public dependency index " ++ toString index.toInt ++
      " out of range in " ++ file
  | extendsNonMessage extension extendee =>
    "internal error: extension " ++ extension ++ " extends " ++ extendee ++
      ", which is not a message"
  | unknownOneof field index =>
    "internal error: field " ++ field ++ " names unknown oneof #" ++ toString index
  | oneofWithoutMembers index => "internal error: oneof #" ++ toString index ++ " has no members"
  | plugin text => "internal error: " ++ text

end Error

end GoBindings
