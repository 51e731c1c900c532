import GoBindings.Error
import GoBindings.Go.Identifier
import GoBindings.Path
import GoBindings.Search
import GoBindings.Text.Dict

/-!
# Package names

Every file of a run, and every support package that generated code refers to, has a Go package
name. A name that is taken gets the least number appended that makes it free.
-/

namespace GoBindings

open Schema (FileId)

def supportPackages : List String := ["fmt", "math", "proto"]

structure PackageNames where
  inUse : List String := []
  /-- The names given to files, latest first. -/
  byFile : List (FileId × String) := []
  support : Dict String := {}
  deriving Repr, Inhabited

namespace PackageNames

/-- `base` for zero, else `base` with the number appended. -/
def numbered (base : String) (n : Nat) : String := if n = 0 then base else base ++ toString n

/-- The first free name among the base and its numbered forms. -/
def free (names : PackageNames) (base : String) : String :=
  numbered base
    (leastFrom (fun n => !names.inUse.contains (numbered base n)) names.inUse.length 0)

/-- Takes a free name for the candidate, with the characters an identifier may hold. -/
def register (names : PackageNames) (candidate : String) : String × PackageNames :=
  let name := names.free (Go.sanitize candidate)
  (name, { names with inUse := name :: names.inUse })

def assign (names : PackageNames) (file : FileId) (name : String) : PackageNames :=
  { names with byFile := (file, name) :: names.byFile }

def registerFile (names : PackageNames) (candidate : String) (file : FileId) :
    String × PackageNames :=
  let (name, names) := names.register candidate
  (name, names.assign file name)

def registerSupport (names : PackageNames) (name : String) : PackageNames :=
  let (taken, names) := names.register name
  { names with support := names.support.insert name taken }

def of (names : PackageNames) (file : FileId) : Except Error String :=
  match names.byFile.lookup file with
  | some name => .ok name
  | none => .error (.noPackageName file)

def supportName (names : PackageNames) (name : String) : String :=
  (names.support.get? name).getD name

def isSupport (names : PackageNames) (pkg : String) : Bool :=
  names.support.entries.any fun e => e.2 = pkg

def supportImportPath? (names : PackageNames) (pkg : String) : Option String :=
  (names.support.entries.find? fun e => e.2 = pkg).map fun e =>
    if e.1 = "proto" then "github.com/golang/protobuf/proto" else e.1

end PackageNames

/-- The package name that an import path stands for: its last element, if there is one, made an
identifier that is no keyword and starts with no digit. -/
def packageOfImportPath? (path : String) : Option String :=
  let last := Path.lastElement path
  if last = "" then none
  else
    let name := Go.sanitize last
    let name := if Go.isKeyword name then "_" ++ name else name
    some (if Go.startsWithDigit name then "_" ++ name else name)

end GoBindings
