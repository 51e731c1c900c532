/-!
# Indexes of declarations

Files, messages, enums, extensions and re-exports are numbered, each sort from zero.
-/

namespace GoBindings.Schema

structure FileId where
  index : Nat
  deriving DecidableEq, Repr, Inhabited

structure MessageId where
  index : Nat
  deriving DecidableEq, Repr, Inhabited

structure EnumId where
  index : Nat
  deriving DecidableEq, Repr, Inhabited

structure ExtensionId where
  index : Nat
  deriving DecidableEq, Repr, Inhabited

structure ReexportId where
  index : Nat
  deriving DecidableEq, Repr, Inhabited

inductive Object where
  | message (id : MessageId)
  | enum (id : EnumId)
  | extension (id : ExtensionId)
  | reexport (id : ReexportId)
  deriving DecidableEq, Repr, Inhabited

end GoBindings.Schema
