import GoBindings.Go.Decl
import GoBindings.Schema.Object

/-!
# Exported symbols

What a file declares in Go for each of its objects, in enough detail to declare it once more in
the package of a file that passes the object on.
-/

namespace GoBindings

open Schema (Object)

inductive GetterShape where
  /-- A type that names no generated type. -/
  | plain (type : Go.TypeExpr)
  /-- A message or enum, by a pointer or not, in a slice or not. -/
  | named (target : Object) (pointer repeated : Bool)
  /-- A map whose values are messages or enums. -/
  | map (key : Go.TypeExpr) (target : Object) (pointer : Bool)
  deriving DecidableEq, Repr, Inhabited

structure GetterSymbol where
  name : String
  shape : GetterShape
  deriving DecidableEq, Repr, Inhabited

structure MessageSymbol where
  name : String
  hasExtensions : Bool
  isMessageSet : Bool
  hasOneof : Bool
  getters : List GetterSymbol
  deriving DecidableEq, Repr, Inhabited

inductive Symbol where
  | message (m : MessageSymbol)
  | enum (name : String) (proto3 : Bool)
  /-- A constant or variable; an enum constant is converted to the type of its enum. -/
  | value (sort : Go.ValueSort) (name : String) (cast : Option String)
  deriving DecidableEq, Repr, Inhabited

abbrev Exports := List (Object × Symbol)

def Exports.of (exports : Exports) (object : Object) : List Symbol :=
  (exports.filter fun e => e.1 = object).map (·.2)

end GoBindings
