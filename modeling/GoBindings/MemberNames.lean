import GoBindings.Search
import GoBindings.Text.Pieces

/-!
# Member names

The fields and methods of a Go type share one space of names. Names that belong together, such as
a field and its getter, are handed out in a batch and get the same number of underscores.
-/

namespace GoBindings

/-- The methods that every message type has, or may have. -/
def reservedMembers : List String :=
  ["Reset", "String", "ProtoMessage", "Marshal", "Unmarshal", "ExtensionRangeArray",
   "ExtensionMap", "Descriptor"]

structure MemberNames where
  used : List String := reservedMembers
  deriving DecidableEq, Repr, Inhabited

namespace MemberNames

def isUsed (m : MemberNames) (name : String) : Bool := m.used.contains name

def suffixed (k : Nat) (batch : List String) : List String :=
  batch.map (· ++ Text.repeated k '_')

/-- More underscores than any used name has characters. -/
def searchBound (m : MemberNames) : Nat := (m.used.map String.length).foldl max 0 + 1

/-- The least number of underscores that makes every name of the batch unused. -/
def underscores (m : MemberNames) (batch : List String) : Nat :=
  leastFrom (fun k => (suffixed k batch).all fun name => !m.isUsed name) m.searchBound 0

def allocate (m : MemberNames) (batch : List String) : List String × MemberNames :=
  let names := suffixed (m.underscores batch) batch
  (names, ⟨names ++ m.used⟩)

def allocateOne (m : MemberNames) (name : String) : String × MemberNames :=
  let k := m.underscores [name]
  let name := name ++ Text.repeated k '_'
  (name, ⟨name :: m.used⟩)

def allocateField (m : MemberNames) (base : String) : (String × String) × MemberNames :=
  let k := m.underscores [base, "Get" ++ base]
  let name := base ++ Text.repeated k '_'
  let getter := "Get" ++ base ++ Text.repeated k '_'
  ((name, getter), ⟨name :: getter :: m.used⟩)

end MemberNames

end GoBindings
