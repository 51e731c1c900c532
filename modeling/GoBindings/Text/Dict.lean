/-!
# Dictionaries

Entries stand in ascending order of their keys and no key occurs twice, so that two dictionaries
with the same entries are equal.
-/

namespace GoBindings

structure Dict (α : Type) where
  entries : List (String × α) := []
  deriving DecidableEq, Repr

namespace Dict

variable {α : Type}

instance : Inhabited (Dict α) := ⟨{}⟩

def insertEntry (key : String) (value : α) : List (String × α) → List (String × α)
  | [] => [(key, value)]
  | (k, v) :: rest =>
    if key = k then (key, value) :: rest
    else if key < k then (key, value) :: (k, v) :: rest
    else (k, v) :: insertEntry key value rest

def insert (d : Dict α) (key : String) (value : α) : Dict α :=
  ⟨insertEntry key value d.entries⟩

def get? (d : Dict α) (key : String) : Option α := d.entries.lookup key

def contains (d : Dict α) (key : String) : Bool := (d.get? key).isSome

def size (d : Dict α) : Nat := d.entries.length

def keys (d : Dict α) : List String := d.entries.map Prod.fst

/-- Later entries win. -/
def ofList (entries : List (String × α)) : Dict α :=
  entries.foldl (fun d (key, value) => d.insert key value) {}

end Dict

end GoBindings
