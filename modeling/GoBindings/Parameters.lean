import GoBindings.Text.Dict
import GoBindings.Text.Pieces

/-!
# Parameters

The parameter text is a list of pieces `key=value` between commas. A piece without `=` is a key
with an empty value, empty pieces count for nothing, and the last value of a key holds.
-/

namespace GoBindings

structure Parameters where
  raw : Dict String := {}
  /-- Text put before import paths that are not of the standard library. -/
  importPrefix : String := ""
  importPath : String := ""
  /-- Import paths by the name of the schema file, from the keys that start with `M`. -/
  importMap : Dict String := {}
  /-- No list enables no plugin, the empty list enables all. -/
  plugins : Option (List String) := none
  deriving DecidableEq, Repr, Inhabited

namespace Parameters

def keyValue (piece : List Char) : String × String :=
  match Text.cutFirst? '=' piece with
  | some (key, value) => (String.ofList key, String.ofList value)
  | none => (String.ofList piece, "")

/-- The names between plus signs; an empty text names none. -/
def pluginList (value : String) : List String :=
  if value = "" then [] else (Text.splitOn '+' value.toList).map String.ofList

def insert (p : Parameters) (key value : String) : Parameters :=
  let p := { p with raw := p.raw.insert key value }
  if key = "import_prefix" then { p with importPrefix := value }
  else if key = "import_path" then { p with importPath := value }
  else if key = "plugins" then { p with plugins := some (pluginList value) }
  else match key.toList with
    | 'M' :: file => { p with importMap := p.importMap.insert (String.ofList file) value }
    | _ => p

def ofPieces (pieces : List (List Char)) : Parameters :=
  (pieces.filter (!·.isEmpty)).foldl
    (fun p piece => p.insert (keyValue piece).1 (keyValue piece).2) {}

def parse (parameter : String) : Parameters := ofPieces (Text.splitOn ',' parameter.toList)

def pluginEnabled (p : Parameters) (name : String) : Bool :=
  match p.plugins with
  | none => false
  | some [] => true
  | some names => names.contains name

end Parameters

end GoBindings
