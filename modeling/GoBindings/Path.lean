import GoBindings.Text.Pieces

/-!
# Slash-separated paths
-/

namespace GoBindings.Path

def lastElement (path : String) : String := String.ofList (Text.afterLast '/' path.toList)

/-- The last element without its final dotted suffix. -/
def baseName (path : String) : String :=
  let name := Text.afterLast '/' path.toList
  match Text.cutLast? '.' name with
  | some (stem, _) => String.ofList stem
  | none => String.ofList name

/-- The path without its last element: `/` for an element of the root, `.` for one without a
directory. -/
def dirName (path : String) : String :=
  match Text.cutLast? '/' path.toList with
  | none => "."
  | some ([], _) => "/"
  | some (dir, _) => String.ofList dir

end GoBindings.Path
